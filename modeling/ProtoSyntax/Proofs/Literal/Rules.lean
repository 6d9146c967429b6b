import ProtoSyntax.Literal.Grammar
import ProtoSyntax.Proofs.Parsing.Guidance

/-!
# Literals in EBNF

The fields and values of literals, and for each goal the expression that it pursues. All of them are
stated for a grammar that hosts the one of literals under names of its own.
-/

namespace ProtoSyntax.Literal
open Ebnf (opt star alt sepBy)

inductive Nonterminal where
  | value
  | field
deriving DecidableEq, Repr

section

variable {N S : Type} (name : Nonterminal → N)

def fieldName : Phrase N S :=
  [alt [[.word],
    .punct .leftBracket :: sepBy [.word] [alt [[.punct .dot], [.punct .slash]]] ++
      [.punct .rightBracket]]]

def fieldsUpTo (closing : Punct) : Phrase N S := [star [.ref (name .field)], .punct closing]

def message : Phrase N S :=
  [alt [.punct .leftBrace :: fieldsUpTo name .rightBrace,
    .punct .leftAngle :: fieldsUpTo name .rightAngle]]

def values : Phrase N S := sepBy [.ref (name .value)] [.punct .comma]

def itemsUpToBracket : Phrase N S := [opt (values name), .punct .rightBracket]

def stringRun : Phrase N S := [.string, star [.string]]

def scalar : Phrase N S := [.token fun kind _ => kind.isScalar]

def value : Phrase N S :=
  [alt [stringRun, scalar, .punct .leftBracket :: itemsUpToBracket name, message name]]

def valueOrMessage : Phrase N S := [alt [[.punct .colon, .ref (name .value)], message name]]

def separator : Phrase N S := [opt [alt [[.punct .comma], [.punct .semicolon]]]]

def field : Phrase N S := fieldName ++ valueOrMessage name ++ separator

def rule : Nonterminal → Phrase N S
  | .value => value name
  | .field => field name

def phrase : Goal → Phrase N S
  | .moreStrings => [star [.string]]
  | .moreExtension => [star [alt [[.punct .dot], [.punct .slash]], .word]]
  | .fieldName => fieldName
  | .fields closing => fieldsUpTo name closing
  | .fieldRest => valueOrMessage name
  | .message => message name
  | .value => [.ref (name .value)]
  | .items => itemsUpToBracket name
  | .moreItems => [star [.punct .comma, .ref (name .value)]]
  | .separator => separator

end

def Goal.claims : Goal → TokenKind → Prop
  | .moreStrings | .value | .fieldRest => fun k => k = .string
  | .moreExtension => fun k => k = .punct .dot ∨ k = .punct .slash
  | .moreItems => fun k => k = .string ∨ k = .punct .comma
  | .separator => fun k => k = .punct .comma ∨ k = .punct .semicolon
  | .fieldName | .fields _ | .message | .items => fun _ => False

def Goal.IsClosable : Goal → Prop
  | .fields closing => closing = .rightBrace ∨ closing = .rightAngle
  | _ => True

variable {G N S : Type}

theorem closing?_eq_some {k : TokenKind} {c : Punct} : closing? k = some c ↔
    k = .punct .leftBrace ∧ c = .rightBrace ∨ k = .punct .leftAngle ∧ c = .rightAngle := by
  fun_cases closing? k <;> simp_all [eq_comm]

section

variable {goal : Goal → G} {k : TokenKind} {n : List (Symbol G S)}

theorem afterMessageStart?_eq_some : afterMessageStart? goal k = some n ↔
    k = .punct .leftBrace ∧ n = [Literal.goal goal (.fields .rightBrace)] ∨
      k = .punct .leftAngle ∧ n = [Literal.goal goal (.fields .rightAngle)] := by
  simp only [afterMessageStart?, Option.map_eq_some_iff, closing?_eq_some]
  grind

theorem afterNameStart?_eq_some : afterNameStart? goal k = some n ↔
    k = .punct .leftBracket ∧ n = extension goal ∨ k.isWord = true ∧ n = [] := by
  grind [afterNameStart?, TokenKind.isWord]

theorem afterScalarStart?_eq_some : afterScalarStart? goal k = some n ↔
    k = .string ∧ n = [Literal.goal goal .moreStrings] ∨ k.isScalar = true ∧ n = [] := by
  grind [afterScalarStart?, TokenKind.isScalar, TokenKind.isWord]

theorem or_of_disjoint : (afterMessageStart? goal k).or (afterScalarStart? goal k) = some n ↔
    afterMessageStart? goal k = some n ∨ afterScalarStart? goal k = some n := by
  rw [Option.or_eq_some_iff]
  refine or_congr_right (and_iff_right_of_imp fun hs => ?_)
  rw [Option.eq_none_iff_forall_not_mem]
  rintro m hm
  rcases afterMessageStart?_eq_some.1 hm with ⟨rfl, -⟩ | ⟨rfl, -⟩ <;> cases hs

theorem afterValueStart?_eq_some : afterValueStart? goal k = some n ↔
    k = .punct .leftBracket ∧ n = [Literal.goal goal .items] ∨
      afterMessageStart? goal k = some n ∨ afterScalarStart? goal k = some n := by
  rw [afterValueStart?]
  split
  · simp_all [afterMessageStart?, afterScalarStart?, closing?, TokenKind.isScalar, TokenKind.isWord,
      eq_comm]
  · rw [or_of_disjoint]
    simp_all

end

/-- The grammar of literals within another. -/
structure Hosted (rule : N → Phrase N S) (lang : G → Phrase N S) (react : Prediction G S)
    (follow : G → List (Symbol G S) → Prop) (name : Nonterminal → N) (goal : Goal → G) :
    Prop where
  rule_eq : ∀ n, rule (name n) = Literal.rule name n
  lang_eq : ∀ g, lang (goal g) = phrase name g
  react_eq : ∀ g ahead, react (goal g) ahead = Literal.react goal g ahead
  follow_iff : ∀ g k, follow (goal g) k ↔
    Clear rule g.claims (stackPhrase lang k) ∧ g.IsClosable

namespace Hosted

variable {rule : N → Phrase N S} {lang : G → Phrase N S} {react : Prediction G S}
  {follow : G → List (Symbol G S) → Prop} {name : Nonterminal → N} {goal : Goal → G}
  (h : Hosted rule lang react follow name goal)

include h

theorem phrase_goal (g : Goal) :
    Symbol.phrase lang (Literal.goal goal g : Symbol G S) = phrase name g := h.lang_eq g

theorem stackPhrase_goal (g : Goal) :
    stackPhrase lang [(Literal.goal goal g : Symbol G S)] = phrase name g := by
  simp [h.phrase_goal]

theorem fieldName : Predicts rule lang
    (fun t r n => r = .plain ∧ afterNameStart? goal t.kind = some n) fieldName := by
  refine ((Predicts.token [] rfl).or ((Predicts.token (extension goal) ?_).or .none)).congr ?_
  · simp only [extension, stackPhrase_cons, h.phrase_goal]
    rfl
  · intro t r n
    simp only [afterNameStart?_eq_some, decide_eq_true_eq]
    tauto

theorem message : Predicts rule lang
    (fun t r n => r = .plain ∧ afterMessageStart? goal t.kind = some n) (message name) := by
  refine ((Predicts.token _ (h.stackPhrase_goal (.fields .rightBrace))).or
    ((Predicts.token _ (h.stackPhrase_goal (.fields .rightAngle))).or .none)).congr ?_
  intro t r n
  simp only [afterMessageStart?_eq_some, decide_eq_true_eq]
  tauto

theorem leaf {choices : List (Phrase N S)} {f : Start G S}
    (hf : Predicts rule lang f [alt choices]) : Predicts rule lang
    (fun t r n => (r = .plain ∧ afterScalarStart? goal t.kind = some n) ∨ f t r n)
    [alt (stringRun :: scalar :: choices)] := by
  refine ((Predicts.token _ (h.stackPhrase_goal .moreStrings)).or
    ((Predicts.token [] rfl).or hf)).congr ?_
  intro t r n
  simp only [afterScalarStart?_eq_some, decide_eq_true_eq]
  tauto

theorem value : Predicts rule lang
    (fun t r n => r = .plain ∧ afterValueStart? goal t.kind = some n) (value name) := by
  refine (h.leaf ((Predicts.token _ (h.stackPhrase_goal .items)).or
    (h.message.or .none))).congr ?_
  intro t r n
  simp only [afterValueStart?_eq_some, decide_eq_true_eq]
  tauto

theorem valueOrMessage : Predicts rule lang
    (fun t r n => r = .plain ∧ (t.kind = .punct .colon ∧ n = [Literal.goal goal .value] ∨
      afterMessageStart? goal t.kind = some n)) (valueOrMessage name) := by
  refine ((Predicts.token _ (h.stackPhrase_goal .value)).or (h.message.or .none)).congr ?_
  intro t r n
  simp only [decide_eq_true_eq]
  tauto

theorem followed_goal {g : Goal} {k : List (Symbol G S)} :
    Followed follow (Literal.goal goal g :: k) ↔
      (Clear rule g.claims (stackPhrase lang k) ∧ g.IsClosable) ∧ Followed follow k :=
  and_congr_left' (h.follow_iff g k)

theorem clear_goal {guarded : TokenKind → Prop} {g : Goal} {k : List (Symbol G S)} :
    Clear rule guarded (stackPhrase lang (Literal.goal goal g :: k)) ↔
      Clear rule guarded (phrase name g ++ stackPhrase lang k) := by
  rw [stackPhrase_cons, h.phrase_goal]

theorem followed_name {t : TokenKind} {n k : List (Symbol G S)}
    (hn : afterNameStart? goal t = some n) (hk : Followed follow k) :
    Followed follow (n ++ k) := by
  rcases afterNameStart?_eq_some.1 hn with ⟨-, rfl⟩ | ⟨-, rfl⟩
  · refine h.followed_goal.2 ⟨⟨.token ?_, trivial⟩, hk⟩
    simp +contextual [Goal.claims, Terminal.accepts]
  · exact hk

theorem followed_message {t : TokenKind} {n k : List (Symbol G S)}
    (hn : afterMessageStart? goal t = some n) (hk : Followed follow k) :
    Followed follow (n ++ k) := by
  rcases afterMessageStart?_eq_some.1 hn with ⟨-, rfl⟩ | ⟨-, rfl⟩
  · exact h.followed_goal.2 ⟨⟨.unguarded, .inl rfl⟩, hk⟩
  · exact h.followed_goal.2 ⟨⟨.unguarded, .inr rfl⟩, hk⟩

theorem followed_scalar {t : TokenKind} {n k : List (Symbol G S)}
    (hn : afterScalarStart? goal t = some n) (hc : Clear rule (· = .string) (stackPhrase lang k))
    (hk : Followed follow k) : Followed follow (n ++ k) := by
  rcases afterScalarStart?_eq_some.1 hn with ⟨-, rfl⟩ | ⟨-, rfl⟩
  · exact h.followed_goal.2 ⟨⟨hc, trivial⟩, hk⟩
  · exact hk

theorem followed_value {t : TokenKind} {n k : List (Symbol G S)}
    (hn : afterValueStart? goal t = some n) (hc : Clear rule (· = .string) (stackPhrase lang k))
    (hk : Followed follow k) : Followed follow (n ++ k) := by
  rcases afterValueStart?_eq_some.1 hn with ⟨-, rfl⟩ | hn | hn
  · exact h.followed_goal.2 ⟨⟨.unguarded, trivial⟩, hk⟩
  · exact h.followed_message hn hk
  · exact h.followed_scalar hn hc hk

omit h in
theorem moreExtension : Predicts rule lang
    (fun t r n => r = .plain ∧ (t.kind = .punct .dot ∨ t.kind = .punct .slash) ∧
      n = [word "extension name"])
    (alt [[.punct .dot], [.punct .slash]] :: [.word]) := by
  refine (((Predicts.token [] rfl).or ((Predicts.token [] rfl).or .none)).append
    [word "extension name"] rfl).congr ?_
  intro t r n
  simp only [decide_eq_true_eq]
  grind

theorem fields (closing : Punct) : Predicts rule lang
    (fun t r n => r = .plain ∧ (t.kind = .punct closing ∧ n = [] ∨
      ∃ m, afterNameStart? goal t.kind = some m ∧ n = m ++ fieldTail goal closing))
    (fieldsUpTo name closing) := by
  have hrest : stackPhrase lang [Literal.goal goal .fieldRest, Literal.goal goal .separator] =
      Literal.valueOrMessage name ++ separator := by
    simp only [stackPhrase_cons, stackPhrase_nil, h.phrase_goal]
    rfl
  have hfield := Predicts.ref (h.rule_eq .field) (h.fieldName.append _ hrest)
  refine (hfield.loop (g := goal (.fields closing)) (.token [] rfl) (h.lang_eq _)).congr ?_
  intro t r n
  simp only [fieldTail, Literal.goal, decide_eq_true_eq]
  grind

theorem items : Predicts rule lang
    (fun t r n => r = .plain ∧ (t.kind = .punct .rightBracket ∧ n = [] ∨
      ∃ m, afterValueStart? goal t.kind = some m ∧
        n = m ++ [Literal.goal goal .moreItems, punct .rightBracket]))
    (itemsUpToBracket name) := by
  have hrest : stackPhrase lang [Literal.goal goal .moreItems, punct .rightBracket] =
      [star [.punct .comma, .ref (name .value)], .punct .rightBracket] := by
    simp only [stackPhrase_cons, stackPhrase_nil, h.phrase_goal]
    rfl
  have hvalues := (Predicts.ref (h.rule_eq .value) h.value).append _ hrest
  refine (Predicts.opt (a := values name) hvalues (.token [] rfl)).congr ?_
  intro t r n
  simp only [decide_eq_true_eq]
  grind

omit h in
theorem separator : Offers rule lang
    (fun t r n => r = .plain ∧ (t.kind = .punct .comma ∨ t.kind = .punct .semicolon) ∧ n = [])
    separator := by
  refine (Offers.opt ((Predicts.token [] rfl).or ((Predicts.token [] rfl).or .none))).congr ?_
  intro t r n
  simp only [decide_eq_true_eq]
  tauto

theorem followed_fieldTail {closing : Punct} {k : List (Symbol G S)}
    (hk : follow (goal (.fields closing)) k) (hks : Followed follow k) :
    Followed follow (fieldTail goal closing ++ k) := by
  have hc : closing = .rightBrace ∨ closing = .rightAngle := ((h.follow_iff _ _).1 hk).2
  have hfields {guarded : TokenKind → Prop} (hw : ∀ t, guarded t → t.isWord = false)
      (hp : ∀ p ∈ [Punct.leftBracket, .rightBrace, .rightAngle], ¬ guarded (.punct p)) :
      Clear rule guarded (stackPhrase lang (Literal.goal goal (.fields closing) :: k)) := by
    refine h.clear_goal.2 ((h.fields closing).clear ?_)
    rintro t r n ⟨-, ⟨ht, -⟩ | ⟨m, hm, -⟩⟩ hg
    · rcases hc with rfl | rfl <;> exact hp _ (by simp) (ht ▸ hg)
    · rcases afterNameStart?_eq_some.1 hm with ⟨ht, -⟩ | ⟨ht, -⟩
      · exact hp _ (by simp) (ht ▸ hg)
      · simp [hw _ hg] at ht
  have hseparator : Offers rule lang _ Literal.separator := separator
  refine h.followed_goal.2 ⟨⟨h.clear_goal.2 (hseparator.clear ?_ ?_), trivial⟩,
    h.followed_goal.2 ⟨⟨?_, trivial⟩, hk, hks⟩⟩
  · rintro t r n ⟨-, ht | ht, -⟩ <;> simp [Goal.claims, ht]
  · exact hfields (by rintro _ rfl; rfl) (by simp [Goal.claims])
  · exact hfields (by rintro _ (rfl | rfl) <;> rfl) (by simp [Goal.claims])

theorem guided_fields {blind : G → List Piece → Prop} (closing : Punct) :
    Guided rule lang react follow blind (goal (.fields closing)) := by
  have ht (t : Token) (ts : List Token) : react (goal (.fields closing)) (t :: ts) =
      if t.kind = .punct closing then .take .plain []
      else .takeOrRefuse .plain "field name"
        ((afterNameStart? goal t.kind).map (· ++ fieldTail goal closing)) := h.react_eq _ _
  refine .required (h.lang_eq _) (h.fields closing) ?_ ?_ ?_ ?_
  · rintro (_ | ⟨t, ts⟩)
    · simp [h.react_eq, Literal.react]
    · rw [ht]
      split <;> simp
  · intro t ts r n
    rw [ht]
    split <;> simp_all
  · rintro t ts r n k hk ⟨rfl, ⟨hc, rfl⟩ | ⟨m, hm, rfl⟩⟩
    · rw [ht, if_pos hc]
    · have hc : t.kind ≠ .punct closing := by
        rcases afterNameStart?_eq_some.1 hm with ⟨he, -⟩ | ⟨he, -⟩
        · rcases ((h.follow_iff _ _).1 hk).2 with rfl | rfl <;> simp [he]
        · rintro he'
          simp [he', TokenKind.isWord] at he
      rw [ht, if_neg hc, hm]
      rfl
  · rintro t r n k ⟨-, ⟨-, rfl⟩ | ⟨m, hm, rfl⟩⟩ hk hks
    · exact hks
    · exact List.append_assoc _ _ k ▸ h.followed_name hm (h.followed_fieldTail hk hks)

theorem guided_fieldRest {blind : G → List Piece → Prop} :
    Guided rule lang react follow blind (goal .fieldRest) := by
  have ht (t : Token) (ts : List Token) : react (goal .fieldRest) (t :: ts) =
      if t.kind = .punct .colon then .take .plain [Literal.goal goal .value]
      else .takeOrRefuse .plain "':' or '\x7b'" (afterMessageStart? goal t.kind) := by
    simp [h.react_eq, Literal.react]
  refine .required (h.lang_eq _) h.valueOrMessage ?_ ?_ ?_ ?_
  · intro ts
    simp only [h.react_eq, Literal.react]
    split <;> simp
  · intro t ts r n
    rw [ht]
    split <;> simp_all
  · rintro t ts r n k - ⟨rfl, ⟨hc, rfl⟩ | hm⟩
    · rw [ht, if_pos hc]
    · have hc : t.kind ≠ .punct .colon := by
        rcases afterMessageStart?_eq_some.1 hm with ⟨he, -⟩ | ⟨he, -⟩ <;> simp [he]
      rw [ht, if_neg hc, hm]
      rfl
  · rintro t r n k ⟨-, ⟨-, rfl⟩ | hn⟩ hk hks
    · exact h.followed_goal.2 ⟨⟨((h.follow_iff _ _).1 hk).1, trivial⟩, hks⟩
    · exact h.followed_message hn hks

theorem guided_items {blind : G → List Piece → Prop} :
    Guided rule lang react follow blind (goal .items) := by
  have ht (t : Token) (ts : List Token) : react (goal .items) (t :: ts) =
      if t.kind = .punct .rightBracket then .take .plain []
      else .takeOrRefuse .plain "value" ((afterValueStart? goal t.kind).map
        (· ++ [Literal.goal goal .moreItems, punct .rightBracket])) := by
    simp [h.react_eq, Literal.react]
  refine .required (h.lang_eq _) h.items ?_ ?_ ?_ ?_
  · intro ts
    simp only [h.react_eq, Literal.react]
    split <;> simp
  · intro t ts r n
    rw [ht]
    split <;> simp_all
  · rintro t ts r n k - ⟨rfl, ⟨hc, rfl⟩ | ⟨m, hm, rfl⟩⟩
    · rw [ht, if_pos hc]
    · have hc : t.kind ≠ .punct .rightBracket := by
        rintro he
        simp [he, afterValueStart?_eq_some, afterMessageStart?_eq_some, afterScalarStart?_eq_some,
          TokenKind.isScalar, TokenKind.isWord] at hm
      rw [ht, if_neg hc, hm]
      rfl
  · rintro t r n k ⟨-, ⟨-, rfl⟩ | ⟨m, hm, rfl⟩⟩ hk hks
    · exact hks
    · refine List.append_assoc _ _ k ▸ h.followed_value hm (h.clear_goal.2 ?_) ?_
      · exact .star (.token (by simp +contextual [Terminal.accepts]))
          (.token (by simp +contextual))
      · refine h.followed_goal.2 ⟨⟨.token ?_, trivial⟩, hks⟩
        simp +contextual [Goal.claims, Terminal.accepts]

theorem guided {blind : G → List Piece → Prop} (g : Goal) :
    Guided rule lang react follow blind (goal g) := by
  have hr := h.react_eq
  have hf := h.follow_iff
  have hc (g : Goal) (k : List (Symbol G S)) (hk : follow (goal g) k) := ((hf g k).1 hk).1
  cases g with
  | moreStrings =>
    exact .optionalKind (h.lang_eq _) (.starKind (g := goal .moreStrings) [] rfl (h.lang_eq _))
      (hr _) (hc _) rfl fun k hk hks => ⟨hk, hks⟩
  | moreExtension =>
    refine .optional (h.lang_eq _) (.star (g := goal .moreExtension) moreExtension (h.lang_eq _))
      (hr _) rfl ?_ (hc _) ?_ ?_
    · intro t ts r n
      simp only [kindAt_cons_zero, Option.some.injEq, Option.ite_none_right_eq_some, Literal.goal]
      grind
    · rintro t r n ⟨m, ⟨-, ht, -⟩, -⟩
      exact ht
    · rintro t r n k ⟨m, ⟨-, -, rfl⟩, rfl⟩ hk hks
      exact ⟨hk, hks⟩
  | fieldName =>
    refine .required (h.lang_eq _) h.fieldName ?_ ?_ ?_ ?_
    · simp [hr, Literal.react]
    · simp [hr, Literal.react]
    · simp +contextual [hr, Literal.react]
    · rintro t r n k ⟨-, hn⟩ - hk
      exact h.followed_name hn hk
  | fields closing => exact h.guided_fields closing
  | fieldRest => exact h.guided_fieldRest
  | message =>
    refine .required (h.lang_eq _) h.message ?_ ?_ ?_ ?_
    · simp [hr, Literal.react]
    · simp [hr, Literal.react]
    · simp +contextual [hr, Literal.react]
    · rintro t r n k ⟨-, hn⟩ - hk
      exact h.followed_message hn hk
  | value =>
    refine .required (h.lang_eq _) (.ref (h.rule_eq _) h.value) ?_ ?_ ?_ ?_
    · simp [hr, Literal.react]
    · simp [hr, Literal.react]
    · simp +contextual [hr, Literal.react]
    · rintro t r n k ⟨-, hn⟩ hk hks
      exact h.followed_value hn ((hf _ _).1 hk).1 hks
  | items => exact h.guided_items
  | moreItems =>
    refine .optionalKind (h.lang_eq _) (.starKind (g := goal .moreItems) [Literal.goal goal .value]
      (h.stackPhrase_goal _) (h.lang_eq _)) (hr _) (hc _) (.inr rfl) fun k hk hks => ?_
    refine h.followed_goal.2 ⟨⟨h.clear_goal.2 (.star ?_ (.token ?_)), trivial⟩, hk, hks⟩
    · exact ((hf _ _).1 hk).1.mono fun _ => .inl
    · simp +contextual [Goal.claims]
  | separator =>
    refine .optional (h.lang_eq _) separator (hr _) rfl ?_ (hc _) ?_ ?_
    · intro t ts r n
      simp [eq_comm]
    · rintro t r n ⟨-, ht, -⟩
      exact ht
    · rintro t r n k ⟨-, -, rfl⟩ - hks
      exact hks

end Hosted

end ProtoSyntax.Literal
