import ProtoSyntax.Proofs.Schema.Rules

/-!
# The goals of schema files
-/

namespace ProtoSyntax.Schema
open Ebnf (opt star alt)
open Piece (flatten)

theorem hosted : Literal.Hosted rule phrase react follow .literal .literal :=
  ⟨fun _ => rfl, fun _ => rfl, fun _ _ => rfl, fun _ _ => Iff.rfl⟩

abbrev Starts (f : Start Goal Shape) (a : Expr) : Prop := Predicts rule phrase f a

theorem dotted_starts (what : String) : Starts
    (fun t r n => r = .plain ∧ t.kind.isWord = true ∧ n = [.goal (.moreName what)]) dotted := by
  have h : Starts _ dotted := .token [.goal (.moreName what)] rfl
  refine h.congr ?_
  intro t r n
  tauto

theorem rooted_starts (what : String) : Starts
    (fun t r n => r = .plain ∧ (t.kind = .punct .dot ∧ n = [.goal (.name what)] ∨
      t.kind.isWord = true ∧ n = [.goal (.moreName what)])) rooted := by
  have h : Starts _ rooted :=
    .opt (a := [.punct .dot]) (.token [.goal (.name what)] rfl) (dotted_starts what)
  refine h.congr ?_
  intro t r n
  simp only [decide_eq_true_eq]
  tauto

theorem afterTypeStart?_eq_some {k : TokenKind} {n : Symbols} : afterTypeStart? k = some n ↔
    isPrimitive k = true ∧ n = [] ∨ k = .punct .dot ∧ n = [.goal (.name "type name")] ∨
      (k.isWord = true ∧ isPrimitive k = false) ∧ n = [.goal (.moreName "type name")] := by
  cases k with
  | punct p => cases p <;> simp [afterTypeStart?, isPrimitive, TokenKind.isWord, eq_comm]
  | _ => simp [afterTypeStart?, isPrimitive, TokenKind.isWord, eq_comm]

theorem type_starts (excluded : List Keyword) : Starts
    (fun t r n => r = .plain ∧ afterTypeStart? t.kind = some n ∧
      t.kind ∉ excluded.map .keyword) (typeExcept excluded) := by
  have h : Starts _ (typeExcept excluded) :=
    .or (.token [] rfl) (.or (.token [.goal (.name "type name")] rfl)
      (.or (.token [.goal (.moreName "type name")] rfl) .none))
  refine h.congr ?_
  intro t r n
  simp only [afterTypeStart?_eq_some]
  cases t.kind <;> simp [isPrimitive, TokenKind.isWord] <;> tauto

theorem afterOptionNameStart?_eq_some {k : TokenKind} {n : Symbols} :
    afterOptionNameStart? k = some n ↔
      k = .punct .leftParen ∧
        n = [.goal (.rootedName "option name"), Literal.punct .rightParen, .goal .moreOptionName] ∨
      k.isWord = true ∧ n = [.goal (.moreName "option name")] := by
  grind [afterOptionNameStart?, TokenKind.isWord]

theorem optionName_starts (role : Role Shape) : Starts
    (fun t r n => r = role ∧ afterOptionNameStart? t.kind = some n)
    (role.marks.map .mark ++ optionName) := by
  have h : Starts _ optionName := .or (dotted_starts "option name") (.or (.token
    [.goal (.rootedName "option name"), Literal.punct .rightParen, .goal .moreOptionName] rfl) .none)
  refine (h.withRole (by grind) role).congr ?_
  intro t r n
  simp only [afterOptionNameStart?_eq_some, decide_eq_true_eq]
  tauto

theorem optionValue_starts : Starts
    (fun t r n => r = .begins ∧ ∃ m, n = m ++ [.complete .optionValue] ∧
      (Literal.afterMessageStart? .literal t.kind = some m ∨
        Literal.afterScalarStart? .literal t.kind = some m)) optionValue := by
  have h := (hosted.leaf (hosted.message.or .none)).append [.complete .optionValue] rfl
  refine (h.withRole (by grind) .begins).congr ?_
  intro t r n
  grind

theorem ending_starts (shape : Shape) : Starts
    (fun t r n => t.kind = .punct .semicolon ∧ r = .plain ∧ n = [.complete shape] ∨
      t.kind = .punct .leftBracket ∧ r = .opens shape ∧
        n = bracketOption ++ [Literal.punct .rightBracket, semicolonCloses]) (ending shape) := by
  have h : Starts _ (ending shape) := .or (.token [.complete shape] rfl) (.or (.role (.opens shape)
    (bracketOption ++ [Literal.punct .rightBracket, semicolonCloses]) rfl) .none)
  refine h.congr ?_
  intro t r n
  simp only [decide_eq_true_eq]
  tauto

theorem labelled_starts : Starts
    (fun t r n => r = .plain ∧ (t.kind = .keyword .repeated ∨ t.kind = .keyword .optional) ∧
      n = .goal .typeName :: fieldTail) labelledField := by
  have hlabel : Starts _ [alt [[.keyword .repeated], [.keyword .optional]]] :=
    .or (.token [] rfl) (.or (.token [] rfl) .none)
  have h : Starts _ labelledField := hlabel.append (.goal .typeName :: fieldTail) rfl
  refine h.congr ?_
  intro t r n
  simp only [decide_eq_true_eq]
  grind

/-- The ways to begin a field, of which two agree on a type that begins with the word for maps. -/
def FieldStart (excluded : List Keyword) : Start Goal Shape := fun t r n =>
  r = .begins ∧
    ((t.kind = .keyword .repeated ∨ t.kind = .keyword .optional) ∧
        n = .goal .typeName :: fieldTail ∨
      t.kind = .keyword .map ∧ n = mapType ++ fieldTail ∨
      ∃ m, (afterTypeStart? t.kind = some m ∧ t.kind ∉ excluded.map .keyword) ∧
        n = m ++ fieldTail)

theorem field_starts (excluded : List Keyword) :
    Starts (FieldStart excluded) (field excluded) := by
  have h : Starts _ [alt [labelledField, mapField, typeExcept excluded ++ numberedField]] :=
    .or labelled_starts (.or (.token (mapType ++ fieldTail) rfl)
      (.or ((type_starts excluded).append fieldTail rfl) .none))
  refine (h.withRole (by grind) .begins).congr ?_
  intro t r n
  simp only [FieldStart, decide_eq_true_eq]
  grind

/-! ### What follows -/

section

variable {guarded : TokenKind → Prop} {k : Symbols}

theorem followed_goal {g : Goal} :
    Followed follow (.goal g :: k) ↔ follow g k ∧ Followed follow k := .rfl

theorem clear_commas {a e : Expr} (hc : ¬ guarded (.punct .comma)) (he : Clear rule guarded e) :
    Clear rule guarded (star (.punct .comma :: a) :: e) := by
  refine .star he (.token fun _ _ ht => ?_)
  rw [of_decide_eq_true ht]
  exact hc

theorem followed_optionStatement (hk : Followed follow k) :
    Followed follow (optionStatement ++ k) := by
  simp [optionStatement, optionTail, followed_goal, follow, claims, semicolonCloses,
    Terminal.avoids_iff, Terminal.accepts, hk]

theorem followed_bracketOption (hc : Clear rule (claims .moreOptions) (stackPhrase phrase k))
    (hk : Followed follow k) : Followed follow (bracketOption ++ k) := by
  have hstring : Clear rule (· = .string) (Symbol.phrase phrase (.goal .moreOptions) ++
      stackPhrase phrase k) := clear_commas (by simp) (hc.mono fun _ => .inl)
  refine ⟨⟨clear_token ?_, trivial⟩, ⟨clear_finish hstring, trivial⟩, ⟨hc, trivial⟩, hk⟩
  simp [claims, Terminal.avoids_iff, Terminal.accepts]

theorem followed_block {what : String} {shape : Shape} {g : Goal} (hg : ∀ k, follow g k)
    (hk : Followed follow k) : Followed follow (block what shape g ++ k) := ⟨hg k, hk⟩

theorem followed_reservedStatement (hk : Followed follow k) :
    Followed follow (reservedStatement ++ k) := by
  simp [reservedStatement, followed_goal, follow, claims, Literal.punct, Terminal.avoids_iff,
    Terminal.accepts, hk]

theorem followed_fieldTail (hk : Followed follow k) : Followed follow (fieldTail ++ k) := by
  simp [fieldTail, followed_goal, follow, claims, Literal.word, Literal.integer, Literal.punct, hk]

theorem followed_enumValueTail (hk : Followed follow k) :
    Followed follow (enumValueTail ++ k) := by
  simp [enumValueTail, followed_goal, follow, claims, Literal.integer, Literal.punct, hk]

theorem followed_rpcDeclaration (hk : Followed follow k) :
    Followed follow (rpcDeclaration ++ .goal .serviceBody :: k) := by
  simp [rpcDeclaration, parenthesisedType, followed_goal, follow, claims, Literal.word,
    Literal.keyword, Literal.punct, hk]

theorem followed_type {kind : TokenKind} {n : Symbols} (hn : afterTypeStart? kind = some n)
    (hc : Clear rule (· = .punct .dot) (stackPhrase phrase k)) (hk : Followed follow k) :
    Followed follow (n ++ k) := by
  rcases afterTypeStart?_eq_some.1 hn with ⟨-, rfl⟩ | ⟨-, rfl⟩ | ⟨-, rfl⟩
  · exact hk
  · exact ⟨⟨hc, trivial⟩, hk⟩
  · exact ⟨⟨hc, trivial⟩, hk⟩

theorem followed_mapType (hk : Followed follow k) : Followed follow (mapType ++ k) := by
  simp [mapType, followed_goal, follow, claims, Literal.punct, Terminal.avoids_iff,
    Terminal.accepts, hk]

theorem followed_field {excluded : List Keyword} {t : Token} {r : Role Shape} {n : Symbols}
    (hn : FieldStart excluded t r n) (hk : Followed follow k) : Followed follow (n ++ k) := by
  have hword : Clear rule (· = .punct .dot) (stackPhrase phrase (fieldTail ++ k)) := by
    simp [fieldTail, Literal.word, Terminal.avoids_iff, Terminal.accepts, TokenKind.isWord]
  obtain ⟨-, ⟨-, rfl⟩ | ⟨-, rfl⟩ | ⟨m, ⟨hm, -⟩, rfl⟩⟩ := hn
  · exact ⟨⟨hword, trivial⟩, followed_fieldTail hk⟩
  · simpa using followed_mapType (followed_fieldTail hk)
  · simpa using followed_type hm hword (followed_fieldTail hk)

end

/-! ### Bodies -/

def bodyKinds : List TokenKind := [.punct .rightBrace, .punct .semicolon, .keyword .option]

theorem member_starts {members : List Expr} {f : Start Goal Shape} (hm : Starts f [alt members]) :
    Starts (fun t r n => t.kind = .punct .semicolon ∧ r = .plain ∧ n = [] ∨
        t.kind = .keyword .option ∧ r = .begins ∧ n = optionStatement ∨ f t r n)
      [alt ([semicolon] :: option :: members)] := by
  have h : Starts _ [alt ([semicolon] :: option :: members)] :=
    .or (.token [] rfl) (.or (.role .begins optionStatement rfl) hm)
  refine h.congr ?_
  intro t r n
  simp only [decide_eq_true_eq]

theorem body_starts {g : Goal} {members : List Expr} {f : Start Goal Shape}
    (hg : phrase g = body members) (hm : Starts f [alt members]) : Starts
    (fun t r n => t.kind = .punct .rightBrace ∧ r = .closes ∧ n = [] ∨
      ∃ m, (t.kind = .punct .semicolon ∧ r = .plain ∧ m = [] ∨
        t.kind = .keyword .option ∧ r = .begins ∧ m = optionStatement ∨ f t r m) ∧
          n = m ++ [.goal g]) (body members) := by
  refine ((member_starts hm).loop (.role .closes [] rfl) hg).congr ?_
  intro t r n
  simp only [decide_eq_true_eq]

theorem reactInBody_eq_take {g : Goal} {what : String} {member? : Option Symbols}
    {kind : TokenKind} {r : Role Shape} {n : Symbols} :
    reactInBody g what member? (some kind) = .take r n ↔
      kind = .punct .rightBrace ∧ r = .closes ∧ n = [] ∨
      kind = .punct .semicolon ∧ r = .plain ∧ n = [.goal g] ∨
      kind = .keyword .option ∧ r = .begins ∧ n = optionStatement ++ [.goal g] ∨
      kind ∉ bodyKinds ∧ r = .begins ∧ ∃ m, member? = some m ∧ n = m ++ [.goal g] := by
  unfold reactInBody
  split <;> simp_all [bodyKinds] <;> grind

theorem guided_body {g : Goal} {what : String} {members : List Expr} {f : Start Goal Shape}
    {member? : List Token → Option Symbols}
    (hg : phrase g = body members) (hk : ∀ k, follow g k) (hm : Starts f [alt members])
    (hr : ∀ ts, react g ts = reactInBody g what (member? ts) (kindAt ts 0))
    (hn : member? [] = none)
    (hf : ∀ t r n, f t r n → r = .begins ∧ t.kind ∉ bodyKinds)
    (hs : ∀ t ts n, t.kind ∉ bodyKinds → member? (t :: ts) = some n → f t .begins n)
    (hc : ∀ p n k ss, f p.token .begins n → Derives rule (stackPhrase phrase (n ++ k)) ss →
      ¬ blind g (p :: Signal.pieces ss) →
      member? (flatten (p :: Signal.pieces ss)) = some n)
    (hfollow : ∀ t r n k, f t r n → Followed follow (.goal g :: k) →
      Followed follow (n ++ .goal g :: k)) :
    Guided rule phrase react follow blind g := by
  refine .of_predicts hg (body_starts hg hm) ?_ ?_ ?_
  · rintro (_ | ⟨t, ts⟩)
    · rw [hr, hn]
      simp [reactInBody]
    · rw [hr, kindAt_cons_zero]
      unfold reactInBody
      split <;> simp
  · intro t ts r n ht
    rw [hr, kindAt_cons_zero, reactInBody_eq_take] at ht
    rcases ht with h | ⟨hk, rfl, rfl⟩ | ⟨hk, rfl, rfl⟩ | ⟨hk, rfl, m, hm, rfl⟩
    · exact .inl h
    · exact .inr ⟨[], .inl ⟨hk, rfl, rfl⟩, rfl⟩
    · exact .inr ⟨_, .inr (.inl ⟨hk, rfl, rfl⟩), rfl⟩
    · exact .inr ⟨m, .inr (.inr (hs t ts m hk hm)), rfl⟩
  · intro p r n k ss hp _ hks hd hb
    refine ⟨n, ?_, hd, ?_⟩
    · rw [hr, Piece.flatten_cons, kindAt_cons_zero, reactInBody_eq_take]
      rcases hp with h | ⟨m, ⟨hk, rfl, rfl⟩ | ⟨hk, rfl, rfl⟩ | hm, rfl⟩
      · exact .inl h
      · exact .inr (.inl ⟨hk, rfl, rfl⟩)
      · exact .inr (.inr (.inl ⟨hk, rfl, rfl⟩))
      · obtain ⟨rfl, hk⟩ := hf _ _ _ hm
        refine .inr (.inr (.inr ⟨hk, rfl, m, ?_, rfl⟩))
        rw [List.append_assoc] at hd
        exact hc p m _ ss hm hd hb
    · rcases hp with ⟨-, -, rfl⟩ | ⟨m, hm, rfl⟩
      · exact hks
      · rw [List.append_assoc]
        have hks' : Followed follow (.goal g :: k) := ⟨hk k, hks⟩
        rcases hm with ⟨-, -, rfl⟩ | ⟨-, -, rfl⟩ | hm
        · exact hks'
        · exact followed_optionStatement hks'
        · exact hfollow _ _ _ _ hm hks'

theorem reserved_starts : Starts
    (fun t r n => r = .begins ∧ t.kind = .keyword .reserved ∧ n = reservedStatement) reserved := by
  have h : Starts _ reserved := .role .begins reservedStatement rfl
  refine h.congr ?_
  intro t r n
  simp only [decide_eq_true_eq]
  tauto

theorem block_starts (what : String) {shape : Shape} {keyword : Keyword} {members : List Expr}
    {g : Goal} (hg : phrase g = body members) : Starts
    (fun t r n => r = .begins ∧ t.kind = .keyword keyword ∧ n = block what shape g)
    (blockOf shape keyword members) := by
  have hblock : stackPhrase phrase (block what shape g) =
      .word :: .mark (.opens shape) :: .punct .leftBrace :: body members := by
    rw [← hg, block]
    simp only [stackPhrase_cons, stackPhrase_nil, List.append_nil]
    rfl
  have h : Starts _ (blockOf shape keyword members) := .role .begins _ hblock
  refine h.congr ?_
  intro t r n
  simp only [decide_eq_true_eq]
  tauto

theorem guided_rpcBody : Guided rule phrase react follow blind .rpcBody :=
  guided_body (f := fun _ _ _ => False) rfl (fun _ => ⟨.unguarded, trivial⟩) .none (fun _ => rfl) rfl
    (by simp) (by simp) (by simp) (by simp)

theorem guided_serviceBody : Guided rule phrase react follow blind .serviceBody := by
  have h : Starts _ [alt [rpc]] := .or (.role .begins rpcDeclaration rfl) .none
  refine guided_body rfl (fun _ => ⟨.unguarded, trivial⟩) h (fun _ => rfl) rfl
    ?_ ?_ ?_ ?_
  · rintro t r n (⟨ht, rfl, rfl⟩ | ⟨⟨⟩⟩)
    simp only [decide_eq_true_eq] at ht
    simp [ht, bodyKinds]
  · intro t ts n _ hn
    simp only [kindAt_cons_zero, Option.bind_some, afterServiceMemberStart?,
      Option.ite_none_right_eq_some, Option.some.injEq] at hn
    exact .inl ⟨decide_eq_true hn.1, rfl, hn.2.symm⟩
  · rintro p n k ss (⟨ht, -, rfl⟩ | ⟨⟨⟩⟩) - -
    simp only [decide_eq_true_eq] at ht
    simp [afterServiceMemberStart?, ht]
  · rintro t r n k (⟨-, -, rfl⟩ | ⟨⟨⟩⟩) hk
    exact followed_rpcDeclaration hk.2

theorem afterEnumMemberStart?_eq_some {kind : TokenKind} {n : Symbols} :
    afterEnumMemberStart? kind = some n ↔
      kind = .keyword .reserved ∧ n = reservedStatement ∨
      (kind.isWord = true ∧ kind ≠ .keyword .reserved) ∧ n = enumValueTail := by
  grind [afterEnumMemberStart?]

theorem guided_enumBody : Guided rule phrase react follow blind .enumBody := by
  have h : Starts _ [alt enumMembers] :=
    .or reserved_starts (.or (.role .begins enumValueTail rfl) .none)
  refine guided_body rfl (fun _ => ⟨.unguarded, trivial⟩) h (fun _ => rfl)
    rfl ?_ ?_ ?_ ?_
  · rintro t r n (⟨rfl, ht, -⟩ | ⟨ht, rfl, -⟩ | ⟨⟨⟩⟩)
    · simp [ht, bodyKinds]
    · simp only [Bool.and_eq_true, decide_eq_true_eq] at ht
      refine ⟨rfl, ?_⟩
      simp only [bodyKinds, List.mem_cons, List.not_mem_nil, or_false]
      rintro (he | he | he) <;> simp [he, TokenKind.isWord] at ht
  · intro t ts n hk hn
    rw [kindAt_cons_zero, Option.bind_some, afterEnumMemberStart?_eq_some] at hn
    rcases hn with ⟨ht, rfl⟩ | ⟨⟨hw, hr⟩, rfl⟩
    · exact .inl ⟨rfl, ht, rfl⟩
    · have ho : t.kind ≠ .keyword .option := fun ho => hk (by simp [ho, bodyKinds])
      exact .inr (.inl ⟨by simp [hw, hr, ho], rfl, rfl⟩)
  · intro p n k ss hn _ _
    rw [Piece.flatten_cons, kindAt_cons_zero, Option.bind_some, afterEnumMemberStart?_eq_some]
    rcases hn with ⟨-, ht, rfl⟩ | ⟨ht, -, rfl⟩ | ⟨⟨⟩⟩
    · exact .inl ⟨ht, rfl⟩
    · simp only [Bool.and_eq_true, decide_eq_true_eq] at ht
      exact .inr ⟨⟨ht.1.1, ht.2⟩, rfl⟩
  · rintro t r n k (⟨-, -, rfl⟩ | ⟨-, -, rfl⟩ | ⟨⟨⟩⟩) hk
    · exact followed_reservedStatement hk
    · exact followed_enumValueTail hk

theorem afterFieldStart?_unlabelled {t : Token} (ts : List Token)
    (hrep : t.kind ≠ .keyword .repeated) (hopt : t.kind ≠ .keyword .optional) :
    afterFieldStart? (t :: ts) =
      if t.kind = .keyword .map ∧ kindAt (t :: ts) 1 = some (.punct .leftAngle) then
        some (mapType ++ fieldTail)
      else (afterTypeStart? t.kind).map (· ++ fieldTail) := by
  unfold afterFieldStart?
  split <;> simp_all

theorem afterFieldStart?_of_derives {excluded : List Keyword} {p : Piece} {r : Role Shape}
    {n k : Symbols} {ss : List (Signal Shape)} (hrep : .repeated ∈ excluded)
    (hopt : .optional ∈ excluded) (hn : FieldStart excluded p.token r n)
    (hd : Derives rule (stackPhrase phrase (n ++ k)) ss)
    (hb : ¬ Parted (.keyword .map) (.punct .leftAngle) (p :: Signal.pieces ss)) :
    afterFieldStart? (flatten (p :: Signal.pieces ss)) = some n := by
  obtain ⟨-, ⟨hl, rfl⟩ | ⟨hm, rfl⟩ | ⟨m, ⟨hm, hx⟩, rfl⟩⟩ := hn
  · rcases hl with hl | hl <;> simp [afterFieldStart?, hl]
  · cases hd with
    | @token _ q _ ts hq hd =>
      have hc : p.comments = [] := by
        by_contra hc
        exact hb ⟨p, q, _, rfl, hm, of_decide_eq_true hq, hc⟩
      have hnext : kindAt (flatten (p :: Signal.pieces (.token q :: ts))) 1 =
          some (.punct .leftAngle) := by
        rw [Piece.kindAt_flatten_one, hc]
        exact congrArg some (of_decide_eq_true hq)
      rw [afterFieldStart?, hnext]
      simp [hm]
  · have hne (w : Keyword) (hw : w ∈ excluded) : p.kind ≠ .keyword w := fun he =>
      hx (List.mem_map.2 ⟨w, hw, he.symm⟩)
    rw [Piece.flatten_cons, afterFieldStart?_unlabelled _ (hne _ hrep) (hne _ hopt), if_neg, hm]
    · rfl
    · rintro ⟨hmap, hangle⟩
      rw [hmap] at hm
      obtain rfl : _ = m := Option.some.inj hm
      refine Clear.kindAt_one_ne (?_ : Clear rule (· = .punct .leftAngle) _) hd rfl rfl p hangle
      refine .star ?_ ?_
      · exact .token (by rintro _ _ ht rfl; simp [Terminal.accepts, TokenKind.isWord] at ht)
      · exact .token (by simp +contextual)

theorem fieldStart_of_afterFieldStart? {excluded : List Keyword} {t : Token} {ts : List Token}
    {n : Symbols} (hx : ∀ w ∈ excluded, w = .repeated ∨ w = .optional ∨ t.kind ≠ .keyword w)
    (hn : afterFieldStart? (t :: ts) = some n) : FieldStart excluded t .begins n := by
  refine ⟨rfl, ?_⟩
  by_cases hl : t.kind = .keyword .repeated ∨ t.kind = .keyword .optional
  · refine .inl ⟨hl, ?_⟩
    rcases hl with hl | hl <;> simpa [afterFieldStart?, hl, eq_comm] using hn
  · rw [not_or] at hl
    rw [afterFieldStart?_unlabelled ts hl.1 hl.2] at hn
    split at hn
    · next hm => exact .inr (.inl ⟨hm.1, (Option.some.inj hn).symm⟩)
    · obtain ⟨m, hm, rfl⟩ := Option.map_eq_some_iff.1 hn
      refine .inr (.inr ⟨m, ⟨hm, ?_⟩, rfl⟩)
      rw [List.mem_map]
      rintro ⟨w, hw, he⟩
      rcases hx w hw with rfl | rfl | hne
      · exact hl.1 he.symm
      · exact hl.2 he.symm
      · exact hne he.symm

theorem FieldStart.not_mem_bodyKinds {excluded : List Keyword} {t : Token} {r : Role Shape}
    {n : Symbols} (ho : .option ∈ excluded) (h : FieldStart excluded t r n) :
    r = .begins ∧ t.kind ∉ bodyKinds := by
  refine ⟨h.1, ?_⟩
  simp only [bodyKinds, List.mem_cons, List.not_mem_nil, or_false]
  obtain ⟨-, ⟨hl | hl, -⟩ | ⟨hm, -⟩ | ⟨m, ⟨hm, hx⟩, -⟩⟩ := h
  · simp [hl]
  · simp [hl]
  · simp [hm]
  · rintro (he | he | he)
    · simp [he, afterTypeStart?, TokenKind.isWord] at hm
    · simp [he, afterTypeStart?, TokenKind.isWord] at hm
    · exact hx (List.mem_map.2 ⟨_, ho, he.symm⟩)

theorem oneofMembers_starts :
    Starts (FieldStart [.repeated, .optional, .option]) [alt oneofMembers] := by
  have h : Starts _ [alt oneofMembers] := .or (field_starts _) .none
  exact h.congr fun t r n => or_iff_left id

theorem guided_oneofBody : Guided rule phrase react follow blind .oneofBody := by
  refine guided_body rfl (fun _ => ⟨.unguarded, trivial⟩) oneofMembers_starts (fun _ => rfl)
    rfl ?_ ?_ ?_ ?_
  · intro t r n hn
    exact hn.not_mem_bodyKinds (by simp)
  · intro t ts n hk hn
    refine fieldStart_of_afterFieldStart? ?_ hn
    simp only [bodyKinds, List.mem_cons, List.not_mem_nil, or_false, not_or] at hk
    simp [hk.2.2]
  · intro p n k ss hn hd hb
    exact afterFieldStart?_of_derives (by simp) (by simp) hn hd hb
  · intro t r n k hn hk
    exact followed_field hn hk

def memberBlocks : List (Keyword × Symbols) :=
  [(.message, messageBlock), (.enum, enumBlock), (.oneof, oneofBlock), (.reserved, reservedStatement)]

theorem afterMessageMemberStart?_of_mem {t : Token} {w : Keyword} {n : Symbols} (ts : List Token)
    (h : (w, n) ∈ memberBlocks) (ht : t.kind = .keyword w) :
    afterMessageMemberStart? (t :: ts) = some n := by
  simp only [memberBlocks, List.mem_cons, Prod.mk.injEq, List.not_mem_nil, or_false] at h
  rcases h with ⟨rfl, rfl⟩ | ⟨rfl, rfl⟩ | ⟨rfl, rfl⟩ | ⟨rfl, rfl⟩ <;>
    simp [afterMessageMemberStart?, ht]

theorem afterMessageMemberStart?_of_not_mem {t : Token} (ts : List Token)
    (h : ∀ w ∈ memberBlocks.map Prod.fst, t.kind ≠ .keyword w) :
    afterMessageMemberStart? (t :: ts) = afterFieldStart? (t :: ts) := by
  simp only [memberBlocks, List.map_cons, List.map_nil, List.forall_mem_cons] at h
  unfold afterMessageMemberStart?
  split <;> simp_all

theorem messageMembers_starts : Starts
    (fun t r n => (r = .begins ∧ ∃ w, (w, n) ∈ memberBlocks ∧ t.kind = .keyword w) ∨
      FieldStart (.repeated :: .optional :: .option :: memberBlocks.map Prod.fst) t r n)
    [alt messageMembers] := by
  have hmessage : Starts _ [.ref .message] :=
    .ref rfl (block_starts "message name" (g := .messageBody) rfl)
  have h : Starts _ [alt messageMembers] :=
    .or hmessage (.or (block_starts "enum name" (g := .enumBody) rfl)
      (.or (block_starts "oneof name" (g := .oneofBody) rfl)
        (.or reserved_starts (.or (field_starts _) .none))))
  refine h.congr ?_
  intro t r n
  simp only [memberBlocks, List.mem_cons, Prod.mk.injEq, List.not_mem_nil, or_false,
    List.map_cons, List.map_nil, messageBlock, enumBlock, oneofBlock]
  grind

theorem start_of_afterMessageMemberStart? {t : Token} {ts : List Token} {n : Symbols}
    (hk : t.kind ∉ bodyKinds) (hn : afterMessageMemberStart? (t :: ts) = some n) :
    (∃ w, (w, n) ∈ memberBlocks ∧ t.kind = .keyword w) ∨
      FieldStart (.repeated :: .optional :: .option :: memberBlocks.map Prod.fst) t .begins n := by
  by_cases ht : ∃ w m, (w, m) ∈ memberBlocks ∧ t.kind = .keyword w
  · obtain ⟨w, m, hw, ht⟩ := ht
    rw [afterMessageMemberStart?_of_mem ts hw ht] at hn
    obtain rfl := Option.some.inj hn
    exact .inl ⟨w, hw, ht⟩
  · have hne : ∀ w ∈ memberBlocks.map Prod.fst, t.kind ≠ .keyword w := by
      intro w hw he
      obtain ⟨⟨_, m⟩, hm, rfl⟩ := List.mem_map.1 hw
      exact ht ⟨_, m, hm, he⟩
    rw [afterMessageMemberStart?_of_not_mem ts hne] at hn
    refine .inr (fieldStart_of_afterFieldStart? ?_ hn)
    rintro w (_ | ⟨_, _ | ⟨_, _ | ⟨_, hw⟩⟩⟩)
    · exact .inl rfl
    · exact .inr (.inl rfl)
    · exact .inr (.inr fun ho => hk (by simp [ho, bodyKinds]))
    · exact .inr (.inr (hne w hw))

theorem guided_messageBody : Guided rule phrase react follow blind .messageBody := by
  refine guided_body rfl (fun _ => ⟨.unguarded, trivial⟩) messageMembers_starts (fun _ => rfl) rfl
    ?_ ?_ ?_ ?_
  · rintro t r n (⟨rfl, w, hw, ht⟩ | hn)
    · have hw' : w ≠ .option := by
        rintro rfl
        simp [memberBlocks] at hw
      simp [ht, bodyKinds, hw']
    · exact hn.not_mem_bodyKinds (by simp)
  · intro t ts n hk hn
    exact (start_of_afterMessageMemberStart? hk hn).imp_left fun h => ⟨rfl, h⟩
  · rintro p n k ss (⟨-, w, hw, ht⟩ | hn) hd hb
    · exact afterMessageMemberStart?_of_mem _ hw ht
    · rw [Piece.flatten_cons, afterMessageMemberStart?_of_not_mem]
      · exact afterFieldStart?_of_derives (by simp) (by simp) hn hd hb
      · intro w hw he
        have hlabel {l : Keyword} (hl : p.kind = .keyword l)
            (hne : l ∉ memberBlocks.map Prod.fst) : False :=
          hne (TokenKind.keyword.inj (hl.symm.trans he) ▸ hw)
        obtain ⟨-, ⟨hl | hl, -⟩ | ⟨hl, -⟩ | ⟨m, ⟨-, hx⟩, -⟩⟩ := hn
        · exact hlabel hl (by simp [memberBlocks])
        · exact hlabel hl (by simp [memberBlocks])
        · exact hlabel hl (by simp [memberBlocks])
        · exact hx (List.mem_map.2 ⟨w, by simp [hw], he.symm⟩)
  · rintro t r n k (⟨-, w, hw, -⟩ | hn) hk
    · have hbody (g : Goal) (hg : g ∈ [Goal.messageBody, .enumBody, .oneofBody]) (k : Symbols) :
          follow g k := by
        simp at hg
        rcases hg with rfl | rfl | rfl <;> exact ⟨.unguarded, trivial⟩
      simp only [memberBlocks, List.mem_cons, Prod.mk.injEq, List.not_mem_nil, or_false] at hw
      rcases hw with ⟨-, rfl⟩ | ⟨-, rfl⟩ | ⟨-, rfl⟩ | ⟨-, rfl⟩
      · exact followed_block (hbody _ (by simp)) hk
      · exact followed_block (hbody _ (by simp)) hk
      · exact followed_block (hbody _ (by simp)) hk
      · exact followed_reservedStatement hk
    · exact followed_field hn hk

/-! ### Names, options and endings -/

theorem guided_name (what : String) : Guided rule phrase react follow blind (.name what) := by
  refine .required rfl (dotted_starts what) ?_ ?_ ?_ ?_
  · simp [react]
  · intro t ts r n ht
    simp only [react, kindAt_cons_zero, Reaction.takeOrRefuse_eq_take, Option.any_some] at ht
    grind
  · rintro t ts r n k - ⟨rfl, hw, rfl⟩
    simp [react, hw]
  · rintro t r n k ⟨-, -, rfl⟩ hk hks
    exact ⟨hk, hks⟩

theorem guided_rootedName (what : String) :
    Guided rule phrase react follow blind (.rootedName what) := by
  refine .required rfl (rooted_starts what) ?_ ?_ ?_ ?_
  · simp [react]
  · intro t ts r n ht
    simp only [react, kindAt_cons_zero, Reaction.takeOrRefuse_eq_take, Option.some.injEq, Option.any_some] at ht
    grind
  · rintro t ts r n k - ⟨rfl, ⟨ht, rfl⟩ | ⟨ht, rfl⟩⟩
    · simp [react, ht]
    · have hd : t.kind ≠ .punct .dot := fun hd => by simp [hd, TokenKind.isWord] at ht
      simp [react, ht, hd]
  · rintro t r n k ⟨-, ⟨-, rfl⟩ | ⟨-, rfl⟩⟩ hk hks
    · exact ⟨hk, hks⟩
    · exact ⟨hk, hks⟩

theorem guided_moreName (what : String) :
    Guided rule phrase react follow blind (.moreName what) :=
  .optionalKind rfl (.starKind [Literal.word what] rfl rfl) (fun _ => rfl) (fun _ hk => hk.1) rfl
    fun _ hk hks => ⟨hk, hks⟩

theorem guided_typeName : Guided rule phrase react follow blind .typeName := by
  refine .required rfl (type_starts []) ?_ ?_ ?_ ?_
  · simp [react]
  · simp [react]
  · simp +contextual [react]
  · rintro t r n k ⟨-, hn, -⟩ hk hks
    exact followed_type hn hk.1 hks

theorem guided_optionName (role : Role Shape) :
    Guided rule phrase react follow blind (.optionName role) := by
  refine .required rfl (optionName_starts role) ?_ ?_ ?_ ?_
  · simp [react]
  · simp [react]
  · simp +contextual [react]
  · rintro t r n k ⟨-, hn⟩ hk hks
    rcases afterOptionNameStart?_eq_some.1 hn with ⟨-, rfl⟩ | ⟨-, rfl⟩
    · refine ⟨⟨clear_token ?_, trivial⟩, ⟨hk.1, trivial⟩, hks⟩
      simp [claims, Terminal.avoids_iff, Terminal.accepts]
    · exact ⟨⟨hk.1, trivial⟩, hks⟩

theorem guided_moreOptionName : Guided rule phrase react follow blind .moreOptionName :=
  .optionalKind rfl (.optKind [.goal (.name "option name")] rfl) (fun _ => rfl) (fun _ hk => hk.1)
    rfl fun _ hk hks => ⟨⟨hk.1, trivial⟩, hks⟩

theorem guided_optionValue : Guided rule phrase react follow blind .optionValue := by
  refine .required rfl optionValue_starts ?_ ?_ ?_ ?_
  · simp [react]
  · intro t ts r n ht
    simp only [react, kindAt_cons_zero, Option.bind_some, Reaction.takeOrRefuse_eq_take,
      Option.map_eq_some_iff, Literal.or_of_disjoint] at ht
    grind
  · rintro t ts r n k - ⟨rfl, m, rfl, hm⟩
    rw [← Literal.or_of_disjoint] at hm
    simp only [react, kindAt_cons_zero, Option.bind_some, hm]
    rfl
  · rintro t r n k ⟨-, m, rfl, hm⟩ hk hks
    rw [List.append_assoc]
    rcases hm with hm | hm
    · exact hosted.followed_message hm hks
    · exact hosted.followed_scalar hm (clear_complete hk.1) hks

theorem guided_moreOptions : Guided rule phrase react follow blind .moreOptions :=
  .optionalKind rfl (.starKind bracketOption.dropLast rfl rfl) (fun _ => rfl) (fun _ hk => hk.1)
    (.inr rfl) fun _ hk hks => followed_bracketOption hk.1 hks

theorem guided_declarationEnd (shape : Shape) :
    Guided rule phrase react follow blind (.declarationEnd shape) := by
  refine .required rfl (ending_starts shape) ?_ ?_ ?_ ?_
  · intro ts
    simp only [react]
    split <;> simp
  · intro t ts r n ht
    simp only [react, kindAt_cons_zero, Option.some.injEq] at ht
    split at ht <;> simp_all
  · rintro t ts r n k - (⟨ht, rfl, rfl⟩ | ⟨ht, rfl, rfl⟩)
    · simp [react, ht]
    · simp [react, ht]
  · rintro t r n k (⟨-, -, rfl⟩ | ⟨-, -, rfl⟩) hk hks
    · exact hks
    · rw [List.append_assoc]
      refine followed_bracketOption (clear_token ?_) hks
      simp [claims, Terminal.avoids_iff, Terminal.accepts]

/-! ### Reserved entries -/

theorem guided_reservedEntries : Guided rule phrase react follow blind .reservedEntries := by
  have h : Starts _ reservedEntries :=
    .or (.token [.goal .moreReservedNames] rfl)
      (.or (.token [.goal .rangeRest, .goal .moreReservedRanges] rfl) .none)
  refine .required rfl h ?_ ?_ ?_ ?_
  · simp [react]
  · intro t ts r n ht
    simp only [react, kindAt_cons_zero, Reaction.takeOrRefuse_eq_take, Option.some.injEq,
      Option.any_some] at ht
    grind
  · rintro t ts r n k - (⟨ht, rfl, rfl⟩ | ⟨ht, rfl, rfl⟩ | ⟨⟨⟩⟩)
    · simp [react, of_decide_eq_true ht]
    · have hs : t.kind ≠ .string := fun hs => by simp [hs, TokenKind.isInteger] at ht
      simp [react, hs, ht]
  · rintro t r n k (⟨-, -, rfl⟩ | ⟨-, -, rfl⟩ | ⟨⟨⟩⟩) hk hks
    · exact ⟨⟨hk.1.mono fun _ => .inl, trivial⟩, hks⟩
    · refine ⟨⟨clear_commas ?_ (hk.1.mono fun _ => .inr), trivial⟩, ⟨hk.1, trivial⟩, hks⟩
      simp [claims]

theorem guided_moreReservedNames :
    Guided rule phrase react follow blind .moreReservedNames :=
  .optionalKind rfl (.starKind [Literal.string "reserved name"] rfl rfl) (fun _ => rfl)
    (fun _ hk => hk.1) rfl fun _ hk hks => ⟨hk, hks⟩

theorem guided_moreReservedRanges :
    Guided rule phrase react follow blind .moreReservedRanges := by
  refine .optionalKind rfl
    (.starKind [Literal.integer "reserved field number", .goal .rangeRest] rfl rfl) (fun _ => rfl)
    (fun _ hk => hk.1) (.inl rfl) fun k hk hks => ?_
  refine ⟨⟨clear_commas ?_ (hk.1.mono fun _ => .inr), trivial⟩, hk, hks⟩
  simp [claims]

theorem guided_rangeRest : Guided rule phrase react follow blind .rangeRest :=
  .optionalKind rfl (.optKind [.goal .rangeEnd] rfl) (fun _ => rfl) (fun _ hk => hk.1) rfl
    fun _ _ hks => ⟨⟨.unguarded, trivial⟩, hks⟩

theorem guided_rangeEnd : Guided rule phrase react follow blind .rangeEnd := by
  have h : Starts (fun t r n => isRangeEnd t = true ∧ r = .plain ∧ n = []) [rangeEnd] :=
    .token [] rfl
  refine .required rfl h ?_ ?_ ?_ ?_
  · simp [react]
  · intro t ts r n ht
    simp only [react, List.head?_cons, Option.any_some, Reaction.takeOrRefuse_eq_take] at ht
    grind
  · rintro t ts r n k - ⟨ht, rfl, rfl⟩
    simp [react, ht]
  · rintro t r n k ⟨-, -, rfl⟩ - hks
    exact hks

/-! ### Methods -/

theorem guided_rpcEnd : Guided rule phrase react follow blind .rpcEnd := by
  have h : Starts _ rpcEnding :=
    .or (.token [.complete .rpc] rfl)
      (.or (.role (Role.opens Shape.rpc) [.goal Goal.rpcBody, .goal .optionalSemicolon] rfl) .none)
  refine .required rfl h ?_ ?_ ?_ ?_
  · intro ts
    simp only [react]
    split <;> simp
  · intro t ts r n ht
    simp only [react, kindAt_cons_zero, Option.some.injEq] at ht
    split at ht <;> simp_all
  · rintro t ts r n k - (⟨ht, rfl, rfl⟩ | ⟨ht, rfl, rfl⟩ | ⟨⟨⟩⟩)
    · simp [react, of_decide_eq_true ht]
    · simp [react, of_decide_eq_true ht]
  · rintro t r n k (⟨-, -, rfl⟩ | ⟨-, -, rfl⟩ | ⟨⟨⟩⟩) hk hks
    · exact hks
    · exact ⟨⟨.unguarded, trivial⟩, ⟨.unguarded, hk.2⟩, hks⟩

/-- A stray semicolon of the service is as good as the one that may end a method. -/
theorem guided_optionalSemicolon :
    Guided rule phrase react follow blind .optionalSemicolon where
  skip _ hd := .alt List.mem_cons_self hd
  take {p ps role next e ss} ht hd := by
    simp only [react, Piece.flatten_cons, kindAt_cons_zero, Option.some.injEq,
      Reaction.takeOrSkip_eq_take, Option.ite_none_right_eq_some] at ht
    obtain ⟨rfl, hp, rfl⟩ := ht
    exact .alt (List.mem_cons_of_mem _ List.mem_cons_self) (.token (decide_eq_true hp) hd)
  step {k ss} hd hk hks _ := by
    have htake (p : Piece) (hp : p.kind = .punct .semicolon) (ps : List Piece) :
        react .optionalSemicolon (flatten (p :: ps)) = .take .plain [] := by simp [react, hp]
    obtain ⟨-, l, rfl⟩ := hk
    cases hd with
    | alt hm hd =>
      rcases List.mem_pair.1 hm with rfl | rfl
      · cases guided_serviceBody.step hd ⟨.unguarded, trivial⟩ hks.2 id with
        | @take p role next ts hr hd' hks' =>
          by_cases hp : p.kind = .punct .semicolon
          · simp [react, hp, reactInBody] at hr
            obtain ⟨rfl, rfl⟩ := hr
            exact .take (htake p hp _) hd' hks'
          · refine .skip ?_ hd
            rw [Move.pieces_signals_append]
            simp [react, hp]
        | skip hr _ =>
          refine absurd hr ?_
          simp only [react]
          unfold reactInBody
          split <;> simp
      · cases hd with
        | token hp hd => exact .take (htake _ (of_decide_eq_true hp) _) hd hks

theorem guided_rpcType : Guided rule phrase react follow blind .rpcType := by
  have h : Starts _ rpcType := .or (.token [.goal .typeName] rfl) (.or (type_starts []) .none)
  refine .of_predicts rfl h ?_ ?_ ?_
  · intro ts
    simp only [react]
    split <;> simp
  · intro t ts r n ht
    simp only [react, kindAt_cons_zero, Option.some.injEq] at ht
    split at ht <;> simp_all
  · rintro p r n k ss hn ⟨-, s, l, rfl, -⟩ hks hd hb
    generalize s :: l = l at hks hd
    have hdot : Clear rule (· = .punct .dot) (stackPhrase phrase (Literal.punct .rightParen :: l)) :=
      clear_token (by simp [Terminal.avoids_iff, Terminal.accepts])
    have hks' : Followed follow (.goal .typeName :: Literal.punct .rightParen :: l) :=
      ⟨⟨hdot, trivial⟩, hks⟩
    -- A stream is one if its word is not all that stands between the parentheses.
    have hstream (hp : p.kind = .keyword .stream) (hd : Derives rule
        (stackPhrase phrase (.goal .typeName :: Literal.punct .rightParen :: l)) ss) :
        react .rpcType (flatten (p :: Signal.pieces ss)) = .take .plain [.goal .typeName] := by
      have hclear (e : Expr) : Clear rule (· = .punct .rightParen) (type ++ e) := by
        refine (type_starts []).clear ?_
        rintro t r n ⟨-, hn, -⟩ ht
        simp [ht, afterTypeStart?, TokenKind.isWord] at hn
      simp only [react]
      rw [if_pos ⟨by simp [hp], (hclear _).kindAt_one_ne hd rfl rfl p⟩]
    rcases hn with ⟨ht, rfl, rfl⟩ | ⟨rfl, hn, -⟩ | ⟨⟨⟩⟩
    · exact ⟨_, hstream (of_decide_eq_true ht) hd, hd, hks'⟩
    · by_cases hp : p.token.kind = .keyword .stream
      · rw [hp] at hn
        obtain rfl : _ = n := Option.some.inj hn
        cases hd with
        | stop hd' =>
          refine ⟨[.goal (.moreName "type name")], ?_, .stop hd', ⟨hdot, trivial⟩, hks⟩
          cases hd' with
          | @token _ q _ ts hq hd' =>
            have hc : p.comments = [] := by
              by_contra hc
              exact hb ⟨p, q, _, rfl, hp, of_decide_eq_true hq, hc⟩
            have hnext : kindAt (flatten (p :: Signal.pieces (.token q :: ts))) 1 =
                some (.punct .rightParen) := by
              rw [Piece.kindAt_flatten_one, hc]
              exact congrArg some (of_decide_eq_true hq)
            simp only [react]
            rw [hnext]
            simp [hp, afterTypeStart?, TokenKind.isWord]
        | more hd' =>
          have hd : Derives rule
              (stackPhrase phrase (.goal .typeName :: Literal.punct .rightParen :: l)) ss :=
            .alt (List.mem_cons_of_mem _ List.mem_cons_self) hd'
          exact ⟨_, hstream hp hd, hd, hks'⟩
      · refine ⟨n, ?_, hd, followed_type hn hdot hks⟩
        simp [react, hp, hn]

/-! ### Declarations -/

theorem guided_version : Guided rule phrase react follow blind .version := by
  refine .required rfl (.token [] rfl) ?_ ?_ ?_ ?_
  · intro ts
    simp only [react]
    unfold reactToVersion
    split
    · split
      · split <;> simp
      · simp
    · simp
  · intro t ts r n ht
    simp only [react, List.head?_cons, reactToVersion] at ht
    grind
  · rintro t ts r n k - ⟨ht, rfl, rfl⟩
    simp only [Bool.and_eq_true, decide_eq_true_eq] at ht
    simp [react, reactToVersion, ht]
  · rintro t r n k ⟨-, -, rfl⟩ - hks
    exact hks

theorem guided_importPath : Guided rule phrase react follow blind .importPath := by
  have hmodifier : Starts _ [alt [[.keyword .publicWord], [.keyword .weak]]] :=
    .or (.token [] rfl) (.or (.token [] rfl) .none)
  have h : Starts _ importPath :=
    .opt (hmodifier.append [Literal.string "import path"] rfl) (.token [] rfl)
  refine .required rfl h ?_ ?_ ?_ ?_
  · simp [react]
  · intro t ts r n ht
    simp only [react, kindAt_cons_zero, Reaction.takeOrRefuse_eq_take] at ht
    obtain ⟨rfl, ht⟩ := ht
    split at ht <;> simp_all
  · rintro t ts r n k - (⟨ht, rfl, rfl⟩ | ⟨m, ⟨ht, rfl, rfl⟩ | ⟨ht, rfl, rfl⟩ | ⟨⟨⟩⟩, rfl⟩)
    · simp [react, of_decide_eq_true ht]
    · simp [react, of_decide_eq_true ht]
    · simp [react, of_decide_eq_true ht]
  · rintro t r n k (⟨-, -, rfl⟩ | ⟨m, ⟨-, -, rfl⟩ | ⟨-, -, rfl⟩ | ⟨⟨⟩⟩, rfl⟩) - hks
    · exact hks
    · exact hks
    · exact hks

def fileBlocks : List (Keyword × Symbols) :=
  [(.syntaxWord, [Literal.punct .eq, .goal .version, Literal.punct .semicolon, .complete .version]),
    (.importWord, [.goal .importPath, Literal.punct .semicolon, .complete .importFile]),
    (.package, [.goal (.name "package name"), Literal.punct .semicolon, .complete .package]),
    (.option, optionStatement), (.message, messageBlock), (.enum, enumBlock),
    (.service, serviceBlock)]

theorem afterDeclarationStart?_eq_some {kind : TokenKind} {n : Symbols} :
    afterDeclarationStart? kind = some n ↔ ∃ w, (w, n) ∈ fileBlocks ∧ kind = .keyword w := by
  simp only [fileBlocks, List.mem_cons, Prod.mk.injEq, List.not_mem_nil, or_false]
  constructor
  · intro h
    fun_cases afterDeclarationStart? kind <;> simp_all [afterDeclarationStart?]
  · rintro ⟨w, ⟨rfl, rfl⟩ | ⟨rfl, rfl⟩ | ⟨rfl, rfl⟩ | ⟨rfl, rfl⟩ | ⟨rfl, rfl⟩ | ⟨rfl, rfl⟩ |
      ⟨rfl, rfl⟩, rfl⟩ <;> rfl

theorem declaration_starts : Starts
    (fun t r n => t.kind = .punct .semicolon ∧ r = .plain ∧ n = [] ∨
      r = .begins ∧ afterDeclarationStart? t.kind = some n)
    [alt [[semicolon], version, importFile, package, option, [.ref .message], enum, service]] := by
  have hmessage : Starts _ [.ref .message] :=
    .ref rfl (block_starts "message name" (g := .messageBody) rfl)
  have h : Starts _ [alt [[semicolon], version, importFile, package, option, [.ref .message], enum,
      service]] :=
    .or (.token [] rfl) (.or (.role .begins [Literal.punct .eq, .goal .version,
        Literal.punct .semicolon, .complete .version] rfl)
      (.or (.role .begins [.goal .importPath, Literal.punct .semicolon, .complete .importFile] rfl)
      (.or (.role .begins [.goal (.name "package name"), Literal.punct .semicolon,
        .complete .package] rfl)
      (.or (.role .begins optionStatement rfl) (.or hmessage
      (.or (block_starts "enum name" (g := .enumBody) rfl)
      (.or (block_starts "service name" (g := .serviceBody) rfl) .none)))))))
  refine h.congr ?_
  intro t r n
  simp only [afterDeclarationStart?_eq_some, fileBlocks, List.mem_cons, Prod.mk.injEq,
    List.not_mem_nil, or_false, decide_eq_true_eq, messageBlock, enumBlock, serviceBlock]
  grind

theorem declarations_offers : Offers rule phrase
    (fun t r n => ∃ m, (t.kind = .punct .semicolon ∧ r = .plain ∧ m = [] ∨
      r = .begins ∧ afterDeclarationStart? t.kind = some m) ∧ n = m ++ [.goal .declarations])
    document := Offers.star (g := .declarations) declaration_starts rfl

theorem react_declarations_eq_take {t : Token} {ts : List Token} {r : Role Shape} {n : Symbols} :
    react .declarations (t :: ts) = .take r n ↔
      ∃ m, (t.kind = .punct .semicolon ∧ r = .plain ∧ m = [] ∨
        r = .begins ∧ afterDeclarationStart? t.kind = some m) ∧ n = m ++ [.goal .declarations] := by
  simp only [react, kindAt_cons_zero]
  split
  · simp_all
  · simp_all [afterDeclarationStart?, eq_comm]
  · simp_all
    grind

theorem followed_fileBlock {w : Keyword} {m k : Symbols} (hm : (w, m) ∈ fileBlocks)
    (hk : Followed follow k) : Followed follow (m ++ k) := by
  simp only [fileBlocks, List.mem_cons, Prod.mk.injEq, List.not_mem_nil, or_false] at hm
  rcases hm with ⟨-, rfl⟩ | ⟨-, rfl⟩ | ⟨-, rfl⟩ | ⟨-, rfl⟩ | ⟨-, rfl⟩ | ⟨-, rfl⟩ | ⟨-, rfl⟩
  · exact ⟨⟨.unguarded, trivial⟩, hk⟩
  · exact ⟨⟨.unguarded, trivial⟩, hk⟩
  · refine ⟨⟨clear_token ?_, trivial⟩, hk⟩
    simp [claims, Terminal.avoids_iff, Terminal.accepts]
  · exact followed_optionStatement hk
  · exact followed_block (fun _ => ⟨.unguarded, trivial⟩) hk
  · exact followed_block (fun _ => ⟨.unguarded, trivial⟩) hk
  · exact followed_block (fun _ => ⟨.unguarded, trivial⟩) hk

theorem guided_declarations : Guided rule phrase react follow blind .declarations where
  skip _ hd := .stop hd
  take ht hd :=
    (declarations_offers _ _).2 (.inr ⟨_, _, _, _, react_declarations_eq_take.1 ht, hd, rfl⟩)
  step {k ss} hd hk _ _ := by
    obtain ⟨-, rfl⟩ := hk
    rcases (declarations_offers _ _).1 hd with hd' | ⟨p, r, n, ts, hn, hd', rfl⟩
    · cases hd'
      exact .skip rfl .nil
    · refine .take (react_declarations_eq_take.2 hn) (by simpa using hd') ?_
      have hend : Followed follow ([.goal .declarations] : Symbols) :=
        ⟨⟨.unguarded, rfl⟩, trivial⟩
      rw [List.append_nil]
      obtain ⟨m, ⟨-, -, rfl⟩ | ⟨-, hm⟩, rfl⟩ := hn
      · exact hend
      · obtain ⟨w, hw, -⟩ := afterDeclarationStart?_eq_some.1 hm
        exact followed_fileBlock hw hend

theorem guided (g : Goal) : Guided rule phrase react follow blind g := by
  cases g with
  | literal g => exact hosted.guided g
  | declarations => exact guided_declarations
  | version => exact guided_version
  | importPath => exact guided_importPath
  | name what => exact guided_name what
  | rootedName what => exact guided_rootedName what
  | moreName what => exact guided_moreName what
  | typeName => exact guided_typeName
  | optionName role => exact guided_optionName role
  | moreOptionName => exact guided_moreOptionName
  | optionValue => exact guided_optionValue
  | moreOptions => exact guided_moreOptions
  | declarationEnd shape => exact guided_declarationEnd shape
  | messageBody => exact guided_messageBody
  | oneofBody => exact guided_oneofBody
  | enumBody => exact guided_enumBody
  | serviceBody => exact guided_serviceBody
  | rpcBody => exact guided_rpcBody
  | reservedEntries => exact guided_reservedEntries
  | moreReservedNames => exact guided_moreReservedNames
  | moreReservedRanges => exact guided_moreReservedRanges
  | rangeRest => exact guided_rangeRest
  | rangeEnd => exact guided_rangeEnd
  | rpcType => exact guided_rpcType
  | rpcEnd => exact guided_rpcEnd
  | optionalSemicolon => exact guided_optionalSemicolon

end ProtoSyntax.Schema
