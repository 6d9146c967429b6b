import ProtoSyntax.Proofs.Parsing.Completion
import ProtoSyntax.Proofs.Schema.Acceptance

/-!
# Nothing is asked for in vain

Whatever is to be pursued at some point in a schema file, some tokens satisfy it. They come from a few
samples: a word, a number, a string that is good as a version too, and all that is asked for by its
spelling.
-/

namespace ProtoSyntax.Schema

/-- Whether a symbol can be pursued with success: it asks for no character that is never read as
punctuation, and for fields only up to what closes them. -/
def isOpen : Symbol Goal Shape → Bool
  | .goal (.literal (.fields closing)) => closing = .rightBrace || closing = .rightAngle
  | .token (.punct p) _ => isPunct p
  | _ => true

variable {n : Symbols} {k : TokenKind}

theorem isOpen_afterMessageStart? (h : Literal.afterMessageStart? Goal.literal k = some n) :
    n.all isOpen = true := by
  rcases Literal.afterMessageStart?_eq_some.1 h with ⟨-, rfl⟩ | ⟨-, rfl⟩ <;> rfl

theorem isOpen_afterNameStart? (h : Literal.afterNameStart? Goal.literal k = some n) :
    n.all isOpen = true := by
  rcases Literal.afterNameStart?_eq_some.1 h with ⟨-, rfl⟩ | ⟨-, rfl⟩ <;> rfl

theorem isOpen_afterScalarStart? (h : Literal.afterScalarStart? Goal.literal k = some n) :
    n.all isOpen = true := by
  rcases Literal.afterScalarStart?_eq_some.1 h with ⟨-, rfl⟩ | ⟨-, rfl⟩ <;> rfl

theorem isOpen_afterValueStart? (h : Literal.afterValueStart? Goal.literal k = some n) :
    n.all isOpen = true := by
  rcases Literal.afterValueStart?_eq_some.1 h with ⟨-, rfl⟩ | h | h
  · rfl
  · exact isOpen_afterMessageStart? h
  · exact isOpen_afterScalarStart? h

theorem isOpen_afterTypeStart? (h : afterTypeStart? k = some n) : n.all isOpen = true := by
  rcases afterTypeStart?_eq_some.1 h with ⟨-, rfl⟩ | ⟨-, rfl⟩ | ⟨-, rfl⟩ <;> rfl

theorem isOpen_afterFieldStart? {ahead : List Token} (h : afterFieldStart? ahead = some n) :
    n.all isOpen = true := by
  unfold afterFieldStart? at h
  split at h
  · cases h
    rfl
  · cases h
    rfl
  · split_ifs at h
    · cases h
      rfl
    · obtain ⟨m, hm, rfl⟩ := Option.map_eq_some_iff.1 h
      rw [List.all_append, isOpen_afterTypeStart? hm]
      rfl
  · cases h

theorem isOpen_afterMessageMemberStart? {ahead : List Token}
    (h : afterMessageMemberStart? ahead = some n) : n.all isOpen = true := by
  unfold afterMessageMemberStart? at h
  split at h
  · cases h
    rfl
  · cases h
    rfl
  · cases h
    rfl
  · cases h
    rfl
  · exact isOpen_afterFieldStart? h

variable {ahead : List Token} {role : Role Shape} {next : Symbols}

theorem isOpen_of_literal {g : Literal.Goal} (hg : isOpen (.goal (.literal g)) = true)
    (h : Literal.react Goal.literal g ahead = .take role next) : next.all isOpen = true := by
  cases g with
  | moreStrings | moreExtension | moreItems | separator =>
    obtain ⟨-, hn⟩ := Reaction.takeOrSkip_eq_take.1 h
    split_ifs at hn
    cases hn
    rfl
  | fieldName =>
    obtain ⟨-, ho⟩ := Reaction.takeOrRefuse_eq_take.1 h
    obtain ⟨k, -, hn⟩ := Option.bind_eq_some_iff.1 ho
    exact isOpen_afterNameStart? hn
  | message =>
    obtain ⟨-, ho⟩ := Reaction.takeOrRefuse_eq_take.1 h
    obtain ⟨k, -, hn⟩ := Option.bind_eq_some_iff.1 ho
    exact isOpen_afterMessageStart? hn
  | value =>
    obtain ⟨-, ho⟩ := Reaction.takeOrRefuse_eq_take.1 h
    obtain ⟨k, -, hn⟩ := Option.bind_eq_some_iff.1 ho
    exact isOpen_afterValueStart? hn
  | fields closing =>
    rw [Literal.react] at h
    split at h
    · split at h
      · cases h
        rfl
      · obtain ⟨-, ho⟩ := Reaction.takeOrRefuse_eq_take.1 h
        obtain ⟨m, hm, rfl⟩ := Option.map_eq_some_iff.1 ho
        rw [List.all_append, isOpen_afterNameStart? hm]
        exact (Bool.and_true _).trans hg
    · cases h
  | fieldRest =>
    rw [Literal.react] at h
    split at h
    · cases h
      rfl
    · obtain ⟨-, ho⟩ := Reaction.takeOrRefuse_eq_take.1 h
      obtain ⟨k, -, hn⟩ := Option.bind_eq_some_iff.1 ho
      exact isOpen_afterMessageStart? hn
  | items =>
    rw [Literal.react] at h
    split at h
    · cases h
      rfl
    · obtain ⟨-, ho⟩ := Reaction.takeOrRefuse_eq_take.1 h
      obtain ⟨m, hm, rfl⟩ := Option.map_eq_some_iff.1 ho
      obtain ⟨k, -, hn⟩ := Option.bind_eq_some_iff.1 hm
      rw [List.all_append, isOpen_afterValueStart? hn]
      rfl

theorem isOpen_reactInBody {body : Goal} {what : String} {member? : Option Symbols}
    {k? : Option TokenKind} (hbody : isOpen (.goal body) = true)
    (hm : ∀ m, member? = some m → m.all isOpen = true)
    (h : reactInBody body what member? k? = .take role next) : next.all isOpen = true := by
  have hrest : [Symbol.goal body].all isOpen = true := by simpa using hbody
  unfold reactInBody at h
  split at h
  · cases h
    rfl
  · cases h
    exact hrest
  · cases h
    exact hrest
  · obtain ⟨-, ho⟩ := Reaction.takeOrRefuse_eq_take.1 h
    obtain ⟨m, hm', rfl⟩ := Option.map_eq_some_iff.1 ho
    rw [List.all_append, hm m hm', hrest]
    rfl

theorem isOpen_of_react {g : Goal} (hg : isOpen (.goal g) = true)
    (h : react g ahead = .take role next) : next.all isOpen = true := by
  cases g with
  | literal g => exact isOpen_of_literal hg h
  | declarations =>
    rw [react] at h
    split at h
    · cases h
    · cases h
      rfl
    · obtain ⟨-, ho⟩ := Reaction.takeOrRefuse_eq_take.1 h
      obtain ⟨m, hm, rfl⟩ := Option.map_eq_some_iff.1 ho
      unfold afterDeclarationStart? at hm
      split at hm <;> cases hm <;> rfl
  | version =>
    have hversion : reactToVersion ahead.head? = .take role next := h
    unfold reactToVersion at hversion
    split at hversion
    · split_ifs at hversion
      cases hversion
      rfl
    · cases hversion
  | importPath =>
    obtain ⟨-, ho⟩ := Reaction.takeOrRefuse_eq_take.1 h
    split at ho <;> cases ho <;> rfl
  | name | rootedName | reservedEntries | rangeEnd =>
    obtain ⟨-, ho⟩ := Reaction.takeOrRefuse_eq_take.1 h
    split_ifs at ho <;> cases ho <;> rfl
  | moreName | moreOptionName | moreOptions | moreReservedNames | moreReservedRanges | rangeRest
    | optionalSemicolon =>
    obtain ⟨-, ho⟩ := Reaction.takeOrSkip_eq_take.1 h
    split_ifs at ho
    cases ho
    rfl
  | typeName =>
    obtain ⟨-, ho⟩ := Reaction.takeOrRefuse_eq_take.1 h
    obtain ⟨k, -, hn⟩ := Option.bind_eq_some_iff.1 ho
    exact isOpen_afterTypeStart? hn
  | optionName role =>
    obtain ⟨-, ho⟩ := Reaction.takeOrRefuse_eq_take.1 h
    obtain ⟨k, -, hn⟩ := Option.bind_eq_some_iff.1 ho
    rcases afterOptionNameStart?_eq_some.1 hn with ⟨-, rfl⟩ | ⟨-, rfl⟩ <;> rfl
  | optionValue =>
    obtain ⟨-, ho⟩ := Reaction.takeOrRefuse_eq_take.1 h
    obtain ⟨m, hm, rfl⟩ := Option.map_eq_some_iff.1 ho
    obtain ⟨k, -, hn⟩ := Option.bind_eq_some_iff.1 hm
    have hvalue : m.all isOpen = true := by
      rcases Literal.or_of_disjoint.1 hn with hn | hn
      · exact isOpen_afterMessageStart? hn
      · exact isOpen_afterScalarStart? hn
    rw [List.all_append, hvalue]
    rfl
  | declarationEnd | rpcEnd =>
    rw [react] at h
    split at h
    · cases h
      rfl
    · obtain ⟨-, ho⟩ := Reaction.takeOrRefuse_eq_take.1 h
      split_ifs at ho
      cases ho
      rfl
  | messageBody =>
    exact isOpen_reactInBody rfl (fun m => isOpen_afterMessageMemberStart?) h
  | oneofBody => exact isOpen_reactInBody rfl (fun m => isOpen_afterFieldStart?) h
  | enumBody =>
    refine isOpen_reactInBody rfl (fun m hm => ?_) h
    obtain ⟨k, -, hn⟩ := Option.bind_eq_some_iff.1 hm
    rcases afterEnumMemberStart?_eq_some.1 hn with ⟨-, rfl⟩ | ⟨-, rfl⟩ <;> rfl
  | serviceBody =>
    refine isOpen_reactInBody rfl (fun m hm => ?_) h
    obtain ⟨k, -, hn⟩ := Option.bind_eq_some_iff.1 hm
    unfold afterServiceMemberStart? at hn
    split_ifs at hn
    cases hn
    rfl
  | rpcBody => exact isOpen_reactInBody rfl (by simp) h
  | rpcType =>
    rw [react] at h
    split at h
    · cases h
      rfl
    · obtain ⟨-, ho⟩ := Reaction.takeOrRefuse_eq_take.1 h
      obtain ⟨k, -, hn⟩ := Option.bind_eq_some_iff.1 ho
      exact isOpen_afterTypeStart? hn

def samples : List Token :=
  [⟨.identifier, 0, "a"⟩, ⟨.integer .decimal, 0, "1"⟩, ⟨.string, 0, "\"proto3\""⟩] ++
    Keyword.all.map (fun k => ⟨.keyword k, 0, k.spelling⟩) ++
    (Punct.all.filter isPunct).map fun p => ⟨.punct p, 0, String.ofList [p.char]⟩

def isKnown (n : Nonterminal) : Bool := Ebnf.allProductive samples (fun _ => false) (rule n)

theorem isProductive_of_isOpen {s : Symbol Goal Shape} (h : isOpen s = true) :
    Ebnf.allProductive samples isKnown (s.phrase phrase) = true := by
  cases s with
  | complete | finish => rfl
  | token terminal role =>
    cases terminal with
    | punct p =>
      cases p with
      | slash => cases h
      | _ => cases role <;> rfl
    | keyword w => cases w <;> cases role <;> rfl
    | word | integer | string => cases role <;> rfl
  | goal g =>
    cases g with
    | literal g =>
      cases g with
      | fields closing =>
        have hclosing : closing = .rightBrace ∨ closing = .rightAngle := by
          simpa [isOpen] using h
        rcases hclosing with rfl | rfl <;> rfl
      | _ => rfl
    | optionName role => cases role <;> rfl
    | _ => rfl

theorem isComment_samples : ∀ t ∈ samples, t.isComment = false := by
  have h : samples.all (!·.isComment) = true := rfl
  simpa using h

theorem fruitful_of_isOpen {s : Symbol Goal Shape} (h : isOpen s = true) :
    Fruitful rule samples (s.phrase phrase) := by
  -- A name that is found to derive something without other names may be used by all others.
  refine Ebnf.fruitful isComment_samples (fun n hn => ?_) _ (isProductive_of_isOpen h)
  exact Ebnf.fruitful isComment_samples (by simp) _ hn

theorem exists_completion (tokens : List Token) :
    ∃ before more, tokens = before ++ (grammar.trace .declarations tokens).rest ∧
      (∀ t ∈ more, t ∈ samples) ∧ Generates rule document (before.filter (!·.isComment) ++ more) :=
  reads.exists_completion (P := fun s => isOpen s = true) rfl
    (fun hg h => List.all_eq_true.1 (isOpen_of_react hg h)) (fun _ => fruitful_of_isOpen) tokens

end ProtoSyntax.Schema
