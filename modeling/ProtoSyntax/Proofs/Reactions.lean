import ProtoSyntax.Proofs.Literal.Rules
import ProtoSyntax.Proofs.Parsing.Refusal
import ProtoSyntax.Schema.Grammar
import ProtoSyntax.TextFormat.Grammar

/-!
# How the goals react

In three places the second token counts: a map is told from a type of that name by its angle, and the
word for streams from a type of that name by the parenthesis after it. All other goals look at
the next token alone. A token is refused for what was expected there, but for a wrong version.
-/

namespace ProtoSyntax

namespace Reaction

variable {G S : Type} {role : Role S} {what : String} {o : Option (List (Symbol G S))}
  {refusal : Refusal}

@[simp] theorem takeOrRefuse_eq_reject :
    takeOrRefuse role what o = .reject refusal ↔ o = none ∧ refusal = .expected what := by
  cases o <;> simp [takeOrRefuse, eq_comm]

@[simp] theorem takeOrSkip_ne_reject : takeOrSkip o ≠ .reject refusal := by
  cases o <;> simp [takeOrSkip]

end Reaction

theorem not_silent_append_goal {G S : Type} (k : List (Symbol G S)) (g : G) :
    ¬ Silent (k ++ [.goal g]) := by
  intro h
  rcases h (.goal g) (by simp) with ⟨_, h⟩ | h <;> cases h

namespace Literal

variable {G S : Type} (embed : Goal → G) (g : Goal)

theorem react_cons (k : TokenKind) (start start' : Nat) (text : String) (ts us : List Token) :
    (react embed g (⟨k, start, text⟩ :: ts) : Reaction G S) =
      react embed g (⟨k, start', text⟩ :: us) := by
  cases g <;> rfl

theorem exists_expected {ahead : List Token} {refusal : Refusal}
    (h : (react embed g ahead : Reaction G S) = .reject refusal) :
    ∃ what, refusal = .expected what := by
  cases g with
  | moreStrings | moreExtension | moreItems | separator =>
    exact absurd h Reaction.takeOrSkip_ne_reject
  | fieldName | message | value => exact ⟨_, (Reaction.takeOrRefuse_eq_reject.1 h).2⟩
  | fields closing =>
    rw [react] at h
    split at h
    · split at h
      · cases h
      · exact ⟨_, (Reaction.takeOrRefuse_eq_reject.1 h).2⟩
    · exact ⟨_, (Reaction.reject.inj h).symm⟩
  | fieldRest | items =>
    rw [react] at h
    split at h
    · cases h
    · exact ⟨_, (Reaction.takeOrRefuse_eq_reject.1 h).2⟩

theorem react_nil_ne_take {role : Role S} {next : List (Symbol G S)} :
    react embed g [] ≠ .take role next := by
  intro h
  cases g <;> cases h

theorem react_invalid_ne_take {start : Nat} {text : String} {ts : List Token} {role : Role S}
    {next : List (Symbol G S)} : react embed g (⟨.invalid, start, text⟩ :: ts) ≠ .take role next := by
  intro h
  cases g <;> cases h

end Literal

namespace Schema

theorem afterFieldStart?_congr {ts us : List Token} (h : kindAt ts 0 = kindAt us 0)
    (h' : kindAt ts 1 = kindAt us 1) : afterFieldStart? ts = afterFieldStart? us := by
  rw [afterFieldStart?, h, h', afterFieldStart?]

/-- The token after the next one decides between a map and a type of that name only. -/
theorem afterFieldStart?_cons (t : Token) (ts : List Token) :
    afterFieldStart? (t :: ts) = afterFieldStart? [t] ∨ t.kind = .keyword .map ∧
      ∃ m m', afterFieldStart? (t :: ts) = some m ∧ afterFieldStart? [t] = some m' := by
  obtain ⟨k, start, text⟩ := t
  by_cases hk : k = .keyword .map
  · subst hk
    refine .inr ⟨rfl, ?_⟩
    have hone : afterFieldStart? [⟨.keyword .map, start, text⟩] =
        some (.goal (.moreName "type name") :: fieldTail) := rfl
    by_cases hangle : kindAt (⟨.keyword .map, start, text⟩ :: ts) 1 = some (.punct .leftAngle)
    · exact ⟨mapType ++ fieldTail, _, if_pos ⟨rfl, hangle⟩, hone⟩
    · exact ⟨_, _, if_neg fun h => hangle h.2, hone⟩
  · cases k with
    | keyword w => cases w <;> first | exact .inl rfl | exact absurd rfl hk
    | _ => exact .inl rfl

theorem reactInBody_alone (body : Goal) (what : String) (k : Option TokenKind)
    {member? member?' : Option Symbols}
    (h : member? = member?' ∨ ∃ m m', member? = some m ∧ member?' = some m') :
    reactInBody body what member? k = reactInBody body what member?' k ∨
      ∃ role next role' next', reactInBody body what member? k = .take role next ∧
        reactInBody body what member?' k = .take role' next' ∧ ¬ Silent next' := by
  rcases h with rfl | ⟨m, m', rfl, rfl⟩
  · exact .inl rfl
  · unfold reactInBody
    split
    · exact .inl rfl
    · exact .inl rfl
    · exact .inl rfl
    · exact .inr ⟨_, _, _, _, rfl, rfl, not_silent_append_goal _ _⟩

theorem rpcType_alone (t : Token) (ts : List Token) :
    react .rpcType (t :: ts) = react .rpcType [t] ∨
      ∃ role next role' next', react .rpcType (t :: ts) = .take role next ∧
        react .rpcType [t] = .take role' next' ∧ ¬ Silent next' := by
  obtain ⟨k, start, text⟩ := t
  by_cases hk : k = .keyword .stream
  · subst hk
    have hone : react .rpcType [⟨.keyword .stream, start, text⟩] =
        .take .plain [.goal .typeName] := rfl
    refine .inr ?_
    by_cases hparen : kindAt (⟨.keyword .stream, start, text⟩ :: ts) 1 = some (.punct .rightParen)
    · exact ⟨.plain, [.goal (.moreName "type name")], _, _, if_neg fun h => h.2 hparen, hone,
        not_silent_append_goal [] _⟩
    · exact ⟨_, _, _, _, if_pos ⟨rfl, hparen⟩, hone, not_silent_append_goal [] _⟩
  · have hstream : some k ≠ some (.keyword .stream) := by simpa using hk
    exact .inl ((if_neg fun h => hstream h.1).trans (if_neg fun h => hstream h.1).symm)

theorem attention : Attention react where
  congr {g t u ts us} hb hk := by
    obtain ⟨k, start, text⟩ := t
    obtain ⟨l, start', text'⟩ := u
    obtain rfl : k = l := Token.kind_eq_of_bare_eq hb
    obtain rfl : text = text' := Token.text_eq_of_bare_eq hb
    have hfield : afterFieldStart? (⟨k, start, text⟩ :: ts) =
        afterFieldStart? (⟨k, start', text⟩ :: us) := afterFieldStart?_congr rfl hk
    cases g with
    | literal g => exact Literal.react_cons _ _ _ _ _ _ _ _
    | messageBody =>
      have hmember : afterMessageMemberStart? (⟨k, start, text⟩ :: ts) =
          afterMessageMemberStart? (⟨k, start', text⟩ :: us) := by
        rw [afterMessageMemberStart?, hfield]
        rfl
      exact congrArg (reactInBody .messageBody "message body declaration" · (some k)) hmember
    | oneofBody => exact congrArg (reactInBody .oneofBody "oneof field" · (some k)) hfield
    | rpcType =>
      have hk' : kindAt (⟨k, start, text⟩ :: ts) 1 = kindAt (⟨k, start', text⟩ :: us) 1 := hk
      rw [react, hk']
      rfl
    | _ => rfl
  alone g t ts := by
    cases g with
    | literal g => exact .inl (Literal.react_cons _ _ _ _ _ _ _ _)
    | messageBody =>
      refine reactInBody_alone _ _ _ ?_
      rcases afterFieldStart?_cons t ts with h | ⟨hk, h⟩
      · refine .inl ?_
        rw [afterMessageMemberStart?, h]
        rfl
      · obtain ⟨k, start, text⟩ := t
        obtain rfl : k = .keyword .map := hk
        exact .inr h
    | oneofBody =>
      refine reactInBody_alone _ _ _ ?_
      rcases afterFieldStart?_cons t ts with h | ⟨-, h⟩
      · exact .inl h
      · exact .inr h
    | rpcType => exact rpcType_alone t ts
    | _ => exact .inl rfl

theorem react_of_punct {t : Token} {c : Punct} (ht : t.kind = .punct c) (g : Goal) (ts : List Token) :
    react g (t :: ts) = react g [t] := by
  obtain ⟨k, start, text⟩ := t
  obtain rfl : k = .punct c := ht
  cases g with
  | literal g => exact Literal.react_cons _ _ _ _ _ _ _ _
  | _ => rfl

def IsWrongVersion (t : Token) : Prop := t.kind = .string ∧ isVersionLiteral t.text = false

theorem reactInBody_expected {body : Goal} {what : String} {member? : Option Symbols}
    {k : Option TokenKind} {refusal : Refusal}
    (h : reactInBody body what member? k = .reject refusal) : refusal = .expected what := by
  unfold reactInBody at h
  split at h
  · cases h
  · cases h
  · cases h
  · exact (Reaction.takeOrRefuse_eq_reject.1 h).2

theorem reactToVersion_eq_reject {t? : Option Token} {refusal : Refusal}
    (h : reactToVersion t? = .reject refusal) :
    (∃ what, refusal = .expected what) ∨ refusal = .wrongVersion ∧ ∃ t ∈ t?, IsWrongVersion t := by
  unfold reactToVersion at h
  split at h
  · next t =>
    split at h
    · next hk =>
      split at h
      · cases h
      · next hversion =>
        exact .inr ⟨(Reaction.reject.inj h).symm, t, rfl, hk, Bool.eq_false_of_not_eq_true hversion⟩
    · exact .inl ⟨_, (Reaction.reject.inj h).symm⟩
  · exact .inl ⟨_, (Reaction.reject.inj h).symm⟩

theorem forthright : Forthright IsWrongVersion react where
  reject {g ahead refusal} h := by
    cases g with
    | literal g => exact .inl (Literal.exists_expected _ g h)
    | version => exact reactToVersion_eq_reject h
    | declarations =>
      rw [react] at h
      split at h
      · cases h
      · cases h
      · exact .inl ⟨_, (Reaction.takeOrRefuse_eq_reject.1 h).2⟩
    | moreName | moreOptionName | moreOptions | moreReservedNames | moreReservedRanges | rangeRest
      | optionalSemicolon => exact absurd h Reaction.takeOrSkip_ne_reject
    | declarationEnd | rpcType | rpcEnd =>
      rw [react] at h
      split at h
      · cases h
      · exact .inl ⟨_, (Reaction.takeOrRefuse_eq_reject.1 h).2⟩
    | messageBody | oneofBody | enumBody | serviceBody | rpcBody =>
      exact .inl ⟨_, reactInBody_expected h⟩
    | _ => exact .inl ⟨_, (Reaction.takeOrRefuse_eq_reject.1 h).2⟩
  take_nil {g role next} h := by
    cases g with
    | literal g => exact Literal.react_nil_ne_take _ g h
    | _ => cases h
  take_invalid {g t ts role next} h hk := by
    obtain ⟨k, start, text⟩ := t
    obtain rfl : k = .invalid := hk
    cases g with
    | literal g => exact Literal.react_invalid_ne_take _ g h
    | _ => cases h

end Schema

namespace TextFormat

theorem attention : Attention react where
  congr {g t u ts us} hb _ := by
    obtain ⟨k, start, text⟩ := t
    obtain ⟨l, start', text'⟩ := u
    obtain rfl : k = l := Token.kind_eq_of_bare_eq hb
    obtain rfl : text = text' := Token.text_eq_of_bare_eq hb
    cases g with
    | literal g => exact Literal.react_cons _ _ _ _ _ _ _ _
    | _ => rfl
  alone g t ts := by
    cases g with
    | literal g => exact .inl (Literal.react_cons _ _ _ _ _ _ _ _)
    | _ => exact .inl rfl

theorem openMessage?_getD_eq_reject {k? : Option TokenKind} {r : Reaction Goal Shape}
    {refusal : Refusal} (h : (k?.bind openMessage?).getD r = .reject refusal) :
    r = .reject refusal := by
  cases ho : k?.bind openMessage? with
  | none => rwa [ho] at h
  | some r' =>
    obtain ⟨k, -, hk⟩ := Option.bind_eq_some_iff.1 ho
    obtain ⟨p, -, rfl⟩ := Option.map_eq_some_iff.1 hk
    rw [ho] at h
    cases h

theorem forthright : Forthright (fun _ => False) react where
  reject {g ahead refusal} h := by
    refine .inl ?_
    cases g with
    | literal g => exact Literal.exists_expected _ g h
    | fields =>
      rw [react] at h
      split at h
      · cases h
      · exact ⟨_, (Reaction.takeOrRefuse_eq_reject.1 h).2⟩
    | body closing =>
      rw [react] at h
      split at h
      · exact ⟨_, (Reaction.reject.inj h).symm⟩
      · split at h
        · cases h
        · exact ⟨_, (Reaction.takeOrRefuse_eq_reject.1 h).2⟩
    | fieldRest =>
      rw [react] at h
      split at h
      · cases h
      · exact ⟨_, (Reaction.reject.inj (openMessage?_getD_eq_reject h)).symm⟩
    | value => exact ⟨_, (Reaction.takeOrRefuse_eq_reject.1 (openMessage?_getD_eq_reject h)).2⟩
  take_nil {g role next} h := by
    cases g with
    | literal g => exact Literal.react_nil_ne_take _ g h
    | _ => cases h
  take_invalid {g t ts role next} h hk := by
    obtain ⟨k, start, text⟩ := t
    obtain rfl : k = .invalid := hk
    cases g with
    | literal g => exact Literal.react_invalid_ne_take _ g h
    | _ => cases h

end TextFormat
end ProtoSyntax
