import ProtoSyntax.Proofs.Tiling

/-!
# Tokens of fixed text

Punctuation and the names of primitive types are told by their kind: their tokens have no other text than
the one of the kind.
-/

namespace ProtoSyntax

def TokenKind.spelling? : TokenKind → Option String
  | .punct p => some (String.ofList [p.char])
  | .primitive p => some p.spelling
  | _ => none

namespace Token

/-- The text of the token is what its kind says. -/
def IsRegular (t : Token) : Prop := ∀ s ∈ t.kind.spelling?, t.text = s

theorem IsRegular.punct {t : Token} {p : Punct} (ht : t.IsRegular) (hk : t.kind = .punct p) :
    t.text = String.ofList [p.char] := ht _ (by rw [hk]; rfl)

theorem IsRegular.primitive {t : Token} {p : Primitive} (ht : t.IsRegular) (hk : t.kind = .primitive p) :
    t.text = p.spelling := ht _ (by rw [hk]; rfl)

end Token

theorem char_of_punctOrInvalid {allowed : Punct → Bool} {c : Char} {p : Punct}
    (h : punctOrInvalid allowed c = .punct p) : p.char = c := by
  unfold punctOrInvalid at h
  split at h
  · next q hq =>
    split at h
    · obtain rfl := TokenKind.punct.inj h
      simpa using List.find?_some hq
    · cases h
  · cases h

theorem Language.lexeme_eq_punct {language : Language} {c : Char} {cs : List Char} {p : Punct}
    (h : (language.lexeme c cs).1 = .punct p) : p.char = c ∧ (language.lexeme c cs).2 = 0 := by
  by_cases hmark : c = language.commentMark
  · subst hmark
    rcases language.lexeme_commentMark_kind cs with hkind | ⟨block, hkind⟩ <;>
      cases hkind.symm.trans h
  rw [language.lexeme_eq hmark, Lexicon.lexeme] at h ⊢
  split_ifs at h ⊢
  · rw [Lexicon.numberLexeme_kind] at h
    rcases language.number_kind (c :: cs) with hkind | ⟨radix, hkind⟩ <;> cases hkind.symm.trans h
  · have hspells := language.spells_wordKind (String.ofList (c :: cs.take (wordLength cs)))
    rw [show language.lexicon.wordKind _ = .punct p from h] at hspells
    cases hspells
  · exact ⟨char_of_punctOrInvalid h, rfl⟩

theorem Language.lexeme_eq_primitive {language : Language} {c : Char} {cs : List Char} {p : Primitive} {n : Nat}
    (h : language.lexeme c cs = (.primitive p, n)) : String.ofList (c :: cs.take n) = p.spelling := by
  have hlexes := language.lexes c cs
  rw [h] at hlexes
  cases hlexes with
  | number _ _ hkind => rcases hkind with hkind | ⟨_, hkind⟩ <;> cases hkind
  | word _ hspells =>
    cases hspells with
    | primitive _ _ hspelling => exact hspelling.symm
  | single _ hkind => rcases hkind with hkind | ⟨_, hkind⟩ <;> cases hkind

theorem Token.FoundIn.text_eq {language : Language} {cs : List Char} {t : Token} {p : Punct}
    (h : t.FoundIn language.lexeme cs) (hk : t.kind = .punct p) : t.text = String.ofList [p.char] := by
  obtain ⟨before, c, body, after, -, -, hl, -, htext⟩ := h
  have hpunct : (language.lexeme c (body ++ after)).1 = .punct p := hk ▸ congrArg Prod.fst hl
  obtain ⟨hc, hlength⟩ := Language.lexeme_eq_punct hpunct
  have hbody : body.length = 0 := (congrArg Prod.snd hl).symm.trans hlength
  rw [htext, hc, List.length_eq_zero_iff.1 hbody]

theorem isRegular_tokens {language : Language} {text : String} {t : Token} (ht : t ∈ language.tokens text) :
    t.IsRegular := by
  have hfound := tokens_foundIn language text t ht
  intro s hs
  cases hk : t.kind <;> rw [hk] at hs <;> cases hs
  · obtain ⟨before, c, body, after, -, -, hl, -, htext⟩ := hfound
    rw [hk] at hl
    rw [htext, ← Language.lexeme_eq_primitive hl, List.take_left]
  · exact hfound.text_eq hk

theorem Token.exists_getLast?_of_punct {language : Language} {text : String} {t : Token} {p : Punct}
    (ht : t ∈ language.tokens text) (hk : t.kind = .punct p) :
    ∃ c ∈ t.text.toList.getLast?, isWordPart c = false := by
  rw [(tokens_foundIn language text t ht).text_eq hk]
  exact ⟨p.char, by simp, by cases p <;> rfl⟩

end ProtoSyntax
