import ProtoSyntax.Literal.Names
import ProtoSyntax.Proofs.Literal.Rules
import ProtoSyntax.Proofs.Parsing.Readers
import ProtoSyntax.Proofs.RegularTokens

/-!
# The names of fields, read

A plain name is a word. A name in brackets is put together from its words and marks, and the brackets are
what they are in the text.
-/

namespace ProtoSyntax.Literal
open Ebnf (star alt sepBy)

variable {N S : Type} {rule : N → Phrase N S} {us : List Token}

theorem extensionMark?_eq_some {mark : Token} (h : mark.kind = .punct .dot ∨ mark.kind = .punct .slash) :
    extensionMark? mark = some mark.text := if_pos h

theorem readExtensionName_append {opener closer : Token} (hopener : opener.text = "[")
    (hcloser : closer.text = "]") (hkind : closer.kind = .punct .rightBracket)
    (h : Generates rule (sepBy [.word] [alt [[.punct .dot], [.punct .slash]]]) us) (rest : List Token) :
    readExtensionName (opener :: us ++ closer :: rest) =
      (Token.concat (opener :: us ++ [closer]), rest) := by
  obtain ⟨word, more, rfl, -, hmore⟩ := h.token_inv
  obtain ⟨xs, rfl, hxs⟩ := hmore.star_inv
  have hmarks : ∀ x ∈ xs, ∃ mark word, x = [mark, word] ∧ extensionMark? mark = some mark.text := by
    intro x hx
    obtain ⟨y, z, rfl, hy, hz⟩ := Generates.append_inv (a := [alt [[.punct .dot], [.punct .slash]]]) (hxs x hx)
    obtain ⟨word, rfl, -⟩ := hz.single_inv
    obtain ⟨mark, rfl, hmark⟩ : ∃ mark, y = [mark] ∧ (mark.kind = .punct .dot ∨ mark.kind = .punct .slash) := by
      rcases hy.either_inv with hy | hy <;> obtain ⟨mark, rfl, hmark⟩ := hy.single_kind_inv
      · exact ⟨mark, rfl, .inl hmark⟩
      · exact ⟨mark, rfl, .inr hmark⟩
    exact ⟨mark, word, rfl, extensionMark?_eq_some hmark⟩
  have hstop : ∀ t ∈ (closer :: rest).head?, extensionMark? t = none := by
    rintro _ ⟨⟩
    simp [extensionMark?, hkind]
  simp [readExtensionName, Reader.moreWords_flatten hmarks hstop, hopener, hcloser, String.append_assoc]

theorem readFieldName_append (h : Generates rule fieldName us) (hregular : ∀ t ∈ us, t.IsRegular)
    (rest : List Token) : readFieldName (us ++ rest) = (Token.concat us, rest) := by
  rcases h.either_inv with h | h
  · obtain ⟨word, rfl, hword⟩ := h.single_inv
    have hkind : word.kind ≠ .punct .leftBracket := by
      intro hk
      rw [hk] at hword
      cases hword
    simp [readFieldName, hkind]
  · obtain ⟨front, back, rfl, hfront, hback⟩ := Generates.append_inv
      (a := .punct .leftBracket :: sepBy [.word] [alt [[.punct .dot], [.punct .slash]]]) h
    obtain ⟨opener, words, rfl, hopener, hwords⟩ := hfront.kind_inv
    obtain ⟨closer, rfl, hcloser⟩ := hback.single_kind_inv
    have hread := readExtensionName_append ((hregular opener (by simp)).punct hopener)
      ((hregular closer (by simp)).punct hcloser) hcloser hwords rest
    simpa [readFieldName, hopener] using hread

theorem steady_readExtensionName : Reader.Steady readExtensionName :=
  .bind .advance fun _ => .bind .takeText fun _ => .bind (.moreWords (fun _ => rfl) _) fun _ =>
    .bind .advance fun _ => .pure _

theorem steady_readFieldName : Reader.Steady readFieldName :=
  .bind (.peek 0) fun _ => .ite steady_readExtensionName .takeText

end ProtoSyntax.Literal
