import ProtoSyntax.Proofs.Parsing.Reading
import ProtoSyntax.Proofs.TextFormat.Layout
import ProtoSyntax.TextFormat.Document

/-!
# Reading text-format data

A text is read to its end, field by field.
-/

namespace ProtoSyntax.TextFormat

theorem recurs_fields : Recurs react .fields where
  skip t ts := by
    simp [react]
  take {t ts role next} h := by
    simp only [react, kindAt_cons_zero, Reaction.takeOrRefuse_eq_take, afterFieldStart?,
      Option.map_eq_some_iff] at h
    obtain ⟨-, m, -, rfl⟩ := h
    exact ⟨m ++ [.goal .fieldRest, .goal (.literal .separator)], by simp⟩

theorem reads : Reads grammar .fields rule phrase follow blind layout () where
  recurs := recurs_fields
  guided := guided
  follow := ⟨.unguarded, rfl⟩
  exists_parts := exists_parts

end ProtoSyntax.TextFormat
