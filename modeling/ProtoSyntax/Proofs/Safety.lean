import ProtoSyntax.Proofs.NodeRanges
import ProtoSyntax.Proofs.Parsing.Safety
import ProtoSyntax.Proofs.Turns

/-!
# No text is misused

Every text in either language is read or refused. Until then nothing is done that a tree, the
containers or the text do not allow.
-/

namespace ProtoSyntax

theorem tokens_sliceable (language : Language) (text : String) :
    Sliceable text (language.tokens text) where
  ordered := ordered_tokens language text
  fits t ht :=
    have hfound := tokens_foundIn language text t ht
    ⟨t.start_le_stop, hfound.isValid_start, hfound.isValid_stop⟩

namespace Document

def Safe (text : String) : Language → Prop
  | .schema => Schema.grammar.Safe .declarations text (Language.schema.tokens text)
  | .textFormat => TextFormat.grammar.Safe .fields text (Language.textFormat.tokens text)

theorem safe (language : Language) (text : String) : Safe text language := by
  cases language with
  | schema => exact Schema.disciplined.safe rfl (tokens_sliceable .schema text)
  | textFormat => exact TextFormat.disciplined.safe rfl (tokens_sliceable .textFormat text)

theorem parse_safe (language : Language) (text : String) :
    Safe text language ∧ ((∃ d, parse language text = .ok d) ∨
      ∃ e, parse language text = .error (.refused e) ∧ e.range.FitsIn text) := by
  refine ⟨safe language text, ?_⟩
  cases language with
  | schema =>
    rcases (safe .schema text).outcome with ⟨tree, h⟩ | ⟨e, h, he⟩
    · exact .inl ⟨.schema tree, congrArg (Except.map Document.schema) h⟩
    · exact .inr ⟨e, congrArg (Except.map Document.schema) h, he⟩
  | textFormat =>
    rcases (safe .textFormat text).outcome with ⟨tree, h⟩ | ⟨e, h, he⟩
    · exact .inl ⟨.textFormat tree, congrArg (Except.map Document.textFormat) h⟩
    · exact .inr ⟨e, congrArg (Except.map Document.textFormat) h, he⟩

end Document
end ProtoSyntax
