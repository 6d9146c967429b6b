import ProtoSyntax.Proofs.Comments
import ProtoSyntax.Proofs.Parsing.Coverage

/-!
# No token is dropped

Between the braces of a block, as at the top of a text, each token lies in one of the nodes there, or it
is one of the separators that stand between nodes.
-/

namespace ProtoSyntax

namespace Schema

theorem separated {l : Place} (hb : l ≠ .brackets) (hv : l ≠ .value) :
    layout.Separated [.semicolon] l where
  closed {shape e opening} hhead hdel := by
    obtain rfl := eq_bracketOption_of_unclosed hdel
    exact hb (headAt_bracketOption_eq hhead)
  loose {kind} h := by
    refine ⟨.semicolon, List.mem_cons_self, ?_⟩
    cases l <;> first | exact of_decide_eq_true h | contradiction

theorem tight (text : String) :
    Tight layout (fun shape => build shape text) Kind.opening [(.leftBrace, .rightBrace)] [.semicolon] where
  inside {shape us} hne := by
    cases shape with
    | message | oneof | enum | service | rpc => exact separated (by decide) (by decide)
    | _ => exact absurd rfl hne
  pairs {shape us p close} hne hdel := by
    cases shape with
    | message | oneof | enum | service | rpc =>
      obtain ⟨rfl, hclose⟩ := Prod.mk.inj (List.mem_singleton.1 hdel)
      obtain rfl := Option.some.inj hclose
      exact List.mem_cons_self
    | _ => exact absurd rfl hne

end Schema

namespace TextFormat

theorem separated : layout.Separated [.comma, .semicolon] () where
  closed {shape e opening} _ hdel := by cases shape <;> simp [layout] at hdel
  loose {kind} h := by simpa [layout] using h

theorem tight (text : String) :
    Tight layout (fun shape => build shape text) Kind.opening
      [(.leftBrace, .rightBrace), (.leftAngle, .rightAngle)] [.comma, .semicolon] where
  inside _ := separated
  pairs {shape us p close} _ hdel := by
    cases shape with
    | field => cases hdel
    | message => simpa [layout] using hdel

end TextFormat

namespace Document

/-- No token of the text is dropped from a document, but for separators. -/
def DropsNothing (text : String) : Document → Prop
  | .schema tree =>
    tree.DropsNothing (Language.schema.tokens text) Schema.Kind.opening [(.leftBrace, .rightBrace)]
      Schema.Kind.bodiless [.semicolon]
  | .textFormat tree =>
    tree.DropsNothing (Language.textFormat.tokens text) TextFormat.Kind.opening
      [(.leftBrace, .rightBrace), (.leftAngle, .rightAngle)] (fun _ => false) [.comma, .semicolon]

theorem dropsNothing_of_parse {language : Language} {text : String} {d : Document}
    (h : parse language text = .ok d) : d.DropsNothing text := by
  rcases parse_eq_ok h with ⟨tree, hp, -, rfl⟩ | ⟨tree, hp, -, rfl⟩
  · exact Schema.reads.dropsNothing (Schema.closes text) (Schema.opens text) (Schema.tight text)
      (Schema.separated (by decide) (by decide)) rfl hp
  · exact TextFormat.reads.dropsNothing (TextFormat.closes text) (TextFormat.opens text)
      (TextFormat.tight text) TextFormat.separated trivial hp

theorem dropsNothing_stray_semicolons :
    ∃ d, parse .schema "service A{rpc B(C)returns(D){;}/*e*/;;rpc F(G)returns(H);};" = .ok d ∧
      d.DropsNothing "service A{rpc B(C)returns(D){;}/*e*/;;rpc F(G)returns(H);};" := by
  obtain ⟨d, hd⟩ : ∃ d,
      parse .schema "service A{rpc B(C)returns(D){;}/*e*/;;rpc F(G)returns(H);};" = .ok d :=
    exists_ok_of_isOk (by rw [parse, Schema.parse, tokens_eq]; cbv)
  exact ⟨d, hd, dropsNothing_of_parse hd⟩

end Document
end ProtoSyntax
