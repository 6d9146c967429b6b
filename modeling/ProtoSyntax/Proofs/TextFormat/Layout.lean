import ProtoSyntax.Proofs.Parsing.Layout
import ProtoSyntax.Proofs.TextFormat.Rules

/-!
# The layout of text-format data

Fields and messages stand everywhere, with separators between them. Every derivation of a text is
cut into parts that fit there.
-/

namespace ProtoSyntax.TextFormat
open Ebnf (opt star alt)

def fieldHead : Expr :=
  Literal.fieldName ++ [.punct .colon, alt [Literal.stringRun, Literal.scalar,
    .punct .leftBracket :: Literal.itemsUpToBracket .literal]]

def messageHead : Expr := Literal.fieldName ++ [opt [.punct .colon]]

def layout : Layout Nonterminal Shape Unit where
  loose _ kind := kind = .punct .comma || kind = .punct .semicolon
  head
    | _, .field => some fieldHead
    | _, .message => some messageHead
  leafEnd
    | .field => some []
    | .message => none
  delimiters
    | .field => []
    | .message => [(.leftBrace, some .rightBrace), (.leftAngle, some .rightAngle)]
  inside _ := ()
  single _ := false

def isLiteral : Nonterminal → Bool
  | .literal _ => true
  | .field => false

theorem isPlainPhrase_rule (m : Nonterminal) (h : isLiteral m = true) :
    isPlainPhrase isLiteral (rule m) = true := by
  cases m with
  | field => cases h
  | literal m => cases m <;> rfl

abbrev YieldsIn (n : Nat) (one : Bool) (e : Expr) : Prop := Yields rule layout n one () e

variable {n : Nat} {one : Bool}

theorem yields_messageUpTo {opening closing : Punct} (h : YieldsIn n false [.ref .field])
    (hdel : (opening, some closing) ∈ layout.delimiters .message) :
    YieldsIn (n + 1) one
      (.mark .begins :: (messageHead ++ .mark (.opens .message) :: .punct opening :: bodyUpTo closing)) :=
  .block isPlainPhrase_rule .message rfl rfl rfl hdel (fun _ => Yields.closes_inv) h.star rfl

theorem yields_message (h : YieldsIn n false [.ref .field]) :
    YieldsIn (n + 1) one (.mark .begins :: messageHead ++ message) := by
  refine .alt fun c hc => ?_
  rw [List.append_nil]
  simp only [List.mem_cons, List.not_mem_nil, or_false] at hc
  rcases hc with rfl | rfl
  · exact yields_messageUpTo h (by decide)
  · exact yields_messageUpTo h (by decide)

theorem yields_separator : YieldsIn n false Literal.separator := by
  refine .alt (b := []) (e := []) fun c hc => ?_
  simp only [List.mem_cons, List.not_mem_nil, or_false] at hc
  rcases hc with rfl | rfl
  · exact .nil
  · refine .alt (b := []) (e := []) fun c hc => ?_
    simp only [List.mem_cons, List.not_mem_nil, or_false] at hc
    rcases hc with rfl | rfl
    · exact .punct rfl
    · exact .punct rfl

theorem yields_field : YieldsIn n false [.ref .field] := by
  refine .ref ?_
  induction n with
  | zero =>
    intro ss hss hd
    cases hd
    cases hss
  | succ n ih =>
    have hmessage (c : Expr) (hc : c ∈ [[], [.punct .colon]]) :
        YieldsIn (n + 1) false (.mark .begins :: (Literal.fieldName ++ c ++ message)) := by
      refine (yields_message (.ref ih)).of_derives fun ss hd => ?_
      cases hd with
      | mark _ hd =>
        obtain ⟨x, y, rfl, hx, hy⟩ := hd.split
        obtain ⟨u, v, rfl, hu, hv⟩ := hx.split
        refine .mark _ (.append (hu.append (.alt hc ?_)) hy)
        simpa using hv
    refine .append (.alt fun c hc => ?_) yields_separator
    rw [List.append_nil]
    simp only [List.mem_cons, List.not_mem_nil, or_false] at hc
    rcases hc with rfl | rfl
    · show YieldsIn (n + 1) false ((.mark .begins :: Literal.fieldName ++ [.punct .colon]) ++ value)
      refine .alt fun c hc => ?_
      rw [List.append_nil]
      simp only [List.mem_cons, List.not_mem_nil, or_false] at hc
      rcases hc with rfl | rfl
      · exact .leaf isPlainPhrase_rule .field rfl rfl rfl rfl rfl
      · exact hmessage [.punct .colon] (by simp)
    · exact hmessage [] (by simp)

theorem lacks_fieldName {barred : List Punct}
    (h : ∀ p ∈ [Punct.leftBracket, .dot, .slash, .rightBracket], p ∉ barred) :
    Lacks rule barred (Literal.fieldName : Expr) := by
  simp only [List.forall_mem_cons, List.not_mem_nil, false_implies, implies_true, and_true] at h
  obtain ⟨hleft, hdot, hslash, hright⟩ := h
  refine .alt (fun a ha => ?_) .nil
  simp only [List.mem_cons, List.not_mem_nil, or_false] at ha
  rcases ha with rfl | rfl
  · exact .word .nil
  · refine .punct hleft (.word (.star (.alt (fun a ha => ?_) (.word .nil)) (.punct hright .nil)))
    simp only [List.mem_cons, List.not_mem_nil, or_false] at ha
    rcases ha with rfl | rfl
    · exact .punct hdot .nil
    · exact .punct hslash .nil

theorem exists_parts {ss : List (Signal Shape)} (h : Derives rule document ss) :
    ∃ parts, Part.signals parts = ss ∧ ∀ q ∈ parts, Fits rule layout () q := by
  obtain ⟨parts, hss, hfits, -⟩ := yields_field.star ss (Nat.le_refl _) h
  exact ⟨parts, hss, hfits⟩

end ProtoSyntax.TextFormat
