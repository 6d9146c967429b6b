import ProtoSyntax.Proofs.NodeRanges
import ProtoSyntax.Proofs.Tree.Smallest

/-!
# The node at an offset

In the tree of a text, the search from the root for the node at an offset finds the shortest of all
nodes around it. The search is greedy; it is right because siblings overlap only where a comment
interrupts a node, and then the comment is before all that is below the node.
-/

namespace ProtoSyntax

theorem Reads.laminar {G N S K L : Type} [Vocabulary K] {g : Grammar G S K} {goal : G}
    {rule : N → Phrase N S} {lang : G → Phrase N S} {follow : G → List (Symbol G S) → Prop}
    {blind : G → List Piece → Prop} {layout : Layout N S L} {place : L} {At : K → L → Prop}
    {closers : K → K → List Punct} {trails : K → K → Bool} {language : Language} {text : String}
    {tree : Tree K} (h : Reads g goal rule lang follow blind layout place)
    (hcloses : Closes layout (fun shape => g.build shape text) At closers trails)
    (hroot : At Vocabulary.root place) (hp : g.parse goal text (language.tokens text) = .ok tree) :
    tree.Laminar ∧ tree.range Tree.root = ⟨0, text.utf8ByteSize⟩ := by
  obtain ⟨lead, parts, -, -, -, hmade, htidy⟩ := h.exists_tidy hcloses.specifies hroot hp
  exact ⟨hmade.linked.laminar hmade.outline htidy, Tree.range_of_outlineAt? hmade.outline⟩

theorem Tree.Laminar.foundAt_nodeAtOffset {K : Type} {t : Tree K} {length : Nat} (h : t.Laminar)
    (hroot : t.range root = ⟨0, length⟩) (offset : Nat) :
    (offset < length → t.FoundAt offset (t.nodeAtOffset offset)) ∧
      (length ≤ offset → t.nodeAtOffset offset = root) := by
  constructor
  · intro hlt
    refine h.foundAt ?_
    rw [hroot, Range.contains_iff]
    exact ⟨Nat.zero_le _, hlt⟩
  · intro hle
    refine h.nodeAtOffset_eq_root ?_
    rw [hroot, Bool.eq_false_iff, ne_eq, Range.contains_iff]
    exact fun hc => Nat.not_lt.2 hle hc.2

namespace Document

def nodeAtOffset (offset : Nat) : Document → Nat
  | .schema tree => tree.nodeAtOffset offset
  | .textFormat tree => tree.nodeAtOffset offset

/-- The node is around the offset, none in the document that is so is shorter, and none below it
is around the offset. -/
def FoundAt (offset id : Nat) : Document → Prop
  | .schema tree => tree.FoundAt offset id
  | .textFormat tree => tree.FoundAt offset id

theorem nodeAtOffset_smallest {language : Language} {text : String} {d : Document}
    (h : parse language text = .ok d) (offset : Nat) :
    (offset < text.utf8ByteSize → d.FoundAt offset (d.nodeAtOffset offset)) ∧
      (text.utf8ByteSize ≤ offset → d.nodeAtOffset offset = Tree.root) := by
  rcases parse_eq_ok h with ⟨tree, hp, -, rfl⟩ | ⟨tree, hp, -, rfl⟩
  · obtain ⟨hlaminar, hroot⟩ := Schema.reads.laminar (Schema.closes text) rfl hp
    exact hlaminar.foundAt_nodeAtOffset hroot offset
  · obtain ⟨hlaminar, hroot⟩ := TextFormat.reads.laminar (TextFormat.closes text) trivial hp
    exact hlaminar.foundAt_nodeAtOffset hroot offset

theorem nodeAtOffset_interrupting_comment :
    ∃ d, parse .schema "message A{B/*b*/c=1[d={}/*e*/];}" = .ok d ∧
      d.FoundAt 13 (d.nodeAtOffset 13) ∧ d.nodeAtOffset 32 = Tree.root := by
  obtain ⟨d, hd⟩ : ∃ d, parse .schema "message A{B/*b*/c=1[d={}/*e*/];}" = .ok d :=
    exists_ok_of_isOk (by rw [parse, Schema.parse, tokens_eq]; cbv)
  exact ⟨d, hd, (nodeAtOffset_smallest hd 13).1 (by decide), (nodeAtOffset_smallest hd 32).2 (by decide)⟩

end Document
end ProtoSyntax
