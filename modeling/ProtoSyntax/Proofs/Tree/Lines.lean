import ProtoSyntax.Proofs.Tree.Nested
import ProtoSyntax.Proofs.Tree.Owned

/-!
# The lines of a tree

A tree is shown as the lines of its nodes in pre-order, each indented by the number of nodes above it.
-/

namespace ProtoSyntax.Tree

variable {K : Type} {t : Tree K} {id : Nat}

def depth (t : Tree K) (id : Nat) : Nat := (t.ancestors id).length - 1

theorem Owned.depth_child (ht : t.Owned) {c p : Nat} (h : t.parent? c = some p) :
    t.depth c = t.depth p + 1 := by
  have hpos : 0 < (t.ancestors p).length := by
    have hp : p < t.size := Nat.lt_trans (ht.lt_of_parent? h) (ht.lt_size_of_parent? h)
    cases hps : t.ancestors p with
    | nil => simpa [hps] using ht.getLast?_ancestors hp
    | cons => exact Nat.succ_pos _
  rw [depth, depth, ht.ancestors_eq h, List.length_cons]
  omega

theorem Owned.length_descendants (ht : t.Owned) : (t.descendants root).length = t.size := by
  rw [ht.perm_descendants_root.length_eq, List.length_range]

variable [Vocabulary K]

def line (t : Tree K) (id : Nat) : String :=
  ((t.node? id).map fun n => Outline.line (t.depth id) n.kind n.range).getD ""

theorem forestLines_eq {depth : Nat} {ids : List Nat} {os : List (Outline K)} (hos : t.Shows ids os)
    (h : ∀ i ∈ ids, ∀ o, t.outlineAt? i = some o → o.lines depth = (t.descendants i).map t.line) :
    Outline.forestLines depth os = (ids.flatMap t.descendants).map t.line := by
  induction hos with
  | nil => rfl
  | @cons i o ids os ho _ ih =>
    rw [Outline.forestLines, List.flatMap_cons, List.map_append, h i List.mem_cons_self o ho,
      ih fun j hj => h j (List.mem_cons_of_mem i hj)]

theorem Owned.lines_eq (ht : t.Owned) {o : Outline K} (ho : t.outlineAt? id = some o) :
    o.lines (t.depth id) = (t.descendants id).map t.line := by
  induction id using ht.linked.induction generalizing o with
  | h id ih =>
    obtain ⟨n, hn, hkind, hrange, hshows⟩ := ht.linked.shows_children ho
    have hchildren := children_of_node? hn
    have hforest : Outline.forestLines (t.depth id + 1) o.children =
        (n.children.flatMap t.descendants).map t.line := by
      refine forestLines_eq hshows fun c hc o' ho' => ?_
      rw [← hchildren] at hc
      rw [← ht.depth_child (ht.parent?_child id c hc)]
      exact ih c hc ho'
    rw [ht.linked.descendants_eq, hchildren, List.map_cons, ← hforest, line, hn, Option.map_some,
      Option.getD_some, hkind, hrange]
    cases o
    rfl

theorem Owned.text_eq (ht : t.Owned) :
    t.text = String.join ((t.descendants root).map fun id => t.line id ++ "\n") := by
  obtain ⟨o, ho⟩ : ∃ o, t.outlineAt? root = some o := exists_outlineAt? ht.linked.nonempty
  have hdepth : t.depth root = 0 := by rw [depth, ht.ancestors_root, List.length_singleton]
  have hlines := ht.lines_eq ho
  rw [hdepth] at hlines
  rw [text, outline?, ho, Option.map_some, Option.getD_some, Outline.text, hlines, List.map_map]
  rfl

end ProtoSyntax.Tree
