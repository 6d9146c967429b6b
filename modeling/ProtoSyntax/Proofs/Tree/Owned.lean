import Mathlib.Data.List.Nodup
import ProtoSyntax.Proofs.Tree.Walk

/-!
# Owned nodes

The links of a tree are kept twice, at the parent and at the child. In an owned tree the two agree: a
node is listed by its parent, once, and by no other node. What is below a node is then what has it
among its ancestors, and siblings have nothing below them in common.
-/

namespace ProtoSyntax.Tree

variable {K : Type} {t t' : Tree K} {id i c d p parent place : Nat} {kind : K} {range : Range}

structure Owned (t : Tree K) : Prop where
  linked : t.Linked
  parent?_root : t.parent? root = none
  parent?_child : ∀ p, ∀ c ∈ t.children p, t.parent? c = some p
  nodup : ∀ p, (t.children p).Nodup

section insertion

variable (h : t.insertChild? parent place kind range = some (id, t'))

include h

theorem parent?_insertChild?_new : t'.parent? id = some parent := by
  simp [parent?, node?_insertChild?_new h]

theorem parent?_insertChild?_of_ne (hc : c ≠ id) : t'.parent? c = t.parent? c := by
  by_cases hp : c = parent
  · subst hp
    simp only [parent?, node?_insertChild?_parent h]
    cases t.node? c <;> rfl
  · rw [parent?, node?_insertChild?_of_ne h hp hc, parent?]

theorem children_insertChild?_of_ne (hp : c ≠ parent) : t'.children c = t.children c := by
  by_cases hc : c = id
  · subst hc
    have hnone : t.node? c = none := node?_eq_none.2 (Nat.le_of_eq (insertChild?_eq h).1.symm)
    rw [children_of_node? (node?_insertChild?_new h), children, hnone]
    rfl
  · rw [children, node?_insertChild?_of_ne h hp hc, children]

end insertion

theorem owned_ofLength [Vocabulary K] (length : Nat) : (ofLength length : Tree K).Owned where
  linked := linked_ofLength length
  parent?_root := rfl
  parent?_child p c hc := by cases p <;> simp [children, node?, ofLength] at hc
  nodup p := by cases p <;> simp [children, node?, ofLength]

namespace Owned

theorem insertChild? (ht : t.Owned) (h : t.insertChild? parent place kind range = some (id, t')) :
    t'.Owned where
  linked := ht.linked.insertChild? h
  parent?_root := by
    have hid : root ≠ id := (insertChild?_eq h).1 ▸ Nat.ne_of_lt ht.linked.nonempty
    rw [parent?_insertChild?_of_ne h hid, ht.parent?_root]
  parent?_child p c hc := by
    have hid := (insertChild?_eq h).1
    by_cases hp : p = parent
    · subst hp
      rw [children_insertChild? h, List.mem_insertIdx (insertChild?_eq h).2.2.1] at hc
      rcases hc with rfl | hc
      · exact parent?_insertChild?_new h
      · have := (ht.linked.younger p c hc).2
        rw [parent?_insertChild?_of_ne h (by omega), ht.parent?_child p c hc]
    · rw [children_insertChild?_of_ne h hp] at hc
      have := (ht.linked.younger p c hc).2
      rw [parent?_insertChild?_of_ne h (by omega), ht.parent?_child p c hc]
  nodup p := by
    by_cases hp : p = parent
    · subst hp
      have hnew : id ∉ t.children p := fun hmem =>
        absurd (ht.linked.younger p id hmem).2 ((insertChild?_eq h).1 ▸ Nat.lt_irrefl _)
      rw [children_insertChild? h,
        (List.perm_insertIdx id (t.children p) (insertChild?_eq h).2.2.1).nodup_iff]
      exact List.nodup_cons.2 ⟨hnew, ht.nodup p⟩
    · rw [children_insertChild?_of_ne h hp]
      exact ht.nodup p

theorem setStop? {stop : Nat} (ht : t.Owned) (h : t.setStop? id stop = some t') : t'.Owned where
  linked := ht.linked.setStop? h
  parent?_root := (parent?_setStop? h root).trans ht.parent?_root
  parent?_child p c hc := by
    rw [parent?_setStop? h]
    exact ht.parent?_child p c (children_setStop? h p ▸ hc)
  nodup p := children_setStop? h p ▸ ht.nodup p

variable (ht : t.Owned)

include ht

theorem mem_children_iff : c ∈ t.children p ↔ t.parent? c = some p := by
  refine ⟨ht.parent?_child p c, fun hp => ?_⟩
  have hpos : 0 < c := by
    by_contra h0
    obtain rfl : c = root := Nat.eq_zero_of_not_pos h0
    rw [ht.parent?_root] at hp
    cases hp
  have hc : c < t.size := by
    by_contra hc
    rw [parent?, node?_eq_none.2 (Nat.le_of_not_lt hc)] at hp
    cases hp
  obtain ⟨q, hq, hmem⟩ := ht.linked.adopted c hpos hc
  rw [hp] at hq
  exact Option.some.inj hq ▸ hmem

theorem lt_of_parent? (h : t.parent? c = some p) : p < c :=
  (ht.linked.younger p c (ht.mem_children_iff.2 h)).1

theorem lt_size_of_parent? (h : t.parent? c = some p) : c < t.size :=
  (ht.linked.younger p c (ht.mem_children_iff.2 h)).2

theorem count_children (h : t.parent? c = some p) (q : Nat) :
    (t.children q).count c = if q = p then 1 else 0 := by
  split
  · next hq => exact List.count_eq_one_of_mem (ht.nodup q) (ht.mem_children_iff.2 (hq ▸ h))
  · next hq =>
    refine List.count_eq_zero_of_not_mem fun hmem => hq ?_
    exact Option.some.inj ((ht.parent?_child q c hmem).symm.trans h)

theorem induction_up {P : (i : Nat) → i < t.size → Prop} (top : ∀ h, P root h)
    (child : ∀ c p hc hp, t.parent? c = some p → P p hp → P c hc) (i : Nat) (hi : i < t.size) :
    P i hi := by
  induction i using Nat.strongRecOn with
  | _ i ih =>
    rcases Nat.eq_zero_or_pos i with rfl | hpos
    · exact top hi
    · obtain ⟨p, hp, -⟩ := ht.linked.adopted i hpos hi
      have hlt := ht.lt_of_parent? hp
      exact child i p hi (Nat.lt_trans hlt hi) hp (ih p hlt _)

theorem ancestors_root : t.ancestors root = [root] := by
  rw [ancestors, ht.parent?_root]

theorem ancestors_eq (h : t.parent? c = some p) : t.ancestors c = c :: t.ancestors p := by
  rw [ancestors, h]
  exact if_pos (ht.lt_of_parent? h)

theorem getLast?_ancestors (hi : i < t.size) : (t.ancestors i).getLast? = some root := by
  induction i, hi using ht.induction_up with
  | top => rw [ht.ancestors_root, List.getLast?_singleton]
  | child c p hc _ hp ih => rw [ht.ancestors_eq hp, List.getLast?_cons, ih, Option.getD_some]

theorem pairwise_ancestors (hi : i < t.size) : (t.ancestors i).Pairwise (· > ·) := by
  suffices (t.ancestors i).Pairwise (· > ·) ∧ ∀ a ∈ t.ancestors i, a ≤ i from this.1
  induction i, hi using ht.induction_up with
  | top => simp [ht.ancestors_root]
  | child c p hc _ hp ih =>
    have hlt := ht.lt_of_parent? hp
    have hle (a : Nat) (ha : a ∈ t.ancestors p) : a < c := Nat.lt_of_le_of_lt (ih.2 a ha) hlt
    rw [ht.ancestors_eq hp]
    refine ⟨List.pairwise_cons.2 ⟨hle, ih.1⟩, fun a ha => ?_⟩
    rcases List.mem_cons.1 ha with rfl | ha
    · exact Nat.le_refl a
    · exact Nat.le_of_lt (hle a ha)

theorem nodup_ancestors (hi : i < t.size) : (t.ancestors i).Nodup :=
  (ht.pairwise_ancestors hi).imp Nat.ne_of_gt

theorem mem_descendants_iff_parent? :
    i ∈ t.descendants id ↔ i = id ∨ ∃ p, t.parent? i = some p ∧ p ∈ t.descendants id := by
  constructor
  · intro hi
    induction id using ht.linked.induction with
    | h id ih =>
      rcases ht.linked.mem_descendants.1 hi with rfl | ⟨c, hc, hic⟩
      · exact .inl rfl
      · right
        rcases ih c hc hic with rfl | ⟨p, hp, hmem⟩
        · exact ⟨id, ht.parent?_child id i hc, ht.linked.self_mem_descendants id⟩
        · exact ⟨p, hp, ht.linked.mem_descendants.2 (.inr ⟨c, hc, hmem⟩)⟩
  · rintro (rfl | ⟨p, hp, hmem⟩)
    · exact ht.linked.self_mem_descendants i
    · exact ht.linked.child_mem_descendants hmem (ht.mem_children_iff.2 hp)

theorem mem_descendants_iff (hi : i < t.size) : i ∈ t.descendants id ↔ id ∈ t.ancestors i := by
  induction i, hi using ht.induction_up with
  | top =>
    rw [ht.mem_descendants_iff_parent?, ht.parent?_root, ht.ancestors_root, List.mem_singleton, eq_comm]
    simp
  | child c p hc _ hp ih =>
    rw [ht.mem_descendants_iff_parent?, ht.ancestors_eq hp, List.mem_cons, ← ih, eq_comm]
    simp [hp]

theorem le_of_mem_descendants (hi : i ∈ t.descendants id) : id ≤ i := by
  induction id using ht.linked.induction with
  | h id ih =>
    rcases ht.linked.mem_descendants.1 hi with rfl | ⟨c, hc, hic⟩
    · exact Nat.le_refl i
    · exact Nat.le_trans (Nat.le_of_lt (ht.linked.younger id c hc).1) (ih c hc hic)

theorem eq_of_siblings (hc : t.parent? c = some p) (hd : t.parent? d = some p)
    (hic : i ∈ t.descendants c) (hid : i ∈ t.descendants d) : c = d := by
  -- A sibling cannot be below a sibling, as its parent would be there too and is older than both.
  have hapart {c d : Nat} (hc : t.parent? c = some p) (hd : t.parent? d = some p)
      (hmem : c ∈ t.descendants d) : c = d := by
    rcases ht.mem_descendants_iff_parent?.1 hmem with he | ⟨q, hq, hqd⟩
    · exact he
    · obtain rfl : p = q := Option.some.inj (hc.symm.trans hq)
      exact absurd (ht.le_of_mem_descendants hqd) (Nat.not_le.2 (ht.lt_of_parent? hd))
  induction i using Nat.strongRecOn with
  | _ i ih =>
    rcases ht.mem_descendants_iff_parent?.1 hic with rfl | ⟨q, hq, hqc⟩
    · exact hapart hc hd hid
    · rcases ht.mem_descendants_iff_parent?.1 hid with rfl | ⟨q', hq', hqd⟩
      · exact (hapart hd hc hic).symm
      · obtain rfl : q = q' := Option.some.inj (hq.symm.trans hq')
        exact ih q (ht.lt_of_parent? hq) hqc hqd

theorem nodup_descendants (id : Nat) : (t.descendants id).Nodup := by
  induction id using ht.linked.induction with
  | h id ih =>
    rw [ht.linked.descendants_eq]
    refine List.nodup_cons.2 ⟨fun hmem => ?_, List.nodup_flatMap.2 ⟨ih, ?_⟩⟩
    · obtain ⟨c, hc, hid⟩ := List.mem_flatMap.1 hmem
      exact absurd (ht.le_of_mem_descendants hid) (Nat.not_le.2 (ht.linked.younger id c hc).1)
    · refine (ht.nodup id).imp_of_mem fun {c d} hc hd hne i hic hid => hne ?_
      exact ht.eq_of_siblings (ht.parent?_child id c hc) (ht.parent?_child id d hd) hic hid

theorem perm_descendants_root : (t.descendants root).Perm (List.range t.size) := by
  refine (List.perm_ext_iff_of_nodup (ht.nodup_descendants root) List.nodup_range).2 fun i => ?_
  rw [List.mem_range]
  exact ⟨ht.linked.lt_size_of_mem_descendants ht.linked.nonempty, ht.linked.mem_descendants_root⟩

end Owned
end ProtoSyntax.Tree
