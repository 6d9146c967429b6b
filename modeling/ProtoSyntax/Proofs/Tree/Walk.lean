import ProtoSyntax.Proofs.Tree.Linked
import ProtoSyntax.Tree.Walk

/-!
# Walks downwards

In a linked tree every node is below the root, and a descent into the shortest child around an
offset goes on as long as there is one.
-/

namespace ProtoSyntax.Tree

variable {K : Type} {t : Tree K} {id i c : Nat}

theorem Linked.descendants_eq (ht : t.Linked) (id : Nat) :
    t.descendants id = id :: (t.children id).flatMap t.descendants := by
  rw [descendants]
  congr 1
  refine List.flatMap_congr fun c hc => ?_
  rw [if_pos (ht.younger id c hc)]

theorem Linked.mem_descendants (ht : t.Linked) :
    i ∈ t.descendants id ↔ i = id ∨ ∃ c ∈ t.children id, i ∈ t.descendants c := by
  rw [ht.descendants_eq, List.mem_cons, List.mem_flatMap]

theorem Linked.self_mem_descendants (ht : t.Linked) (id : Nat) : id ∈ t.descendants id :=
  ht.mem_descendants.2 (.inl rfl)

theorem Linked.induction (ht : t.Linked) {P : Nat → Prop}
    (h : ∀ id, (∀ c ∈ t.children id, P c) → P id) (id : Nat) : P id := by
  induction hn : t.size - id using Nat.strongRecOn generalizing id with
  | _ n ih =>
    refine h id fun c hc => ?_
    have := ht.younger id c hc
    exact ih (t.size - c) (by omega) c rfl

theorem Linked.child_mem_descendants (ht : t.Linked) (hi : i ∈ t.descendants id)
    (hc : c ∈ t.children i) : c ∈ t.descendants id := by
  induction id using ht.induction with
  | h id ih =>
    rcases ht.mem_descendants.1 hi with rfl | ⟨d, hd, hid⟩
    · exact ht.mem_descendants.2 (.inr ⟨c, hc, ht.self_mem_descendants c⟩)
    · exact ht.mem_descendants.2 (.inr ⟨d, hd, ih d hd hid⟩)

theorem Linked.lt_size_of_mem_descendants (ht : t.Linked) (hid : id < t.size)
    (hi : i ∈ t.descendants id) : i < t.size := by
  induction id using ht.induction with
  | h id ih =>
    rcases ht.mem_descendants.1 hi with rfl | ⟨c, hc, hic⟩
    · exact hid
    · exact ih c hc (ht.younger id c hc).2 hic

theorem Linked.mem_descendants_root (ht : t.Linked) (hi : i < t.size) : i ∈ t.descendants root := by
  -- A node is younger than its parent.
  induction i using Nat.strongRecOn with
  | _ i ih =>
    rcases Nat.eq_zero_or_pos i with rfl | hpos
    · exact ht.self_mem_descendants root
    · obtain ⟨p, -, hmem⟩ := ht.adopted i hpos hi
      have := ht.younger p i hmem
      exact ht.child_mem_descendants (ih p this.1 (by omega)) hmem

theorem exists_shortest? (t : Tree K) (c : Nat) (cs : List Nat) :
    ∃ d, t.shortest? (c :: cs) = some d ∧ d ∈ c :: cs ∧
      ∀ e ∈ c :: cs, (t.range d).length ≤ (t.range e).length := by
  induction cs generalizing c with
  | nil => exact ⟨c, rfl, by simp, by simp⟩
  | cons b cs ih =>
    obtain ⟨d, hd, hmem, hmin⟩ := ih b
    rw [shortest?, hd]
    by_cases hlt : (t.range d).length < (t.range c).length
    · refine ⟨d, if_pos hlt, List.mem_cons_of_mem _ hmem, fun e he => ?_⟩
      rcases List.mem_cons.1 he with rfl | he
      · exact Nat.le_of_lt hlt
      · exact hmin e he
    · refine ⟨c, if_neg hlt, List.mem_cons_self, fun e he => ?_⟩
      rcases List.mem_cons.1 he with rfl | he
      · exact Nat.le_refl _
      · exact Nat.le_trans (Nat.le_of_not_lt hlt) (hmin e he)

theorem Linked.narrow_cases (ht : t.Linked) (offset id : Nat) :
    t.narrow offset id = id ∧ (∀ c ∈ t.children id, (t.range c).contains offset = false) ∨
      ∃ c ∈ t.children id, (t.range c).contains offset = true ∧
        t.narrow offset id = t.narrow offset c ∧
        ∀ d ∈ t.children id, (t.range d).contains offset = true →
          (t.range c).length ≤ (t.range d).length := by
  rw [narrow]
  cases hf : (t.children id).filter fun c => (t.range c).contains offset with
  | nil => exact .inl ⟨rfl, by simpa using List.filter_eq_nil_iff.1 hf⟩
  | cons b bs =>
    obtain ⟨c, hc, hmem, hmin⟩ := t.exists_shortest? b bs
    have hiff (d : Nat) : d ∈ b :: bs ↔ d ∈ t.children id ∧ (t.range d).contains offset = true := by
      rw [← hf, List.mem_filter]
    obtain ⟨hchild, hcontains⟩ := (hiff c).1 hmem
    refine .inr ⟨c, hchild, hcontains, ?_, fun d hd hdc => hmin d ((hiff d).2 ⟨hd, hdc⟩)⟩
    simp only [hc, if_pos (ht.younger id c hchild)]

theorem Linked.narrow_mem_descendants (ht : t.Linked) (offset id : Nat) :
    t.narrow offset id ∈ t.descendants id := by
  induction id using ht.induction with
  | h id ih =>
    rcases ht.narrow_cases offset id with ⟨he, -⟩ | ⟨c, hc, -, he, -⟩
    · rw [he]
      exact ht.self_mem_descendants id
    · rw [he]
      exact ht.mem_descendants.2 (.inr ⟨c, hc, ih c hc⟩)

end ProtoSyntax.Tree
