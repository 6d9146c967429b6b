import Mathlib.Data.List.Pairwise
import ProtoSyntax.Proofs.Tree.Nested
import ProtoSyntax.Proofs.Tree.Walk

/-!
# The smallest node around an offset

Where siblings overlap only if one is within the other and before all that is below that, the
descent into the shortest child ends at the shortest of all nodes around the offset.
-/

namespace ProtoSyntax

variable {K : Type}

theorem Range.contains_iff {r : Range} {offset : Nat} :
    r.contains offset = true ↔ r.start ≤ offset ∧ offset < r.stop := by
  simp [contains]

theorem Range.IsWithin.contains {r s : Range} {offset : Nat} (h : r.IsWithin s)
    (hr : r.contains offset = true) : s.contains offset = true := by
  rw [contains_iff] at hr ⊢
  have := h.1
  have := h.2
  omega

theorem Range.IsWithin.length_le {r s : Range} (h : r.IsWithin s) : r.length ≤ s.length := by
  have := h.1
  have := h.2
  simp only [length]
  omega

theorem pairwise_or {α : Type} {R : α → α → Prop} {l : List α} {a b : α} (h : l.Pairwise R)
    (ha : a ∈ l) (hb : b ∈ l) (hne : a ≠ b) : R a b ∨ R b a := by
  have hsymm : Std.Symm fun a b => R a b ∨ R b a := ⟨fun _ _ => Or.symm⟩
  have hor : l.Pairwise fun a b => R a b ∨ R b a := h.imp Or.inl
  exact hor.forall ha hb hne

namespace Tree

open Outline (Tidy)

/-- Children are within their parents. Siblings are apart; or else the later one is within the
earlier and comes before all that is below it. -/
structure Laminar (t : Tree K) : Prop where
  linked : t.Linked
  within : ∀ id, ∀ c ∈ t.children id, (t.range c).IsWithin (t.range id)
  siblings : ∀ id, (t.children id).Pairwise fun c d =>
    (t.range c).stop ≤ (t.range d).start ∨
      (t.range c).start < (t.range d).start ∧ (t.range d).IsWithin (t.range c) ∧
        ∀ e ∈ t.children c, (t.range d).stop ≤ (t.range e).start

variable {t : Tree K} {id i c offset : Nat}

namespace Laminar

variable (h : t.Laminar)

include h

theorem descendant_within (hi : i ∈ t.descendants id) : (t.range i).IsWithin (t.range id) := by
  induction id using h.linked.induction with
  | h id ih =>
    rcases h.linked.mem_descendants.1 hi with rfl | ⟨c, hc, hic⟩
    · exact ⟨Nat.le_refl _, Nat.le_refl _⟩
    · have hci := ih c hc hic
      have hc := h.within id c hc
      exact ⟨Nat.le_trans hc.1 hci.1, Nat.le_trans hci.2 hc.2⟩

theorem contains_narrow (hid : (t.range id).contains offset = true) :
    (t.range (t.narrow offset id)).contains offset = true := by
  induction id using h.linked.induction with
  | h id ih =>
    rcases h.linked.narrow_cases offset id with ⟨he, -⟩ | ⟨c, hc, hcontains, he, -⟩
    · rwa [he]
    · rw [he]
      exact ih c hc hcontains

theorem not_contains_below (hi : i ∈ t.descendants (t.narrow offset id))
    (hne : i ≠ t.narrow offset id) : (t.range i).contains offset = false := by
  induction id using h.linked.induction with
  | h id ih =>
    rcases h.linked.narrow_cases offset id with ⟨he, hnone⟩ | ⟨c, hc, -, he, -⟩
    · rw [he] at hi hne
      rcases h.linked.mem_descendants.1 hi with rfl | ⟨c, hc, hic⟩
      · exact absurd rfl hne
      · rw [Bool.eq_false_iff]
        intro hcontains
        exact absurd ((h.descendant_within hic).contains hcontains) (by simp [hnone c hc])
    · rw [he] at hi hne
      exact ih c hc hi hne

/-- Of two siblings around an offset the shorter comes before all that is below the other. -/
theorem not_contains_of_shorter {d : Nat} (hc : c ∈ t.children id) (hd : d ∈ t.children id)
    (hne : c ≠ d) (hco : (t.range c).contains offset = true)
    (hdo : (t.range d).contains offset = true)
    (hle : (t.range c).length ≤ (t.range d).length) :
    ∀ e ∈ t.children d, (t.range e).contains offset = false := by
  rw [Range.contains_iff] at hco hdo
  rw [Range.length, Range.length] at hle
  rcases pairwise_or (h.siblings id) hc hd hne with
    (hlt | ⟨hlt, ⟨-, hstop⟩, -⟩) | (hlt | ⟨-, -, hbelow⟩)
  · omega
  · omega
  · omega
  · intro e he
    have := hbelow e he
    rw [Bool.eq_false_iff, ne_eq, Range.contains_iff]
    omega

theorem length_narrow_le (hi : i ∈ t.descendants id) (hio : (t.range i).contains offset = true) :
    (t.range (t.narrow offset id)).length ≤ (t.range i).length := by
  induction id using h.linked.induction generalizing i with
  | h id ih =>
    rcases h.linked.narrow_cases offset id with ⟨he, hnone⟩ | ⟨c, hc, hco, he, hmin⟩
    · rw [he]
      rcases h.linked.mem_descendants.1 hi with rfl | ⟨d, hd, hid⟩
      · exact Nat.le_refl _
      · have := (h.descendant_within hid).contains hio
        simp [hnone d hd] at this
    · rw [he]
      have hle := ih c hc (h.linked.self_mem_descendants c) hco
      rcases h.linked.mem_descendants.1 hi with rfl | ⟨d, hd, hid⟩
      · exact Nat.le_trans hle (h.within _ c hc).length_le
      · by_cases hcd : c = d
        · subst hcd
          exact ih c hc hid hio
        · have hdo := (h.descendant_within hid).contains hio
          rcases h.linked.mem_descendants.1 hid with rfl | ⟨e, he, hie⟩
          · exact Nat.le_trans hle (hmin _ hd hdo)
          · -- The shorter sibling is before all that is below the longer one.
            have := (h.descendant_within hie).contains hio
            simp [h.not_contains_of_shorter hc hd hcd hco hdo (hmin d hd hdo) e he] at this

end Laminar

theorem Linked.laminar [Vocabulary K] {tokens : List Token} {P : K → Outline K → Prop}
    {top : Outline K} (ht : t.Linked) (ho : t.outline? = some top) (htop : Tidy tokens P top) :
    t.Laminar := by
  have hnode (id : Nat) (hid : id < t.size) : ∃ o, t.range id = o.range ∧ Tidy tokens P o ∧
      t.Shows (t.children id) o.children := by
    obtain ⟨o, ho', htidy⟩ := ht.exists_tidy ho htop hid
    obtain ⟨n, hn, -, -, hshows⟩ := ht.shows_children ho'
    exact ⟨o, range_of_outlineAt? ho', htidy, children_of_node? hn ▸ hshows⟩
  refine ⟨ht, fun id c hc => ?_, fun id => ?_⟩
  · have hlt := ht.younger id c hc
    obtain ⟨o, hr, htidy, hshows⟩ := hnode id (Nat.lt_trans hlt.1 hlt.2)
    obtain ⟨o', hmem, he⟩ := hshows.exists_outline hc
    rw [hr, range_of_outlineAt? he]
    exact htidy.within o' hmem
  · by_cases hid : id < t.size
    · obtain ⟨o, -, htidy, hshows⟩ := hnode id hid
      refine hshows.pairwise htidy.before fun c d o o' hc hd hb => ?_
      obtain ⟨n, hn, -, -, hbelow⟩ := ht.shows_children hc
      rw [range_of_outlineAt? hc, range_of_outlineAt? hd]
      rcases hb.apart with hle | ⟨-, -, hwithin⟩
      · exact .inl hle
      · by_cases hlt : o'.range.start < o.range.stop
        · refine .inr ⟨hb.start_lt, hwithin, fun e he => ?_⟩
          rw [children_of_node? hn] at he
          obtain ⟨o'', hmem, he'⟩ := hbelow.exists_outline he
          rw [range_of_outlineAt? he']
          exact hb.clear hlt o'' hmem
        · exact .inl (Nat.le_of_not_lt hlt)
    · rw [Tree.children, node?_eq_none.2 (Nat.le_of_not_lt hid)]
      exact .nil

structure FoundAt (t : Tree K) (offset id : Nat) : Prop where
  lt_size : id < t.size
  contains : (t.range id).contains offset = true
  shortest : ∀ i < t.size, (t.range i).contains offset = true →
    (t.range id).length ≤ (t.range i).length
  lowest : ∀ i ∈ t.descendants id, i ≠ id → (t.range i).contains offset = false

theorem Laminar.foundAt (h : t.Laminar) (hoffset : (t.range root).contains offset = true) :
    t.FoundAt offset (t.nodeAtOffset offset) where
  lt_size := h.linked.lt_size_of_mem_descendants h.linked.nonempty
    (h.linked.narrow_mem_descendants offset root)
  contains := h.contains_narrow hoffset
  shortest _ hi := h.length_narrow_le (h.linked.mem_descendants_root hi)
  lowest _ := h.not_contains_below

theorem Laminar.nodeAtOffset_eq_root (h : t.Laminar)
    (hoffset : (t.range root).contains offset = false) : t.nodeAtOffset offset = root := by
  rcases h.linked.narrow_cases offset root with ⟨he, -⟩ | ⟨c, hc, hco, -⟩
  · exact he
  · have := (h.within root c hc).contains hco
    simp [hoffset] at this

end Tree
end ProtoSyntax
