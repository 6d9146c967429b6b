import Mathlib.Data.Set.Function
import Mathlib.Order.Interval.Set.Defs
import ProtoSyntax.Proofs.Tree.Lines

/-!
# Trees that differ in the names of their nodes

The names of the nodes tell in which order they were added, and nothing else. Two trees with the same
outline are the same but for the names: a node of the one stands for the node of the other to which
the same way leads from the root.
-/

namespace ProtoSyntax

variable {K : Type}

def Node.rename (f : Nat → Nat) (n : Node K) : Node K :=
  { n with parent := n.parent.map f, children := n.children.map f }

namespace Tree

variable {t u : Tree K} {i j c d : Nat}

/-- One tree becomes the other when each of its nodes is given its new name. -/
structure Renames (f : Nat → Nat) (t u : Tree K) : Prop where
  bijOn : Set.BijOn f (Set.Iio t.size) (Set.Iio u.size)
  root : f root = root
  node? : ∀ id < t.size, u.node? (f id) = (t.node? id).map (Node.rename f)

inductive Counterpart (t u : Tree K) : Nat → Nat → Prop where
  | top : Counterpart t u root root
  | child {i j k c d : Nat} : Counterpart t u i j → (t.children i)[k]? = some c →
      (u.children j)[k]? = some d → Counterpart t u c d

namespace Counterpart

theorem symm (h : t.Counterpart u i j) : u.Counterpart t j i := by
  induction h with
  | top => exact .top
  | child _ hc hd ih => exact .child ih hd hc

variable (ht : t.Owned)

include ht

theorem lt_size (h : t.Counterpart u c d) : c < t.size := by
  cases h with
  | top => exact ht.linked.nonempty
  | child _ hc _ => exact (ht.linked.younger _ c (List.mem_of_getElem? hc)).2

theorem parent (h : t.Counterpart u c d) (hp : t.parent? c = some i) :
    ∃ j k : Nat, t.Counterpart u i j ∧ (t.children i)[k]? = some c ∧ (u.children j)[k]? = some d := by
  cases h with
  | top =>
    rw [ht.parent?_root] at hp
    cases hp
  | @child i' j k _ _ hij hc hd =>
    have hp' := ht.parent?_child i' c (List.mem_of_getElem? hc)
    obtain rfl := Option.some.inj (hp'.symm.trans hp)
    exact ⟨j, k, hij, hc, hd⟩

theorem unique {d' : Nat} (h : t.Counterpart u c d) (h' : t.Counterpart u c d') : d = d' := by
  induction h generalizing d' with
  | top =>
    cases h' with
    | top => rfl
    | @child i _ _ _ _ _ hc _ =>
      exact absurd (ht.linked.younger i 0 (List.mem_of_getElem? hc)).1 (Nat.not_lt_zero i)
  | @child i j k c d _ hc hd ih =>
    obtain ⟨j', k', hij', hc', hd'⟩ := h'.parent ht (ht.parent?_child i c (List.mem_of_getElem? hc))
    obtain rfl := ih hij'
    -- A child is listed once, so it is at one place only.
    obtain ⟨hk, hck⟩ := List.getElem?_eq_some_iff.1 hc
    obtain ⟨hk', hck'⟩ := List.getElem?_eq_some_iff.1 hc'
    obtain rfl : k = k' := (ht.nodup i).getElem_inj_iff.1 (hck.trans hck'.symm)
    exact Option.some.inj (hd.symm.trans hd')

theorem parent?_eq (hu : u.Owned) {f : Nat → Nat} (hf : ∀ i j, t.Counterpart u i j → f i = j)
    (h : t.Counterpart u c d) : u.parent? d = (t.parent? c).map f := by
  cases h with
  | top => rw [ht.parent?_root, hu.parent?_root, Option.map_none]
  | @child i j _ _ _ hij hc hd =>
    rw [ht.parent?_child i c (List.mem_of_getElem? hc), hu.parent?_child j d (List.mem_of_getElem? hd),
      Option.map_some, hf i j hij]

end Counterpart

structure Alike (t u : Tree K) (i j : Nat) (n m : Node K) : Prop where
  left : t.node? i = some n
  right : u.node? j = some m
  kind : n.kind = m.kind
  range : n.range = m.range
  length : n.children.length = m.children.length
  children : ∀ k c d : Nat, n.children[k]? = some c → m.children[k]? = some d →
    t.outlineAt? c = u.outlineAt? d

theorem Shows.outlineAt?_eq {ids ids' : List Nat} {os : List (Outline K)} (h : t.Shows ids os)
    (h' : u.Shows ids' os) {k : Nat} (hc : ids[k]? = some c) (hd : ids'[k]? = some d) :
    t.outlineAt? c = u.outlineAt? d := by
  induction h generalizing ids' k with
  | nil => cases hc
  | cons ho _ ih =>
    cases h' with
    | cons ho' htail =>
      cases k with
      | zero =>
        obtain rfl := Option.some.inj hc
        obtain rfl := Option.some.inj hd
        exact ho.trans ho'.symm
      | succ k => exact ih htail hc hd

theorem Linked.alike (ht : t.Linked) (hu : u.Linked) (hi : i < t.size)
    (h : t.outlineAt? i = u.outlineAt? j) : ∃ n m, t.Alike u i j n m := by
  obtain ⟨o, ho⟩ := exists_outlineAt? hi
  obtain ⟨n, hn, hkind, hrange, hshows⟩ := ht.shows_children ho
  obtain ⟨m, hm, hkind', hrange', hshows'⟩ := hu.shows_children (h ▸ ho)
  refine ⟨n, m, hn, hm, hkind.trans hkind'.symm, hrange.trans hrange'.symm, ?_, ?_⟩
  · exact hshows.length_eq.trans hshows'.length_eq.symm
  · exact fun k c d => hshows.outlineAt?_eq hshows'

section same

variable (ht : t.Owned) (hu : u.Owned) (h : t.outline? = u.outline?)

include ht hu h

theorem Counterpart.alike (hij : t.Counterpart u i j) : ∃ n m, t.Alike u i j n m := by
  induction hij with
  | top => exact ht.linked.alike hu.linked ht.linked.nonempty h
  | @child i j k c d _ hc hd ih =>
    obtain ⟨n, m, ha⟩ := ih
    have hlt := (ht.linked.younger i c (List.mem_of_getElem? hc)).2
    rw [children_of_node? ha.left] at hc
    rw [children_of_node? ha.right] at hd
    exact ht.linked.alike hu.linked hlt (ha.children k c d hc hd)

theorem exists_counterpart (hi : i < t.size) : ∃ j, t.Counterpart u i j := by
  induction i, hi using ht.induction_up with
  | top => exact ⟨root, .top⟩
  | child c p _ _ hp ih =>
    obtain ⟨q, hpq⟩ := ih
    obtain ⟨n, m, ha⟩ := hpq.alike ht hu h
    obtain ⟨k, hc⟩ := List.mem_iff_getElem?.1 (ht.mem_children_iff.2 hp)
    obtain ⟨hk, -⟩ := List.getElem?_eq_some_iff.1 hc
    rw [children_of_node? ha.left, ha.length, ← children_of_node? ha.right] at hk
    exact ⟨_, .child hpq hc (List.getElem?_eq_getElem hk)⟩

theorem Counterpart.node?_eq {f : Nat → Nat} (hf : ∀ i j, t.Counterpart u i j → f i = j)
    (hij : t.Counterpart u i j) : u.node? j = (t.node? i).map (Node.rename f) := by
  obtain ⟨n, m, ha⟩ := hij.alike ht hu h
  have hparent : m.parent = n.parent.map f := by
    have hparent? := hij.parent?_eq ht hu hf
    rwa [parent?, parent?, ha.left, ha.right] at hparent?
  have hchildren : m.children = n.children.map f := by
    refine List.ext_getElem (by rw [List.length_map, ha.length]) fun k hk hk' => ?_
    rw [List.length_map] at hk'
    rw [List.getElem_map]
    refine (hf _ _ (hij.child (k := k) ?_ ?_)).symm
    · rw [children_of_node? ha.left, List.getElem?_eq_getElem]
    · rw [children_of_node? ha.right, List.getElem?_eq_getElem]
  obtain ⟨kind, range, parent, children⟩ := m
  rw [ha.left, ha.right, Option.map_some, Node.rename, ha.kind, ha.range, ← hparent, ← hchildren]

theorem exists_renames_of_outline? : ∃ f, Renames f t u := by
  choose! f hf using fun i (hi : i < t.size) => exists_counterpart ht hu h hi
  have hf_eq (i j : Nat) (hij : t.Counterpart u i j) : f i = j :=
    (hf i (hij.lt_size ht)).unique ht hij
  refine ⟨f, ⟨?_, ?_, ?_⟩, hf_eq root root .top, fun i hi => (hf i hi).node?_eq ht hu h hf_eq⟩
  -- A node has one counterpart at most, and this in both directions.
  · exact fun i hi => (hf i hi).symm.lt_size hu
  · intro i hi i' hi' he
    exact (hf i hi).symm.unique hu (he ▸ (hf i' hi').symm)
  · intro j hj
    obtain ⟨i, hji⟩ := exists_counterpart hu ht h.symm hj
    exact ⟨i, hji.symm.lt_size ht, hf_eq i j hji.symm⟩

end same

theorem Renames.outlineAt?_eq {f : Nat → Nat} (h : Renames f t u) (ht : t.Linked) (hu : u.Linked)
    (hi : i < t.size) : u.outlineAt? (f i) = t.outlineAt? i := by
  induction i using ht.induction with
  | h i ih =>
    obtain ⟨n, hn⟩ := exists_node? hi
    rw [children_of_node? hn] at ih
    have hlt (c : Nat) (hc : c ∈ n.children) : c < t.size :=
      (ht.younger i c (children_of_node? hn ▸ hc)).2
    obtain ⟨os, hos⟩ := exists_shows n.children hlt
    have hn' : u.node? (f i) = some (n.rename f) := by rw [h.node? i hi, hn, Option.map_some]
    rw [ht.outlineAt?_eq hn hos, hu.outlineAt?_eq hn' (hos.map fun c hc => ih c hc (hlt c hc))]
    rfl

/-- Trees have the same outline if and only if they differ in the names of their nodes alone. -/
theorem Owned.outline?_eq_iff (ht : t.Owned) (hu : u.Owned) :
    t.outline? = u.outline? ↔ ∃ f, Renames f t u := by
  refine ⟨exists_renames_of_outline? ht hu, fun ⟨f, h⟩ => ?_⟩
  have hroot : u.outlineAt? (f root) = t.outlineAt? root :=
    h.outlineAt?_eq ht.linked hu.linked ht.linked.nonempty
  rw [h.root] at hroot
  exact hroot.symm

end Tree
end ProtoSyntax
