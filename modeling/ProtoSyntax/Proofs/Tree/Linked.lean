import Mathlib.Data.List.Forall2
import ProtoSyntax.Tree.Outline

/-!
# Trees that grow

A tree is linked if every child is younger than its parent and every node but the root is a child of
its parent. Adding nodes and moving ends keep it so. A container grows by some outlines if these
are the outlines of its new children and no other node of before has changed.
-/

namespace ProtoSyntax

variable {K : Type}

def Node.adopt (place id : Nat) (n : Node K) : Node K :=
  { n with children := n.children.insertIdx place id }

def Node.endAt (stop : Nat) (n : Node K) : Node K := { n with range := { n.range with stop } }

namespace Tree

variable {t t' : Tree K} {id parent place c : Nat} {kind : K} {range : Range}

structure Linked (t : Tree K) : Prop where
  nonempty : 0 < t.size
  younger : ∀ id, ∀ c ∈ t.children id, id < c ∧ c < t.size
  adopted : ∀ c, 0 < c → c < t.size → ∃ p, t.parent? c = some p ∧ c ∈ t.children p

theorem node?_eq_none : t.node? id = none ↔ t.size ≤ id := by simp [node?, size]

theorem exists_node? (h : id < t.size) : ∃ n, t.node? id = some n :=
  ⟨t.nodes[id], Array.getElem?_eq_getElem h⟩

theorem lt_size_of_node? {n : Node K} (h : t.node? id = some n) : id < t.size := by
  by_contra hlt
  rw [node?_eq_none.2 (Nat.le_of_not_lt hlt)] at h
  cases h

theorem children_of_node? {n : Node K} (h : t.node? id = some n) : t.children id = n.children := by
  simp [children, h]

section insertion

variable (h : t.insertChild? parent place kind range = some (id, t'))

include h

theorem insertChild?_eq : id = t.size ∧ parent < t.size ∧ place ≤ (t.children parent).length ∧
    t' = ⟨(t.nodes.modify parent (Node.adopt place t.size)).push
      ⟨kind, range, some parent, []⟩⟩ := by
  unfold insertChild? at h
  split at h
  · next hc =>
    obtain ⟨rfl, rfl⟩ := Prod.mk.inj (Option.some.inj h)
    exact ⟨rfl, hc.1, hc.2.1, rfl⟩
  · cases h

theorem size_insertChild? : t'.size = t.size + 1 := by
  obtain ⟨-, -, -, rfl⟩ := insertChild?_eq h
  simp [size]

theorem node?_insertChild?_new : t'.node? id = some ⟨kind, range, some parent, []⟩ := by
  obtain ⟨rfl, -, -, rfl⟩ := insertChild?_eq h
  rw [node?, Array.getElem?_push, if_pos (by simp [size])]

theorem node?_insertChild?_parent : t'.node? parent = (t.node? parent).map (.adopt place id) := by
  obtain ⟨rfl, hp, -, rfl⟩ := insertChild?_eq h
  simp only [size] at hp
  simp [node?, size, Array.getElem?_push, Array.getElem?_modify, Nat.ne_of_lt hp]

theorem node?_insertChild?_of_ne (hp : c ≠ parent) (hc : c ≠ id) : t'.node? c = t.node? c := by
  obtain ⟨rfl, -, -, rfl⟩ := insertChild?_eq h
  simp only [size] at hc
  simp [node?, Array.getElem?_push, Array.getElem?_modify, Ne.symm hp, hc]

end insertion

section stop

variable {stop : Nat} (h : t.setStop? id stop = some t')

include h

theorem setStop?_eq : id < t.size ∧ t' = ⟨t.nodes.modify id (Node.endAt stop)⟩ := by
  unfold setStop? at h
  split at h
  · next hc => exact ⟨hc.1, (Option.some.inj h).symm⟩
  · cases h

theorem size_setStop? : t'.size = t.size := by
  obtain ⟨-, rfl⟩ := setStop?_eq h
  simp [size]

theorem node?_setStop?_self : t'.node? id = (t.node? id).map (.endAt stop) := by
  obtain ⟨-, rfl⟩ := setStop?_eq h
  simp [node?, Array.getElem?_modify]

theorem node?_setStop?_of_ne (hc : c ≠ id) : t'.node? c = t.node? c := by
  obtain ⟨-, rfl⟩ := setStop?_eq h
  simp [node?, Array.getElem?_modify, Ne.symm hc]

theorem children_setStop? (c : Nat) : t'.children c = t.children c := by
  by_cases hc : c = id
  · subst hc
    simp [children, node?_setStop?_self h, Node.endAt, Function.comp_def]
  · rw [children, node?_setStop?_of_ne h hc, children]

theorem parent?_setStop? (c : Nat) : t'.parent? c = t.parent? c := by
  by_cases hc : c = id
  · subst hc
    simp only [parent?, node?_setStop?_self h]
    cases t.node? c <;> rfl
  · rw [parent?, node?_setStop?_of_ne h hc, parent?]

end stop

theorem linked_ofLength [Vocabulary K] (length : Nat) : (ofLength length : Tree K).Linked where
  nonempty := Nat.one_pos
  younger id c hc := by
    cases id with
    | zero => simp [children, node?, ofLength] at hc
    | succ id => simp [children, node?, ofLength] at hc
  adopted c hp hc := absurd hc (Nat.not_lt.2 hp)

theorem children_insertChild? (h : t.insertChild? parent place kind range = some (id, t')) :
    t'.children parent = (t.children parent).insertIdx place id := by
  obtain ⟨n, hn⟩ := exists_node? (insertChild?_eq h).2.1
  simp [children, node?_insertChild?_parent h, hn, Node.adopt]

namespace Linked

theorem insertChild? (ht : t.Linked) (h : t.insertChild? parent place kind range = some (id, t')) :
    t'.Linked where
  nonempty := by
    rw [size_insertChild? h]
    omega
  younger i c hc := by
    obtain ⟨rfl, hp, hplace, -⟩ := insertChild?_eq h
    rw [size_insertChild? h]
    by_cases hi : i = parent
    · subst hi
      rw [children_insertChild? h, List.mem_insertIdx hplace] at hc
      rcases hc with rfl | hc
      · omega
      · have := ht.younger i c hc
        omega
    · by_cases hid : i = t.size
      · subst hid
        rw [children_of_node? (node?_insertChild?_new h)] at hc
        cases hc
      · rw [Tree.children, node?_insertChild?_of_ne h hi hid] at hc
        have := ht.younger i c hc
        omega
  adopted c hpos hc := by
    obtain ⟨rfl, hp, hplace, -⟩ := insertChild?_eq h
    rw [size_insertChild? h] at hc
    by_cases hid : c = t.size
    · subst hid
      refine ⟨parent, by simp [parent?, node?_insertChild?_new h], ?_⟩
      rw [children_insertChild? h]
      exact (List.mem_insertIdx hplace).2 (.inl rfl)
    · obtain ⟨p, hcp, hmem⟩ := ht.adopted c hpos (by omega)
      have hparent : t'.parent? c = t.parent? c := by
        by_cases hcpar : c = parent
        · subst hcpar
          simp only [parent?, node?_insertChild?_parent h]
          cases t.node? c <;> rfl
        · rw [parent?, node?_insertChild?_of_ne h hcpar hid, parent?]
      refine ⟨p, hparent.trans hcp, ?_⟩
      by_cases hpp : p = parent
      · subst hpp
        rw [children_insertChild? h]
        exact (List.mem_insertIdx hplace).2 (.inr hmem)
      · have hpid : p ≠ t.size := by
          have := (ht.younger p c hmem).1
          omega
        rwa [Tree.children, node?_insertChild?_of_ne h hpp hpid]

theorem setStop? {stop : Nat} (ht : t.Linked) (h : t.setStop? id stop = some t') : t'.Linked where
  nonempty := size_setStop? h ▸ ht.nonempty
  younger i c hc := by
    rw [size_setStop? h]
    exact ht.younger i c (children_setStop? h i ▸ hc)
  adopted c hpos hc := by
    obtain ⟨p, hp, hmem⟩ := ht.adopted c hpos (size_setStop? h ▸ hc)
    exact ⟨p, (parent?_setStop? h c).trans hp, (children_setStop? h p).symm ▸ hmem⟩

end Linked

/-- Nodes of a tree, and what is below each of them. -/
def Shows (t : Tree K) : List Nat → List (Outline K) → Prop :=
  List.Forall₂ fun id o => t.outlineAt? id = some o

theorem Shows.map {f : Nat → Nat} {ids : List Nat} {os : List (Outline K)} (hos : t.Shows ids os)
    (h : ∀ i ∈ ids, t'.outlineAt? (f i) = t.outlineAt? i) : t'.Shows (ids.map f) os := by
  induction hos with
  | nil => exact .nil
  | cons ho _ ih =>
    exact .cons ((h _ List.mem_cons_self).trans ho) (ih fun i hi => h i (List.mem_cons_of_mem _ hi))

theorem Shows.congr {ids : List Nat} {os : List (Outline K)} (hos : t.Shows ids os)
    (h : ∀ i ∈ ids, t'.outlineAt? i = t.outlineAt? i) : t'.Shows ids os := by
  have hmap := hos.map (f := id) h
  rwa [List.map_id] at hmap

theorem Shows.lt_size {ids : List Nat} {os : List (Outline K)} (hos : t.Shows ids os) :
    ∀ i ∈ ids, i < t.size := by
  induction hos with
  | nil => simp
  | @cons i o ids os ho _ ih =>
    rintro j (_ | ⟨_, hj⟩)
    · rw [outlineAt?] at ho
      obtain ⟨n, hn, -⟩ := Option.map_eq_some_iff.1 ho
      exact lt_size_of_node? hn
    · exact ih j hj

theorem exists_outlineAt? (h : id < t.size) : ∃ o, t.outlineAt? id = some o := by
  obtain ⟨n, hn⟩ := exists_node? h
  rw [outlineAt?, hn]
  exact ⟨_, rfl⟩

theorem exists_shows (ids : List Nat) (h : ∀ i ∈ ids, i < t.size) : ∃ os, t.Shows ids os := by
  induction ids with
  | nil => exact ⟨[], .nil⟩
  | cons i ids ih =>
    obtain ⟨os, hos⟩ := ih fun j hj => h j (List.mem_cons_of_mem _ hj)
    obtain ⟨o, ho⟩ := exists_outlineAt? (h i List.mem_cons_self)
    exact ⟨o :: os, .cons ho hos⟩

theorem Linked.outlineAt?_eq (ht : t.Linked) {n : Node K} {os : List (Outline K)}
    (hn : t.node? id = some n) (hos : t.Shows n.children os) :
    t.outlineAt? id = some (.node n.kind n.range os) := by
  have hy : ∀ c ∈ n.children, id < c ∧ c < t.size :=
    fun c hc => ht.younger id c (children_of_node? hn ▸ hc)
  have hf : (n.children.filterMap fun c => if id < c ∧ c < t.size then t.outlineAt? c else none) =
      os := by
    generalize n.children = l at hy hos
    induction hos with
    | nil => rfl
    | @cons c o l os hco _ ih =>
      rw [List.filterMap_cons, if_pos (hy c List.mem_cons_self), hco,
        ih fun d hd => hy d (List.mem_cons_of_mem _ hd)]
  rw [outlineAt?, hn]
  simp only [Option.map_some, hf]

theorem Linked.outlineAt?_congr (ht : t.Linked) (ht' : t'.Linked) {oldest : Nat}
    (h : ∀ i, oldest ≤ i → i < t.size → t'.node? i = t.node? i) (id : Nat)
    (ho : oldest ≤ id) (hid : id < t.size) : t'.outlineAt? id = t.outlineAt? id := by
  induction hn : t.size - id using Nat.strongRecOn generalizing id with
  | _ k ih =>
    obtain ⟨n, hnode⟩ := exists_node? hid
    have hy : ∀ c ∈ n.children, id < c ∧ c < t.size :=
      fun c hc => ht.younger id c (children_of_node? hnode ▸ hc)
    obtain ⟨os, hos⟩ := exists_shows n.children fun c hc => (hy c hc).2
    have hos' : t'.Shows n.children os := hos.congr fun c hc => by
      have := hy c hc
      exact ih (t.size - c) (by omega) c (by omega) this.2 rfl
    rw [ht.outlineAt?_eq hnode hos, ht'.outlineAt?_eq ((h id ho hid).trans hnode) hos']

/-- The container has new children with these outlines after its old ones, and nothing else of the
nodes of before has changed. -/
structure Grown (t t' : Tree K) (c : Nat) (os : List (Outline K)) : Prop where
  size_le : t.size ≤ t'.size
  same : ∀ id, id < t.size → id ≠ c → t'.node? id = t.node? id
  children : ∃ ids, t'.node? c = (t.node? c).map (fun n => { n with children := n.children ++ ids }) ∧
    (∀ i ∈ ids, t.size ≤ i) ∧ t'.Shows ids os

namespace Grown

variable {u : Tree K} {os os' : List (Outline K)}

theorem refl (t : Tree K) (c : Nat) : Grown t t c [] where
  size_le := Nat.le_refl _
  same _ _ _ := rfl
  children := ⟨[], by simp, by simp, .nil⟩

theorem trans (hc : c < t.size) (ht' : t'.Linked) (hu : u.Linked) (h : Grown t t' c os)
    (h' : Grown t' u c os') : Grown t u c (os ++ os') where
  size_le := Nat.le_trans h.size_le h'.size_le
  same id hid hne := by
    have := h.size_le
    rw [h'.same id (by omega) hne, h.same id hid hne]
  children := by
    obtain ⟨ids, hn, hids, hos⟩ := h.children
    obtain ⟨ids', hn', hids', hos'⟩ := h'.children
    have hle := h.size_le
    refine ⟨ids ++ ids', ?_, ?_, ?_⟩
    · rw [hn', hn]
      cases t.node? c <;> simp
    · intro i hi
      rcases List.mem_append.1 hi with hi | hi
      · exact hids i hi
      · exact Nat.le_trans hle (hids' i hi)
    · refine List.rel_append (hos.congr fun i hi => ?_) hos'
      refine ht'.outlineAt?_congr hu (fun j hj hlt => h'.same j hlt ?_) i (hids i hi) (hos.lt_size i hi)
      omega

theorem children_length_le (h : Grown t t' c os) :
    (t.children c).length ≤ (t'.children c).length := by
  obtain ⟨ids, hn, -, -⟩ := h.children
  cases hc : t.node? c <;> simp [Tree.children, hn, hc]

theorem range_eq (h : Grown t t' c os) : t'.range c = t.range c := by
  obtain ⟨ids, hn, -, -⟩ := h.children
  cases hc : t.node? c <;> simp [Tree.range, hn, hc]

theorem insertIdx_length_append (l m : List Nat) :
    (l ++ m).insertIdx l.length id = l ++ id :: m := by
  induction l with
  | nil => simp
  | cons a l ih => simp [ih]

theorem node?_insertChild?_container {ids : List Nat} (hc : c < t.size)
    (hn : t'.node? c = (t.node? c).map fun n => { n with children := n.children ++ ids })
    (hu : t'.insertChild? c (t.children c).length kind range = some (id, u)) :
    u.node? c = (t.node? c).map fun n => { n with children := n.children ++ id :: ids } := by
  obtain ⟨n, hnode⟩ := exists_node? hc
  rw [node?_insertChild?_parent hu, hn, hnode, children_of_node? hnode]
  simp [Node.adopt, insertIdx_length_append]

theorem insert (hc : c < t.size) (ht' : t'.Linked) (h : Grown t t' c os)
    (hu : t'.insertChild? c (t.children c).length kind range = some (id, u)) :
    Grown t u c (.node kind range [] :: os) where
  size_le := by
    have := h.size_le
    rw [size_insertChild? hu]
    omega
  same i hi hne := by
    have := h.size_le
    have hid := (insertChild?_eq hu).1
    rw [node?_insertChild?_of_ne hu hne (by omega), h.same i hi hne]
  children := by
    obtain ⟨ids, hn, hids, hos⟩ := h.children
    have hid := (insertChild?_eq hu).1
    have hle := h.size_le
    have hsize := size_insertChild? hu
    refine ⟨id :: ids, node?_insertChild?_container hc hn hu, ?_, .cons ?_ (hos.congr fun i hi => ?_)⟩
    · rintro i (_ | ⟨_, hi⟩)
      · omega
      · exact hids i hi
    · exact (ht'.insertChild? hu).outlineAt?_eq (node?_insertChild?_new hu) .nil
    · refine ht'.outlineAt?_congr (ht'.insertChild? hu) (fun j hj hlt => ?_) i (hids i hi)
        (hos.lt_size i hi)
      exact node?_insertChild?_of_ne hu (by omega) (by omega)

theorem block {v w : Tree K} {stop : Nat} {below : List (Outline K)} (hc : c < t.size)
    (ht' : t'.Linked) (h : Grown t t' c os)
    (hu : t'.insertChild? c (t.children c).length kind range = some (id, u))
    (hv : Grown u v id below) (hvl : v.Linked) (hw : v.setStop? id stop = some w) :
    Grown t w c (.node kind ⟨range.start, stop⟩ below :: os) := by
  have hid := (insertChild?_eq hu).1
  have hle := h.size_le
  have hsize := size_insertChild? hu
  have hvsize := hv.size_le
  have hwsize := size_setStop? hw
  have hwl := hvl.setStop? hw
  have hsame (i : Nat) (hi : i < t'.size) (hne : i ≠ c) : w.node? i = t'.node? i := by
    rw [node?_setStop?_of_ne hw (by omega), hv.same i (by omega) (by omega),
      node?_insertChild?_of_ne hu hne (by omega)]
  refine ⟨by omega, fun i hi hne => (hsame i (by omega) hne).trans (h.same i hi hne), ?_⟩
  obtain ⟨ids, hn, hids, hos⟩ := h.children
  obtain ⟨ids', hn', hids', hbelow⟩ := hv.children
  refine ⟨id :: ids, ?_, ?_, .cons ?_ (hos.congr fun i hi => ?_)⟩
  · rw [node?_setStop?_of_ne hw (by omega), hv.same c (by omega) (by omega),
      node?_insertChild?_container hc hn hu]
  · rintro i (_ | ⟨_, hi⟩)
    · omega
    · exact hids i hi
  · have hnode : w.node? id = some ⟨kind, ⟨range.start, stop⟩, some c, ids'⟩ := by
      rw [node?_setStop?_self hw, hn', node?_insertChild?_new hu]
      rfl
    refine hwl.outlineAt?_eq hnode (hbelow.congr fun i hi => ?_)
    exact hvl.outlineAt?_congr hwl (fun j hj _ => node?_setStop?_of_ne hw (by omega)) i
      (hids' i hi) (hbelow.lt_size i hi)
  · exact ht'.outlineAt?_congr hwl (fun j hj hlt => hsame j hlt (by omega)) i (hids i hi)
      (hos.lt_size i hi)

end Grown
end Tree
end ProtoSyntax
