import ProtoSyntax.Proofs.Tree.Owned
import ProtoSyntax.TextFormat.Kind

/-!
# Trees that are edited

A tree is built from a bare root by adding nodes, at the end or in the middle of the children of older
ones, and by moving ends. However that is done, each link that is followed leads to a node that is
older on the way up and younger on the way down. So the loops that follow links come to an end, and
with what the walks of a tree say.
-/

namespace ProtoSyntax

variable {K : Type}

inductive Edit (K : Type) where
  | push (parent : Nat) (kind : K) (range : Range)
  | insert (parent place : Nat) (kind : K) (range : Range)
  | setStop (id stop : Nat)

namespace Edit

/-- There is the node, and there is the place among its children; ranges end after they begin. -/
def Allowed (t : Tree K) : Edit K → Prop
  | push parent _ range => parent < t.size ∧ range.start ≤ range.stop
  | insert parent place _ range =>
    parent < t.size ∧ place ≤ (t.children parent).length ∧ range.start ≤ range.stop
  | setStop id stop => id < t.size ∧ (t.range id).start ≤ stop

def perform? (t : Tree K) : Edit K → Option (Tree K)
  | push parent kind range => (t.pushChild? parent kind range).map Prod.snd
  | insert parent place kind range => (t.insertChild? parent place kind range).map Prod.snd
  | setStop id stop => t.setStop? id stop

theorem isSome_perform? (t : Tree K) (e : Edit K) : (e.perform? t).isSome = true ↔ e.Allowed t := by
  cases e with
  | push parent kind range =>
    simp [perform?, Allowed, Tree.pushChild?, Tree.insertChild?]
  | insert parent place kind range =>
    simp [perform?, Allowed, Tree.insertChild?]
  | setStop id stop => simp [perform?, Allowed, Tree.setStop?]

theorem owned {t t' : Tree K} {e : Edit K} (ht : t.Owned) (h : e.perform? t = some t') : t'.Owned := by
  cases e with
  | push parent kind range =>
    obtain ⟨⟨id, u⟩, hu, rfl⟩ := Option.map_eq_some_iff.1 h
    exact ht.insertChild? hu
  | insert parent place kind range =>
    obtain ⟨⟨id, u⟩, hu, rfl⟩ := Option.map_eq_some_iff.1 h
    exact ht.insertChild? hu
  | setStop id stop => exact ht.setStop? h

theorem owned_foldlM {t t' : Tree K} {edits : List (Edit K)} (ht : t.Owned)
    (h : edits.foldlM perform? t = some t') : t'.Owned := by
  induction edits generalizing t with
  | nil => exact Option.some.inj h ▸ ht
  | cons e edits ih =>
    obtain ⟨u, hu, h⟩ := Option.bind_eq_some_iff.1 h
    exact ih (owned ht hu) h

end Edit

namespace Tree

variable {t : Tree K} {id c : Nat}

inductive Climbs (t : Tree K) : Nat → List Nat → Prop where
  | top {id : Nat} : t.parent? id = none → Climbs t id [id]
  | up {id p : Nat} {ids : List Nat} :
      t.parent? id = some p → Climbs t p ids → Climbs t id (id :: ids)

/-- The nodes that come off a stack, until it is empty. The children of each take its place on the
stack, the first one uppermost. -/
inductive Visits (t : Tree K) : List Nat → List Nat → Prop where
  | done : Visits t [] []
  | next {id : Nat} {stack ids : List Nat} :
      Visits t (t.children id ++ stack) ids → Visits t (id :: stack) (id :: ids)

def around (t : Tree K) (offset id : Nat) : List Nat :=
  (t.children id).filter fun c => (t.range c).contains offset

inductive Narrows (t : Tree K) (offset : Nat) : Nat → Nat → Prop where
  | stop {id : Nat} : t.shortest? (t.around offset id) = none → Narrows t offset id id
  | into {id c i : Nat} :
      t.shortest? (t.around offset id) = some c → Narrows t offset c i → Narrows t offset id i

theorem Owned.climbs (ht : t.Owned) (hi : c < t.size) : t.Climbs c (t.ancestors c) := by
  induction c, hi using ht.induction_up with
  | top =>
    rw [ht.ancestors_root]
    exact .top ht.parent?_root
  | child c p _ _ hp ih =>
    rw [ht.ancestors_eq hp]
    exact .up hp ih

theorem Linked.visits_append (ht : t.Linked) (id : Nat) {stack ids : List Nat}
    (h : t.Visits stack ids) : t.Visits (id :: stack) (t.descendants id ++ ids) := by
  induction id using ht.induction generalizing stack ids with
  | h id ih =>
    rw [ht.descendants_eq, List.cons_append]
    refine .next ?_
    -- The children come off the stack one after the other, each with all that is below it.
    generalize t.children id = cs at ih ⊢
    induction cs with
    | nil => exact h
    | cons c cs ihcs =>
      rw [List.flatMap_cons, List.append_assoc]
      exact ih c List.mem_cons_self (ihcs fun d hd => ih d (List.mem_cons_of_mem c hd))

theorem Linked.visits (ht : t.Linked) (id : Nat) : t.Visits [id] (t.descendants id) := by
  have h := ht.visits_append id .done
  rwa [List.append_nil] at h

theorem mem_children_of_shortest? {offset : Nat} (h : t.shortest? (t.around offset id) = some c) :
    c ∈ t.children id := by
  cases hcs : t.around offset id with
  | nil =>
    rw [hcs] at h
    cases h
  | cons b bs =>
    obtain ⟨d, hd, hmem, -⟩ := t.exists_shortest? b bs
    rw [hcs, hd] at h
    rw [← hcs] at hmem
    exact Option.some.inj h ▸ List.mem_of_mem_filter hmem

theorem Linked.narrows (ht : t.Linked) (offset id : Nat) :
    t.Narrows offset id (t.narrow offset id) := by
  induction id using ht.induction with
  | h id ih =>
    rw [narrow]
    split
    · next c hs =>
      have hs : t.shortest? (t.around offset id) = some c := hs
      have hc := mem_children_of_shortest? hs
      rw [if_pos (ht.younger id c hc)]
      exact .into hs (ih c hc)
    · next hs => exact .stop hs

theorem Owned.mem_ancestors_narrow (ht : t.Owned) {offset a : Nat}
    (h : a ∈ t.ancestors (t.narrow offset id)) :
    a ∈ t.ancestors id ∨ (t.range a).contains offset = true := by
  induction id using ht.linked.induction with
  | h id ih =>
    rcases ht.linked.narrow_cases offset id with ⟨he, -⟩ | ⟨c, hc, hco, he, -⟩
    · exact .inl (he ▸ h)
    · rw [he] at h
      rcases ih c hc h with hmem | hao
      · rw [ht.ancestors_eq (ht.parent?_child id c hc)] at hmem
        rcases List.mem_cons.1 hmem with rfl | hmem
        · exact .inr hco
        · exact .inl hmem
      · exact .inr hao

theorem Linked.not_contains_child_narrow (ht : t.Linked) (offset id : Nat) :
    ∀ c ∈ t.children (t.narrow offset id), (t.range c).contains offset = false := by
  induction id using ht.induction with
  | h id ih =>
    rcases ht.narrow_cases offset id with ⟨he, hnone⟩ | ⟨c, hc, -, he, -⟩
    · rwa [he]
    · rw [he]
      exact ih c hc

/-- The walks through a tree are exact, and the loops that follow its links end with what they say. -/
structure Navigable (t : Tree K) : Prop where
  listed_once : ∀ c, 0 < c → c < t.size → ∃ p < c, t.parent? c = some p ∧
    ∀ q, (t.children q).count c = if q = p then 1 else 0
  lists_nodes : ∀ p, ∀ c ∈ t.children p, 0 < c ∧ c < t.size
  climbs : ∀ id < t.size, t.Climbs id (t.ancestors id)
  nodup_ancestors : ∀ id < t.size, (t.ancestors id).Nodup
  ends_at_root : ∀ id < t.size, (t.ancestors id).getLast? = some root
  visits : ∀ id < t.size, t.Visits [id] (t.descendants id)
  preorder : ∀ id < t.size, t.descendants id = id :: (t.children id).flatMap t.descendants
  nodup_descendants : ∀ id < t.size, (t.descendants id).Nodup
  mem_descendants : ∀ id < t.size, ∀ i,
    i ∈ t.descendants id ↔ i < t.size ∧ id ∈ t.ancestors i
  visits_all : (t.descendants root).Perm (List.range t.size)
  narrows : ∀ offset, t.Narrows offset root (t.nodeAtOffset offset)
  found_lt_size : ∀ offset, t.nodeAtOffset offset < t.size
  found_lowest : ∀ offset, ∀ c ∈ t.children (t.nodeAtOffset offset),
    (t.range c).contains offset = false
  found_within : ∀ offset, ∀ a ∈ t.ancestors (t.nodeAtOffset offset), a ≠ root →
    (t.range a).contains offset = true

theorem Owned.navigable (ht : t.Owned) : t.Navigable where
  listed_once c hpos hc := by
    obtain ⟨p, hp, -⟩ := ht.linked.adopted c hpos hc
    exact ⟨p, ht.lt_of_parent? hp, hp, ht.count_children hp⟩
  lists_nodes p c hc := by
    have := ht.linked.younger p c hc
    exact ⟨by omega, this.2⟩
  climbs _ := ht.climbs
  nodup_ancestors _ := ht.nodup_ancestors
  ends_at_root _ := ht.getLast?_ancestors
  visits id _ := ht.linked.visits id
  preorder id _ := ht.linked.descendants_eq id
  nodup_descendants id _ := ht.nodup_descendants id
  mem_descendants id hid i := by
    constructor
    · intro hi
      have hlt := ht.linked.lt_size_of_mem_descendants hid hi
      exact ⟨hlt, (ht.mem_descendants_iff hlt).1 hi⟩
    · exact fun ⟨hlt, hmem⟩ => (ht.mem_descendants_iff hlt).2 hmem
  visits_all := ht.perm_descendants_root
  narrows offset := ht.linked.narrows offset root
  found_lt_size offset := ht.linked.lt_size_of_mem_descendants ht.linked.nonempty
    (ht.linked.narrow_mem_descendants offset root)
  found_lowest offset := ht.linked.not_contains_child_narrow offset root
  found_within offset a ha hroot := by
    refine (ht.mem_ancestors_narrow ha).resolve_left fun hmem => hroot ?_
    rwa [ht.ancestors_root, List.mem_singleton] at hmem

variable [Vocabulary K]

/-- Whatever is done to a tree, it can be walked through, and all that is allowed can be done to it. -/
theorem navigable_of_edits {length : Nat} {edits : List (Edit K)} {t : Tree K}
    (h : edits.foldlM Edit.perform? (ofLength length) = some t) :
    t.Navigable ∧ ∀ e : Edit K, (e.perform? t).isSome = true ↔ e.Allowed t :=
  ⟨(Edit.owned_foldlM (owned_ofLength length) h).navigable, Edit.isSome_perform? t⟩

def insertedBefore : List (Edit TextFormat.Kind) :=
  [.push 0 (.message "m") ⟨3, 3⟩, .push 1 (.field "b" "2") ⟨9, 13⟩,
    .insert 1 0 (.field "a" "1") ⟨4, 8⟩, .setStop 1 15, .insert 0 0 .comment ⟨0, 2⟩]

theorem navigable_insertedBefore : ∃ t : Tree TextFormat.Kind,
    insertedBefore.foldlM Edit.perform? (ofLength 20) = some t ∧ t.Navigable ∧
      ∀ e : Edit TextFormat.Kind, (e.perform? t).isSome = true ↔ e.Allowed t := by
  obtain ⟨t, h⟩ : ∃ t, insertedBefore.foldlM Edit.perform? (ofLength 20) = some t := ⟨_, rfl⟩
  exact ⟨t, h, navigable_of_edits h⟩

example : (insertedBefore.foldlM Edit.perform? (ofLength 20)).map (·.descendants root) =
    some [0, 4, 1, 3, 2] := by cbv

end Tree
end ProtoSyntax
