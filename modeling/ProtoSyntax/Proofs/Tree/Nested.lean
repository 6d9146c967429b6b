import ProtoSyntax.Proofs.Parsing.Nesting
import ProtoSyntax.Tree.Walk

/-!
# Trees with nested ranges

What holds of the outline of a linked tree holds of its nodes, all of which are below the root.
-/

namespace ProtoSyntax

variable {K : Type}

namespace Tree

variable {t : Tree K} {id c p : Nat} {o : Outline K}

theorem Linked.shows_children (ht : t.Linked) (h : t.outlineAt? id = some o) :
    ∃ n, t.node? id = some n ∧ n.kind = o.kind ∧ n.range = o.range ∧ t.Shows n.children o.children := by
  obtain ⟨n, hn⟩ : ∃ n, t.node? id = some n := by
    rw [outlineAt?] at h
    obtain ⟨n, hn, -⟩ := Option.map_eq_some_iff.1 h
    exact ⟨n, hn⟩
  obtain ⟨os, hos⟩ := exists_shows n.children fun c hc =>
    (ht.younger id c (children_of_node? hn ▸ hc)).2
  rw [ht.outlineAt?_eq hn hos] at h
  obtain rfl := Option.some.inj h
  exact ⟨n, hn, rfl, rfl, hos⟩

theorem Shows.exists_outline {ids : List Nat} {os : List (Outline K)} (h : t.Shows ids os)
    (hc : c ∈ ids) : ∃ o ∈ os, t.outlineAt? c = some o := by
  induction h with
  | nil => cases hc
  | @cons i o ids os ho _ ih =>
    rcases List.mem_cons.1 hc with rfl | hc
    · exact ⟨o, List.mem_cons_self, ho⟩
    · obtain ⟨o', ho', he⟩ := ih hc
      exact ⟨o', List.mem_cons_of_mem _ ho', he⟩

theorem Shows.pairwise {R : Outline K → Outline K → Prop} {R' : Nat → Nat → Prop} {ids : List Nat}
    {os : List (Outline K)} (h : t.Shows ids os) (hos : os.Pairwise R)
    (hR : ∀ i j o o', t.outlineAt? i = some o → t.outlineAt? j = some o' → R o o' → R' i j) :
    ids.Pairwise R' := by
  induction h with
  | nil => exact .nil
  | @cons i o ids os ho h ih =>
    obtain ⟨ho', hos⟩ := List.pairwise_cons.1 hos
    refine .cons (fun j hj => ?_) (ih hos)
    obtain ⟨o', hmem, hj'⟩ := Shows.exists_outline h hj
    exact hR i j o o' ho hj' (ho' o' hmem)

def ClosedBy (t : Tree K) (tokens : List Token) (id : Nat) (closers : List Punct) : Prop :=
  ∃ u ∈ tokens, (∃ p ∈ closers, u.kind = .punct p) ∧ (t.range id).start ≤ u.start ∧
    (t.range id).stop = u.stop ∧ ∀ c ∈ t.children id, (t.range c).stop ≤ u.start

theorem Linked.closedBy (ht : t.Linked) {tokens : List Token} {closers : List Punct}
    (ho : t.outlineAt? id = some o)
    (h : ∃ u ∈ tokens, (∃ p ∈ closers, u.kind = .punct p) ∧ o.range.start ≤ u.start ∧
      o.range.stop = u.stop ∧ ∀ c ∈ o.children, c.range.stop ≤ u.start) :
    t.ClosedBy tokens id closers := by
  obtain ⟨u, hu, hkind, hstart, hstop, hbelow⟩ := h
  obtain ⟨n, hn, -, -, hshows⟩ := ht.shows_children ho
  rw [← range_of_outlineAt? ho] at hstart hstop
  refine ⟨u, hu, hkind, hstart, hstop, fun c hc => ?_⟩
  rw [children_of_node? hn] at hc
  obtain ⟨o', ho', he⟩ := hshows.exists_outline hc
  rw [range_of_outlineAt? he]
  exact hbelow o' ho'

variable [Vocabulary K]

def isCommentAt (t : Tree K) (id : Nat) : Bool := (t.node? id).any fun n => Vocabulary.isComment n.kind

def lastCommentStop (t : Tree K) (id : Nat) : Nat :=
  (((t.children id).filter t.isCommentAt).getLast?.map fun c => (t.range c).stop).getD 0

/-- The ranges of a tree fit the tokens of the text and each other. `closers` tells by which
characters a node is closed, from the kinds of its parent and itself, and `trails` which nodes end
with their value or a comment after it. -/
structure Nested (text : String) (tokens : List Token) (closers : K → K → List Punct)
    (trails : K → K → Bool) (t : Tree K) : Prop where
  root_range : t.range root = ⟨0, text.utf8ByteSize⟩
  nonempty : ∀ id, 0 < id → id < t.size → (t.range id).start < (t.range id).stop
  starts_at_token : ∀ id, 0 < id → id < t.size → ∃ u ∈ tokens, (t.range id).start = u.start
  stops_at_token : ∀ id, 0 < id → id < t.size → ∃ u ∈ tokens, (t.range id).stop = u.stop
  within : ∀ id, ∀ c ∈ t.children id, (t.range c).IsWithin (t.range id)
  increasing : ∀ id, (t.children id).Pairwise fun c d => (t.range c).start < (t.range d).start
  apart : ∀ id, (t.children id).Pairwise fun c d =>
    (t.range c).stop ≤ (t.range d).start ∨
      t.isCommentAt d = true ∧ t.isCommentAt c = false ∧ (t.range d).IsWithin (t.range c)
  closed : ∀ id, 0 < id → id < t.size → ∃ p m n, t.parent? id = some p ∧ t.node? p = some m ∧
    t.node? id = some n ∧
    (closers m.kind n.kind ≠ [] → t.ClosedBy tokens id (closers m.kind n.kind)) ∧
    (trails m.kind n.kind = true → ∃ v, t.declarations id = [v] ∧
      (t.range id).stop = max (t.range v).stop (t.lastCommentStop id))

end Tree

namespace Outline

variable [Vocabulary K]

structure Ends (tokens : List Token) (closers : K → K → List Punct) (trails : K → K → Bool)
    (parent : K) (o : Outline K) : Prop where
  closed : closers parent o.kind ≠ [] → ∃ u ∈ tokens, (∃ p ∈ closers parent o.kind, u.kind = .punct p) ∧
    o.range.start ≤ u.start ∧ o.range.stop = u.stop ∧ ∀ c ∈ o.children, c.range.stop ≤ u.start
  trails : trails parent o.kind = true → ∃ v,
    o.children.filter (fun c => !Vocabulary.isComment c.kind) = [v] ∧
    o.range.stop = max v.range.stop
      (lastStop (o.children.filter fun c => Vocabulary.isComment c.kind))

variable {tokens : List Token} {P : K → Outline K → Prop}

structure Tidy (tokens : List Token) (P : K → Outline K → Prop) (o : Outline K) : Prop where
  within : ∀ c ∈ o.children, c.range.IsWithin o.range
  before : o.children.Pairwise Before
  neat : ∀ c ∈ o.children, Neat tokens P o.kind c

theorem Neat.tidy {parent : K} {o : Outline K} (h : Neat tokens P parent o) : Tidy tokens P o := by
  cases h with
  | node _ _ hw hb hn => exact ⟨hw, hb, hn⟩

theorem Neat.spans {parent : K} {o : Outline K} (h : Neat tokens P parent o) : o.Spans tokens := by
  cases h with
  | node hs => exact hs

theorem Neat.holds {parent : K} {o : Outline K} (h : Neat tokens P parent o) : P parent o := by
  cases h with
  | node _ hp => exact hp

end Outline

open Outline (Before Neat Ends Tidy)

namespace Tree

variable [Vocabulary K] {t : Tree K} {id : Nat} {tokens : List Token} {P : K → Outline K → Prop}
  {top : Outline K}

theorem Linked.exists_tidy (ht : t.Linked) (ho : t.outline? = some top) (htop : Tidy tokens P top)
    (hid : id < t.size) : ∃ o, t.outlineAt? id = some o ∧ Tidy tokens P o := by
  -- A node is younger than its parent, below which it is neat.
  induction id using Nat.strongRecOn with
  | _ id ih =>
    rcases Nat.eq_zero_or_pos id with rfl | hpos
    · exact ⟨top, ho, htop⟩
    · obtain ⟨p, -, hmem⟩ := ht.adopted id hpos hid
      obtain ⟨hlt, -⟩ := ht.younger p id hmem
      obtain ⟨o, ho, htidy⟩ := ih p hlt (by omega)
      obtain ⟨n, hn, -, -, hshows⟩ := ht.shows_children ho
      rw [children_of_node? hn] at hmem
      obtain ⟨o', ho', he⟩ := hshows.exists_outline hmem
      exact ⟨o', he, (htidy.neat o' ho').tidy⟩

theorem Linked.exists_neat (ht : t.Linked) (ho : t.outline? = some top) (htop : Tidy tokens P top)
    (hpos : 0 < id) (hid : id < t.size) :
    ∃ p m n o, t.parent? id = some p ∧ t.node? p = some m ∧ t.node? id = some n ∧
      t.outlineAt? id = some o ∧ n.kind = o.kind ∧ Neat tokens P m.kind o := by
  obtain ⟨p, hp, hmem⟩ := ht.adopted id hpos hid
  obtain ⟨hlt, -⟩ := ht.younger p id hmem
  obtain ⟨o, ho, htidy⟩ := ht.exists_tidy ho htop (Nat.lt_trans hlt hid)
  obtain ⟨m, hm, hkind, -, hshows⟩ := ht.shows_children ho
  rw [children_of_node? hm] at hmem
  obtain ⟨o', ho', he⟩ := hshows.exists_outline hmem
  obtain ⟨n, hn, hkind', -⟩ := ht.shows_children he
  exact ⟨p, m, n, o', hp, hm, hn, he, hkind', hkind ▸ htidy.neat o' ho'⟩

theorem Linked.exists_neat_of_kind_ne (ht : t.Linked) (ho : t.outline? = some top)
    (htop : Tidy tokens P top) {n : Node K} (hn : t.node? id = some n) (hne : n.kind ≠ top.kind) :
    ∃ m o, t.outlineAt? id = some o ∧ n.kind = o.kind ∧ Neat tokens P m o := by
  have hpos : 0 < id := by
    refine Nat.pos_of_ne_zero fun hzero => ?_
    subst hzero
    obtain ⟨m, hm, hkind, -⟩ := ht.shows_children ho
    obtain rfl : m = n := Option.some.inj (hm.symm.trans hn)
    exact hne hkind
  obtain ⟨_, m, n', o, -, -, hn', ho', hkind, hneat⟩ :=
    ht.exists_neat ho htop hpos (lt_size_of_node? hn)
  obtain rfl : n' = n := Option.some.inj (hn'.symm.trans hn)
  exact ⟨m.kind, o, ho', hkind, hneat⟩

theorem isCommentAt_of_outlineAt? {o : Outline K} (h : t.outlineAt? id = some o) :
    t.isCommentAt id = Vocabulary.isComment o.kind := by
  rw [outlineAt?] at h
  obtain ⟨n, hn, rfl⟩ := Option.map_eq_some_iff.1 h
  rw [isCommentAt, hn]
  rfl

theorem Shows.filter {ids : List Nat} {os : List (Outline K)} (h : t.Shows ids os) (f : Bool → Bool) :
    t.Shows (ids.filter fun i => f (t.isCommentAt i))
      (os.filter fun o => f (Vocabulary.isComment o.kind)) := by
  induction h with
  | nil => exact .nil
  | @cons i o ids os ho _ ih =>
    rw [List.filter_cons, List.filter_cons, isCommentAt_of_outlineAt? ho]
    split
    · exact .cons ho ih
    · exact ih

theorem Linked.shows_declarations (ht : t.Linked) {o : Outline K} (ho : t.outlineAt? id = some o) :
    t.Shows (t.declarations id) (o.children.filter fun c => !Vocabulary.isComment c.kind) := by
  obtain ⟨n, hn, -, -, hshows⟩ := ht.shows_children ho
  rw [declarations, children_of_node? hn]
  exact hshows.filter (!·)

theorem Linked.trails (ht : t.Linked) {o v : Outline K} (ho : t.outlineAt? id = some o)
    (hv : o.children.filter (fun c => !Vocabulary.isComment c.kind) = [v])
    (hstop : o.range.stop = max v.range.stop
      (Outline.lastStop (o.children.filter fun c => Vocabulary.isComment c.kind))) :
    ∃ v, t.declarations id = [v] ∧
      (t.range id).stop = max (t.range v).stop (t.lastCommentStop id) := by
  obtain ⟨n, hn, -, -, hshows⟩ := ht.shows_children ho
  have hdecl := ht.shows_declarations ho
  rw [hv] at hdecl
  have hcomments : t.lastCommentStop id =
      Outline.lastStop (o.children.filter fun c => Vocabulary.isComment c.kind) := by
    rw [lastCommentStop, children_of_node? hn, Outline.lastStop]
    exact congrArg (·.getD 0) (hshows.filter fun b => b).getLast?_stop
  generalize t.declarations id = ids at hdecl
  cases hdecl with
  | cons hi hnil =>
    cases hnil
    refine ⟨_, rfl, ?_⟩
    rw [range_of_outlineAt? ho, range_of_outlineAt? hi, hcomments, hstop]

theorem Linked.exists_spans (ht : t.Linked) (ho : t.outline? = some top) (htop : Tidy tokens P top)
    (hpos : 0 < id) (hid : id < t.size) :
    ∃ o : Outline K, t.range id = o.range ∧ o.Spans tokens := by
  obtain ⟨_, _, _, o, -, -, -, ho', -, hneat⟩ := ht.exists_neat ho htop hpos hid
  exact ⟨o, range_of_outlineAt? ho', hneat.spans⟩

theorem Linked.isWithin (ht : t.Linked) (ho : t.outline? = some top) (htop : Tidy tokens P top)
    {c : Nat} (hc : c ∈ t.children id) : (t.range c).IsWithin (t.range id) := by
  have hlt := ht.younger id c hc
  obtain ⟨o, ho', htidy⟩ := ht.exists_tidy ho htop (Nat.lt_trans hlt.1 hlt.2)
  obtain ⟨n, hn, -, -, hshows⟩ := ht.shows_children ho'
  rw [children_of_node? hn] at hc
  obtain ⟨o', hmem, he⟩ := hshows.exists_outline hc
  rw [range_of_outlineAt? ho', range_of_outlineAt? he]
  exact htidy.within o' hmem

theorem Linked.pairwise_children (ht : t.Linked) (ho : t.outline? = some top) (htop : Tidy tokens P top)
    (id : Nat) : (t.children id).Pairwise fun c d =>
      (t.range c).start < (t.range d).start ∧ ((t.range c).stop ≤ (t.range d).start ∨
        t.isCommentAt d = true ∧ t.isCommentAt c = false ∧ (t.range d).IsWithin (t.range c)) := by
  by_cases hid : id < t.size
  · obtain ⟨o, ho', htidy⟩ := ht.exists_tidy ho htop hid
    obtain ⟨n, hn, -, -, hshows⟩ := ht.shows_children ho'
    rw [children_of_node? hn]
    refine hshows.pairwise htidy.before fun i j o o' hi hj hb => ?_
    rw [range_of_outlineAt? hi, range_of_outlineAt? hj, isCommentAt_of_outlineAt? hi,
      isCommentAt_of_outlineAt? hj]
    exact ⟨hb.start_lt, hb.apart.imp_right fun ⟨hc, hc', hw⟩ =>
      ⟨hc, Bool.eq_false_iff.2 hc', hw⟩⟩
  · rw [Tree.children, node?_eq_none.2 (Nat.le_of_not_lt hid)]
    exact .nil

theorem Linked.nested (ht : t.Linked) {text : String} {closers : K → K → List Punct}
    {trails : K → K → Bool} {kind : K} {cs : List (Outline K)}
    (ho : t.outline? = some (.node kind ⟨0, text.utf8ByteSize⟩ cs))
    (htop : Tidy tokens (Ends tokens closers trails) (.node kind ⟨0, text.utf8ByteSize⟩ cs)) :
    t.Nested text tokens closers trails where
  root_range := range_of_outlineAt? ho
  nonempty id hpos hid := by
    obtain ⟨o, hr, hs⟩ := ht.exists_spans ho htop hpos hid
    exact hr ▸ hs.start_lt_stop
  starts_at_token id hpos hid := by
    obtain ⟨o, hr, u, hu, _, _, he, -⟩ := ht.exists_spans ho htop hpos hid
    exact ⟨u, hu, by rw [hr, he]⟩
  stops_at_token id hpos hid := by
    obtain ⟨o, hr, _, _, u, hu, he, -⟩ := ht.exists_spans ho htop hpos hid
    exact ⟨u, hu, by rw [hr, he]⟩
  within id c hc := ht.isWithin ho htop hc
  increasing id := (ht.pairwise_children ho htop id).imp fun h => h.1
  apart id := (ht.pairwise_children ho htop id).imp fun h => h.2
  closed id hpos hid := by
    obtain ⟨p, m, n, o, hp, hm, hn, ho', hkind, hneat⟩ := ht.exists_neat ho htop hpos hid
    refine ⟨p, m, n, hp, hm, hn, ?_, ?_⟩
    · rw [hkind]
      exact fun hne => ht.closedBy ho' (hneat.holds.closed hne)
    · rw [hkind]
      intro htrails
      obtain ⟨v, hv, hstop⟩ := hneat.holds.trails htrails
      exact ht.trails ho' hv hstop

end Tree
end ProtoSyntax
