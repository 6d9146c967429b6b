import ProtoSyntax.Proofs.Parsing.Assembly
import ProtoSyntax.Proofs.Parsing.Discipline
import ProtoSyntax.Proofs.Tiling

/-!
# Acts are allowed

What every act of a parse asks of the state: a node is put where there is a place for it, a
container is closed only if it is not the root, and all that is cut out of the text lies between
characters. A state keeps these promises from act to act as long as the level goes along.
-/

namespace ProtoSyntax
open Piece (flatten)

variable {G S K : Type}

structure Range.FitsIn (r : Range) (text : String) : Prop where
  start_le_stop : r.start ≤ r.stop
  isValid_start : (⟨r.start⟩ : String.Pos.Raw).IsValid text
  isValid_stop : (⟨r.stop⟩ : String.Pos.Raw).IsValid text

/-- A node begun can be put into the open container, and ends where the last token ended. -/
structure State.Placeable (s : State K) (p : Pending) : Prop where
  parent : p.marker.parent = s.container
  container_lt : s.container < s.tree.size
  place_le : p.marker.place ≤ (s.tree.children s.container).length
  range : Range.FitsIn ⟨p.marker.start, s.prevStop⟩ s.text
  slices : ∀ t ts, t :: ts <:+: p.tokens → Range.FitsIn ⟨t.start, (ts.getLastD t).stop⟩ s.text

structure State.Closable (s : State K) (stop : Nat) : Prop where
  nested : 1 < s.containers.length
  container_lt : s.container < s.tree.size
  start_le : (s.tree.range s.container).start ≤ stop

def Act.Allowed (s : State K) (pending : Option Pending) : Act S → Prop
  | .take t role =>
    s.current = some t ∧
      match role with
      | .plain | .begins => True
      | .opens _ => ∃ p, pending = some p ∧ s.Placeable p
      | .closes => s.Closable t.stop
  | .complete _ => ∃ p, pending = some p ∧ s.Placeable p
  | .finish => s.Closable (max s.lastChildStop s.prevStop)

structure Sliceable (text : String) (tokens : List Token) : Prop where
  ordered : Ordered tokens
  fits : ∀ t ∈ tokens, Range.FitsIn ⟨t.start, t.stop⟩ text

namespace Sliceable

variable {text : String} {tokens : List Token}

theorem sublist (h : Sliceable text tokens) {ts : List Token} (hs : ts.Sublist tokens) : Sliceable text ts :=
  ⟨h.ordered.sublist hs, fun t ht => h.fits t (hs.subset ht)⟩

theorem fits_span {t : Token} {ts : List Token} (h : Sliceable text (t :: ts)) :
    Range.FitsIn ⟨t.start, (ts.getLastD t).stop⟩ text :=
  have hlast : ts.getLastD t ∈ t :: ts := List.getLastD_mem_cons
  ⟨h.ordered.start_le_stop hlast, (h.fits t List.mem_cons_self).isValid_start,
    (h.fits _ hlast).isValid_stop⟩

end Sliceable

theorem Tree.range_insertChild?_of_ne {t t' : Tree K} {parent place id c : Nat} {kind : K}
    {range : Range} (h : t.insertChild? parent place kind range = some (id, t')) (hc : c ≠ id) :
    t'.range c = t.range c := by
  by_cases hp : c = parent
  · subst hp
    rw [Tree.range, Tree.range, node?_insertChild?_parent h, Option.map_map]
    rfl
  · rw [Tree.range, Tree.range, node?_insertChild?_of_ne h hp hc]

theorem Tree.start_setStop? {t t' : Tree K} {id stop : Nat} (h : t.setStop? id stop = some t')
    (c : Nat) : (t'.range c).start = (t.range c).start := by
  by_cases hc : c = id
  · subst hc
    rw [Tree.range, Tree.range, node?_setStop?_self h]
    cases t.node? c <;> rfl
  · rw [Tree.range, Tree.range, node?_setStop?_of_ne h hc]

theorem Tree.Grown.range_eq_of_lt {t t' : Tree K} {c id : Nat} {os : List (Outline K)}
    (h : t.Grown t' c os) (hid : id < t.size) : t'.range id = t.range id := by
  by_cases hc : id = c
  · subst hc
    exact h.range_eq
  · rw [Tree.range, Tree.range, h.same id hid hc]

structure Poised (text : String) (tokens : List Token) (s : State K) (depth : Nat)
    (ps : List Piece) : Prop where
  text : s.text = text
  ready : Ready s ps
  depth : s.containers.length = depth + 1
  root : s.containers.getLast? = some Tree.root
  containers : ∀ c ∈ s.containers, c < s.tree.size ∧ (s.tree.range c).start ≤ s.prevStop
  behind : ∀ t ∈ flatten ps, s.prevStop ≤ t.start
  sublist : (flatten ps).Sublist tokens

structure Keeps (tokens : List Token) (s : State K) (p : Pending) (ps : List Piece) : Prop where
  parent : p.marker.parent = s.container
  place_le : p.marker.place ≤ (s.tree.children s.container).length
  start : p.tokens.head?.map (·.start) = some p.marker.start
  stop : p.tokens.getLast?.map (·.stop) = some s.prevStop
  sublist : (p.tokens ++ flatten ps).Sublist tokens

/-- A state in which every act is allowed that the level admits. -/
structure Standing (text : String) (tokens : List Token) (s : State K) (pending : Option Pending)
    (l : Level) (ps : List Piece) : Prop where
  poised : Poised text tokens s l.depth ps
  begun : pending.isSome = l.begun
  keeps : ∀ p ∈ pending, Keeps tokens s p ps

namespace Poised

variable {text : String} {tokens : List Token} {s s' : State K} {depth : Nat} {p : Piece}
  {ps qs : List Piece} {os : List (Outline K)}

theorem passed (h : Poised text tokens s depth (qs ++ ps)) (hr : Ready s' ps)
    (hp : Passed s s' qs os) : Poised text tokens s' depth ps := by
  have hlast : s.prevStop ≤ s'.prevStop ∧ ∀ t ∈ flatten ps, s'.prevStop ≤ t.start := by
    have hbehind := h.behind
    rw [hp.prevStop]
    cases qs with
    | nil => exact ⟨Nat.le_refl _, hbehind⟩
    | cons q qs =>
      obtain ⟨r, hr, he⟩ := lastStop_eq_stop s.prevStop q qs
      have hmem := Piece.token_mem_flatten hr
      have := hbehind r.token (by rw [Piece.flatten_append]; exact List.mem_append_left _ hmem)
      have := r.token.start_le_stop
      have ho := h.ready.ordered
      rw [Piece.flatten_append] at ho
      rw [he]
      exact ⟨by omega, (List.pairwise_append.1 ho).2.2 _ hmem⟩
  refine ⟨hp.text.trans h.text, hr, by rw [hp.containers, h.depth], by rw [hp.containers, h.root], ?_,
    hlast.2, ?_⟩
  · rw [hp.containers]
    intro c hc
    obtain ⟨hlt, hstart⟩ := h.containers c hc
    rw [hp.grown.range_eq_of_lt hlt]
    exact ⟨Nat.lt_of_lt_of_le hlt hp.grown.size_le, Nat.le_trans hstart hlast.1⟩
  · refine List.Sublist.trans ?_ h.sublist
    rw [Piece.flatten_append]
    exact List.sublist_append_right _ _

end Poised

namespace Keeps

variable {text : String} {tokens : List Token} {s s' : State K} {p : Pending} {q : Piece}
  {ps : List Piece} {os : List (Outline K)}

theorem push (h : Keeps tokens s p (q :: ps)) (hp : Passed s s' [q] os) :
    Keeps tokens s' (p.push q.token) ps where
  parent := h.parent.trans hp.container.symm
  place_le := by
    rw [hp.container]
    exact Nat.le_trans h.place_le hp.grown.children_length_le
  start := by
    have hstart := h.start
    simp only [Pending.push, Pending.tokens, List.reverse_cons] at hstart ⊢
    cases ht : p.taken.reverse with
    | nil => simp [ht] at hstart
    | cons t ts => simpa [ht] using hstart
  stop := by
    simp [Pending.push, Pending.tokens, hp.prevStop, lastStop]
  sublist := by
    refine List.Sublist.trans ?_ h.sublist
    simp [Pending.push, Pending.tokens]

theorem placeable {depth : Nat} (h : Keeps tokens s p ps) (hs : Poised text tokens s depth ps)
    (hslice : Sliceable text tokens) : s.Placeable p where
  parent := h.parent
  container_lt := hs.ready.container_lt
  place_le := h.place_le
  range := by
    have htokens := hslice.sublist ((List.sublist_append_left _ _).trans h.sublist)
    have hstart := h.start
    have hstop := h.stop
    cases ht : p.tokens with
    | nil => simp [ht] at hstart
    | cons t ts =>
      rw [ht] at htokens hstart hstop
      have hfits := htokens.fits_span
      rw [List.getLast?_cons, Option.map_some, ← List.getLastD_eq_getLast?] at hstop
      rw [← Option.some.inj hstop, ← Option.some.inj hstart, hs.text]
      exact hfits
  slices t ts hts := by
    have htokens := hslice.sublist ((List.sublist_append_left _ _).trans h.sublist)
    exact hs.text ▸ (htokens.sublist hts.sublist).fits_span

end Keeps

section upholds

variable [Vocabulary K] {g : Grammar G S K}
  {holds : State K → Option Pending → Level → List Piece → Prop}

/-- Where something holds of a state and the level admits the move, the move is carried out and it
holds at the next level. -/
def Grammar.Upholds (g : Grammar G S K)
    (holds : State K → Option Pending → Level → List Piece → Prop) (m : Move S) : Prop :=
  ∀ s pending l l' ps, holds s pending l (Signal.pieces m.signals ++ ps) → m.act.turn l = some l' →
    ∃ pending' s', g.Plays [m] pending pending' s s' ∧ holds s' pending' l' ps

theorem Grammar.plays_all {ms : List (Move S)} {s : State K} {pending : Option Pending}
    {l l' : Level} {ps : List Piece} (hms : ∀ m ∈ ms, g.Upholds holds m)
    (h : holds s pending l (Signal.pieces (ms.flatMap Move.signals) ++ ps))
    (hl : actsTurn (ms.map Move.act) l = some l') :
    ∃ pending' s', g.Plays ms pending pending' s s' ∧ holds s' pending' l' ps := by
  induction ms generalizing pending s l with
  | nil =>
    obtain rfl := Option.some.inj hl
    exact ⟨pending, s, .nil, h⟩
  | cons m ms ih =>
    obtain ⟨l₁, hm, hl⟩ := Option.bind_eq_some_iff.1 hl
    rw [List.flatMap_cons, Signal.pieces_append, List.append_assoc] at h
    obtain ⟨hm', hms⟩ := List.forall_mem_cons.1 hms
    obtain ⟨pending₁, s₁, hplay, h₁⟩ := hm' s pending l l₁ _ h hm
    obtain ⟨pending', s', hplay', h'⟩ := ih hms h₁ hl
    exact ⟨pending', s', hplay.append hplay', h'⟩

end upholds

section plays

variable [Vocabulary K] (g : Grammar G S K) {text : String} {tokens : List Token} {s : State K}
  {pending : Option Pending} {l l' : Level} {ps : List Piece}

omit [Vocabulary K] in
theorem Poised.insert {depth id place : Nat} {kind : K} {range : Range} {tree : Tree K}
    (h : Poised text tokens s depth ps)
    (hins : s.tree.insertChild? s.container place kind range = some (id, tree)) :
    ∀ c ∈ s.containers, c < tree.size ∧ (tree.range c).start ≤ s.prevStop := by
  intro c hc
  obtain ⟨hlt, hstart⟩ := h.containers c hc
  have hid := (Tree.insertChild?_eq hins).1
  rw [Tree.size_insertChild? hins, Tree.range_insertChild?_of_ne hins (by omega)]
  exact ⟨by omega, hstart⟩

theorem Standing.plain {p : Piece} (h : Standing text tokens s pending l (p :: ps)) :
    ∃ s', g.Plays [.take p .plain] pending (pending.map (·.push p.token)) s s' ∧
      Standing text tokens s' (pending.map (·.push p.token)) l ps := by
  obtain ⟨s', hplay, hr, hp⟩ := g.plays_plain pending h.poised.ready
  refine ⟨s', hplay, h.poised.passed hr hp, by simpa using h.begun, ?_⟩
  intro p' hp'
  obtain ⟨p'', hp'', rfl⟩ := Option.map_eq_some_iff.1 hp'
  exact (h.keeps p'' hp'').push hp

theorem Standing.begins {p : Piece} {d : Nat} (h : Standing text tokens s pending ⟨false, d⟩ (p :: ps)) :
    ∃ s', g.Plays [.take p .begins] pending (some ⟨s.marker, [p.token]⟩) s s' ∧
      Standing text tokens s' (some ⟨s.marker, [p.token]⟩) ⟨true, d⟩ ps := by
  obtain ⟨s', hplay, hr, hp⟩ := g.plays_begins pending h.poised.ready
  refine ⟨s', hplay, h.poised.passed hr hp, rfl, ?_⟩
  rintro _ ⟨⟩
  have hmarker := h.poised.ready.marker
  constructor
  · rw [hp.container, hmarker]
  · rw [hp.container, hmarker]
    exact hp.grown.children_length_le
  · rw [hmarker]
    rfl
  · rw [hp.prevStop]
    rfl
  · refine List.Sublist.trans ?_ h.poised.sublist
    simp [Pending.tokens]

theorem Standing.complete {shape : S} {m : Pending} {d : Nat}
    (h : Standing text tokens s (some m) ⟨true, d⟩ ps) :
    ∃ s', g.Plays [.complete shape] (some m) none s s' ∧
      Standing text tokens s' none ⟨false, d⟩ ps := by
  have hm := h.keeps m rfl
  obtain ⟨id, tree, hins, hplay, hr⟩ := g.plays_complete shape h.poised.ready hm.parent hm.place_le
  refine ⟨_, hplay, ?_, rfl, by simp⟩
  exact ⟨h.poised.text, hr, h.poised.depth, h.poised.root, h.poised.insert hins, h.poised.behind,
    h.poised.sublist⟩

theorem Standing.opens {shape : S} {m : Pending} {p : Piece} {d : Nat}
    (h : Standing text tokens s (some m) ⟨true, d⟩ (p :: ps)) (hslice : Sliceable text tokens) :
    ∃ s', g.Plays [.take p (.opens shape)] (some m) none s s' ∧
      Standing text tokens s' none ⟨false, d + 1⟩ ps := by
  have hm := h.keeps m rfl
  obtain ⟨id, tree, s', hins, hplay, hr, hr', hp⟩ :=
    g.plays_opens shape h.poised.ready hm.parent hm.place_le
  have hopen : Poised text tokens { s with tree, containers := id :: s.containers } (d + 1)
      (p :: ps) := by
    refine ⟨h.poised.text, hr, by simp [h.poised.depth], ?_, ?_, h.poised.behind, h.poised.sublist⟩
    · rw [List.getLast?_cons, h.poised.root]
      rfl
    rintro c (_ | ⟨_, hc⟩)
    · have hstart : (tree.range id).start = m.marker.start := by
        rw [Tree.range, Tree.node?_insertChild?_new hins]
        rfl
      refine ⟨hr.container_lt, ?_⟩
      exact hstart ▸ (hm.placeable h.poised hslice).range.start_le_stop
    · exact h.poised.insert hins c hc
  exact ⟨s', hplay, hopen.passed hr' hp, rfl, by simp⟩

omit [Vocabulary K] in
theorem Standing.closable {closer : Option Piece} {d : Nat}
    (h : Standing text tokens s pending ⟨false, d + 1⟩ (closer.toList ++ ps)) :
    s.Closable (lastStop (max s.lastChildStop s.prevStop) closer.toList) := by
  refine ⟨by rw [h.poised.depth]; simp, h.poised.ready.container_lt, ?_⟩
  -- A container begins before what has been passed, and a closing token ends after that.
  have hstart : (s.tree.range s.container).start ≤ s.prevStop := by
    obtain ⟨id, outer, hcs⟩ := List.exists_cons_of_ne_nil h.poised.ready.containers_ne
    have hmem : s.container ∈ s.containers := by simp [State.container, hcs]
    exact (h.poised.containers _ hmem).2
  cases closer with
  | none => exact Nat.le_trans hstart (Nat.le_max_right _ _)
  | some q =>
    have hbehind : s.prevStop ≤ q.token.start := h.poised.behind _ (by simp)
    exact Nat.le_trans (Nat.le_trans hstart hbehind) q.token.start_le_stop

theorem Standing.ending {closer : Option Piece} {d : Nat}
    (h : Standing text tokens s pending ⟨false, d + 1⟩ (closer.toList ++ ps)) :
    ∃ s', g.Plays [Part.ending closer] pending none s s' ∧
      Standing text tokens s' none ⟨false, d⟩ ps := by
  obtain rfl : pending = none := by simpa using h.begun
  obtain ⟨id, outer, hcs⟩ := List.exists_cons_of_ne_nil h.poised.ready.containers_ne
  have hid : s.container = id := by simp [State.container, hcs]
  have hdepth : outer.length = d + 1 := by simpa [hcs] using h.poised.depth
  -- The depth is positive, so the root stays open below the container that is closed.
  obtain ⟨id', outer', rfl⟩ := List.exists_cons_of_length_eq_add_one hdepth
  have hc := (h.poised.containers id' (by simp [hcs])).1
  obtain ⟨tree, s', hset, hplay, hr, hr', hp⟩ := g.plays_ending h.poised.ready hcs (by simp) hc
    (hid ▸ h.closable.start_le)
  have hclosed : Poised text tokens { s with tree, containers := id' :: outer' } d
      (closer.toList ++ ps) := by
    have hroot : (id' :: outer').getLast? = some Tree.root := by
      rw [← h.poised.root, hcs, List.getLast?_cons_cons]
    refine ⟨h.poised.text, hr, hdepth, hroot, fun c hc => ?_, h.poised.behind, h.poised.sublist⟩
    rw [Tree.size_setStop? hset, Tree.start_setStop? hset]
    exact h.poised.containers c (hcs ▸ List.mem_cons_of_mem _ hc)
  exact ⟨s', hplay, hclosed.passed hr' hp, rfl, by simp⟩

/-- A move that the level admits is allowed, and the state it leads to stands at the next level. -/
theorem Standing.plays {m : Move S}
    (h : Standing text tokens s pending l (Signal.pieces m.signals ++ ps))
    (hslice : Sliceable text tokens) (hl : m.act.turn l = some l') :
    m.act.Allowed s pending ∧
      ∃ pending' s', g.Plays [m] pending pending' s s' ∧ Standing text tokens s' pending' l' ps := by
  cases m with
  | take p role =>
    cases role with
    | plain =>
      obtain rfl := Option.some.inj hl
      exact ⟨⟨h.poised.ready.current, trivial⟩, _, h.plain g⟩
    | begins =>
      obtain ⟨_ | _, d⟩ := l <;> cases hl
      exact ⟨⟨h.poised.ready.current, trivial⟩, _, h.begins g⟩
    | opens shape =>
      obtain ⟨_ | _, d⟩ := l <;> cases hl
      obtain ⟨m, rfl⟩ := Option.isSome_iff_exists.1 h.begun
      exact ⟨⟨h.poised.ready.current, m, rfl, (h.keeps m rfl).placeable h.poised hslice⟩, _,
        h.opens g hslice⟩
    | closes =>
      obtain ⟨_ | _, _ | d⟩ := l <;> cases hl
      have hclose : Standing text tokens s pending ⟨false, d + 1⟩ ((some p).toList ++ ps) := h
      exact ⟨⟨h.poised.ready.current, hclose.closable⟩, _, hclose.ending g⟩
  | complete shape =>
    obtain ⟨_ | _, d⟩ := l <;> cases hl
    obtain ⟨m, rfl⟩ := Option.isSome_iff_exists.1 h.begun
    exact ⟨⟨m, rfl, (h.keeps m rfl).placeable h.poised hslice⟩, _, h.complete g⟩
  | finish =>
    obtain ⟨_ | _, _ | d⟩ := l <;> cases hl
    have hfinish : Standing text tokens s pending ⟨false, d + 1⟩ ((none : Option Piece).toList ++ ps) := h
    exact ⟨hfinish.closable, _, hfinish.ending g⟩

theorem Standing.upholds (hslice : Sliceable text tokens) (m : Move S) :
    g.Upholds (Standing text tokens) m :=
  fun _ _ _ _ _ h hl => (h.plays g hslice hl).2

theorem Standing.allowed {ms : List (Move S)}
    (h : Standing text tokens s none l (Signal.pieces (ms.flatMap Move.signals) ++ ps))
    (hslice : Sliceable text tokens) (hl : actsTurn (ms.map Move.act) l = some l')
    {before after : List (Act S)} {act : Act S} (hms : ms.map Move.act = before ++ act :: after) :
    ∃ pending' s', g.play before none s = .ok pending' s' ∧ act.Allowed s' pending' := by
  obtain ⟨xs, ys, rfl, rfl, hys⟩ := List.map_eq_append_iff.1 hms
  obtain ⟨m, zs, rfl, rfl, -⟩ := List.map_eq_cons_iff.1 hys
  rw [actsTurn, List.map_append, List.map_append, Turn.row_append] at hl
  obtain ⟨l₁, hxs, hl⟩ := Option.bind_eq_some_iff.1 hl
  obtain ⟨l₂, hm, -⟩ := Option.bind_eq_some_iff.1 hl
  simp only [List.flatMap_append, List.flatMap_cons, Signal.pieces_append, List.append_assoc] at h
  obtain ⟨pending', s', hplay, h'⟩ :=
    Grammar.plays_all (fun m _ => Standing.upholds g hslice m) h hxs
  exact ⟨pending', s', hplay, (h'.plays g hslice hm).1⟩

end plays

section parse

variable [Vocabulary K]

/-- What a run does is carried out from a state on. Each act is allowed when its turn comes, and
in the end nothing but the root is open, unless the run is refused. -/
structure Grammar.CarriesOut (g : Grammar G S K) (trace : Trace S) (s : State K) : Prop where
  plays : ∃ pending s', g.play trace.acts none s = .ok pending s' ∧
    (trace.refusal = none → s'.containers = [Tree.root])
  allowed : ∀ before act after, trace.acts = before ++ act :: after →
    ∃ pending s', g.play before none s = .ok pending s' ∧ act.Allowed s' pending

/-- Nothing that a parse does is misuse, whether it reads the text or refuses it. -/
structure Grammar.Safe (g : Grammar G S K) (goal : G) (text : String) (tokens : List Token) :
    Prop where
  tokens_fit : ∀ t ∈ tokens, Range.FitsIn ⟨t.start, t.stop⟩ text
  carriesOut : ∃ s, State.ofTokens text tokens = .ok () s ∧
    g.CarriesOut (g.react.run [.goal goal] s.stream.rest []) s
  outcome : (∃ tree, g.parse goal text tokens = .ok tree) ∨
    ∃ e, g.parse goal text tokens = .error (.refused e) ∧ e.range.FitsIn text

variable {text : String} {lead : List Token} {ps : List Piece}

theorem exists_standing (hlead : ∀ t ∈ lead, t.isComment = true)
    (ho : Ordered (lead ++ flatten ps)) :
    ∃ s : State K, State.ofTokens text (lead ++ flatten ps) = .ok () s ∧
      s.stream.rest = flatten ps ∧
      Standing text (lead ++ flatten ps) s none ⟨false, 0⟩ ps := by
  obtain ⟨s, hs, hr, htext, hcontainers, hprev, hgrown⟩ := Grammar.ofTokens_eq (K := K) text hlead ho
  refine ⟨s, hs, hr.rest, ⟨htext, hr, by rw [hcontainers]; rfl, by rw [hcontainers]; rfl, ?_,
    fun t _ => hprev ▸ Nat.zero_le _, List.sublist_append_right _ _⟩, rfl, by simp⟩
  have hstart : (s.tree.range Tree.root).start = 0 := by
    rw [hgrown.range_eq]
    rfl
  rw [hcontainers]
  rintro c (_ | ⟨_, ⟨⟩⟩)
  exact ⟨hr.linked.nonempty, hstart ▸ Nat.zero_le _⟩

omit [Vocabulary K] in
theorem Standing.rangeAt_fits {tokens : List Token} {s : State K} {pending : Option Pending}
    {l : Level} (h : Standing text tokens s pending l ps) (hslice : Sliceable text tokens) :
    (ParseError.rangeAt s.text s.current).FitsIn text := by
  cases hc : s.current with
  | none =>
    rw [h.poised.text]
    exact ⟨Nat.le_refl _, String.Pos.Raw.isValid_rawEndPos, String.Pos.Raw.isValid_rawEndPos⟩
  | some t =>
    have hmem : t ∈ flatten ps := by
      rw [State.current, TokenStream.current, TokenStream.lookAhead, h.poised.ready.rest] at hc
      exact List.mem_of_getElem? hc
    exact hslice.fits t (h.poised.sublist.subset hmem)

theorem Grammar.read_of_refusal_of_plays {g : Grammar G S K} {symbols : List (Symbol G S)}
    {s s' : State K} {pending : Option Pending} {refusal : Refusal}
    (hplay : g.play (g.react.run symbols s.stream.rest []).acts none s = .ok pending s')
    (h : (g.react.run symbols s.stream.rest []).refusal = some refusal) :
    g.read symbols s = .error (.refused (s'.refuse refusal)) s' := by
  have hget : (get : ParseM K (State K)) s = .ok s s := rfl
  simp only [read, bind_of_ok hget, bind_of_ok hplay, h]
  rfl

/-- A run of a grammar on a text, carried out from the state at the beginning of the text on: the
state it leads to stands at the level of the run. -/
structure Grammar.PlayedOut (g : Grammar G S K) (text : String) (lead : List Token)
    (ps : List Piece) (trace : Trace S) (s : State K) (ms : List (Move S)) (left : List Piece)
    (l : Level) (pending : Option Pending) (s' : State K) : Prop where
  ofTokens : State.ofTokens text (lead ++ flatten ps) = .ok () s
  rest : s.stream.rest = flatten ps
  standing : Standing text (lead ++ flatten ps) s none ⟨false, 0⟩
    (Signal.pieces (ms.flatMap Move.signals) ++ left)
  makes : trace.Makes [] ms ps left
  level : actsTurn (ms.map Move.act) ⟨false, 0⟩ = some l
  plays : g.play trace.acts none s = .ok pending s'
  standing' : Standing text (lead ++ flatten ps) s' pending l left
  settled : trace.refusal = none → s'.containers = [Tree.root]

variable {g : Grammar G S K} {turn : G → Turn} {goal : G}

theorem Disciplined.exists_playedOut (h : Disciplined g.react turn)
    (hgoal : turn goal ⟨false, 0⟩ = some ⟨false, 0⟩) (hlead : ∀ t ∈ lead, t.isComment = true)
    (hslice : Sliceable text (lead ++ flatten ps)) :
    ∃ s ms left l pending s', g.PlayedOut text lead ps
      (g.react.run [.goal goal] (flatten ps) []) s ms left l pending s' := by
  obtain ⟨s, hs, hrest, hstanding⟩ := exists_standing (K := K) hlead hslice.ordered
  have hstack : stackTurn turn ([.goal goal] : List (Symbol G S)) ⟨false, 0⟩ = some ⟨false, 0⟩ :=
    stackTurn_cons_eq_some.2 ⟨_, hgoal, rfl⟩
  -- A run that is refused stops at some level, any other one where it began, with nothing open.
  obtain ⟨ms, left, l, hmakes, hlevel, hsettles⟩ := @Disciplined.run _ _ _ _ h _ ps [] _ _ hstack
  have hstart : Standing text (lead ++ flatten ps) s none ⟨false, 0⟩
      (Signal.pieces (ms.flatMap Move.signals) ++ left) := by
    rw [hmakes.pieces]
    exact hstanding
  have hacts : (g.react.run [.goal goal] (flatten ps) []).acts = ms.map Move.act := hmakes.acts
  obtain ⟨pending, s', hplay, hstanding'⟩ :=
    Grammar.plays_all (fun m _ => Standing.upholds g hslice m) hstart hlevel
  refine ⟨s, ms, left, l, pending, s', hs, hrest, hstart, hmakes, hlevel, ?_, hstanding',
    fun href => ?_⟩
  · rw [hacts]
    exact hplay
  · have hlength : s'.containers.length = 1 := by
      rw [hstanding'.poised.depth, hsettles href]
    obtain ⟨c, hc⟩ := List.length_eq_one_iff.1 hlength
    have hroot : [c].getLast? = some Tree.root := hc ▸ hstanding'.poised.root
    obtain rfl : c = Tree.root := Option.some.inj hroot
    exact hc

namespace Grammar.PlayedOut

variable {s s' : State K} {ms : List (Move S)} {left : List Piece} {l : Level}
  {pending : Option Pending}

theorem parse_eq_ok (h : g.PlayedOut text lead ps (g.react.run [.goal goal] (flatten ps) []) s ms
    left l pending s') (href : (g.react.run [.goal goal] (flatten ps) []).refusal = none) :
    g.parse goal text (lead ++ flatten ps) = .ok s'.tree := by
  have hread := g.read_of_plays (h.rest ▸ h.plays) (h.rest ▸ href)
  have hsettled : Grammar.settled s' = .ok () s' := by
    rw [Grammar.settled, if_pos (h.settled href)]
  simp [Grammar.parse, h.ofTokens, EStateM.run, SeqRight.seqRight, EStateM.seqRight, hread, hsettled]

theorem parse_eq_error {refusal : Refusal}
    (h : g.PlayedOut text lead ps (g.react.run [.goal goal] (flatten ps) []) s ms left l pending s')
    (href : (g.react.run [.goal goal] (flatten ps) []).refusal = some refusal) :
    g.parse goal text (lead ++ flatten ps) = .error (.refused (s'.refuse refusal)) := by
  have hread := Grammar.read_of_refusal_of_plays (h.rest ▸ h.plays) (h.rest ▸ href)
  simp [Grammar.parse, h.ofTokens, EStateM.run, SeqRight.seqRight, EStateM.seqRight, hread]

end Grammar.PlayedOut

theorem Disciplined.safe {g : Grammar G S K} {turn : G → Turn} (h : Disciplined g.react turn)
    {goal : G} (hgoal : turn goal ⟨false, 0⟩ = some ⟨false, 0⟩) {tokens : List Token}
    (hslice : Sliceable text tokens) : g.Safe goal text tokens := by
  obtain ⟨lead, ps, rfl, hlead⟩ := Piece.exists_flatten tokens
  obtain ⟨s, ms, left, l, pending, s', hplayed⟩ := h.exists_playedOut hgoal hlead hslice
  refine ⟨hslice.fits, ⟨s, hplayed.ofTokens, ?_⟩, ?_⟩
  · rw [hplayed.rest]
    refine ⟨⟨pending, s', hplayed.plays, hplayed.settled⟩, fun before act after hsplit => ?_⟩
    exact hplayed.standing.allowed g hslice hplayed.level (hplayed.makes.acts.symm.trans hsplit)
  · cases href : (g.react.run [.goal goal] (flatten ps) []).refusal with
    | none => exact .inl ⟨s'.tree, hplayed.parse_eq_ok href⟩
    | some refusal =>
      exact .inr ⟨s'.refuse refusal, hplayed.parse_eq_error href,
        hplayed.standing'.rangeAt_fits hslice⟩

theorem Disciplined.parse_eq (h : Disciplined g.react turn)
    (hgoal : turn goal ⟨false, 0⟩ = some ⟨false, 0⟩) {tokens : List Token}
    (hslice : Sliceable text tokens) :
    match (g.react.run [.goal goal] (dropComments tokens) []).refusal with
    | none => ∃ tree, g.parse goal text tokens = .ok tree
    | some refusal => g.parse goal text tokens = .error (.refused (.ofRefusal text
        (g.react.run [.goal goal] (dropComments tokens) []).rest.head? refusal)) := by
  obtain ⟨lead, ps, rfl, hlead⟩ := Piece.exists_flatten tokens
  obtain ⟨s, ms, left, l, pending, s', hplayed⟩ := h.exists_playedOut hgoal hlead hslice
  rw [Piece.dropComments_append_flatten hlead]
  split
  · next href => exact ⟨s'.tree, hplayed.parse_eq_ok href⟩
  · next refusal href =>
    rw [hplayed.parse_eq_error href, State.refuse, hplayed.standing'.poised.text, hplayed.makes.rest,
      State.current, TokenStream.current, TokenStream.lookAhead, hplayed.standing'.poised.ready.rest,
      List.head?_eq_getElem?]

end parse

end ProtoSyntax
