import Mathlib.Data.List.Induction
import ProtoSyntax.Parsing.Assembly
import ProtoSyntax.Proofs.Parsing.Parts
import ProtoSyntax.Proofs.Tree.Linked

/-!
# Assembling parts

The moves of parts are played without misuse, and the open container grows by the forest of the
parts. A whole parse is one such play, from the root.
-/

namespace ProtoSyntax
open Piece (flatten)

variable {G S K : Type}

def Ordered (ts : List Token) : Prop := ts.Pairwise fun t u => t.stop ≤ u.start

theorem Token.start_le_stop (t : Token) : t.start ≤ t.stop := Nat.le_add_right _ _

theorem Ordered.start_le_stop {t u : Token} {ts : List Token} (h : Ordered (t :: ts))
    (hu : u ∈ t :: ts) : t.start ≤ u.stop := by
  rcases List.mem_cons.1 hu with rfl | hu
  · exact u.start_le_stop
  · have := (List.pairwise_cons.1 h).1 u hu
    have := t.start_le_stop
    have := u.start_le_stop
    omega

theorem Ordered.of_append_left {ts us : List Token} (h : Ordered (ts ++ us)) : Ordered ts :=
  (List.pairwise_append.1 h).1

theorem Ordered.of_append_right {ts us : List Token} (h : Ordered (ts ++ us)) : Ordered us :=
  (List.pairwise_append.1 h).2.1

theorem Piece.token_mem_flatten {p : Piece} {ps : List Piece} (h : p ∈ ps) :
    p.token ∈ flatten ps :=
  List.mem_flatMap.2 ⟨p, h, List.mem_cons_self⟩

theorem Piece.map_token_subset_flatten (ps : List Piece) : ps.map (·.token) ⊆ flatten ps := by
  intro t ht
  obtain ⟨p, hp, rfl⟩ := List.mem_map.1 ht
  exact token_mem_flatten hp

theorem lastStop_eq_stop (before : Nat) (p : Piece) (ps : List Piece) :
    ∃ q ∈ p :: ps, lastStop before (p :: ps) = q.token.stop := by
  refine ⟨(p :: ps).getLast (by simp), List.getLast_mem _, ?_⟩
  rw [lastStop, List.getLast?_eq_some_getLast (by simp)]
  rfl

theorem lastStop_cons_congr (before before' : Nat) (p : Piece) (ps : List Piece) :
    lastStop before (p :: ps) = lastStop before' (p :: ps) := by
  rw [lastStop_cons, lastStop_cons]

theorem Ordered.start_le_lastStop {p : Piece} {ps qs : List Piece}
    (h : Ordered (flatten (p :: ps ++ qs))) (before : Nat) :
    p.token.start ≤ lastStop before (p :: ps) := by
  obtain ⟨q, hq, he⟩ := lastStop_eq_stop before p ps
  exact he ▸ h.start_le_stop (Piece.token_mem_flatten (List.mem_append_left qs hq))

theorem Tree.range_of_outlineAt? {t : Tree K} {id : Nat} {o : Outline K}
    (h : t.outlineAt? id = some o) : t.range id = o.range := by
  rw [Tree.outlineAt?] at h
  obtain ⟨n, hn, rfl⟩ := Option.map_eq_some_iff.1 h
  simp [Tree.range, hn, Outline.range]

theorem Tree.Shows.getLast?_stop {t : Tree K} {ids : List Nat} {os : List (Outline K)}
    (h : t.Shows ids os) :
    ids.getLast?.map (fun i => (t.range i).stop) = os.getLast?.map (·.range.stop) := by
  induction h with
  | nil => rfl
  | @cons i o ids os ho hos ih =>
    cases hos with
    | nil => simp [Tree.range_of_outlineAt? ho]
    | cons => rwa [List.getLast?_cons_cons, List.getLast?_cons_cons]

/-- A state in which some pieces are ahead and more nodes can be added. -/
structure Ready (s : State K) (ps : List Piece) : Prop where
  rest : s.stream.rest = flatten ps
  ordered : Ordered (flatten ps)
  linked : s.tree.Linked
  container_lt : s.container < s.tree.size
  containers_ne : s.containers ≠ []

structure Passed (s s' : State K) (ps : List Piece) (os : List (Outline K)) : Prop where
  text : s'.text = s.text
  containers : s'.containers = s.containers
  prevStop : s'.prevStop = lastStop s.prevStop ps
  grown : s.tree.Grown s'.tree s.container os

namespace Passed

variable {s s' s'' : State K} {ps qs : List Piece} {os os' : List (Outline K)}

theorem container (h : Passed s s' ps os) : s'.container = s.container := by
  rw [State.container, h.containers, State.container]

theorem refl (s : State K) : Passed s s [] [] := ⟨rfl, rfl, rfl, .refl _ _⟩

theorem trans {rest rest' rest'' : List Piece} (hs : Ready s rest) (hs' : Ready s' rest')
    (hs'' : Ready s'' rest'') (h : Passed s s' ps os) (h' : Passed s' s'' qs os') :
    Passed s s'' (ps ++ qs) (os ++ os') where
  text := h'.text.trans h.text
  containers := h'.containers.trans h.containers
  prevStop := by rw [h'.prevStop, h.prevStop, lastStop_append]
  grown := .trans hs.container_lt hs'.linked hs''.linked h.grown (h.container ▸ h'.grown)

end Passed

namespace Ready

variable {s : State K} {p : Piece} {ps : List Piece}

theorem current (h : Ready s (p :: ps)) : s.current = some p.token := by
  simp [State.current, TokenStream.current, TokenStream.lookAhead, h.rest]

theorem start_le_stop {q : Piece} (h : Ready s (p :: ps)) (hq : q ∈ p :: ps) :
    p.token.start ≤ q.token.stop :=
  Ordered.start_le_stop h.ordered (Piece.token_mem_flatten hq)

theorem marker (h : Ready s (p :: ps)) :
    s.marker = ⟨p.token.start, s.container, (s.tree.children s.container).length⟩ := by
  simp [State.marker, h.current]

theorem start_le_blockStop {opener : Piece} {more body : List Piece} {closer : Option Piece}
    (h : Ready s (p :: (more ++ opener :: (body ++ (closer.toList ++ ps))))) (n : Nat) :
    p.token.start ≤ lastStop (max n (lastStop 0 (opener :: body))) closer.toList := by
  cases closer with
  | some q => exact h.start_le_stop (by simp)
  | none =>
    obtain ⟨q, hq, he⟩ := lastStop_eq_stop 0 opener body
    have hmem : q ∈ p :: (more ++ opener :: (body ++ ((none : Option Piece).toList ++ ps))) := by
      simp only [List.mem_cons, List.mem_append] at hq ⊢
      tauto
    exact Nat.le_trans (h.start_le_stop hmem) (he ▸ Nat.le_max_right _ _)

end Ready

theorem Tree.Grown.lastChildStop {s : State K} {t u : Tree K} {id parent place : Nat} {kind : K}
    {range : Range} {outer : List Nat} {os : List (Outline K)} (h : u.Grown s.tree id os)
    (hins : t.insertChild? parent place kind range = some (id, u)) (hcs : s.containers = id :: outer) :
    s.lastChildStop = Outline.lastStop os := by
  obtain ⟨ids, hn, -, hshows⟩ := h.children
  rw [State.lastChildStop, State.container, hcs, Outline.lastStop, ← hshows.getLast?_stop,
    List.headD_cons, Tree.lastChild?, Tree.children, hn, Tree.node?_insertChild?_new hins]
  rfl

theorem Tree.exists_insertChild? {t : Tree K} {parent place : Nat} (kind : K) (range : Range)
    (hp : parent < t.size) (hplace : place ≤ (t.children parent).length)
    (hr : range.start ≤ range.stop) :
    ∃ id t', t.insertChild? parent place kind range = some (id, t') := by
  rw [Tree.insertChild?, if_pos ⟨hp, hplace, hr⟩]
  exact ⟨_, _, rfl⟩

theorem Tree.exists_setStop? {t : Tree K} {id stop : Nat} (hid : id < t.size)
    (hs : (t.range id).start ≤ stop) : ∃ t', t.setStop? id stop = some t' := by
  rw [Tree.setStop?, if_pos ⟨hid, hs⟩]
  exact ⟨_, rfl⟩

section

variable [Vocabulary K]

theorem absorbComments_cases (s : State K) (ho : Ordered s.stream.rest) (hc : s.container < s.tree.size) :
    s.stream.rest.takeWhile (·.isComment) = [] ∧ ParseM.absorbComments s = .ok () s ∨
      ∃ c cs id tree, s.stream.rest.takeWhile (·.isComment) = c :: cs ∧
        s.tree.insertChild? s.container (s.tree.children s.container).length Vocabulary.comment
          ⟨c.start, (cs.getLastD c).stop⟩ = some (id, tree) ∧
        ParseM.absorbComments s = .ok () { s with tree, stream := s.stream.drop (cs.length + 1) } := by
  cases hcs : s.stream.rest.takeWhile (·.isComment) with
  | nil => exact .inl ⟨rfl, by rw [ParseM.absorbComments, hcs]⟩
  | cons c cs =>
    have hsplit := List.takeWhile_append_dropWhile (p := (·.isComment)) (l := s.stream.rest)
    rw [← hsplit, hcs] at ho
    obtain ⟨id, tree, hins⟩ := Tree.exists_insertChild? (Vocabulary.comment : K)
      ⟨c.start, (cs.getLastD c).stop⟩ hc (Nat.le_refl _)
      (ho.of_append_left.start_le_stop List.getLastD_mem_cons)
    refine .inr ⟨c, cs, id, tree, rfl, hins, ?_⟩
    simp only [ParseM.absorbComments, hcs, Tree.pushChild?, hins]

theorem absorbComments_eq (s : State K) (cs : List Token) (ps : List Piece)
    (hrest : s.stream.rest = cs ++ flatten ps)
    (hcs : (cs ++ flatten ps).takeWhile (·.isComment) = cs) (ho : Ordered (cs ++ flatten ps))
    (hl : s.tree.Linked) (hc : s.container < s.tree.size) (hne : s.containers ≠ []) :
    ∃ s', ParseM.absorbComments s = .ok () s' ∧ Ready s' ps ∧ Passed s s' [] (commentNode cs) := by
  rw [← hrest] at hcs
  rcases absorbComments_cases s (hrest ▸ ho) hc with ⟨hnone, hs⟩ | ⟨c, more, id, tree, hsome, hins, hs⟩
  · obtain rfl : cs = [] := hcs.symm.trans hnone
    exact ⟨s, hs, ⟨hrest, ho, hl, hc, hne⟩, .refl s⟩
  · obtain rfl : cs = c :: more := hcs.symm.trans hsome
    refine ⟨_, hs, ⟨?_, ho.of_append_right, hl.insertChild? hins, ?_, hne⟩,
      ⟨rfl, rfl, rfl, (Tree.Grown.refl _ _).insert hc hl hins⟩⟩
    · simp [TokenStream.drop, hrest]
    · show s.container < tree.size
      rw [Tree.size_insertChild? hins]
      omega

theorem advance_eq {s : State K} {p : Piece} {ps : List Piece} (h : Ready s (p :: ps)) :
    ∃ s', ParseM.advance s = .ok () s' ∧ Ready s' ps ∧ Passed s s' [p] (commentNode p.comments) := by
  obtain ⟨s', hs', hr, hp⟩ := absorbComments_eq
    { s with stream := s.stream.drop 1, prevStop := p.token.stop } p.comments ps
    (by simp [TokenStream.drop, h.rest]) (Piece.takeWhile_comments_append p ps)
    (List.pairwise_cons.1 h.ordered).2 h.linked h.container_lt h.containers_ne
  refine ⟨s', ?_, hr, hp.text, hp.containers, hp.prevStop, hp.grown⟩
  rw [← hs', ParseM.advance, h.rest]
  rfl

end

theorem bind_of_ok {α β : Type} {x : ParseM K α} {f : α → ParseM K β} {a : α} {s s' : State K}
    (h : x s = .ok a s') : (x >>= f) s = f a s' := by
  simp only [bind, EStateM.bind, h]

theorem endContainer_eq {s : State K} {ps : List Piece} {id stop : Nat} {outer : List Nat} (h : Ready s ps)
    (hcs : s.containers = id :: outer) (hne : outer ≠ []) (hc : outer.headD Tree.root < s.tree.size)
    (hstop : (s.tree.range id).start ≤ stop) :
    ∃ tree, s.tree.setStop? id stop = some tree ∧
      ParseM.endContainer stop s = .ok id { s with tree, containers := outer } ∧
      Ready { s with tree, containers := outer } ps := by
  have hid : s.container = id := by simp [State.container, hcs]
  obtain ⟨tree, hset⟩ := Tree.exists_setStop? (hid ▸ h.container_lt) hstop
  refine ⟨tree, hset, ?_, h.rest, h.ordered, h.linked.setStop? hset, ?_, hne⟩
  · simp only [ParseM.endContainer, hid, hset, hcs, List.tail_cons]
  · show outer.headD Tree.root < tree.size
    rwa [Tree.size_setStop? hset]

theorem Grammar.nested_eq {s : State K} {id : Nat} {outer : List Nat} (hcs : s.containers = id :: outer)
    (hne : outer ≠ []) : Grammar.nested s = .ok () s := by
  have := List.length_pos_iff.2 hne
  rw [Grammar.nested, hcs, if_pos (by simpa using this)]

namespace Grammar

variable [Vocabulary K] (g : Grammar G S K)

theorem play_cons {act : Act S} {acts : List (Act S)} {pending pending' : Option Pending}
    {s s' : State K} (h : g.perform act pending s = .ok pending' s') :
    g.play (act :: acts) pending s = g.play acts pending' s' := by
  rw [play, bind_of_ok h]

def Plays (ms : List (Move S)) (pending pending' : Option Pending) (s s' : State K) : Prop :=
  g.play (ms.map Move.act) pending s = .ok pending' s'

namespace Plays

variable {g} {ms ns : List (Move S)} {pending pending' pending'' : Option Pending}
  {s s' s'' : State K}

theorem nil : g.Plays [] pending pending s s := rfl

theorem append (h : g.Plays ms pending pending' s s') (h' : g.Plays ns pending' pending'' s' s'') :
    g.Plays (ms ++ ns) pending pending'' s s'' := by
  induction ms generalizing pending s with
  | nil =>
    cases h
    exact h'
  | cons m ms ih =>
    rw [Plays, List.map_cons, play] at h
    cases hm : g.perform m.act pending s with
    | ok pending₁ s₁ =>
      rw [bind_of_ok hm] at h
      rw [Plays, List.cons_append, List.map_cons, play_cons g hm]
      exact ih h
    | error e s₁ => simp [bind, EStateM.bind, hm] at h

theorem one {m : Move S} (h : g.perform m.act pending s = .ok pending' s') :
    g.Plays [m] pending pending' s s' := by
  rw [Plays, List.map_cons, play_cons g h]
  rfl

end Plays

section steps

variable {s s' : State K} {p : Piece} {ps : List Piece} (pending : Option Pending)

theorem plays_plain (h : Ready s (p :: ps)) :
    ∃ s', g.Plays [.take p .plain] pending (pending.map (·.push p.token)) s s' ∧ Ready s' ps ∧
      Passed s s' [p] (commentNode p.comments) := by
  obtain ⟨s', ha, hr, hp⟩ := advance_eq h
  refine ⟨s', .one ?_, hr, hp⟩
  simp only [Move.act, perform, takeToken, bind_of_ok ha]
  rfl

theorem plays_begins (h : Ready s (p :: ps)) :
    ∃ s', g.Plays [.take p .begins] pending (some ⟨s.marker, [p.token]⟩) s s' ∧ Ready s' ps ∧
      Passed s s' [p] (commentNode p.comments) := by
  obtain ⟨s', ha, hr, hp⟩ := advance_eq h
  refine ⟨s', .one ?_, hr, hp⟩
  have hget : (get : ParseM K (State K)) s = .ok s s := rfl
  simp only [Move.act, perform, takeToken, bind_of_ok hget, bind_of_ok ha]
  rfl

theorem plays_head {first : Piece} {more : List Piece} (h : Ready s (first :: more ++ ps)) :
    ∃ s' m, g.Plays (.take first .begins :: Part.plain more) pending (some m) s s' ∧
      m.marker = ⟨first.token.start, s.container, (s.tree.children s.container).length⟩ ∧
      m.tokens = (first :: more).map (·.token) ∧ Ready s' ps ∧
      Passed s s' (first :: more) (commentForest (first :: more)) := by
  induction more using List.reverseRecOn generalizing ps with
  | nil =>
    obtain ⟨s', hplay, hr, hp⟩ := g.plays_begins pending h
    exact ⟨s', _, hplay, h.marker, rfl, hr, by simpa using hp⟩
  | append_singleton more q ih =>
    obtain ⟨s₁, m, hplay, hm, ht, hr, hp⟩ := @ih (q :: ps) (by simpa using h)
    obtain ⟨s₂, hplay', hr', hp'⟩ := g.plays_plain (some m) hr
    refine ⟨s₂, m.push q.token, ?_, hm, ?_, hr', ?_⟩
    · simpa [Part.plain] using hplay.append hplay'
    · simp only [Pending.tokens, Pending.push, List.reverse_cons] at ht ⊢
      rw [ht]
      simp
    · simpa using hp.trans h hr hr' hp'

theorem plays_complete {m : Pending} (shape : S) (h : Ready s ps)
    (hm : m.marker.parent = s.container)
    (hplace : m.marker.place ≤ (s.tree.children s.container).length) :
    ∃ id tree,
      s.tree.insertChild? s.container m.marker.place (g.build shape s.text m.tokens)
        ⟨m.marker.start, max s.prevStop m.marker.start⟩ = some (id, tree) ∧
      g.Plays [.complete shape] (some m) none s { s with tree } ∧ Ready { s with tree } ps := by
  obtain ⟨id, tree, hins⟩ := Tree.exists_insertChild? (g.build shape s.text m.tokens)
    ⟨m.marker.start, max s.prevStop m.marker.start⟩ h.container_lt hplace (Nat.le_max_right _ _)
  refine ⟨id, tree, hins, .one ?_, h.rest, h.ordered, h.linked.insertChild? hins, ?_,
    h.containers_ne⟩
  · have hbegun : begun (some m) s = .ok m s := by rw [begun, if_pos hm]
    have hget : (get : ParseM K (State K)) s = .ok s s := rfl
    have hcomplete : ParseM.complete m.marker (g.build shape s.text m.tokens) s =
        .ok id { s with tree } := by
      rw [ParseM.complete, hm, hins]
    simp only [Move.act, perform, bind_of_ok hbegun, bind_of_ok hget, bind_of_ok hcomplete]
    rfl
  · show s.container < tree.size
    have := h.container_lt
    rw [Tree.size_insertChild? hins]
    omega

theorem plays_opens {m : Pending} (shape : S) (h : Ready s (p :: ps))
    (hm : m.marker.parent = s.container)
    (hplace : m.marker.place ≤ (s.tree.children s.container).length) :
    ∃ id tree s',
      s.tree.insertChild? s.container m.marker.place (g.build shape s.text m.tokens)
        ⟨m.marker.start, m.marker.start⟩ = some (id, tree) ∧
      g.Plays [.take p (.opens shape)] (some m) none s s' ∧
      Ready { s with tree, containers := id :: s.containers } (p :: ps) ∧ Ready s' ps ∧
      Passed { s with tree, containers := id :: s.containers } s' [p] (commentNode p.comments) := by
  obtain ⟨id, tree, hins⟩ := Tree.exists_insertChild? (g.build shape s.text m.tokens)
    ⟨m.marker.start, m.marker.start⟩ h.container_lt hplace (Nat.le_refl _)
  have hopen : Ready { s with tree, containers := id :: s.containers } (p :: ps) := by
    refine ⟨h.rest, h.ordered, h.linked.insertChild? hins, ?_, by simp⟩
    show id < tree.size
    rw [Tree.size_insertChild? hins, (Tree.insertChild?_eq hins).1]
    omega
  obtain ⟨s', ha, hr, hp⟩ := advance_eq hopen
  refine ⟨id, tree, s', hins, .one ?_, hopen, hr, hp⟩
  have hbegun : begun (some m) s = .ok m s := by rw [begun, if_pos hm]
  have hget : (get : ParseM K (State K)) s = .ok s s := rfl
  have hnode : ParseM.openNode m.marker (g.build shape s.text m.tokens) s =
      .ok id { s with tree, containers := id :: s.containers } := by
    rw [ParseM.openNode, hm, hins]
  simp only [Move.act, perform, takeToken, bind_of_ok hbegun, bind_of_ok hget, bind_of_ok hnode,
    bind_of_ok ha]
  rfl

theorem plays_ending {id : Nat} {outer : List Nat} {closer : Option Piece}
    (h : Ready s (closer.toList ++ ps)) (hcs : s.containers = id :: outer) (hne : outer ≠ [])
    (hc : outer.headD Tree.root < s.tree.size)
    (hle : (s.tree.range id).start ≤ lastStop (max s.lastChildStop s.prevStop) closer.toList) :
    ∃ tree s', s.tree.setStop? id (lastStop (max s.lastChildStop s.prevStop) closer.toList) =
        some tree ∧
      g.Plays [Part.ending closer] none none s s' ∧
      Ready { s with tree, containers := outer } (closer.toList ++ ps) ∧ Ready s' ps ∧
      Passed { s with tree, containers := outer } s' closer.toList (commentForest closer.toList) := by
  obtain ⟨tree, hset, hend, hready⟩ := endContainer_eq h hcs hne hc hle
  have hnested := nested_eq hcs hne
  cases closer with
  | none =>
    refine ⟨tree, _, hset, .one ?_, hready, hready, .refl _⟩
    have hfinish : ParseM.finish s = .ok id { s with tree, containers := outer } := by
      rw [ParseM.finish, ← hend]
      rfl
    simp only [Move.act, Part.ending, perform, bind_of_ok hnested, bind_of_ok hfinish]
    rfl
  | some q =>
    obtain ⟨s', ha, hr, hp⟩ := advance_eq hready
    refine ⟨tree, s', hset, .one ?_, hready, hr, by simpa using hp⟩
    have hdemand : ParseM.demand (· = q.token.kind) q.token.kind.describe s = .ok q.token s := by
      simp [ParseM.demand, Ready.current h]
    have hend' : ParseM.endContainer q.token.stop s = _ := hend
    have hclose : ParseM.close q.token.kind s = .ok id s' := by
      simp only [ParseM.close, bind_of_ok hdemand, bind_of_ok hend', bind_of_ok ha]
      rfl
    simp only [Move.act, Part.ending, perform, takeToken, bind_of_ok hnested, bind_of_ok hclose]
    rfl

end steps

section parts

variable {s : State K} {qs : List Piece}

theorem plays_leaf {shape : S} {first : Piece} {more : List Piece}
    (h : Ready s (first :: more ++ qs)) :
    ∃ s', g.Plays (Part.leaf shape first more).moves none none s s' ∧ Ready s' qs ∧
      Passed s s' (first :: more)
        ((Part.leaf shape first more).forest fun shape => g.build shape s.text) := by
  obtain ⟨s₁, m, hhead, hm, ht, hr, hp⟩ := g.plays_head none h
  obtain ⟨id, tree, hins, hcomplete, hr'⟩ := g.plays_complete shape hr
    (by rw [hm, hp.container]) (by rw [hm, hp.container]; exact hp.grown.children_length_le)
  refine ⟨_, hhead.append hcomplete, hr', hp.text, hp.containers, hp.prevStop, ?_⟩
  simp only [hm, hp.container, hp.text, ht, hp.prevStop] at hins
  rw [Nat.max_eq_left (h.ordered.start_le_lastStop _), lastStop_cons_congr _ 0] at hins
  exact hp.grown.insert h.container_lt hr.linked hins

theorem plays_block {shape : S} {first opener : Piece} {more : List Piece} {body : List (Part S)}
    {closer : Option Piece}
    (hbody : ∀ s : State K, Ready s (Part.listPieces body ++ (closer.toList ++ qs)) →
      ∃ s', g.Plays (Part.listMoves body) none none s s' ∧ Ready s' (closer.toList ++ qs) ∧
        Passed s s' (Part.listPieces body)
          (Part.listForest (fun shape => g.build shape s.text) body))
    (h : Ready s ((Part.block shape first more opener body closer).pieces ++ qs)) :
    ∃ s', g.Plays (Part.block shape first more opener body closer).moves none none s s' ∧
      Ready s' qs ∧ Passed s s' (Part.block shape first more opener body closer).pieces
        ((Part.block shape first more opener body closer).forest fun shape =>
          g.build shape s.text) := by
  simp only [Part.pieces, List.cons_append, List.append_assoc] at h
  obtain ⟨s₁, m, hhead, hm, ht, hr₁, hp₁⟩ := g.plays_head none h
  obtain ⟨id, u, s₂, hins, hopens, hr₁', hr₂, hp₂⟩ := g.plays_opens shape hr₁
    (by rw [hm, hp₁.container]) (by rw [hm, hp₁.container]; exact hp₁.grown.children_length_le)
  obtain ⟨s₃, hplay, hr₃, hp₃⟩ := hbody s₂ hr₂
  -- From the opening token on the new container grows; what is played afterwards closes it.
  have hp₂₃ := hp₂.trans hr₁' hr₂ hr₃ hp₃
  simp only [hm, hp₁.container, hp₁.text, ht, hp₂.text] at hins hp₂₃
  have hcontainers : s₃.containers = id :: s.containers :=
    hp₂₃.containers.trans (by rw [hp₁.containers])
  have hgrown : u.Grown s₃.tree id _ := hp₂₃.grown
  have hstart : (s₃.tree.range id).start = first.token.start := by
    rw [hgrown.range_eq, Tree.range, Tree.node?_insertChild?_new hins]
    rfl
  have hlast := hgrown.lastChildStop hins hcontainers
  have hprev : s₃.prevStop = lastStop 0 (opener :: Part.listPieces body) :=
    hp₂₃.prevStop.trans (lastStop_cons_congr _ _ _ _)
  have hsize : s.container < s₃.tree.size := by
    have := hp₁.grown.size_le
    have := h.container_lt
    have := Tree.size_insertChild? hins
    have := hgrown.size_le
    omega
  have hle : (s₃.tree.range id).start ≤ lastStop (max s₃.lastChildStop s₃.prevStop) closer.toList := by
    rw [hstart, hprev]
    exact h.start_le_blockStop _
  obtain ⟨w, s₄, hset, hending, hr₃', hr₄, hp₄⟩ :=
    g.plays_ending hr₃ hcontainers h.containers_ne hsize hle
  have hblock := hp₁.grown.block h.container_lt hr₁.linked hins hgrown hr₃.linked hset
  rw [hlast, hprev] at hblock
  have hprev' : s₃.prevStop = lastStop s.prevStop (first :: more ++ opener :: Part.listPieces body) := by
    rw [lastStop_append]
    exact hprev.trans (lastStop_cons_congr _ _ _ _)
  have hpassed : Passed s { s₃ with tree := w, containers := s.containers } _ _ :=
    ⟨hp₂₃.text, rfl, hprev', hblock⟩
  refine ⟨s₄, ?_, hr₄, ?_⟩
  · simpa [Part.moves] using ((hhead.append hopens).append hplay).append hending
  · simpa [Part.pieces, Part.forest, Part.own, Part.around] using hpassed.trans h hr₃' hr₄ hp₄

end parts

mutual

theorem plays_part (g : Grammar G S K) (q : Part S) {s : State K} {qs : List Piece}
    (h : Ready s (q.pieces ++ qs)) :
    ∃ s', g.Plays q.moves none none s s' ∧ Ready s' qs ∧
      Passed s s' q.pieces (q.forest fun shape => g.build shape s.text) := by
  match q with
  | .token p =>
    obtain ⟨s', hplay, hr, hp⟩ := g.plays_plain none h
    exact ⟨s', hplay, hr, by simpa [Part.pieces, Part.forest, Part.own, Part.around] using hp⟩
  | .leaf shape first more => exact g.plays_leaf h
  | .block shape first more opener body closer =>
    exact g.plays_block (fun s hs => plays_parts g body hs) h

theorem plays_parts (g : Grammar G S K) (parts : List (Part S)) {s : State K} {qs : List Piece}
    (h : Ready s (Part.listPieces parts ++ qs)) :
    ∃ s', g.Plays (Part.listMoves parts) none none s s' ∧ Ready s' qs ∧
      Passed s s' (Part.listPieces parts)
        (Part.listForest (fun shape => g.build shape s.text) parts) := by
  match parts with
  | [] => exact ⟨s, .nil, h, .refl s⟩
  | q :: parts =>
    rw [Part.listPieces, List.append_assoc] at h
    obtain ⟨s₁, hplay, hr, hp⟩ := plays_part g q h
    obtain ⟨s₂, hplay', hr', hp'⟩ := plays_parts g parts hr
    rw [hp.text] at hp'
    exact ⟨s₂, hplay.append hplay', hr', hp.trans h hr hr' hp'⟩

end

theorem ofTokens_eq (text : String) {lead : List Token} {ps : List Piece}
    (hlead : ∀ t ∈ lead, t.isComment = true) (ho : Ordered (lead ++ flatten ps)) :
    ∃ s : State K, State.ofTokens text (lead ++ flatten ps) = .ok () s ∧ Ready s ps ∧
      s.text = text ∧ s.containers = [Tree.root] ∧ s.prevStop = 0 ∧
      Tree.Grown (.ofLength text.utf8ByteSize) s.tree Tree.root (commentNode lead) := by
  have htake : (lead ++ flatten ps).takeWhile (·.isComment) = lead := by
    rw [List.takeWhile_append_of_pos hlead]
    cases ps with
    | nil => simp
    | cons p ps => simp [p.token_isComment]
  obtain ⟨s, hs, hr, hp⟩ := absorbComments_eq (K := K)
    { text
      stream := .ofTokens (lead ++ flatten ps)
      tree := .ofLength text.utf8ByteSize
      containers := [Tree.root]
      prevStop := 0 } lead ps rfl htake ho (Tree.linked_ofLength _) Nat.one_pos (by simp)
  exact ⟨s, hs, hr, hp.text, hp.containers, hp.prevStop, hp.grown⟩

section

variable {symbols : List (Symbol G S)} {s s' : State K}

theorem read_of_plays {pending : Option Pending}
    (hplay : g.play (g.react.run symbols s.stream.rest []).acts none s = .ok pending s')
    (h : (g.react.run symbols s.stream.rest []).refusal = none) :
    g.read symbols s = .ok (g.react.run symbols s.stream.rest []).taken s' := by
  have hget : (get : ParseM K (State K)) s = .ok s s := rfl
  simp only [read, bind_of_ok hget, bind_of_ok hplay, h]
  rfl

theorem read_of_refusal {refusal : Refusal}
    (h : (g.react.run symbols s.stream.rest []).refusal = some refusal) :
    ∃ e s', g.read symbols s = .error e s' := by
  have hget : (get : ParseM K (State K)) s = .ok s s := rfl
  cases hplay : g.play (g.react.run symbols s.stream.rest []).acts none s with
  | ok pending s' =>
    simp only [read, bind_of_ok hget, bind_of_ok hplay, h]
    exact ⟨_, _, rfl⟩
  | error e s' =>
    refine ⟨e, s', ?_⟩
    rw [read, bind_of_ok hget]
    simp only [bind, EStateM.bind, hplay]

end

variable {goal : G} {text : String} {lead : List Token} {ps : List Piece}

theorem exists_pursuit_of_parse {tree : Tree K} (hlead : ∀ t ∈ lead, t.isComment = true)
    (ho : Ordered (lead ++ flatten ps)) (h : g.parse goal text (lead ++ flatten ps) = .ok tree) :
    ∃ ms rest, Pursuit g.react [.goal goal] ps ms rest := by
  obtain ⟨s, hs, hr, -⟩ := ofTokens_eq (K := K) text hlead ho
  refine Pursuit.exists_of_run (?_ : (g.react.run _ (flatten ps) []).refusal = none)
  rw [← hr.rest]
  cases hrefusal : (g.react.run [.goal goal] s.stream.rest []).refusal with
  | none => rfl
  | some refusal =>
    obtain ⟨e, s', hread⟩ := g.read_of_refusal hrefusal
    simp [parse, hs, EStateM.run, SeqRight.seqRight, EStateM.seqRight, hread] at h

theorem parse_ne_ok {tokens : List Token} (ho : Ordered tokens)
    (h : (g.react.run [.goal goal] (dropComments tokens) []).refusal.isSome = true) (tree : Tree K) :
    g.parse goal text tokens ≠ .ok tree := by
  obtain ⟨lead, ps, rfl, hlead⟩ := Piece.exists_flatten tokens
  intro hp
  obtain ⟨ms, rest, hpursuit⟩ := g.exists_pursuit_of_parse hlead ho hp
  simp [Piece.dropComments_append_flatten hlead, hpursuit.run_eq] at h

/-- A goal pursued by the moves of parts makes the tree of these parts. -/
theorem parse_of_pursuit {rest : List Piece} {parts : List (Part S)}
    (hlead : ∀ t ∈ lead, t.isComment = true) (ho : Ordered (lead ++ flatten ps))
    (h : Pursuit g.react [.goal goal] ps (Part.listMoves parts) rest) :
    ∃ tree, g.parse goal text (lead ++ flatten ps) = .ok tree ∧ tree.Linked ∧
      tree.outline? = some (.node Vocabulary.root ⟨0, text.utf8ByteSize⟩
        (commentNode lead ++ Part.listForest (fun shape => g.build shape text) parts)) := by
  obtain ⟨s, hs, hr, htext, hcontainers, -, hgrown⟩ := ofTokens_eq (K := K) text hlead ho
  have hps : ps = Part.listPieces parts ++ rest := by
    rw [← Part.pieces_signals]
    exact h.pieces_eq.symm
  obtain ⟨s', hplay, hr', hp⟩ := g.plays_parts parts (hps ▸ hr)
  have hrun := h.run_eq []
  rw [← hr.rest] at hrun
  have hread : g.read [.goal goal] s = .ok _ s' :=
    g.read_of_plays (by rw [hrun]; exact hplay) (by rw [hrun])
  have hsettled : settled s' = .ok () s' := by
    rw [settled, if_pos (hp.containers.trans hcontainers)]
  refine ⟨s'.tree, ?_, hr'.linked, ?_⟩
  · simp [parse, hs, EStateM.run, SeqRight.seqRight, EStateM.seqRight, hread, hsettled]
  · have hroot : s.container = Tree.root := by simp [State.container, hcontainers]
    have hg := hgrown.trans Nat.one_pos hr.linked hr'.linked (hroot ▸ hp.grown)
    obtain ⟨ids, hn, -, hshows⟩ := hg.children
    rw [htext] at hshows
    exact hr'.linked.outlineAt?_eq hn hshows

end Grammar
end ProtoSyntax
