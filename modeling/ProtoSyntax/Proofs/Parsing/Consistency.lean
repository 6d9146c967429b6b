import Mathlib.Data.List.TakeWhile
import ProtoSyntax.Proofs.Parsing.Safety
import ProtoSyntax.Proofs.Parsing.Seam
import ProtoSyntax.Proofs.Tree.Owned

/-!
# Consistent states

What holds in every state of a parse, also where steps follow no grammar: the root may have been closed,
and nodes may have been begun and never added. Each step leads from a consistent state to a consistent
one, and only where a container is ended without a token is anything else asked for. A step that is
refused has done nothing, unless it was to read a literal and has read a part of it.
-/

namespace ProtoSyntax
open Piece (flatten)

variable {G S K : Type}

/-- Where the last token before a position ends that is no comment, and zero if there is none. -/
def stopBefore (tokens : List Token) (position : Nat) : Nat :=
  (((tokens.take position).filter fun t => !t.isComment).getLast?.map Token.stop).getD 0

theorem stopBefore_succ {tokens ts : List Token} {position : Nat} {t : Token}
    (h : tokens.drop position = t :: ts) (ht : t.isComment = false) :
    stopBefore tokens (position + 1) = t.stop := by
  simp [stopBefore, List.take_add, h, ht]

theorem stopBefore_add {tokens : List Token} {position n : Nat}
    (h : ∀ t ∈ (tokens.drop position).take n, t.isComment = true) :
    stopBefore tokens (position + n) = stopBefore tokens position := by
  have hnone : ((tokens.drop position).take n).filter (fun t => !t.isComment) = [] :=
    List.filter_eq_nil_iff.2 fun t ht => by simp [h t ht]
  rw [stopBefore, List.take_add, List.filter_append, hnone, List.append_nil, stopBefore]

theorem Move.exists_plain {ms : List (Move S)} (h : ∀ l, (actsTurn (ms.map Move.act) l).isSome = true) :
    ∃ qs, ms = Part.plain qs := by
  induction ms with
  | nil => exact ⟨[], rfl⟩
  | cons m ms ih =>
    obtain ⟨q, rfl⟩ : ∃ q, m = .take q .plain := by
      -- Any other move is out of order at one of two levels.
      have hbegun := h ⟨true, 0⟩
      have hended := h ⟨false, 0⟩
      cases m with
      | take q role =>
        cases role with
        | plain => exact ⟨q, rfl⟩
        | begins | closes => cases hbegun
        | opens shape => cases hended
      | complete shape => cases hended
      | finish => cases hbegun
    obtain ⟨qs, rfl⟩ := ih h
    exact ⟨q :: qs, rfl⟩

theorem Disciplined.exists_plain {react : Prediction G S} {turn : G → Turn} (h : Disciplined react turn)
    {k : List (Symbol G S)} (hk : Steady turn k) (ps : List Piece) :
    ∃ qs left, (react.run k (flatten ps) []).acts = (Part.plain qs).map Move.act ∧ qs ++ left = ps := by
  obtain ⟨ms, left, -, hmakes, -, -⟩ :=
    @Disciplined.run _ _ _ _ h _ ps [] _ _ (hk.stackTurn_eq ⟨false, 0⟩)
  obtain ⟨qs, rfl⟩ : ∃ qs, ms = Part.plain qs := by
    refine Move.exists_plain fun l => ?_
    obtain ⟨ms', left', m, hmakes', hm, -⟩ := @Disciplined.run _ _ _ _ h _ ps [] _ _ (hk.stackTurn_eq l)
    have hsame : ms.map Move.act = ms'.map Move.act := hmakes.acts.symm.trans hmakes'.acts
    rw [hsame, hm]
    rfl
  refine ⟨qs, left, hmakes.acts, ?_⟩
  have hpieces := hmakes.pieces
  rwa [Part.flatMap_signals_plain, Part.pieces_map_token] at hpieces

structure Tree.BegunBy (t : Tree K) (offset id : Nat) : Prop where
  lt_size : id < t.size
  start_le : (t.range id).start ≤ offset

namespace Tree.BegunBy

variable {t t' : Tree K} {offset offset' id c parent place stop : Nat} {kind : K} {range : Range}

theorem mono (h : t.BegunBy offset c) (hle : offset ≤ offset') : t.BegunBy offset' c :=
  ⟨h.lt_size, Nat.le_trans h.start_le hle⟩

theorem insertChild? (h : t.BegunBy offset c)
    (hins : t.insertChild? parent place kind range = some (id, t')) : t'.BegunBy offset c := by
  have hlt := h.lt_size
  have hid := (Tree.insertChild?_eq hins).1
  refine ⟨?_, ?_⟩
  · rw [Tree.size_insertChild? hins]
    omega
  · rw [Tree.range_insertChild?_of_ne hins (by omega)]
    exact h.start_le

theorem inserted (hins : t.insertChild? parent place kind range = some (id, t'))
    (hle : range.start ≤ offset) : t'.BegunBy offset id := by
  have hnode := Tree.node?_insertChild?_new hins
  refine ⟨Tree.lt_size_of_node? hnode, ?_⟩
  rw [Tree.range, hnode]
  exact hle

theorem setStop? (h : t.BegunBy offset c) (hset : t.setStop? id stop = some t') :
    t'.BegunBy offset c := by
  refine ⟨?_, ?_⟩
  · rw [Tree.size_setStop? hset]
    exact h.lt_size
  · rw [Tree.start_setStop? hset]
    exact h.start_le

end Tree.BegunBy

theorem Tree.length_children_insertChild? {t t' : Tree K} {parent place id : Nat} {kind : K}
    {range : Range} (h : t.insertChild? parent place kind range = some (id, t')) (p : Nat) :
    (t.children p).length ≤ (t'.children p).length := by
  by_cases hp : p = parent
  · subst hp
    rw [Tree.children_insertChild? h, List.length_insertIdx_of_le_length (Tree.insertChild?_eq h).2.2.1]
    exact Nat.le_succ _
  · rw [Tree.children_insertChild?_of_ne h hp]

theorem bind_of_error {α β : Type} {x : ParseM K α} {f : α → ParseM K β} {e : Failure} {s s' : State K}
    (h : x s = .error e s') : (x >>= f) s = .error e s' := by
  simp only [bind, EStateM.bind, h]

namespace State

def here (s : State K) : Nat := s.marker.start

theorem current_eq (s : State K) : s.current = s.stream.rest.head? := by
  rw [current, TokenStream.current, TokenStream.lookAhead, List.head?_eq_getElem?]

theorem exists_rest_eq_cons {s : State K} {t : Token} (h : s.current = some t) :
    ∃ ts, s.stream.rest = t :: ts :=
  List.head?_eq_some_iff.1 (s.current_eq ▸ h)

theorem here_eq (s : State K) :
    s.here = (s.stream.rest.head?.map (·.start)).getD s.text.utf8ByteSize := by
  rw [here, marker, current_eq]

theorem here_of_current {s : State K} {t : Token} (h : s.current = some t) : s.here = t.start := by
  rw [here, marker, h]
  rfl

theorem here_le {s s' : State K} (hslice : Sliceable s.text s.stream.rest) (htext : s'.text = s.text)
    (hrest : s'.stream.rest <:+ s.stream.rest) : s.here ≤ s'.here := by
  obtain ⟨pre, hpre⟩ := hrest
  rw [here_eq, here_eq, htext]
  cases pre with
  | nil =>
    rw [List.nil_append] at hpre
    rw [hpre]
  | cons t pre =>
    rw [← hpre] at hslice ⊢
    have ht := t.start_le_stop
    cases hahead : s'.stream.rest with
    | nil =>
      have hfits := (hslice.fits t List.mem_cons_self).isValid_stop.le_rawEndPos
      exact Nat.le_trans ht (String.Pos.Raw.le_iff.1 hfits)
    | cons u us =>
      have hmem : u ∈ pre ++ s'.stream.rest := by simp [hahead]
      exact Nat.le_trans ht ((List.pairwise_cons.1 hslice.ordered).1 u hmem)

/-- A state that knows where it is among the tokens of a text, and whose containers are nodes that have
begun. -/
structure Tracks (text : String) (tokens : List Token) (s : State K) : Prop where
  text : s.text = text
  position_le : s.stream.position ≤ tokens.length
  rest : s.stream.rest = tokens.drop s.stream.position
  prevStop : s.prevStop = stopBefore tokens s.stream.position
  begun : ∀ c ∈ Tree.root :: s.containers, s.tree.BegunBy s.here c

/-- A state that tracks its text, with the comments at its place taken up. -/
structure Consistent (text : String) (tokens : List Token) (s : State K) : Prop
    extends Tracks text tokens s where
  current : ∀ t ∈ s.current, t.isComment = false

structure Admits (s : State K) (m : Marker) : Prop where
  parent_lt : m.parent < s.tree.size
  place_le : m.place ≤ (s.tree.children m.parent).length
  start_le : m.start ≤ s.here

structure Later (s s' : State K) : Prop where
  size_le : s.tree.size ≤ s'.tree.size
  children_le : ∀ p, (s.tree.children p).length ≤ (s'.tree.children p).length
  here_le : s.here ≤ s'.here

structure Leads (text : String) (tokens : List Token) (s s' : State K) : Prop where
  consistent : s'.Consistent text tokens
  later : s.Later s'

namespace Later

variable {s s' s'' : State K}

theorem refl (s : State K) : s.Later s :=
  ⟨Nat.le_refl _, fun _ => Nat.le_refl _, Nat.le_refl _⟩

theorem trans (h : s.Later s') (h' : s'.Later s'') : s.Later s'' :=
  ⟨Nat.le_trans h.size_le h'.size_le, fun p => Nat.le_trans (h.children_le p) (h'.children_le p),
    Nat.le_trans h.here_le h'.here_le⟩

theorem insertChild? {parent place id : Nat} {kind : K} {range : Range}
    (h : s.tree.insertChild? parent place kind range = some (id, s'.tree)) (hhere : s.here ≤ s'.here) :
    s.Later s' where
  size_le := by
    rw [Tree.size_insertChild? h]
    exact Nat.le_succ _
  children_le := Tree.length_children_insertChild? h
  here_le := hhere

theorem setStop? {id stop : Nat} (h : s.tree.setStop? id stop = some s'.tree)
    (hhere : s.here ≤ s'.here) : s.Later s' where
  size_le := Nat.le_of_eq (Tree.size_setStop? h).symm
  children_le p := Nat.le_of_eq (congrArg List.length (Tree.children_setStop? h p).symm)
  here_le := hhere

end Later

variable {text : String} {tokens : List Token} {s s' s'' : State K}

theorem Admits.later {m : Marker} (h : s.Admits m) (hl : s.Later s') : s'.Admits m :=
  ⟨Nat.lt_of_lt_of_le h.parent_lt hl.size_le, Nat.le_trans h.place_le (hl.children_le m.parent),
    Nat.le_trans h.start_le hl.here_le⟩

theorem Leads.refl (h : s.Consistent text tokens) : Leads text tokens s s := ⟨h, .refl s⟩

theorem Leads.trans (h : Leads text tokens s s') (h' : Leads text tokens s' s'') :
    Leads text tokens s s'' := ⟨h'.consistent, h.later.trans h'.later⟩

/-- A step is carried out and leads on, or it is refused and nothing is done. -/
def AllOrNothing {α : Type} (text : String) (tokens : List Token) (x : ParseM K α) (s : State K) : Prop :=
  (∃ a s', x s = .ok a s' ∧ Leads text tokens s s') ∨ ∃ e, x s = .error (.refused e) s

theorem AllOrNothing.map {α β : Type} {x : ParseM K α} (h : AllOrNothing text tokens x s) (f : α → β) :
    AllOrNothing text tokens (f <$> x) s := by
  rcases h with ⟨a, s', hx, hleads⟩ | ⟨e, hx⟩
  · exact .inl ⟨f a, s', by simp [Functor.map, EStateM.map, hx], hleads⟩
  · exact .inr ⟨e, by simp [Functor.map, EStateM.map, hx]⟩

theorem demand_cases (accepts : TokenKind → Bool) (what : String) (s : State K) :
    (∃ t, s.current = some t ∧ ParseM.demand accepts what s = .ok t s) ∨
      ∃ e, ParseM.demand accepts what s = .error (.refused e) s := by
  unfold ParseM.demand
  cases s.current with
  | none => exact .inr ⟨_, rfl⟩
  | some t =>
    by_cases ht : accepts t.kind = true
    · exact .inl ⟨t, rfl, if_pos ht⟩
    · exact .inr ⟨_, if_neg ht⟩

namespace Tracks

theorem container (h : s.Tracks text tokens) : s.tree.BegunBy s.here s.container := by
  refine h.begun _ ?_
  cases hcs : s.containers with
  | nil => simp [State.container, hcs]
  | cons c cs => simp [State.container, hcs]

theorem marker (h : s.Tracks text tokens) : s.Admits s.marker :=
  ⟨h.container.lt_size, Nat.le_refl _, Nat.le_refl _⟩

theorem sliceable (h : s.Tracks text tokens) (hslice : Sliceable text tokens) :
    Sliceable s.text s.stream.rest := by
  rw [h.text, h.rest]
  exact hslice.sublist (List.drop_sublist _ _)

theorem moved {n : Nat} (h : s.Tracks text tokens) (hslice : Sliceable text tokens)
    (hn : n ≤ s.stream.rest.length) (htext : s'.text = s.text) (hstream : s'.stream = s.stream.drop n)
    (hprev : s'.prevStop = stopBefore tokens (s.stream.position + n))
    (hbegun : ∀ c ∈ Tree.root :: s'.containers, s'.tree.BegunBy s.here c) :
    s'.Tracks text tokens ∧ s.here ≤ s'.here := by
  have hposition : s'.stream.position = s.stream.position + n := by
    rw [hstream]
    exact congrArg (s.stream.position + ·) (Nat.min_eq_left hn)
  have hrest : s'.stream.rest = s.stream.rest.drop n := congrArg TokenStream.rest hstream
  have hhere : s.here ≤ s'.here := here_le (h.sliceable hslice) htext (hrest ▸ List.drop_suffix _ _)
  refine ⟨⟨htext.trans h.text, ?_, ?_, by rw [hprev, hposition],
    fun c hc => (hbegun c hc).mono hhere⟩, hhere⟩
  · have := h.position_le
    rw [h.rest, List.length_drop] at hn
    omega
  · rw [hrest, hposition, h.rest, List.drop_drop]

variable [Vocabulary K]

theorem absorbComments (h : s.Tracks text tokens) (hslice : Sliceable text tokens) :
    ∃ s', ParseM.absorbComments s = .ok () s' ∧ Leads text tokens s s' ∧
      s'.stream.rest = dropComments s.stream.rest := by
  have hsplit := List.takeWhile_append_dropWhile (p := (·.isComment)) (l := s.stream.rest)
  have hhead := isComment_head?_dropComments s.stream.rest
  rcases absorbComments_cases s (h.sliceable hslice).ordered h.container.lt_size with
    ⟨hnone, hs⟩ | ⟨c, cs, id, tree, hsome, hins, hs⟩
  · have hdrop : dropComments s.stream.rest = s.stream.rest := by rwa [hnone, List.nil_append] at hsplit
    exact ⟨s, hs, .refl ⟨h, by rwa [current_eq, ← hdrop]⟩, hdrop.symm⟩
  · rw [hsome] at hsplit
    have hdrop : s.stream.rest.drop (cs.length + 1) = dropComments s.stream.rest := by
      conv_lhs => rw [← hsplit]
      exact List.drop_left' rfl
    have htake : s.stream.rest.take (cs.length + 1) = c :: cs := by
      conv_lhs => rw [← hsplit]
      exact List.take_left' rfl
    have hlength : cs.length + 1 ≤ s.stream.rest.length := by
      rw [← hsplit, List.length_append]
      exact Nat.le_add_right _ _
    have hprev : s.prevStop = stopBefore tokens (s.stream.position + (cs.length + 1)) := by
      rw [stopBefore_add, h.prevStop]
      rw [← h.rest, htake, ← hsome]
      exact fun t ht => List.mem_takeWhile_imp ht
    obtain ⟨htracks, hhere⟩ := @moved _ _ _ s { s with tree, stream := s.stream.drop (cs.length + 1) } _ h
      hslice hlength rfl rfl hprev fun c hc => (h.begun c hc).insertChild? hins
    rw [← hdrop] at hhead
    exact ⟨_, hs, ⟨⟨htracks, (current_eq _).symm ▸ hhead⟩, .insertChild? hins hhere⟩, hdrop⟩

end Tracks

namespace Consistent

theorem insertChild? {parent place id : Nat} {kind : K} {range : Range} {tree : Tree K}
    (h : s.Consistent text tokens)
    (hins : s.tree.insertChild? parent place kind range = some (id, tree)) :
    Leads text tokens s { s with tree } :=
  ⟨⟨⟨h.text, h.position_le, h.rest, h.prevStop, fun c hc => (h.begun c hc).insertChild? hins⟩, h.current⟩,
    .insertChild? hins (Nat.le_refl _)⟩

theorem complete {m : Marker} (h : s.Consistent text tokens) (hm : s.Admits m) (kind : K) :
    ∃ id s', ParseM.complete m kind s = .ok id s' ∧ Leads text tokens s s' := by
  obtain ⟨id, tree, hins⟩ := Tree.exists_insertChild? kind ⟨m.start, max s.prevStop m.start⟩
    hm.parent_lt hm.place_le (Nat.le_max_right _ _)
  exact ⟨id, _, by simp only [ParseM.complete, hins], h.insertChild? hins⟩

theorem openNode {m : Marker} (h : s.Consistent text tokens) (hm : s.Admits m) (kind : K) :
    ∃ id s', ParseM.openNode m kind s = .ok id s' ∧ Leads text tokens s s' := by
  obtain ⟨id, tree, hins⟩ := Tree.exists_insertChild? kind ⟨m.start, m.start⟩ hm.parent_lt hm.place_le
    (Nat.le_refl _)
  obtain ⟨hconsistent, hlater⟩ := h.insertChild? hins
  refine ⟨id, { s with tree, containers := id :: s.containers }, by simp only [ParseM.openNode, hins],
    ⟨⟨h.text, h.position_le, h.rest, h.prevStop, fun c hc => ?_⟩, h.current⟩, hlater.1, hlater.2, hlater.3⟩
  rcases List.mem_cons.1 hc with rfl | hc
  · exact hconsistent.begun _ List.mem_cons_self
  rcases List.mem_cons.1 hc with rfl | hc
  · exact .inserted hins hm.start_le
  · exact hconsistent.begun c (List.mem_cons_of_mem _ hc)

theorem endContainer {stop : Nat} (h : s.Consistent text tokens)
    (hstop : (s.tree.range s.container).start ≤ stop) :
    ∃ id s', ParseM.endContainer stop s = .ok id s' ∧ Leads text tokens s s' ∧ s'.stream = s.stream := by
  obtain ⟨tree, hset⟩ := Tree.exists_setStop? h.container.lt_size hstop
  refine ⟨s.container, { s with tree, containers := s.containers.tail },
    by simp only [ParseM.endContainer, hset],
    ⟨⟨⟨h.text, h.position_le, h.rest, h.prevStop, fun c hc => (h.begun c ?_).setStop? hset⟩, h.current⟩,
      .setStop? hset (Nat.le_refl _)⟩, rfl⟩
  rcases List.mem_cons.1 hc with rfl | hc
  · exact List.mem_cons_self
  · exact List.mem_cons_of_mem _ (List.mem_of_mem_tail hc)

theorem finish (h : s.Consistent text tokens)
    (hstop : (s.tree.range s.container).start ≤ max s.lastChildStop s.prevStop) :
    ∃ id s', ParseM.finish s = .ok id s' ∧ Leads text tokens s s' := by
  obtain ⟨id, s', hs', hleads, -⟩ := h.endContainer hstop
  exact ⟨id, s', hs', hleads⟩

theorem exists_flatten (h : s.Consistent text tokens) : ∃ ps, s.stream.rest = flatten ps := by
  obtain ⟨lead, ps, hrest, hlead⟩ := Piece.exists_flatten s.stream.rest
  cases lead with
  | nil => exact ⟨ps, hrest⟩
  | cons t lead =>
    have ht := h.current t (by rw [current_eq, hrest]; rfl)
    exact Bool.noConfusion (ht.symm.trans (hlead t List.mem_cons_self))

variable [Vocabulary K]

theorem advance {t : Token} {ts : List Token} (h : s.Consistent text tokens)
    (hslice : Sliceable text tokens) (hrest : s.stream.rest = t :: ts) :
    ∃ s', ParseM.advance s = .ok () s' ∧ Leads text tokens s s' ∧ s'.stream.rest = dropComments ts := by
  let s₁ : State K := { s with stream := s.stream.drop 1, prevStop := t.stop }
  have ht : t.isComment = false := h.current t (by rw [current_eq, hrest]; rfl)
  have hprev : t.stop = stopBefore tokens (s.stream.position + 1) :=
    (stopBefore_succ (h.rest.symm.trans hrest) ht).symm
  have hone : 1 ≤ s.stream.rest.length := by rw [hrest]; exact Nat.le_add_left 1 _
  obtain ⟨htracks, hhere⟩ := @Tracks.moved _ _ _ s s₁ _ h.toTracks hslice hone rfl rfl hprev h.begun
  have hlater : s.Later s₁ := ⟨Nat.le_refl _, fun _ => Nat.le_refl _, hhere⟩
  obtain ⟨s', hs', hleads, hrest'⟩ := htracks.absorbComments hslice
  refine ⟨s', ?_, ⟨hleads.consistent, hlater.trans hleads.later⟩, ?_⟩
  · rw [ParseM.advance, hrest]
    exact hs'
  · have hrest₁ : s₁.stream.rest = s.stream.rest.drop 1 := rfl
    rw [hrest', hrest₁, hrest]
    rfl

theorem eat (h : s.Consistent text tokens) (hslice : Sliceable text tokens) (kind : TokenKind) :
    ∃ b s', ParseM.eat kind s = .ok b s' ∧ Leads text tokens s s' := by
  by_cases hat : s.isAt kind = true
  · obtain ⟨t, hcurrent, -⟩ := Option.map_eq_some_iff.1 (of_decide_eq_true hat)
    obtain ⟨ts, hrest⟩ := exists_rest_eq_cons hcurrent
    obtain ⟨s', hs', hleads, -⟩ := h.advance hslice hrest
    refine ⟨true, s', ?_, hleads⟩
    simp [ParseM.eat, hat, SeqRight.seqRight, EStateM.seqRight, hs', pure, EStateM.pure]
  · exact ⟨false, s, if_neg hat, .refl h⟩

theorem advance_allOrNothing (h : s.Consistent text tokens) (hslice : Sliceable text tokens) :
    AllOrNothing text tokens ParseM.advance s := by
  cases hrest : s.stream.rest with
  | nil => exact .inr ⟨_, by rw [ParseM.advance, hrest]; rfl⟩
  | cons t ts =>
    obtain ⟨s', hs', hleads, -⟩ := h.advance hslice hrest
    exact .inl ⟨(), s', hs', hleads⟩

theorem expectWhere (h : s.Consistent text tokens) (hslice : Sliceable text tokens)
    (accepts : TokenKind → Bool) (what : String) :
    AllOrNothing text tokens (ParseM.expectWhere accepts what) s := by
  rcases demand_cases accepts what s with ⟨t, hcurrent, hdemand⟩ | ⟨e, hdemand⟩
  · obtain ⟨ts, hrest⟩ := exists_rest_eq_cons hcurrent
    obtain ⟨s', hs', hleads, -⟩ := h.advance hslice hrest
    refine .inl ⟨t, s', ?_, hleads⟩
    rw [ParseM.expectWhere, bind_of_ok hdemand, bind_of_ok hs']
    rfl
  · exact .inr ⟨e, bind_of_error hdemand⟩

theorem close (h : s.Consistent text tokens) (hslice : Sliceable text tokens) (kind : TokenKind) :
    AllOrNothing text tokens (ParseM.close kind) s := by
  rcases demand_cases (· = kind) kind.describe s with ⟨t, hcurrent, hdemand⟩ | ⟨e, hdemand⟩
  · -- The container began at the current token or before it, and the token has not been passed yet.
    have hstop : (s.tree.range s.container).start ≤ t.stop :=
      Nat.le_trans (here_of_current hcurrent ▸ h.container.start_le) t.start_le_stop
    obtain ⟨id, s₁, hend, hleads, hstream⟩ := h.endContainer hstop
    obtain ⟨ts, hrest⟩ := exists_rest_eq_cons hcurrent
    obtain ⟨s', hs', hleads', -⟩ := hleads.consistent.advance hslice (hstream ▸ hrest)
    refine .inl ⟨id, s', ?_, hleads.trans hleads'⟩
    rw [ParseM.close, bind_of_ok hdemand, bind_of_ok hend, bind_of_ok hs']
    rfl
  · exact .inr ⟨e, bind_of_error hdemand⟩

theorem plays_plain (g : Grammar G S K) (hslice : Sliceable text tokens) {qs ps : List Piece}
    (h : s.Consistent text tokens) (hrest : s.stream.rest = flatten (qs ++ ps)) :
    ∃ s', g.Plays (Part.plain qs) none none s s' ∧ Leads text tokens s s' ∧
      s'.stream.rest = flatten ps := by
  induction qs generalizing s with
  | nil => exact ⟨s, .nil, .refl h, hrest⟩
  | cons q qs ih =>
    obtain ⟨s₁, hs₁, hleads, hrest₁⟩ := h.advance hslice hrest
    have hrest₁ := hrest₁.trans (Piece.dropComments_comments_append q (qs ++ ps))
    obtain ⟨s', hplays, hleads', hrest'⟩ := ih hleads.consistent hrest₁
    have hone : g.Plays [.take q .plain] none none s s₁ := by
      refine .one ?_
      simp only [Move.act, Grammar.perform, Grammar.takeToken, bind_of_ok hs₁]
      rfl
    exact ⟨s', hone.append hplays, hleads.trans hleads', hrest'⟩

theorem read {g : Grammar G S K} {turn : G → Turn} (hd : Disciplined g.react turn)
    {symbols : List (Symbol G S)} (hsymbols : Steady turn symbols) (h : s.Consistent text tokens)
    (hslice : Sliceable text tokens) :
    (∃ ts s', g.read symbols s = .ok ts s' ∧ Leads text tokens s s') ∨
      ∃ e s', g.read symbols s = .error (.refused e) s' ∧ Leads text tokens s s' := by
  obtain ⟨ps, hps⟩ := h.exists_flatten
  obtain ⟨qs, left, hacts, rfl⟩ := hd.exists_plain hsymbols ps
  rw [← hps] at hacts
  obtain ⟨s', hplays, hleads, -⟩ := h.plays_plain g hslice hps
  have hplay : g.play (g.react.run symbols s.stream.rest []).acts none s = .ok none s' :=
    hacts ▸ hplays
  cases href : (g.react.run symbols s.stream.rest []).refusal with
  | none => exact .inl ⟨_, s', g.read_of_plays hplay href, hleads⟩
  | some refusal => exact .inr ⟨_, s', Grammar.read_of_refusal_of_plays hplay href, hleads⟩

end Consistent

theorem exists_consistent [Vocabulary K] (hslice : Sliceable text tokens) :
    ∃ s : State K, ofTokens text tokens = .ok () s ∧ s.Consistent text tokens := by
  have htracks : Tracks (K := K) text tokens
      { text, stream := .ofTokens tokens, tree := .ofLength text.utf8ByteSize,
        containers := [Tree.root], prevStop := 0 } := by
    refine ⟨rfl, Nat.zero_le _, rfl, rfl, fun c hc => ?_⟩
    obtain rfl : c = Tree.root := by simpa using hc
    exact ⟨Nat.one_pos, Nat.zero_le _⟩
  obtain ⟨s, hs, hleads, -⟩ := htracks.absorbComments hslice
  exact ⟨s, hs, hleads.consistent⟩

end State
end ProtoSyntax
