import ProtoSyntax.Proofs.Parsing.Consistency

/-!
# Reading on in the middle

A grammar can also be read from the middle of a node that is begun, in any state that has a place for this
node and has not closed the root. Where a container ends with a token of its own, such reading is carried
out or refused, and only depends on the tokens ahead; how far it comes tells where the state stands.
-/

namespace ProtoSyntax
open Piece (flatten)

variable {G S K : Type}

/-- Reads what the symbols ask for, where a node may be begun. -/
def Grammar.readOn [Vocabulary K] (g : Grammar G S K) (pending : Option Pending)
    (symbols : List (Symbol G S)) : ParseM K (List Token) := do
  let s ← get
  let trace := g.react.run symbols s.stream.rest []
  let _ ← g.play trace.acts pending
  match trace.refusal with
  | some refusal => ParseM.refuse refusal
  | none => return trace.taken

theorem Grammar.readOn_none [Vocabulary K] (g : Grammar G S K) (symbols : List (Symbol G S)) :
    g.readOn none symbols = g.read symbols := rfl

namespace State

variable {text : String} {tokens : List Token} {s s' : State K} {pending : Option Pending} {l l' : Level}
  {p : Piece} {ps : List Piece} {id stop : Nat} {kind : K} {m : Marker}

/-! ### What steps leave alone -/

theorem containers_of_advance [Vocabulary K] (h : ParseM.advance s = .ok () s') :
    s'.containers = s.containers := by
  unfold ParseM.advance at h
  split at h
  · cases h
  · unfold ParseM.absorbComments at h
    split at h
    · cases h
      rfl
    · dsimp only at h
      split at h
      · cases h
        rfl
      · cases h

theorem eq_of_complete (h : ParseM.complete m kind s = .ok id s') :
    s'.stream = s.stream ∧ s'.containers = s.containers := by
  unfold ParseM.complete at h
  split at h <;> cases h
  exact ⟨rfl, rfl⟩

theorem eq_of_openNode (h : ParseM.openNode m kind s = .ok id s') :
    s'.stream = s.stream ∧ s'.containers = id :: s.containers := by
  unfold ParseM.openNode at h
  split at h <;> cases h
  exact ⟨rfl, rfl⟩

theorem eq_of_endContainer (h : ParseM.endContainer stop s = .ok id s') :
    s'.stream = s.stream ∧ s'.containers = s.containers.tail := by
  unfold ParseM.endContainer at h
  split at h <;> cases h
  exact ⟨rfl, rfl⟩

theorem Consistent.pass [Vocabulary K] (h : s.Consistent text tokens) (hslice : Sliceable text tokens)
    (hrest : s.stream.rest = flatten (p :: ps)) :
    ∃ s', ParseM.advance s = .ok () s' ∧ Leads text tokens s s' ∧ s'.stream.rest = flatten ps ∧
      s'.containers = s.containers := by
  obtain ⟨s', hs', hleads, hrest'⟩ := h.advance hslice hrest
  exact ⟨s', hs', hleads, hrest'.trans (Piece.dropComments_comments_append p ps),
    containers_of_advance hs'⟩

theorem container_eq (h : s'.containers = s.containers) : s'.container = s.container := by
  rw [container, h, container]

/-! ### Steps at a level -/

/-- A state in the middle of reading, at a level or deeper, with some pieces ahead. If a node is begun,
the open container has a place for it. -/
structure Engaged (text : String) (tokens : List Token) (s : State K) (pending : Option Pending) (l : Level)
    (ps : List Piece) : Prop where
  consistent : s.Consistent text tokens
  rest : s.stream.rest = flatten ps
  depth_lt : l.depth < s.containers.length
  begun : pending.isSome = l.begun
  place : ∀ q ∈ pending, q.marker.parent = s.container ∧ s.Admits q.marker

namespace Engaged

variable [Vocabulary K] (g : Grammar G S K)

theorem plain (h : Engaged text tokens s pending l (p :: ps)) (hslice : Sliceable text tokens) :
    ∃ s', g.Plays [.take p .plain] pending (pending.map (·.push p.token)) s s' ∧
      Engaged text tokens s' (pending.map (·.push p.token)) l ps := by
  obtain ⟨s', hs', hleads, hrest, hcontainers⟩ := h.consistent.pass hslice h.rest
  refine ⟨s', .one ?_, hleads.consistent, hrest, hcontainers ▸ h.depth_lt, by simpa using h.begun,
    fun q hq => ?_⟩
  · simp only [Move.act, Grammar.perform, Grammar.takeToken, bind_of_ok hs']
    rfl
  · obtain ⟨r, hr, rfl⟩ := Option.map_eq_some_iff.1 hq
    obtain ⟨hparent, hadmits⟩ := h.place r hr
    exact ⟨hparent.trans (container_eq hcontainers).symm, hadmits.later hleads.later⟩

theorem begins {d : Nat} (h : Engaged text tokens s pending ⟨false, d⟩ (p :: ps))
    (hslice : Sliceable text tokens) :
    ∃ s', g.Plays [.take p .begins] pending (some ⟨s.marker, [p.token]⟩) s s' ∧
      Engaged text tokens s' (some ⟨s.marker, [p.token]⟩) ⟨true, d⟩ ps := by
  obtain ⟨s', hs', hleads, hrest, hcontainers⟩ := h.consistent.pass hslice h.rest
  refine ⟨s', .one ?_, hleads.consistent, hrest, hcontainers ▸ h.depth_lt, rfl, ?_⟩
  · have hget : (get : ParseM K (State K)) s = .ok s s := rfl
    simp only [Move.act, Grammar.perform, Grammar.takeToken, bind_of_ok hget, bind_of_ok hs']
    rfl
  · rintro _ ⟨⟩
    exact ⟨(container_eq hcontainers).symm, h.consistent.marker.later hleads.later⟩

theorem complete {shape : S} {q : Pending} {d : Nat} (h : Engaged text tokens s (some q) ⟨true, d⟩ ps) :
    ∃ s', g.Plays [.complete shape] (some q) none s s' ∧ Engaged text tokens s' none ⟨false, d⟩ ps := by
  obtain ⟨id, s', hs', hleads⟩ := h.consistent.complete (h.place q rfl).2 (g.build shape s.text q.tokens)
  obtain ⟨hstream, hcontainers⟩ := eq_of_complete hs'
  refine ⟨s', .one ?_, hleads.consistent, hstream ▸ h.rest, hcontainers ▸ h.depth_lt, rfl, by simp⟩
  have hbegun : Grammar.begun (some q) s = .ok q s := if_pos (h.place q rfl).1
  have hget : (get : ParseM K (State K)) s = .ok s s := rfl
  simp only [Move.act, Grammar.perform, bind_of_ok hbegun, bind_of_ok hget, bind_of_ok hs']
  rfl

theorem opens {shape : S} {q : Pending} {d : Nat} (h : Engaged text tokens s (some q) ⟨true, d⟩ (p :: ps))
    (hslice : Sliceable text tokens) :
    ∃ s', g.Plays [.take p (.opens shape)] (some q) none s s' ∧
      Engaged text tokens s' none ⟨false, d + 1⟩ ps := by
  obtain ⟨id, s₁, hs₁, hleads₁⟩ := h.consistent.openNode (h.place q rfl).2 (g.build shape s.text q.tokens)
  obtain ⟨hstream, hcontainers₁⟩ := eq_of_openNode hs₁
  obtain ⟨s', hs', hleads, hrest, hcontainers⟩ := hleads₁.consistent.pass hslice (hstream ▸ h.rest)
  refine ⟨s', .one ?_, hleads.consistent, hrest, ?_, rfl, by simp⟩
  · have hbegun : Grammar.begun (some q) s = .ok q s := if_pos (h.place q rfl).1
    have hget : (get : ParseM K (State K)) s = .ok s s := rfl
    simp only [Move.act, Grammar.perform, Grammar.takeToken, bind_of_ok hbegun, bind_of_ok hget,
      bind_of_ok hs₁, bind_of_ok hs']
    rfl
  · rw [hcontainers, hcontainers₁]
    exact Nat.succ_lt_succ h.depth_lt

theorem closes {d : Nat} (h : Engaged text tokens s pending ⟨false, d + 1⟩ (p :: ps))
    (hslice : Sliceable text tokens) :
    ∃ s', g.Plays [.take p .closes] pending none s s' ∧ Engaged text tokens s' none ⟨false, d⟩ ps := by
  have hcurrent : s.current = some p.token := by rw [current_eq, h.rest]; rfl
  have hstop : (s.tree.range s.container).start ≤ p.token.stop :=
    Nat.le_trans (here_of_current hcurrent ▸ h.consistent.container.start_le) p.token.start_le_stop
  obtain ⟨id, s₁, hs₁, hleads₁, -⟩ := h.consistent.endContainer hstop
  obtain ⟨hstream, hcontainers₁⟩ := eq_of_endContainer hs₁
  obtain ⟨s', hs', hleads, hrest, hcontainers⟩ := hleads₁.consistent.pass hslice (hstream ▸ h.rest)
  have hdepth : d + 1 < s.containers.length := h.depth_lt
  refine ⟨s', .one ?_, hleads.consistent, hrest, ?_, rfl, by simp⟩
  · have hnested : Grammar.nested s = .ok () s := if_pos (by omega)
    have hdemand : ParseM.demand (· = p.token.kind) p.token.kind.describe s = .ok p.token s := by
      simp [ParseM.demand, hcurrent]
    have hclose : ParseM.close p.token.kind s = .ok id s' := by
      rw [ParseM.close, bind_of_ok hdemand, bind_of_ok hs₁, bind_of_ok hs']
      rfl
    simp only [Move.act, Grammar.perform, Grammar.takeToken, bind_of_ok hnested, bind_of_ok hclose]
    rfl
  · rw [hcontainers, hcontainers₁, List.length_tail]
    show d < _
    omega

theorem upholds (hslice : Sliceable text tokens) {m : Move S} (hfinish : m.act ≠ .finish) :
    g.Upholds (Engaged text tokens) m := by
  intro s pending l l' ps h hl
  cases m with
  | take p role =>
    cases role with
    | plain =>
      obtain rfl := Option.some.inj hl
      exact ⟨_, h.plain g hslice⟩
    | begins =>
      obtain ⟨_ | _, d⟩ := l <;> cases hl
      exact ⟨_, h.begins g hslice⟩
    | opens shape =>
      obtain ⟨_ | _, d⟩ := l <;> cases hl
      obtain ⟨q, rfl⟩ := Option.isSome_iff_exists.1 h.begun
      exact ⟨_, h.opens g hslice⟩
    | closes =>
      obtain ⟨_ | _, _ | d⟩ := l <;> cases hl
      exact ⟨_, h.closes g hslice⟩
  | complete shape =>
    obtain ⟨_ | _, d⟩ := l <;> cases hl
    obtain ⟨q, rfl⟩ := Option.isSome_iff_exists.1 h.begun
    exact ⟨_, h.complete g⟩
  | finish => exact absurd rfl hfinish

end Engaged

/-! ### Outcomes -/

theorem Consistent.stream_eq (h : s.Consistent text tokens) (h' : s'.Consistent text tokens)
    (hrest : s.stream.rest = s'.stream.rest) : s.stream = s'.stream := by
  have hlength : (tokens.drop s.stream.position).length = (tokens.drop s'.stream.position).length := by
    rw [← h.rest, ← h'.rest, hrest]
  have hposition : s.stream.position = s'.stream.position := by
    have := h.position_le
    have := h'.position_le
    simp only [List.length_drop] at hlength
    omega
  calc s.stream = ⟨s.stream.position, s.stream.rest⟩ := rfl
    _ = ⟨s'.stream.position, s'.stream.rest⟩ := by rw [hposition, hrest]

theorem Consistent.refuse_eq (h : s.Consistent text tokens) (h' : s'.Consistent text tokens)
    (hstream : s.stream = s'.stream) (refusal : Refusal) : s.refuse refusal = s'.refuse refusal := by
  rw [State.refuse, State.refuse, State.current, State.current, h.text, h'.text, hstream]

end State

theorem State.exists_start {α : Type} [Vocabulary K] {text : String} {tokens : List Token}
    (hslice : Sliceable text tokens) (f : State K → α) {a : α}
    (h : (match State.ofTokens text tokens with
      | .ok _ s => some (f s)
      | .error _ _ => none) = some a) :
    ∃ s, s.Consistent text tokens ∧ f s = a := by
  obtain ⟨s, hs, hconsistent⟩ := State.exists_consistent (K := K) hslice
  rw [hs] at h
  exact ⟨s, hconsistent, Option.some.inj h⟩

/-- Two outcomes that cannot be told apart from where the state stands, what is answered and what is
refused. -/
inductive SameOutcome {α : Type} :
    EStateM.Result Failure (State K) α → EStateM.Result Failure (State K) α → Prop where
  | ok {a : α} {s s' : State K} : s.stream = s'.stream → s.prevStop = s'.prevStop →
      SameOutcome (.ok a s) (.ok a s')
  | refused {e : ParseError} {s s' : State K} : s.stream = s'.stream → s.prevStop = s'.prevStop →
      SameOutcome (.error (.refused e) s) (.error (.refused e) s')

def Act.token? : Act S → Option Token
  | .take t _ => some t
  | _ => none

/-- Acts that take the same tokens, and no container is ended without a token. -/
structure SameTokens (acts acts' : List (Act S)) : Prop where
  tokens : acts.filterMap Act.token? = acts'.filterMap Act.token?
  finish : .finish ∉ acts
  finish' : .finish ∉ acts'

namespace SameTokens

variable {acts acts' : List (Act S)}

theorem nil : SameTokens ([] : List (Act S)) [] := ⟨rfl, by simp, by simp⟩

theorem take (h : SameTokens acts acts') (t : Token) (role role' : Role S) :
    SameTokens (.take t role :: acts) (.take t role' :: acts') :=
  ⟨by simp [Act.token?, h.tokens], by simp [h.finish], by simp [h.finish']⟩

theorem complete (h : SameTokens acts acts') (shape : S) :
    SameTokens (.complete shape :: acts) acts' :=
  ⟨(List.filterMap_cons_none rfl).trans h.tokens, by simp [h.finish], h.finish'⟩

theorem reverse (h : SameTokens acts acts') : SameTokens acts.reverse acts'.reverse :=
  ⟨by simp [h.tokens], by simp [h.finish], by simp [h.finish']⟩

end SameTokens

structure Trace.SameExtent (trace trace' : Trace S) : Prop where
  acts : SameTokens trace.acts trace'.acts
  rest : trace.rest = trace'.rest
  refusal : trace.refusal = trace'.refusal

theorem Trace.SameExtent.taken_eq {trace trace' : Trace S} (h : trace.SameExtent trace') :
    trace.taken = trace'.taken := h.acts.tokens

section

variable [Vocabulary K] {g : Grammar G S K} {turn : G → Turn} {text : String} {tokens : List Token}
  {s s' : State K} {pending pending' : Option Pending} {l l' m m' : Level} {k k' : List (Symbol G S)}
  {ps : List Piece}

theorem Grammar.readOn_of_play
    (h : g.play (g.react.run k s.stream.rest []).acts pending s = .ok pending' s') :
    g.readOn pending k s =
      match (g.react.run k s.stream.rest []).refusal with
      | some refusal => .error (.refused (s'.refuse refusal)) s'
      | none => .ok (g.react.run k s.stream.rest []).taken s' := by
  have hget : (get : ParseM K (State K)) s = .ok s s := rfl
  simp only [readOn, bind_of_ok hget, bind_of_ok h]
  cases (g.react.run k s.stream.rest []).refusal <;> rfl

theorem State.Engaged.exists_played (hd : Disciplined g.react turn)
    (h : s.Engaged text tokens pending l ps) (hslice : Sliceable text tokens)
    (hk : stackTurn turn k l = some m) (hfinish : .finish ∉ (g.react.run k s.stream.rest []).acts) :
    ∃ pending' s', g.play (g.react.run k s.stream.rest []).acts pending s = .ok pending' s' ∧
      s'.Consistent text tokens ∧ s'.stream.rest = (g.react.run k s.stream.rest []).rest := by
  obtain ⟨ms, left, l', hmakes, hl', -⟩ := @Disciplined.run _ _ _ _ hd _ ps [] _ _ hk
  rw [h.rest] at hfinish ⊢
  have hacts : (g.react.run k (flatten ps) []).acts = ms.map Move.act := hmakes.acts
  rw [hacts] at hfinish ⊢
  rw [← hmakes.pieces] at h
  have hms (m : Move S) (hm : m ∈ ms) : g.Upholds (State.Engaged text tokens) m :=
    State.Engaged.upholds g hslice fun he => hfinish (he ▸ List.mem_map_of_mem hm)
  obtain ⟨pending', s', hplays, h'⟩ := Grammar.plays_all hms h hl'
  exact ⟨pending', s', hplays, h'.consistent, h'.rest.trans hmakes.rest.symm⟩

/-- Readings of the same extent have the same outcome, though they make different nodes. -/
theorem State.Engaged.readOn_same (hd : Disciplined g.react turn) (hslice : Sliceable text tokens)
    (h : s.Engaged text tokens pending l ps) (h' : s.Engaged text tokens pending' l' ps)
    (hk : stackTurn turn k l = some m) (hk' : stackTurn turn k' l' = some m')
    (hsame : (g.react.run k s.stream.rest []).SameExtent (g.react.run k' s.stream.rest [])) :
    SameOutcome (g.readOn pending k s) (g.readOn pending' k' s) := by
  obtain ⟨_, s₁, hplay, hconsistent, hrest⟩ := h.exists_played hd hslice hk hsame.acts.finish
  obtain ⟨_, s₂, hplay', hconsistent', hrest'⟩ := h'.exists_played hd hslice hk' hsame.acts.finish'
  have hstream : s₁.stream = s₂.stream :=
    hconsistent.stream_eq hconsistent' (by rw [hrest, hrest', hsame.rest])
  have hprev : s₁.prevStop = s₂.prevStop := by rw [hconsistent.prevStop, hconsistent'.prevStop, hstream]
  rw [Grammar.readOn_of_play hplay, Grammar.readOn_of_play hplay', hsame.refusal, hsame.taken_eq]
  cases (g.react.run k' s.stream.rest []).refusal with
  | none => exact .ok hstream hprev
  | some refusal =>
    have hrefuse := hconsistent.refuse_eq hconsistent' hstream refusal
    simp only [hrefuse]
    exact .refused hstream hprev

end

end ProtoSyntax
