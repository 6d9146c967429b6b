import ProtoSyntax.Proofs.Parsing.Guidance

/-!
# The discipline of a run

A node is begun, and then it is completed, or opened and later ended; in between, other nodes are
nested. The level of a parse is what this depends on: whether a node is begun, and how many
containers are open. Each goal is given a turn, which is what it does to the level; the turns of
single reactions carry over to whole runs, refused ones included.
-/

namespace ProtoSyntax
open Piece (flatten)

variable {G S : Type}

structure Level where
  begun : Bool
  depth : Nat
deriving DecidableEq, Repr

abbrev Turn := Level → Option Level

namespace Turn

def whole : Turn
  | ⟨false, d⟩ => some ⟨false, d⟩
  | ⟨true, _⟩ => none

def begins : Turn
  | ⟨false, d⟩ => some ⟨true, d⟩
  | ⟨true, _⟩ => none

def completes : Turn
  | ⟨true, d⟩ => some ⟨false, d⟩
  | ⟨false, _⟩ => none

def opens : Turn
  | ⟨true, d⟩ => some ⟨false, d + 1⟩
  | ⟨false, _⟩ => none

def closes : Turn
  | ⟨false, d + 1⟩ => some ⟨false, d⟩
  | _ => none

def row : List Turn → Turn
  | [], l => some l
  | turn :: turns, l => (turn l).bind (row turns)

variable {turns turns' : List Turn} {l l' : Level}

theorem whole_eq_some : whole l = some l' ↔ l.begun = false ∧ l = l' := by
  obtain ⟨_ | _, d⟩ := l <;> simp [whole]

theorem row_append : row (turns ++ turns') l = (row turns l).bind (row turns') := by
  induction turns generalizing l with
  | nil => rfl
  | cons turn turns ih =>
    rw [List.cons_append, row, row, Option.bind_assoc]
    exact Option.bind_congr fun m _ => ih

theorem row_eq_some_of_keep (h : ∀ turn ∈ turns, turn = some) : row turns l = some l := by
  induction turns with
  | nil => rfl
  | cons turn turns ih =>
    rw [row, h turn List.mem_cons_self]
    exact ih fun turn hturn => h turn (List.mem_cons_of_mem _ hturn)

end Turn

def Role.turn : Role S → Turn
  | .plain => some
  | .begins => Turn.begins
  | .opens _ => Turn.opens
  | .closes => Turn.closes

def Act.turn : Act S → Turn
  | .take _ role => role.turn
  | .complete _ => Turn.completes
  | .finish => Turn.closes

def Symbol.turn (turn : G → Turn) : Symbol G S → Turn
  | .goal g => turn g
  | .token _ role => role.turn
  | .complete _ => Turn.completes
  | .finish => Turn.closes

def stackTurn (turn : G → Turn) (k : List (Symbol G S)) : Turn := Turn.row (k.map (Symbol.turn turn))

def actsTurn (acts : List (Act S)) : Turn := Turn.row (acts.map Act.turn)

section

variable {turn : G → Turn} {k n : List (Symbol G S)} {l l' l'' : Level}

theorem stackTurn_cons_eq_some {s : Symbol G S} :
    stackTurn turn (s :: k) l = some l'' ↔ ∃ l', s.turn turn l = some l' ∧ stackTurn turn k l' = some l'' :=
  Option.bind_eq_some_iff

theorem stackTurn_append_eq_some : stackTurn turn (n ++ k) l = some l'' ↔
    ∃ l', stackTurn turn n l = some l' ∧ stackTurn turn k l' = some l'' := by
  rw [stackTurn, List.map_append, Turn.row_append]
  exact Option.bind_eq_some_iff

theorem actsTurn_cons {a : Act S} {acts : List (Act S)} (h : a.turn l = some l')
    (h' : actsTurn acts l' = some l'') : actsTurn (a :: acts) l = some l'' := by
  rw [actsTurn, List.map_cons, Turn.row, h]
  exact h'

end

def Steady (turn : G → Turn) (k : List (Symbol G S)) : Prop := ∀ s ∈ k, s.turn turn = some

section

variable {turn : G → Turn} {k n : List (Symbol G S)}

@[simp] theorem steady_nil : Steady turn ([] : List (Symbol G S)) := by simp [Steady]

@[simp] theorem steady_cons {s : Symbol G S} :
    Steady turn (s :: k) ↔ s.turn turn = some ∧ Steady turn k := List.forall_mem_cons

@[simp] theorem steady_append : Steady turn (n ++ k) ↔ Steady turn n ∧ Steady turn k :=
  List.forall_mem_append

theorem Steady.stackTurn_eq (h : Steady turn k) (l : Level) : stackTurn turn k l = some l := by
  refine Turn.row_eq_some_of_keep fun t ht => ?_
  obtain ⟨s, hs, rfl⟩ := List.mem_map.1 ht
  exact h s hs

end

/-- Single reactions that do what the turn of their goal says. -/
structure Disciplined (react : Prediction G S) (turn : G → Turn) : Prop where
  skip : ∀ {g ahead l l'}, react g ahead = .skip → turn g l = some l' → l = l'
  take : ∀ {g ahead role next l l'}, react g ahead = .take role next → turn g l = some l' →
    ∃ m, role.turn l = some m ∧ stackTurn turn next m = some l'

/-- What a run does from some point on: it makes moves, one for each piece that it passes. -/
structure Trace.Makes (trace : Trace S) (done : List (Act S)) (ms : List (Move S))
    (ps left : List Piece) : Prop where
  acts : trace.acts = done.reverse ++ ms.map Move.act
  rest : trace.rest = flatten left
  pieces : Signal.pieces (ms.flatMap Move.signals) ++ left = ps

namespace Trace.Makes

variable {trace : Trace S} {done : List (Act S)} {ms : List (Move S)} {ps left : List Piece}

theorem none (refusal : Option Refusal) :
    Makes ⟨done.reverse, flatten ps, refusal⟩ done [] ps ps := ⟨by simp, rfl, rfl⟩

theorem cons {m : Move S} {qs : List Piece} (h : trace.Makes (m.act :: done) ms ps left)
    (hm : Signal.pieces m.signals ++ ps = qs) : trace.Makes done (m :: ms) qs left where
  acts := by simp [h.acts]
  rest := h.rest
  pieces := by simp [← hm, ← h.pieces]

end Trace.Makes

/-- Whatever a run does, refused or not, is in order; and if it is not refused, the level that it
leaves is that of its symbols. -/
theorem Disciplined.run {react : Prediction G S} {turn : G → Turn} (h : Disciplined react turn)
    {k : List (Symbol G S)} {ps : List Piece} {done : List (Act S)} {l l' : Level}
    (hl : stackTurn turn k l = some l') :
    ∃ ms left m, (react.run k (flatten ps) done).Makes done ms ps left ∧
      actsTurn (ms.map Move.act) l = some m ∧
      ((react.run k (flatten ps) done).refusal = none → m = l') := by
  generalize ha : flatten ps = ahead
  fun_induction Prediction.run react k ahead done generalizing ps l with
  | case1 ahead done => exact ⟨[], ps, l, ha ▸ .none _, rfl, fun _ => Option.some.inj hl⟩
  | case2 ahead done shape k ih =>
    obtain ⟨l₁, h₁, h₂⟩ := stackTurn_cons_eq_some.1 hl
    obtain ⟨ms, left, m, hmakes, hm, href⟩ := ih h₂ ha
    exact ⟨.complete shape :: ms, left, m, hmakes.cons rfl,
      actsTurn_cons (a := .complete shape) h₁ hm, href⟩
  | case3 ahead done k ih =>
    obtain ⟨l₁, h₁, h₂⟩ := stackTurn_cons_eq_some.1 hl
    obtain ⟨ms, left, m, hmakes, hm, href⟩ := ih h₂ ha
    exact ⟨.finish :: ms, left, m, hmakes.cons rfl, actsTurn_cons (a := .finish) h₁ hm, href⟩
  | case4 done terminal role k => exact ⟨[], ps, l, ha ▸ .none _, rfl, by simp⟩
  | case5 done terminal role k t ts hacc ih =>
    cases ps with
    | nil => simp at ha
    | cons p ps =>
      obtain ⟨rfl, rfl⟩ := List.cons.inj ha
      obtain ⟨l₁, h₁, h₂⟩ := stackTurn_cons_eq_some.1 hl
      obtain ⟨ms, left, m, hmakes, hm, href⟩ :=
        ih h₂ (Piece.dropComments_comments_append p ps).symm
      exact ⟨.take p role :: ms, left, m, hmakes.cons (by cases role <;> rfl),
        actsTurn_cons (a := .take p.token role) h₁ hm, href⟩
  | case6 done terminal role k t ts hacc => exact ⟨[], ps, l, ha ▸ .none _, rfl, by simp⟩
  | case7 ahead done g k refusal hr => exact ⟨[], ps, l, ha ▸ .none _, rfl, by simp⟩
  | case8 ahead done g k hr ih =>
    obtain ⟨l₁, h₁, h₂⟩ := stackTurn_cons_eq_some.1 hl
    obtain rfl := h.skip hr h₁
    exact ih h₂ ha
  | case9 done g k role next hr => exact ⟨[], ps, l, ha ▸ .none _, rfl, by simp⟩
  | case10 done g k role next t ts hr ih =>
    cases ps with
    | nil => simp at ha
    | cons p ps =>
      obtain ⟨rfl, rfl⟩ := List.cons.inj ha
      obtain ⟨l₁, h₁, h₂⟩ := stackTurn_cons_eq_some.1 hl
      -- What is put in the place of the goal has the same turn, after the role of the token.
      obtain ⟨l₂, hrole, hnext⟩ := h.take hr h₁
      obtain ⟨ms, left, m, hmakes, hm, href⟩ := ih (stackTurn_append_eq_some.2 ⟨l₁, hnext, h₂⟩)
        (Piece.dropComments_comments_append p ps).symm
      exact ⟨.take p role :: ms, left, m, hmakes.cons (by cases role <;> rfl),
        actsTurn_cons (a := .take p.token role) hrole hm, href⟩

end ProtoSyntax
