import ProtoSyntax.Proofs.Parsing.Guidance
import ProtoSyntax.Proofs.Parsing.Layout

/-!
# Loops

A goal that reads a row of nodes comes back after each of them. What it pursues in between derives
exactly one part, and the moves of no part begin those of another, so that each part of the row is read
in a turn of its own.
-/

namespace ProtoSyntax
open Piece (flatten)

variable {G N S L : Type}

namespace Pursuit

variable {react : Prediction G S} {k l : List (Symbol G S)} {ps mid rest : List Piece}
  {ms ns : List (Move S)}

theorem append (h : Pursuit react k ps ms mid) (h' : Pursuit react l mid ns rest) :
    Pursuit react (k ++ l) ps (ms ++ ns) rest := by
  induction h with
  | done => exact h'
  | complete shape _ ih => exact .complete shape (ih h')
  | finish _ ih => exact .finish (ih h')
  | token ha _ ih => exact .token ha (ih h')
  | skip hr _ ih => exact .skip hr (ih h')
  | take hr _ ih => exact .take hr (List.append_assoc _ _ l ▸ ih h')

theorem exists_split (h : Pursuit react (k ++ l) ps ms rest) :
    ∃ ms₁ mid ms₂, Pursuit react k ps ms₁ mid ∧ Pursuit react l mid ms₂ rest ∧ ms = ms₁ ++ ms₂ := by
  generalize hs : k ++ l = s at h
  induction h generalizing k with
  | done ps =>
    obtain ⟨rfl, rfl⟩ := List.append_eq_nil_iff.1 hs
    exact ⟨[], ps, [], .done ps, .done ps, rfl⟩
  | complete shape h ih =>
    rcases k with _ | ⟨s, k⟩
    · obtain rfl : l = _ := hs
      exact ⟨[], _, _, .done _, .complete shape h, rfl⟩
    · obtain ⟨rfl, hk⟩ := List.cons.inj hs
      obtain ⟨ms₁, mid, ms₂, h₁, h₂, rfl⟩ := ih hk
      exact ⟨_, mid, ms₂, .complete shape h₁, h₂, rfl⟩
  | finish h ih =>
    rcases k with _ | ⟨s, k⟩
    · obtain rfl : l = _ := hs
      exact ⟨[], _, _, .done _, .finish h, rfl⟩
    · obtain ⟨rfl, hk⟩ := List.cons.inj hs
      obtain ⟨ms₁, mid, ms₂, h₁, h₂, rfl⟩ := ih hk
      exact ⟨_, mid, ms₂, .finish h₁, h₂, rfl⟩
  | token ha h ih =>
    rcases k with _ | ⟨s, k⟩
    · obtain rfl : l = _ := hs
      exact ⟨[], _, _, .done _, .token ha h, rfl⟩
    · obtain ⟨rfl, hk⟩ := List.cons.inj hs
      obtain ⟨ms₁, mid, ms₂, h₁, h₂, rfl⟩ := ih hk
      exact ⟨_, mid, ms₂, .token ha h₁, h₂, rfl⟩
  | skip hr h ih =>
    rcases k with _ | ⟨s, k⟩
    · obtain rfl : l = _ := hs
      exact ⟨[], _, _, .done _, .skip hr h, rfl⟩
    · obtain ⟨rfl, hk⟩ := List.cons.inj hs
      obtain ⟨ms₁, mid, ms₂, h₁, h₂, rfl⟩ := ih hk
      exact ⟨ms₁, mid, ms₂, .skip hr h₁, h₂, rfl⟩
  | @take _ _ next _ _ _ _ _ hr h ih =>
    rcases k with _ | ⟨s, k⟩
    · obtain rfl : l = _ := hs
      exact ⟨[], _, _, .done _, .take hr h, rfl⟩
    · obtain ⟨rfl, rfl⟩ := List.cons.inj hs
      obtain ⟨ms₁, mid, ms₂, h₁, h₂, rfl⟩ := ih (k := next ++ k) (List.append_assoc _ _ _)
      exact ⟨_, mid, ms₂, .take hr h₁, h₂, rfl⟩

theorem take_inv {g : G} {p : Piece} {role : Role S}
    (h : Pursuit react (.goal g :: k) ps (.take p role :: ms) rest)
    (hskip : ∀ p ps, react g (flatten (p :: ps)) ≠ .skip) :
    ∃ ps' next, ps = p :: ps' ∧ react g (flatten (p :: ps')) = .take role next ∧
      Pursuit react (next ++ k) ps' ms rest := by
  cases h with
  | skip hr h =>
    cases ps with
    | nil =>
      have hpieces := h.pieces_eq
      rw [List.flatMap_cons, Signal.pieces_append] at hpieces
      cases role <;> simp [Move.signals, Role.marks, Signal.pieces] at hpieces
    | cons q ps => exact absurd hr (hskip q ps)
  | take hr h => exact ⟨_, _, rfl, hr, h⟩

end Pursuit

namespace Part

theorem plain_append_inj {ps qs : List Piece} {m n : Move S} {ms ns : List (Move S)}
    (hm : ∀ p, m ≠ .take p .plain) (hn : ∀ p, n ≠ .take p .plain)
    (h : plain ps ++ m :: ms = plain qs ++ n :: ns) : ps = qs ∧ m = n ∧ ms = ns := by
  induction ps generalizing qs with
  | nil =>
    cases qs with
    | nil => exact ⟨rfl, List.cons.inj h⟩
    | cons q qs => exact absurd (List.cons.inj h).1 (hm q)
  | cons p ps ih =>
    cases qs with
    | nil => exact absurd (List.cons.inj h).1.symm (hn p)
    | cons q qs =>
      obtain ⟨hpq, hmore⟩ := List.cons.inj h
      obtain ⟨rfl, -⟩ := Move.take.inj hpq
      obtain ⟨rfl, hrest⟩ := ih hmore
      exact ⟨rfl, hrest⟩

theorem ending_injective : Function.Injective (ending : Option Piece → Move S) := by
  intro c d h
  cases c <;> cases d <;> simp_all [ending]

mutual

theorem moves_append_inj (q q' : Part S) {ms ms' : List (Move S)} (h : q.moves ++ ms = q'.moves ++ ms') :
    q = q' ∧ ms = ms' := by
  match q, q' with
  | .token p, .token p' => simpa [moves, plain] using h
  | .token _, .leaf _ _ _ | .token _, .block _ _ _ _ _ _ | .leaf _ _ _, .token _
  | .block _ _ _ _ _ _, .token _ => simp [moves, plain] at h
  | .leaf shape first more, .leaf shape' first' more' =>
    simp only [moves, List.cons_append, List.append_assoc, List.nil_append, List.cons.injEq,
      Move.take.injEq, and_true] at h
    obtain ⟨rfl, h⟩ := h
    obtain ⟨rfl, hshape, rfl⟩ := plain_append_inj (by simp) (by simp) h
    obtain rfl := Move.complete.inj hshape
    exact ⟨rfl, rfl⟩
  | .leaf _ _ _, .block _ _ _ _ _ _ | .block _ _ _ _ _ _, .leaf _ _ _ =>
    simp only [moves, List.cons_append, List.append_assoc, List.nil_append, List.cons.injEq] at h
    obtain ⟨-, hmove, -⟩ := plain_append_inj (by simp) (by simp) h.2
    cases hmove
  | .block shape first more opener body closer, .block shape' first' more' opener' body' closer' =>
    simp only [moves, List.cons_append, List.append_assoc, List.nil_append, List.cons.injEq,
      Move.take.injEq, and_true] at h
    obtain ⟨rfl, htail⟩ := h
    obtain ⟨rfl, hopens, hbody⟩ := plain_append_inj (by simp) (by simp) htail
    obtain ⟨rfl, hrole⟩ := Move.take.inj hopens
    obtain rfl := Role.opens.inj hrole
    obtain ⟨rfl, rfl, rfl⟩ := listMoves_append_inj body body' hbody
    exact ⟨rfl, rfl⟩

theorem listMoves_append_inj (qs qs' : List (Part S)) {closer closer' : Option Piece}
    {ms ms' : List (Move S)}
    (h : listMoves qs ++ ending closer :: ms = listMoves qs' ++ ending closer' :: ms') :
    qs = qs' ∧ closer = closer' ∧ ms = ms' := by
  match qs, qs' with
  | [], [] =>
    obtain ⟨hending, rfl⟩ := List.cons.inj h
    exact ⟨rfl, ending_injective hending, rfl⟩
  | [], q :: _ => cases q <;> cases closer <;> simp [listMoves, moves, plain, ending] at h
  | q :: _, [] => cases q <;> cases closer' <;> simp [listMoves, moves, plain, ending] at h
  | q :: qs, q' :: qs' =>
    rw [listMoves, listMoves, List.append_assoc, List.append_assoc] at h
    obtain ⟨rfl, htail⟩ := moves_append_inj q q' h
    obtain ⟨rfl, hrest⟩ := listMoves_append_inj qs qs' htail
    exact ⟨rfl, hrest⟩

end

theorem eq_token_or_begins (q : Part S) : (∃ p, q = .token p) ∨
    ∃ p ps ms, q.pieces = p :: ps ∧ q.moves = .take p .begins :: ms ∧
      Signal.pieces (ms.flatMap Move.signals) = ps := by
  have hpieces := q.pieces_moves
  cases q with
  | token p => exact .inl ⟨p, rfl⟩
  | leaf | block =>
    simp only [moves, List.cons_append, List.flatMap_cons, Signal.pieces_append] at hpieces
    exact .inr ⟨_, _, _, rfl, rfl, (List.cons.inj hpieces).2⟩

/-- A part that is read in one turn of a goal, by some symbols after its first token. -/
def ReadBy (q : Part S) (react : Prediction G S) (goal : G) (n : List (Symbol G S))
    (rest : List Piece) : Prop :=
  ∃ p ps ms, q.pieces = p :: ps ∧ q.moves = .take p .begins :: ms ∧
    react goal (flatten (p :: ps ++ rest)) = .take .begins (n ++ [.goal goal]) ∧
    Pursuit react n (ps ++ rest) ms rest

end Part

/-- A goal that passes tokens and reads nodes, one in each turn. -/
structure Loops (rule : N → Phrase N S) (lang : G → Phrase N S) (react : Prediction G S) (goal : G) :
    Prop where
  ne_skip : ∀ p ps, react goal (flatten (p :: ps)) ≠ .skip
  passes : ∀ {p ps next}, react goal (flatten (p :: ps)) = .take .plain next → next = [.goal goal]
  begins : ∀ {p ps next}, react goal (flatten (p :: ps)) = .take .begins next →
    ∃ n, next = n ++ [.goal goal] ∧ ∀ ss, Derives rule (stackPhrase lang n) ss →
      ∃ q, Part.signals [q] = (Move.take p .begins).signals ++ ss

theorem Loops.of_predicts {rule : N → Phrase N S} {lang : G → Phrase N S} {react : Prediction G S}
    {layout : Layout N S L} {place : L} {goal : G} {f : Start G S} {a : Phrase N S}
    (ha : Predicts rule lang f a) (hyields : ∀ n, Yields rule layout n true place a)
    (hskip : ∀ p ps, react goal (flatten (p :: ps)) ≠ .skip)
    (hpasses : ∀ {p ps next}, react goal (flatten (p :: ps)) = .take .plain next → next = [.goal goal])
    (hbegins : ∀ {p ps next}, react goal (flatten (p :: ps)) = .take .begins next →
      ∃ n, next = n ++ [.goal goal] ∧ f p.token .begins n) : Loops rule lang react goal where
  ne_skip := hskip
  passes := hpasses
  begins {p ps next} hr := by
    obtain ⟨n, rfl, hf⟩ := hbegins hr
    refine ⟨n, rfl, fun ss hd => ?_⟩
    have hone := (ha [] _).2 ⟨p, .begins, n, ss, hf, by rwa [List.append_nil], rfl⟩
    rw [List.append_nil] at hone
    obtain ⟨parts, hparts, -, hsingle⟩ := hyields _ _ (Nat.le_refl _) hone
    obtain ⟨q, rfl⟩ := hsingle rfl
    exact ⟨q, hparts⟩

section

variable {rule : N → Phrase N S} {lang : G → Phrase N S} {react : Prediction G S} {goal : G}
  {k : List (Symbol G S)} {ps rest : List Piece} {ms : List (Move S)} {q : Part S}

theorem Loops.exists_turn (h : Loops rule lang react goal) (hs : Sound rule lang react)
    (hp : Pursuit react (.goal goal :: k) ps (q.moves ++ ms) rest) :
    ∃ mid, ((∃ p, q = .token p) ∨ ∃ n, q.ReadBy react goal n mid) ∧
      Pursuit react (.goal goal :: k) mid ms rest := by
  rcases q.eq_token_or_begins with ⟨p, rfl⟩ | ⟨p, ps', ms', hpieces, hmoves, hps'⟩
  · obtain ⟨mid, next, rfl, hr, hp⟩ := hp.take_inv h.ne_skip
    obtain rfl := h.passes hr
    exact ⟨mid, .inl ⟨p, rfl⟩, hp⟩
  · rw [hmoves] at hp
    obtain ⟨qs, next, rfl, hr, hp⟩ := hp.take_inv h.ne_skip
    obtain ⟨n, rfl, hone⟩ := h.begins hr
    rw [List.append_assoc] at hp
    obtain ⟨ms₁, mid, ms₂, h₁, h₂, hms⟩ := hp.exists_split
    -- What the symbols read is a part too, and it begins as this one does.
    obtain ⟨q₁, hq₁⟩ := hone _ (h₁.derives hs)
    have hmoves₁ : Part.listMoves [q₁] = .take p .begins :: ms₁ := Move.flatMap_signals_injective hq₁
    rw [Part.listMoves, Part.listMoves, List.append_nil] at hmoves₁
    have hsame : q₁.moves ++ ms₂ = q.moves ++ ms := by
      rw [hmoves₁, hmoves]
      exact congrArg _ hms.symm
    obtain ⟨rfl, rfl⟩ := Part.moves_append_inj q₁ q hsame
    obtain rfl : ms₁ = ms' := (List.cons.inj (hmoves₁.symm.trans hmoves)).2
    have hrest : ps' ++ mid = qs := by rw [← hps', h₁.pieces_eq]
    refine ⟨mid, .inr ⟨n, p, ps', ms₁, hpieces, hmoves, ?_, hrest ▸ h₁⟩, h₂⟩
    rw [List.cons_append, hrest, hr]

theorem Loops.exists_readBy {parts : List (Part S)} (h : Loops rule lang react goal)
    (hs : Sound rule lang react)
    (hp : Pursuit react (.goal goal :: k) ps (Part.listMoves parts ++ ms) rest) (hq : q ∈ parts) :
    (∃ p, q = .token p) ∨ ∃ n mid, q.ReadBy react goal n mid := by
  induction parts generalizing ps with
  | nil => cases hq
  | cons r parts ih =>
    rw [Part.listMoves, List.append_assoc] at hp
    obtain ⟨mid, hr, hp⟩ := h.exists_turn hs hp
    rcases List.mem_cons.1 hq with rfl | hq
    · exact hr.imp_right fun ⟨n, hr⟩ => ⟨n, mid, hr⟩
    · exact ih hp hq

end

end ProtoSyntax
