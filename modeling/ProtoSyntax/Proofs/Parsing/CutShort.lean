import ProtoSyntax.Proofs.Parsing.Loops
import ProtoSyntax.Proofs.Parsing.Seam

/-!
# Pursuits cut short

What is pursued up to a token that speaks for itself is pursued as well if nothing comes after this
token. For this, the symbols have to be done with it: the last of them, marks apart, asks for a token,
so that none of them is left that could be content with what comes next, but not with nothing.
-/

namespace ProtoSyntax
open Piece (flatten)

variable {G N S : Type}

theorem Token.isComment_of_mem_nil : ∀ t ∈ ([] : List Token), t.isComment = true :=
  fun _ ht => absurd ht List.not_mem_nil

def Piece.alone (p : Piece) : Piece := ⟨p.token, [], p.token_isComment, Token.isComment_of_mem_nil⟩

/-- A goal sees no difference, as it looks no further than to the kind of the second token. -/
theorem Attention.react_alone {react : Prediction G S} (ha : Attention react) {p : Piece}
    (hp : ∀ g ts, react g (p.token :: ts) = react g [p.token]) (g : G) (xs rest : List Piece) :
    react g (flatten (xs ++ [p.alone])) = react g (flatten (xs ++ p :: rest)) := by
  cases xs with
  | nil => exact (hp g _).symm
  | cons x xs =>
    rw [List.cons_append, List.cons_append, Piece.flatten_cons, Piece.flatten_cons]
    refine ha.congr rfl ?_
    cases x.comments with
    | nil =>
      rw [List.nil_append, List.nil_append, Piece.kindAt_flatten_zero, Piece.kindAt_flatten_zero]
      cases xs <;> rfl
    | cons c cs => rfl

namespace Pursuit

variable {react : Prediction G S} {solid : G → Prop} {goal : G} {k : List (Symbol G S)}
  {ps rest : List Piece} {ms : List (Move S)}

theorem length_le (h : Pursuit react k ps ms rest) : rest.length ≤ ps.length := by
  rw [← h.pieces_eq, List.length_append]
  exact Nat.le_add_left _ _

theorem of_silent (h : Silent k) (ps : List Piece) : ∃ ms, Pursuit react k ps ms ps := by
  induction k with
  | nil => exact ⟨[], .done ps⟩
  | cons s k ih =>
    obtain ⟨hs, hk⟩ := List.forall_mem_cons.1 h
    obtain ⟨ms, hp⟩ := ih hk
    rcases hs with ⟨shape, rfl⟩ | rfl
    · exact ⟨_, .complete shape hp⟩
    · exact ⟨_, .finish hp⟩

variable (hsealed : Sealed react solid goal)
  (hskip : ∀ {g ahead}, solid g → react g ahead ≠ .skip)

include hskip

theorem silent (h : Pursuit react k ps ms rest) (hlength : ps.length ≤ rest.length)
    (hk : Firm solid k) : Silent k := by
  induction h with
  | done => exact nofun
  | complete shape _ ih => exact List.forall_mem_cons.2 ⟨.inl ⟨shape, rfl⟩, ih hlength hk⟩
  | finish _ ih => exact List.forall_mem_cons.2 ⟨.inr rfl, ih hlength hk⟩
  | token _ h | take _ h =>
    have := h.length_le
    rw [List.length_cons] at hlength
    omega
  | skip hr _ ih => exact absurd hr (hskip (hk.1 (ih hlength hk.2)))

theorem exists_of_nil (h : Pursuit react k rest ms rest) (hk : Firm solid k) :
    ∃ ms', Pursuit react k [] ms' [] :=
  of_silent (h.silent hskip (Nat.le_refl _) hk) []

include hsealed

theorem exists_cut (ha : Attention react) {p : Piece} {xs : List Piece}
    (hp : ∀ g ts, react g (p.token :: ts) = react g [p.token])
    (h : Pursuit react k (xs ++ p :: rest) ms rest) (hk : Firm solid k) :
    ∃ ms', Pursuit react k (xs ++ [p.alone]) ms' [] := by
  have hreact := ha.react_alone hp
  clear hp
  generalize hps : xs ++ p :: rest = ps at h
  induction h generalizing xs with
  | done =>
    have hlength := congrArg List.length hps
    rw [List.length_append, List.length_cons] at hlength
    omega
  | complete shape _ ih =>
    obtain ⟨ms', h⟩ := ih hk hps
    exact ⟨_, .complete shape h⟩
  | finish _ ih =>
    obtain ⟨ms', h⟩ := ih hk hps
    exact ⟨_, .finish h⟩
  | token hacc h ih =>
    cases xs with
    | nil =>
      obtain ⟨rfl, rfl⟩ := List.cons.inj hps
      obtain ⟨ms', h⟩ := h.exists_of_nil hskip hk
      exact ⟨_, .token hacc h⟩
    | cons x xs =>
      obtain ⟨rfl, rfl⟩ := List.cons.inj hps
      obtain ⟨ms', h⟩ := ih hk rfl
      exact ⟨_, .token hacc h⟩
  | skip hr _ ih =>
    obtain ⟨ms', h⟩ := ih hk.2 hps
    exact ⟨ms', .skip (by rw [hreact _ xs, hps, hr]) h⟩
  | take hr h ih =>
    have hnext := hk.2.append fun hs => hsealed.firm (hk.1 hs) hr
    cases xs with
    | nil =>
      obtain ⟨rfl, rfl⟩ := List.cons.inj hps
      obtain ⟨ms', h⟩ := h.exists_of_nil hskip hnext
      exact ⟨_, .take ((hreact _ [] _).trans hr) h⟩
    | cons x xs =>
      obtain ⟨rfl, rfl⟩ := List.cons.inj hps
      obtain ⟨ms', h⟩ := ih hnext rfl
      exact ⟨_, .take ((hreact _ (x :: xs) _).trans hr) h⟩

end Pursuit

namespace Part.ReadBy

variable {react : Prediction G S} {goal : G} {q : Part S} {n : List (Symbol G S)} {rest : List Piece}

theorem derives {rule : N → Phrase N S} {lang : G → Phrase N S} (h : q.ReadBy react goal n rest)
    (hs : Sound rule lang react) (hnil : react goal [] = .skip) :
    Derives rule (lang goal) (signals [q]) := by
  obtain ⟨p, ps, ms, -, hmoves, hr, hp⟩ := h
  have hgoal : Derives rule (stackPhrase lang [.goal goal]) ([] : List (Signal S)) :=
    hs.skip (show react goal (flatten []) = .skip from hnil) .nil
  have hn := (hp.derives hs).append hgoal
  rw [← stackPhrase_append, ← List.append_nil (stackPhrase _ _)] at hn
  have hall := hs.take hr hn
  rw [List.append_nil, List.append_nil] at hall
  rwa [signals, listMoves, listMoves, List.append_nil, hmoves]

theorem exists_pursuit_alone {solid : G → Prop} (h : q.ReadBy react goal n rest)
    (hsealed : Sealed react solid goal) (hskip : ∀ {g ahead}, solid g → react g ahead ≠ .skip)
    (hnil : react goal [] = .skip) (ha : Attention react) {first p : Piece} {xs : List Piece}
    (hq : q.pieces = first :: (xs ++ [p])) (hp : ∀ g ts, react g (p.token :: ts) = react g [p.token]) :
    ∃ ms, Pursuit react [.goal goal] (first :: (xs ++ [p.alone])) ms [] := by
  obtain ⟨_, ps, ms, hpieces, -, hr, hpursuit⟩ := h
  obtain ⟨rfl, rfl⟩ := List.cons.inj (hq.symm.trans hpieces)
  rw [List.append_assoc] at hpursuit
  obtain ⟨ms', hcut⟩ := hpursuit.exists_cut hsealed hskip ha hp (hsealed.firm_turn hr)
  have hr' : react goal (flatten (first :: (xs ++ [p.alone]))) = .take .begins (n ++ [.goal goal]) := by
    rw [Piece.flatten_cons, hsealed.alone, ← hsealed.alone _ (first.comments ++ _), ← hr]
    rfl
  have hend : Pursuit react [.goal goal] [] [] [] := .skip hnil (.done [])
  exact ⟨_, .take hr' (by simpa using hcut.append hend)⟩

end Part.ReadBy
end ProtoSyntax
