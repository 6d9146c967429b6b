import ProtoSyntax.Proofs.Parsing.Ebnf

/-!
# Runs as derivations

A run that ends without a refusal is a pursuit: a derivation by the cases of the run, over pieces
instead of tokens with comments. Its moves are signals, so that an expression in EBNF can be given
to each goal; `Sound` then asks of single reactions what makes every pursuit derive the signals of
its moves.
-/

namespace ProtoSyntax
open Piece (flatten)

variable {G N S : Type}

/-- What a pursuit does with the pieces it passes. -/
inductive Move (S : Type) where
  | take (p : Piece) (role : Role S)
  | complete (shape : S)
  | finish

def Role.marks : Role S → List (Mark S)
  | .plain => []
  | .begins => [.begins]
  | .opens shape => [.opens shape]
  | .closes => [.closes]

namespace Move

def act : Move S → Act S
  | take p role => .take p.token role
  | complete shape => .complete shape
  | finish => .finish

def signals : Move S → List (Signal S)
  | take p role => role.marks.map .mark ++ [.token p]
  | complete shape => [.mark (.completes shape)]
  | finish => [.mark .finishes]

/-- A token is taken with the marks of its role before it, so moves can be told from signals. -/
theorem flatMap_signals_injective :
    Function.Injective fun ms : List (Move S) => ms.flatMap signals := by
  intro ms ns h
  induction ms generalizing ns with
  | nil =>
    cases ns with
    | nil => rfl
    | cons n ns => cases n <;> simp [signals] at h
  | cons m ms ih =>
    cases ns with
    | nil => cases m <;> simp [signals] at h
    | cons n ns =>
      have hmn : m = n ∧ ms.flatMap signals = ns.flatMap signals := by
        cases m with
        | take p r =>
          cases n with
          | take q s => cases r <;> cases s <;> simp_all [signals, Role.marks]
          | complete s => cases r <;> simp_all [signals, Role.marks]
          | finish => cases r <;> simp_all [signals, Role.marks]
        | complete r =>
          cases n with
          | take q s => cases s <;> simp_all [signals, Role.marks]
          | complete s => simp_all [signals]
          | finish => simp_all [signals]
        | finish =>
          cases n with
          | take q s => cases s <;> simp_all [signals, Role.marks]
          | complete s => simp_all [signals]
          | finish => simp_all [signals]
      rw [hmn.1, ih hmn.2]

end Move

inductive Pursuit (react : Prediction G S) :
    List (Symbol G S) → List Piece → List (Move S) → List Piece → Prop where
  | done (ps : List Piece) : Pursuit react [] ps [] ps
  | complete {k : List (Symbol G S)} {ps rest : List Piece} {ms : List (Move S)} (shape : S) :
      Pursuit react k ps ms rest →
      Pursuit react (.complete shape :: k) ps (.complete shape :: ms) rest
  | finish {k : List (Symbol G S)} {ps rest : List Piece} {ms : List (Move S)} :
      Pursuit react k ps ms rest → Pursuit react (.finish :: k) ps (.finish :: ms) rest
  | token {k : List (Symbol G S)} {p : Piece} {ps rest : List Piece} {ms : List (Move S)}
      {terminal : Terminal} {role : Role S} :
      terminal.accepts p.kind = true → Pursuit react k ps ms rest →
      Pursuit react (.token terminal role :: k) (p :: ps) (.take p role :: ms) rest
  | skip {g : G} {k : List (Symbol G S)} {ps rest : List Piece} {ms : List (Move S)} :
      react g (flatten ps) = .skip → Pursuit react k ps ms rest →
      Pursuit react (.goal g :: k) ps ms rest
  | take {g : G} {k next : List (Symbol G S)} {p : Piece} {ps rest : List Piece}
      {ms : List (Move S)} {role : Role S} :
      react g (flatten (p :: ps)) = .take role next → Pursuit react (next ++ k) ps ms rest →
      Pursuit react (.goal g :: k) (p :: ps) (.take p role :: ms) rest

namespace Pursuit

variable {react : Prediction G S} {k : List (Symbol G S)} {ps rest : List Piece}
  {ms : List (Move S)}

theorem run_eq (h : Pursuit react k ps ms rest) (done : List (Act S)) :
    react.run k (flatten ps) done = ⟨done.reverse ++ ms.map Move.act, flatten rest, none⟩ := by
  induction h generalizing done with
  | done => simp [Prediction.run]
  | complete shape _ ih => rw [Prediction.run, ih]; simp [Move.act]
  | finish _ ih => rw [Prediction.run, ih]; simp [Move.act]
  | @token k p ps rest ms terminal role ha _ ih =>
    have ha' : terminal.accepts p.token.kind = true := ha
    rw [Prediction.run.eq_def]
    simp [ha', ih, Move.act]
  | skip hr _ ih => rw [Prediction.run, hr]; exact ih done
  | take hr _ ih =>
    rw [Prediction.run, hr]
    simp [ih, Move.act]

theorem exists_of_run {done : List (Act S)}
    (h : (react.run k (flatten ps) done).refusal = none) :
    ∃ ms rest, Pursuit react k ps ms rest := by
  generalize ha : flatten ps = ahead at h
  fun_induction Prediction.run react k ahead done generalizing ps with
  | case1 ahead done => exact ⟨[], ps, .done ps⟩
  | case2 ahead done shape k ih =>
    obtain ⟨ms, rest, hp⟩ := ih ha h
    exact ⟨_, rest, .complete shape hp⟩
  | case3 ahead done k ih =>
    obtain ⟨ms, rest, hp⟩ := ih ha h
    exact ⟨_, rest, .finish hp⟩
  | case4 => simp at h
  | case5 done terminal role k t ts hacc ih =>
    cases ps with
    | nil => simp at ha
    | cons p ps =>
      obtain ⟨rfl, rfl⟩ := List.cons.inj ha
      obtain ⟨ms, rest, hp⟩ := ih (Piece.dropComments_comments_append p ps).symm h
      exact ⟨_, rest, .token hacc hp⟩
  | case6 => simp at h
  | case7 => simp at h
  | case8 ahead done g k hr ih =>
    obtain ⟨ms, rest, hp⟩ := ih ha h
    exact ⟨ms, rest, .skip (ha ▸ hr) hp⟩
  | case9 => simp at h
  | case10 done g k role next t ts hr ih =>
    cases ps with
    | nil => simp at ha
    | cons p ps =>
      obtain ⟨rfl, rfl⟩ := List.cons.inj ha
      obtain ⟨ms, rest, hp⟩ := ih (Piece.dropComments_comments_append p ps).symm h
      exact ⟨_, rest, .take hr hp⟩

theorem unique {rest' : List Piece} {ms' : List (Move S)} (h : Pursuit react k ps ms rest)
    (h' : Pursuit react k ps ms' rest') : ms = ms' ∧ rest = rest' := by
  induction h generalizing ms' rest' with
  | done =>
    cases h'
    exact ⟨rfl, rfl⟩
  | complete shape _ ih =>
    cases h' with
    | complete _ h' =>
      obtain ⟨rfl, rfl⟩ := ih h'
      exact ⟨rfl, rfl⟩
  | finish _ ih =>
    cases h' with
    | finish h' =>
      obtain ⟨rfl, rfl⟩ := ih h'
      exact ⟨rfl, rfl⟩
  | token _ _ ih =>
    cases h' with
    | token _ h' =>
      obtain ⟨rfl, rfl⟩ := ih h'
      exact ⟨rfl, rfl⟩
  | skip hr _ ih =>
    cases h' with
    | skip _ h' => exact ih h'
    | take hr' _ =>
      rw [hr] at hr'
      cases hr'
  | take hr _ ih =>
    cases h' with
    | skip hr' _ =>
      rw [hr] at hr'
      cases hr'
    | take hr' h' =>
      rw [hr] at hr'
      obtain ⟨rfl, rfl⟩ := Reaction.take.inj hr'
      obtain ⟨rfl, rfl⟩ := ih h'
      exact ⟨rfl, rfl⟩

end Pursuit

def Symbol.phrase (lang : G → Phrase N S) : Symbol G S → Phrase N S
  | .goal g => lang g
  | .token terminal role => role.marks.map .mark ++ [.token fun kind _ => terminal.accepts kind]
  | .complete shape => [.mark (.completes shape)]
  | .finish => [.mark .finishes]

def stackPhrase (lang : G → Phrase N S) (k : List (Symbol G S)) : Phrase N S :=
  k.flatMap (Symbol.phrase lang)

section

variable {rule : N → Phrase N S} {lang : G → Phrase N S} {k l : List (Symbol G S)}
  {ss : List (Signal S)}

@[simp] theorem stackPhrase_nil : stackPhrase lang [] = [] := rfl

@[simp] theorem stackPhrase_cons (s : Symbol G S) :
    stackPhrase lang (s :: k) = s.phrase lang ++ stackPhrase lang k := rfl

@[simp] theorem stackPhrase_append :
    stackPhrase lang (k ++ l) = stackPhrase lang k ++ stackPhrase lang l := List.flatMap_append

theorem derives_token_append {terminal : Terminal} {role : Role S} {p : Piece} {e : Phrase N S}
    (hp : terminal.accepts p.kind = true) (h : Derives rule e ss) :
    Derives rule (Symbol.phrase lang (.token terminal role) ++ e)
      ((Move.take p role).signals ++ ss) := by
  cases role with
  | plain => exact .token hp h
  | begins | opens | closes => exact .mark _ (.token hp h)

theorem Derives.token_inv {terminal : Terminal} {role : Role S} {e : Phrase N S}
    (h : Derives rule (Symbol.phrase lang (.token terminal role) ++ e) ss) :
    ∃ p ts, terminal.accepts p.kind = true ∧ Derives rule e ts ∧
      ss = (Move.take p role).signals ++ ts := by
  cases role with
  | plain =>
    cases h with
    | token hp h => exact ⟨_, _, hp, h, rfl⟩
  | begins | opens | closes =>
    cases h with
    | mark _ h =>
      cases h with
      | token hp h => exact ⟨_, _, hp, h, rfl⟩

end

/-- Single reactions that derive, in the expression of their goal, what they take and what the
symbols pursued after it derive. -/
structure Sound (rule : N → Phrase N S) (lang : G → Phrase N S) (react : Prediction G S) :
    Prop where
  skip : ∀ {g ps e ss}, react g (flatten ps) = .skip → Derives rule e ss →
    Derives rule (lang g ++ e) ss
  take : ∀ {g p ps role next e ss}, react g (flatten (p :: ps)) = .take role next →
    Derives rule (stackPhrase lang next ++ e) ss →
    Derives rule (lang g ++ e) ((Move.take p role).signals ++ ss)

namespace Pursuit

variable {rule : N → Phrase N S} {lang : G → Phrase N S} {react : Prediction G S}
  {k : List (Symbol G S)} {ps rest : List Piece} {ms : List (Move S)}

theorem derives (hs : Sound rule lang react) (h : Pursuit react k ps ms rest) :
    Derives rule (stackPhrase lang k) (ms.flatMap Move.signals) := by
  induction h with
  | done => exact .nil
  | complete shape _ ih => exact .mark _ ih
  | finish _ ih => exact .mark _ ih
  | token ha _ ih => exact derives_token_append ha ih
  | skip hr _ ih => exact hs.skip hr ih
  | take hr _ ih =>
    rw [stackPhrase_append] at ih
    exact hs.take hr ih

theorem pieces_eq (h : Pursuit react k ps ms rest) :
    Signal.pieces (ms.flatMap Move.signals) ++ rest = ps := by
  induction h with
  | done => rfl
  | complete _ _ ih => exact ih
  | finish _ ih => exact ih
  | @token _ _ _ _ _ _ role _ _ ih | @take _ _ _ _ _ _ _ role _ _ ih =>
    cases role <;> simpa [Move.signals, Role.marks, Signal.pieces] using ih
  | skip _ _ ih => exact ih

end Pursuit
end ProtoSyntax
