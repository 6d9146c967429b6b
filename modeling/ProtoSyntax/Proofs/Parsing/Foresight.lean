import ProtoSyntax.Proofs.Parsing.Pursuit

/-!
# Derivations as runs

The other direction: what the symbols derive is pursued. A goal chooses by the tokens ahead, so
this needs that the symbols after it do not begin with what the goal would take for itself, which
`follow` states, and that no comment hides a token it looks for, which `blind` excludes. `Foresight`
asks for single steps what makes every derivation a pursuit.
-/

namespace ProtoSyntax
open Piece (flatten)

variable {G N S : Type}

/-- The symbols and pieces that are still ahead at some point of a run. -/
inductive Reaches (react : Prediction G S) :
    List (Symbol G S) → List Piece → List (Symbol G S) → List Piece → Prop where
  | refl (k : List (Symbol G S)) (ps : List Piece) : Reaches react k ps k ps
  | complete {k l : List (Symbol G S)} {ps qs : List Piece} {shape : S} :
      Reaches react k ps l qs → Reaches react (.complete shape :: k) ps l qs
  | finish {k l : List (Symbol G S)} {ps qs : List Piece} :
      Reaches react k ps l qs → Reaches react (.finish :: k) ps l qs
  | token {k l : List (Symbol G S)} {p : Piece} {ps qs : List Piece} {terminal : Terminal}
      {role : Role S} :
      terminal.accepts p.kind = true → Reaches react k ps l qs →
      Reaches react (.token terminal role :: k) (p :: ps) l qs
  | skip {g : G} {k l : List (Symbol G S)} {ps qs : List Piece} :
      react g (flatten ps) = .skip → Reaches react k ps l qs → Reaches react (.goal g :: k) ps l qs
  | take {g : G} {k l next : List (Symbol G S)} {p : Piece} {ps qs : List Piece}
      {role : Role S} :
      react g (flatten (p :: ps)) = .take role next → Reaches react (next ++ k) ps l qs →
      Reaches react (.goal g :: k) (p :: ps) l qs

theorem Reaches.suffix {react : Prediction G S} {k l : List (Symbol G S)} {ps qs : List Piece}
    (h : Reaches react k ps l qs) : qs <:+ ps := by
  induction h with
  | refl => exact List.suffix_refl _
  | complete _ ih | finish _ ih | skip _ _ ih => exact ih
  | token _ _ ih | take _ _ ih => exact ih.trans (List.suffix_cons _ _)

def Followed (follow : G → List (Symbol G S) → Prop) : List (Symbol G S) → Prop
  | [] => True
  | .goal g :: k => follow g k ∧ Followed follow k
  | .token _ _ :: k | .complete _ :: k | .finish :: k => Followed follow k

/-- What a goal has to do with signals that it derives together with the symbols after it. -/
inductive Step (rule : N → Phrase N S) (lang : G → Phrase N S) (react : Prediction G S)
    (follow : G → List (Symbol G S) → Prop) (g : G) (k : List (Symbol G S)) :
    List (Signal S) → Prop where
  | take {p : Piece} {role : Role S} {next : List (Symbol G S)} {ss : List (Signal S)} :
      react g (flatten (p :: Signal.pieces ss)) = .take role next →
      Derives rule (stackPhrase lang (next ++ k)) ss → Followed follow (next ++ k) →
      Step rule lang react follow g k ((Move.take p role).signals ++ ss)
  | skip {ss : List (Signal S)} :
      react g (flatten (Signal.pieces ss)) = .skip → Derives rule (stackPhrase lang k) ss →
      Step rule lang react follow g k ss

def Foresight (rule : N → Phrase N S) (lang : G → Phrase N S) (react : Prediction G S)
    (follow : G → List (Symbol G S) → Prop) (blind : G → List Piece → Prop) : Prop :=
  ∀ g k ss, Derives rule (stackPhrase lang (.goal g :: k)) ss → follow g k →
    Followed follow k → ¬ blind g (Signal.pieces ss) → Step rule lang react follow g k ss

@[simp] theorem Move.pieces_signals_append (p : Piece) (role : Role S) (ss : List (Signal S)) :
    Signal.pieces ((Move.take p role).signals ++ ss) = p :: Signal.pieces ss := by
  cases role <;> simp [signals, Role.marks, Signal.pieces]

theorem Foresight.pursuit {rule : N → Phrase N S} {lang : G → Phrase N S} {react : Prediction G S}
    {follow : G → List (Symbol G S) → Prop} {blind : G → List Piece → Prop}
    (hf : Foresight rule lang react follow blind) (k : List (Symbol G S)) (ss : List (Signal S))
    (hd : Derives rule (stackPhrase lang k) ss) (hk : Followed follow k)
    (hb : ∀ g l ts, Reaches react k (Signal.pieces ss) (.goal g :: l) (Signal.pieces ts) →
      Derives rule (stackPhrase lang (.goal g :: l)) ts → follow g l →
      ¬ blind g (Signal.pieces ts)) :
    ∃ ms, Pursuit react k (Signal.pieces ss) ms [] ∧ ms.flatMap Move.signals = ss := by
  -- Taking a piece leaves fewer of them; any other step leaves fewer symbols.
  induction hn : (Signal.pieces ss).length using Nat.strongRecOn generalizing k ss with
  | _ n ih =>
    induction k generalizing ss with
    | nil =>
      cases hd
      exact ⟨[], .done _, rfl⟩
    | cons s k ihk =>
      cases s with
      | complete shape =>
        cases hd with
        | mark _ hd =>
          obtain ⟨ms, hp, hm⟩ := ihk _ hd hk (fun g l ts h => hb g l ts (.complete h)) hn
          exact ⟨_, .complete shape hp, by simp [hm, Move.signals]⟩
      | finish =>
        cases hd with
        | mark _ hd =>
          obtain ⟨ms, hp, hm⟩ := ihk _ hd hk (fun g l ts h => hb g l ts (.finish h)) hn
          exact ⟨_, .finish hp, by simp [hm, Move.signals]⟩
      | token terminal role =>
        obtain ⟨p, ts, ha, hy, rfl⟩ := Derives.token_inv hd
        rw [Move.pieces_signals_append] at hb hn ⊢
        obtain ⟨ms, hp, hm⟩ := ih (Signal.pieces ts).length (by simp [← hn]) k ts hy hk
          (fun g l ts h => hb g l ts (.token ha h)) rfl
        exact ⟨_, .token ha hp, by simp [hm]⟩
      | goal g =>
        cases hf g k ss hd hk.1 hk.2 (hb _ _ _ (.refl _ _) hd hk.1) with
        | @take p role next ss hr hy hn' =>
          rw [Move.pieces_signals_append] at hb hn ⊢
          obtain ⟨ms, hp, hm⟩ := ih (Signal.pieces ss).length (by simp [← hn]) (next ++ k) ss hy hn'
            (fun g l ts h => hb g l ts (.take hr h)) rfl
          exact ⟨_, .take hr hp, by simp [hm]⟩
        | skip hr hy =>
          obtain ⟨ms, hp, hm⟩ := ihk ss hy hk.2 (fun g l ts h => hb g l ts (.skip hr h)) hn
          exact ⟨ms, .skip hr hp, hm⟩

end ProtoSyntax
