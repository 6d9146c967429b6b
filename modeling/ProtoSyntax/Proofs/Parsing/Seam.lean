import ProtoSyntax.Proofs.Parsing.Attention
import ProtoSyntax.Proofs.Parsing.Reading
import ProtoSyntax.Proofs.Parsing.Refusal

/-!
# Runs past a seam

A run that has taken all of some tokens goes on with more tokens as if it began with these, if what it
pursued before cannot go on: its last symbol, marks apart, asks for a token in any case. So when the
tokens are at an end nothing is left of it but marks. Where the tokens stand has no influence.
-/

namespace ProtoSyntax

variable {G S K : Type}

theorem dropComments_map {f : Token → Token} (hf : ∀ t, (f t).bare = t.bare) (ts : List Token) :
    dropComments (ts.map f) = (dropComments ts).map f := by
  have hcomment : (fun t : Token => (f t).isComment) = (·.isComment) :=
    funext fun t => Token.isComment_eq_of_bare_eq (hf t)
  rw [dropComments, List.dropWhile_map]
  exact congrArg (fun p => (ts.dropWhile p).map f) hcomment

theorem dropComments_cons {t : Token} (h : t.isComment = false) (ts : List Token) :
    dropComments (t :: ts) = t :: ts := by
  simp [dropComments, h]

theorem dropComments_dropComments_append (xs ys : List Token) :
    dropComments (dropComments xs ++ ys) = dropComments (xs ++ ys) := by
  induction xs with
  | nil => rfl
  | cons t xs ih =>
    cases ht : t.isComment with
    | true => simpa [dropComments, ht] using ih
    | false => rw [dropComments_cons ht]

theorem isComment_head?_dropComments (ts : List Token) :
    ∀ t ∈ (dropComments ts).head?, t.isComment = false := by
  intro t ht
  have := List.head?_dropWhile_not (·.isComment) ts
  rw [dropComments] at ht
  rw [ht] at this
  simpa using this

theorem Attention.run_map {react : Prediction G S} (h : Attention react) {f : Token → Token}
    (hf : ∀ t, (f t).bare = t.bare) (k : List (Symbol G S)) (ahead : List Token)
    (done done' : List (Act S)) :
    (react.run k (ahead.map f) done').rest = (react.run k ahead done).rest.map f ∧
      (react.run k (ahead.map f) done').refusal = (react.run k ahead done).refusal := by
  have hreact (g : G) (ahead : List Token) : react g (ahead.map f) = react g ahead := by
    cases ahead with
    | nil => rfl
    | cons t ts =>
      refine h.congr (hf t) ?_
      cases ts with
      | nil => rfl
      | cons u ts => exact congrArg some (Token.kind_eq_of_bare_eq (hf u))
  fun_induction Prediction.run react k ahead done generalizing done' with
  | case1 ahead done => simp [Prediction.run]
  | case2 _ _ _ _ ih | case3 _ _ _ ih =>
    rw [Prediction.run]
    exact ih _
  | case4 => simp [Prediction.run]
  | case5 _ _ _ _ t ts hacc ih =>
    rw [← Token.kind_eq_of_bare_eq (hf t)] at hacc
    rw [List.map_cons, Prediction.run, if_pos hacc, dropComments_map hf]
    exact ih _
  | case6 _ _ _ _ t ts hacc =>
    rw [← Token.kind_eq_of_bare_eq (hf t)] at hacc
    rw [List.map_cons, Prediction.run, if_neg hacc]
    exact ⟨rfl, rfl⟩
  | case7 _ _ _ _ _ hr =>
    rw [Prediction.run, hreact, hr]
    exact ⟨rfl, rfl⟩
  | case8 _ _ _ _ hr ih =>
    rw [Prediction.run, hreact, hr]
    exact ih _
  | case9 _ _ _ _ _ hr =>
    rw [← hreact] at hr
    rw [Prediction.run, hr]
    exact ⟨rfl, rfl⟩
  | case10 _ _ _ _ _ t ts hr ih =>
    rw [← hreact] at hr
    rw [Prediction.run, hr]
    simp only [List.map_cons, dropComments_map hf]
    exact ih _

/-- A goal with nothing but marks after it is one that asks for a token in any case. -/
def Firm (solid : G → Prop) : List (Symbol G S) → Prop
  | [] => True
  | .goal g :: k => (Silent k → solid g) ∧ Firm solid k
  | _ :: k => Firm solid k

theorem Silent.of_append {k l : List (Symbol G S)} (h : Silent (k ++ l)) : Silent k ∧ Silent l :=
  ⟨fun s hs => h s (List.mem_append_left _ hs), fun s hs => h s (List.mem_append_right _ hs)⟩

theorem Firm.append {solid : G → Prop} {k l : List (Symbol G S)} (hl : Firm solid l)
    (hk : Silent l → Firm solid k) : Firm solid (k ++ l) := by
  induction k with
  | nil => exact hl
  | cons s k ih =>
    cases s with
    | goal g =>
      refine ⟨fun hs => ?_, ih fun hs => (hk hs).2⟩
      obtain ⟨hsk, hsl⟩ := hs.of_append
      exact (hk hsl).1 hsk
    | token | complete | finish => exact ih hk

theorem Firm.token {solid : G → Prop} (k l : List (Symbol G S)) {terminal : Terminal} {role : Role S}
    (hl : Firm solid l) : Firm solid (k ++ .token terminal role :: l) := by
  refine Firm.append hl fun hs => ?_
  rcases hs _ List.mem_cons_self with ⟨_, h⟩ | h <;> cases h

theorem Firm.goal {solid : G → Prop} (k : List (Symbol G S)) {g : G} (hg : solid g) :
    Firm solid (k ++ [.goal g]) := by
  refine Firm.append ⟨fun _ => hg, trivial⟩ fun hs => ?_
  rcases hs _ List.mem_cons_self with ⟨_, h⟩ | h <;> cases h

/-- A goal that comes back after each turn, and what is pursued in a turn ends with a token. -/
structure Sealed (react : Prediction G S) (solid : G → Prop) (goal : G) : Prop
    extends Recurs react goal where
  alone : ∀ t ts, react goal (t :: ts) = react goal [t]
  firm_turn : ∀ {t ts role n}, react goal (t :: ts) = .take role (n ++ [.goal goal]) → Firm solid n
  firm : ∀ {g ahead role next}, solid g → react g ahead = .take role next → Firm solid next
  skip_nil : ∀ {g}, solid g → react g [] ≠ .skip

namespace Sealed

variable {react : Prediction G S} {solid : G → Prop} {goal : G}

section

variable (h : Sealed react solid goal)

include h

theorem silent_of_run_nil {k l : List (Symbol G S)} {done : List (Act S)} (hk : Firm solid k)
    (hr : (react.run (k ++ l) [] done).refusal = none) : Silent k := by
  induction k generalizing done with
  | nil => exact fun s hs => absurd hs List.not_mem_nil
  | cons s k ih =>
    cases s with
    | complete shape =>
      rw [List.cons_append, Prediction.run] at hr
      exact List.forall_mem_cons.2 ⟨.inl ⟨shape, rfl⟩, ih hk hr⟩
    | finish =>
      rw [List.cons_append, Prediction.run] at hr
      exact List.forall_mem_cons.2 ⟨.inr rfl, ih hk hr⟩
    | token terminal role =>
      rw [List.cons_append, Prediction.run] at hr
      cases hr
    | goal g =>
      rw [List.cons_append, Prediction.run] at hr
      split at hr
      · cases hr
      · next hskip => exact absurd hskip (h.skip_nil (hk.1 (ih hk.2 hr)))
      · cases hr

theorem react_append (ha : Attention react) {g : G} {n : List (Symbol G S)} {t : Token}
    {ts ys : List Token} {role : Role S} {next : List (Symbol G S)} {done : List (Act S)}
    (hn : Firm solid (.goal g :: n)) (hr : react g (t :: ts) = .take role next)
    (hrun : (react.run (next ++ (n ++ [.goal goal])) (dropComments ts) done).refusal = none) :
    react g (t :: (ts ++ ys)) = .take role next := by
  cases ts with
  | cons u ts => exact (@Attention.congr _ _ _ ha g t t (u :: ts ++ ys) (u :: ts) rfl rfl).trans hr
  | nil =>
    rcases ha.alone g t ys with he | ⟨_, _, role', next', -, he, hns⟩
    · exact he.trans hr
    · -- Where the second token counts, more is asked for after the first one, but none is left.
      obtain ⟨rfl, rfl⟩ := Reaction.take.inj (hr.symm.trans he)
      rw [← List.append_assoc] at hrun
      have hsilent := h.silent_of_run_nil (hn.2.append fun hs => h.firm (hn.1 hs) hr) hrun
      exact absurd hsilent.of_append.1 hns

theorem run_append (ha : Attention react) {n : List (Symbol G S)} {ahead : List Token}
    {done : List (Act S)} (hn : Firm solid n) (hahead : ∀ t ∈ ahead.head?, t.isComment = false)
    (hr : (react.run (n ++ [.goal goal]) ahead done).refusal = none) :
    ∃ done', ∀ ys, react.run (n ++ [.goal goal]) (dropComments (ahead ++ ys)) done =
      react.run [.goal goal] (dropComments ys) done' := by
  -- In each case either a symbol of `n` is next, or all of `n` is done with and a new turn begins.
  generalize hk : n ++ [.goal goal] = k at hr ⊢
  fun_induction Prediction.run react k ahead done generalizing n with
  | case1 => simp at hk
  | case2 ahead done shape k ih | case3 ahead done k ih =>
    rcases List.append_eq_cons_iff.1 hk with ⟨-, hk⟩ | ⟨n, rfl, rfl⟩
    · cases hk
    · obtain ⟨done', hdone⟩ := ih (n := n) hn hahead rfl hr
      refine ⟨done', fun ys => ?_⟩
      rw [Prediction.run]
      exact hdone ys
  | case4 | case6 | case7 | case9 => cases hr
  | case5 done terminal role k t ts hacc ih =>
    rcases List.append_eq_cons_iff.1 hk with ⟨-, hk⟩ | ⟨n, rfl, rfl⟩
    · cases hk
    · obtain ⟨done', hdone⟩ := ih (n := n) hn (isComment_head?_dropComments ts) rfl hr
      refine ⟨done', fun ys => ?_⟩
      rw [List.cons_append, dropComments_cons (hahead t rfl), Prediction.run, if_pos hacc,
        ← dropComments_dropComments_append]
      exact hdone ys
  | case8 ahead done g k hskip ih =>
    rcases List.append_eq_cons_iff.1 hk with ⟨rfl, hk⟩ | ⟨n, rfl, rfl⟩
    · cases hk
      cases ahead with
      | nil => exact ⟨done, fun ys => rfl⟩
      | cons t ts => exact absurd hskip (h.skip t ts)
    · cases ahead with
      | nil => exact absurd hskip (h.skip_nil (hn.1 (h.silent_of_run_nil hn.2 hr)))
      | cons t ts =>
        obtain ⟨done', hdone⟩ := ih hn.2 hahead rfl hr
        refine ⟨done', fun ys => ?_⟩
        have hskip' : react g (t :: (ts ++ ys)) = .skip :=
          (ha.react_eq_of_bare_eq rfl (by simp [hskip])).trans hskip
        rw [← hdone ys, List.cons_append, dropComments_cons (hahead t rfl), Prediction.run, hskip']
  | case10 done g k role next t ts htake ih =>
    rcases List.append_eq_cons_iff.1 hk with ⟨rfl, hk⟩ | ⟨n, rfl, rfl⟩
    · cases hk
      obtain ⟨n, rfl⟩ := h.take htake
      obtain ⟨done', hdone⟩ := ih (h.firm_turn htake) (isComment_head?_dropComments ts) (by simp) hr
      refine ⟨done', fun ys => ?_⟩
      have htake' : react goal (t :: (ts ++ ys)) = .take role (n ++ [.goal goal]) := by
        rw [h.alone, ← h.alone t ts, htake]
      rw [List.cons_append, dropComments_cons (hahead t rfl), Prediction.run, htake',
        ← hdone ys, dropComments_dropComments_append]
    · obtain ⟨done', hdone⟩ := ih (hn.2.append fun hs => h.firm (hn.1 hs) htake)
        (isComment_head?_dropComments ts) (by simp) hr
      refine ⟨done', fun ys => ?_⟩
      rw [List.cons_append, dropComments_cons (hahead t rfl), Prediction.run,
        h.react_append ha hn htake hr, ← hdone ys, dropComments_dropComments_append]

end

/-- Once some tokens are read, what becomes of those after them is as if these were alone, wherever
they stand. -/
theorem trace_append {g : Grammar G S K} (h : Sealed g.react solid goal) (ha : Attention g.react)
    {f : Token → Token} (hf : ∀ t, (f t).bare = t.bare) {xs : List Token} (ys : List Token)
    (hr : (g.trace goal xs).refusal = none) :
    (g.trace goal (xs ++ ys.map f)).rest = (g.trace goal ys).rest.map f ∧
      (g.trace goal (xs ++ ys.map f)).refusal = (g.trace goal ys).refusal := by
  obtain ⟨done, hdone⟩ := h.run_append ha (n := []) trivial (isComment_head?_dropComments xs) hr
  have hseam : g.trace goal (xs ++ ys.map f) =
      g.react.run [.goal goal] ((dropComments ys).map f) done := by
    rw [Grammar.trace, ← dropComments_dropComments_append, ← dropComments_map hf]
    exact hdone _
  rw [hseam]
  exact ha.run_map hf _ _ _ _

end Sealed
end ProtoSyntax
