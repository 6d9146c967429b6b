import ProtoSyntax.Proofs.Parsing.Bare

/-!
# How far goals look

The kind and the text of the next token decide, and at times the kind of the one after it, but the
latter only between two ways to take the next token. So what comes after the token at which a run
stops has no influence on it. This is shown by two runs side by side, which stay at the same places as
long as their tokens are bare alike.
-/

namespace ProtoSyntax

variable {G S : Type}

def Silent (k : List (Symbol G S)) : Prop := ∀ s ∈ k, (∃ shape, s = .complete shape) ∨ s = .finish

structure Attention (react : Prediction G S) : Prop where
  congr : ∀ {g t u ts us}, t.bare = u.bare → kindAt ts 0 = kindAt us 0 →
    react g (t :: ts) = react g (u :: us)
  alone : ∀ g t ts, react g (t :: ts) = react g [t] ∨
    ∃ role next role' next', react g (t :: ts) = .take role next ∧
      react g [t] = .take role' next' ∧ ¬ Silent next'

theorem Prediction.run_rest_suffix (react : Prediction G S) (k : List (Symbol G S))
    (ahead : List Token) (done : List (Act S)) : (react.run k ahead done).rest <:+ ahead := by
  fun_induction Prediction.run react k ahead done with
  | case1 | case4 | case6 | case7 | case9 => exact List.suffix_refl _
  | case2 _ _ _ _ ih | case3 _ _ _ ih | case8 _ _ _ _ _ ih => exact ih
  | case5 _ _ _ _ _ _ _ ih | case10 _ _ _ _ _ _ _ _ ih =>
    exact (ih.trans (List.dropWhile_suffix _)).trans (List.suffix_cons _ _)

/-- Two lists of tokens that are bare alike up to where certain rests of them begin. -/
inductive Abreast (stop stop' : List Token) : List Token → List Token → Prop where
  | here : Abreast stop stop' stop stop'
  | cons {t t' : Token} {ts ts' : List Token} :
      t.bare = t'.bare → Abreast stop stop' ts ts' → Abreast stop stop' (t :: ts) (t' :: ts')

namespace Abreast

variable {stop stop' ts ts' after after' : List Token} {t t' : Token}

theorem of_map_bare {before before' : List Token}
    (h : before.map Token.bare = before'.map Token.bare) :
    Abreast stop stop' (before ++ stop) (before' ++ stop') := by
  induction before generalizing before' with
  | nil =>
    obtain rfl := List.map_eq_nil_iff.1 h.symm
    exact .here
  | cons t before ih =>
    obtain ⟨t', before', rfl, ht, hb⟩ := List.map_eq_cons_iff.1 h.symm
    exact .cons ht.symm (ih hb.symm)

theorem length_le (h : Abreast stop stop' ts ts') : stop.length ≤ ts.length := by
  induction h with
  | here => exact Nat.le_refl _
  | cons _ _ ih => exact Nat.le_succ_of_le ih

theorem eq_of_stop (h : Abreast stop stop' stop ts') : ts' = stop' := by
  cases h with
  | here => rfl
  | cons _ h =>
    have hle := h.length_le
    rw [List.length_cons] at hle
    omega

theorem kindAt_zero (h : Abreast (t :: after) (t' :: after') ts ts') (ht : t.bare = t'.bare) :
    kindAt ts 0 = kindAt ts' 0 := by
  cases h with
  | here => exact congrArg some (Token.kind_eq_of_bare_eq ht)
  | cons hu _ => exact congrArg some (Token.kind_eq_of_bare_eq hu)

theorem dropComments (h : Abreast (t :: after) (t' :: after') ts ts') (ht : t.bare = t'.bare)
    (hc : t.isComment = false) :
    Abreast (t :: after) (t' :: after') (dropComments ts) (ProtoSyntax.dropComments ts') := by
  have hc' : t'.isComment = false := (Token.isComment_eq_of_bare_eq ht).symm.trans hc
  induction h with
  | here =>
    simp only [ProtoSyntax.dropComments, List.dropWhile_cons, hc, hc']
    exact .here
  | @cons u u' us us' hu hus ih =>
    have hk : u.isComment = u'.isComment := Token.isComment_eq_of_bare_eq hu
    by_cases hcomment : u.isComment = true
    · simpa [ProtoSyntax.dropComments, hcomment, hk ▸ hcomment] using ih
    · have hcomment' : u'.isComment = false := by simpa [hk] using hcomment
      simp only [ProtoSyntax.dropComments, List.dropWhile_cons, hcomment, hcomment']
      exact .cons hu hus

end Abreast

namespace Attention

variable {react : Prediction G S} {g : G} {t t' : Token} {after after' : List Token}

theorem react_eq_of_bare_eq (h : Attention react) (ht : t.bare = t'.bare)
    (hr : ∀ role next, react g (t :: after) ≠ .take role next) :
    react g (t' :: after') = react g (t :: after) := by
  have hone : react g [t] = react g [t'] := h.congr ht rfl
  have hleft : react g (t :: after) = react g [t] := by
    rcases h.alone g t after with he | ⟨role, next, _, _, he, -⟩
    · exact he
    · exact absurd he (hr role next)
  rcases h.alone g t' after' with he | ⟨_, _, role, next, -, he, -⟩
  · rw [he, hleft, hone]
  · rw [hleft, hone] at hr
    exact absurd he (hr role next)

theorem react_eq_of_abreast (h : Attention react) (ht : t.bare = t'.bare) {ts ts' : List Token}
    (ha : Abreast (t :: after) (t' :: after') ts ts')
    (hr : ∀ role next, react g ts ≠ .take role next) : react g ts' = react g ts := by
  cases ha with
  | here => exact h.react_eq_of_bare_eq ht hr
  | cons hu hus => exact (h.congr hu (hus.kindAt_zero ht)).symm

/-- Two runs stop at the same place if one of them does and they agree up to there. -/
theorem run_eq_of_abreast (h : Attention react) (ht : t.bare = t'.bare) (hc : t.isComment = false)
    {k : List (Symbol G S)} {ahead ahead' : List Token} {done done' : List (Act S)}
    (ha : Abreast (t :: after) (t' :: after') ahead ahead')
    (hrest : (react.run k ahead done).rest = t :: after) :
    (react.run k ahead' done').rest = t' :: after' ∧
      (react.run k ahead' done').refusal = (react.run k ahead done).refusal := by
  -- A run that has gone past the token stops somewhere behind it.
  have hpast {k : List (Symbol G S)} {done : List (Act S)} :
      (react.run k (dropComments after) done).rest ≠ t :: after := by
    intro he
    have hle := ((react.run_rest_suffix k (dropComments after) done).trans
      (List.dropWhile_suffix _)).length_le
    rw [he, List.length_cons] at hle
    omega
  fun_induction Prediction.run react k ahead done generalizing ahead' done' with
  | case1 ahead done =>
    subst hrest
    obtain rfl := ha.eq_of_stop
    simp [Prediction.run]
  | case2 ahead done shape k ih =>
    rw [Prediction.run]
    exact ih ha hrest
  | case3 ahead done k ih =>
    rw [Prediction.run]
    exact ih ha hrest
  | case4 => cases ha
  | case5 done terminal role k u us hacc ih =>
    cases ha with
    | here => exact absurd hrest hpast
    | @cons _ u' _ us' hu hus =>
      have hacc' : terminal.accepts u'.kind = true := Token.kind_eq_of_bare_eq hu ▸ hacc
      rw [Prediction.run, if_pos hacc']
      exact ih (hus.dropComments ht hc) hrest
  | case6 done terminal role k u us hacc =>
    obtain ⟨rfl, rfl⟩ := List.cons.inj hrest
    obtain rfl := ha.eq_of_stop
    have hacc' : ¬ terminal.accepts t'.kind = true := Token.kind_eq_of_bare_eq ht ▸ hacc
    rw [Prediction.run, if_neg hacc']
    exact ⟨rfl, rfl⟩
  | case7 ahead done g k refusal hr =>
    subst hrest
    obtain rfl := ha.eq_of_stop
    have hr' := h.react_eq_of_abreast (g := g) ht ha (by simp [hr])
    rw [Prediction.run, hr', hr]
    exact ⟨rfl, rfl⟩
  | case8 ahead done g k hr ih =>
    have hr' := h.react_eq_of_abreast (g := g) ht ha (by simp [hr])
    rw [Prediction.run, hr', hr]
    exact ih ha hrest
  | case9 => cases ha
  | case10 done g k role next u us hr ih =>
    cases ha with
    | here => exact absurd hrest hpast
    | @cons _ u' _ us' hu hus =>
      have hr' : react g (u' :: us') = .take role next :=
        (h.congr hu (hus.kindAt_zero ht)).symm.trans hr
      rw [Prediction.run, hr']
      exact ih (hus.dropComments ht hc) hrest

end Attention
end ProtoSyntax
