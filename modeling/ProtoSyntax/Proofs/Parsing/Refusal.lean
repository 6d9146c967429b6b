import ProtoSyntax.Proofs.Parsing.Attention
import ProtoSyntax.Proofs.Parsing.Nesting
import ProtoSyntax.Proofs.Parsing.Safety

/-!
# Where a text is refused

A run takes all tokens up to the one at which it stops, comments apart. If it is refused there, the
error of the parse stands at this token, or at the end of the text if none is left; two texts
with the same tokens up to there are refused alike.
-/

namespace ProtoSyntax
open Piece (flatten)

variable {G S K : Type}

namespace ParseError

@[simp] theorem message_ofRefusal (text : String) (found : Option Token) (refusal : Refusal) :
    (ofRefusal text found refusal).message = refusal.message found := rfl

@[simp] theorem range_ofRefusal (text : String) (found : Option Token) (refusal : Refusal) :
    (ofRefusal text found refusal).range = rangeAt text found := rfl

end ParseError

theorem Refusal.message_congr {t t' : Token} (h : t.text = t'.text) (refusal : Refusal) :
    refusal.message (some t) = refusal.message (some t') := by
  cases refusal with
  | expected what => exact congrArg ("expected " ++ what ++ ", found '" ++ · ++ "'") h
  | wrongVersion => exact congrArg ("expected \"proto3\", found " ++ ·) h
  | exhausted | other => rfl

def Grammar.trace (g : Grammar G S K) (goal : G) (tokens : List Token) : Trace S :=
  g.react.run [.goal goal] (dropComments tokens) []

/-- A parse that fails at the token of an index, or at the end for the number of tokens. -/
structure Grammar.FailsAt [Vocabulary K] (g : Grammar G S K) (goal : G) (text : String)
    (tokens : List Token) (i : Nat) (e : ParseError) : Prop where
  parse : g.parse goal text tokens = .error (.refused e)
  le : i ≤ tokens.length
  range : e.range = ParseError.rangeAt text tokens[i]?

theorem Spaced.eq_of_rangeAt_eq {text : String} {tokens : List Token} (h : Spaced tokens) {i j : Nat}
    (hi : i ≤ tokens.length) (hj : j ≤ tokens.length)
    (he : ParseError.rangeAt text tokens[i]? = ParseError.rangeAt text tokens[j]?) : i = j := by
  wlog hij : i < j generalizing i j with hwlog
  · rcases Nat.lt_or_ge j i with hji | hji
    · exact (hwlog hj hi he.symm hji).symm
    · omega
  have hlt : i < tokens.length := by omega
  have hne := h.nonempty tokens[i] (List.getElem_mem hlt)
  rw [List.getElem?_eq_getElem hlt] at he
  by_cases hj' : j < tokens.length
  · have hle := List.pairwise_iff_getElem.1 h.ordered i j hlt hj' hij
    rw [List.getElem?_eq_getElem hj'] at he
    have hstart : tokens[i].start = tokens[j].start := congrArg Range.start he
    omega
  · rw [List.getElem?_eq_none (by omega)] at he
    have hstart : tokens[i].start = text.utf8ByteSize := congrArg Range.start he
    have hstop : tokens[i].stop = text.utf8ByteSize := congrArg Range.stop he
    omega

/-- Answers in keeping with what a parse may ask for: a token is refused for what was expected, or as
the wrong version; nothing is taken where nothing is left, and no character that fits nowhere. -/
structure Forthright (wrong : Token → Prop) (react : Prediction G S) : Prop where
  reject : ∀ {g ahead refusal}, react g ahead = .reject refusal →
    (∃ what, refusal = .expected what) ∨ refusal = .wrongVersion ∧ ∃ t ∈ ahead.head?, wrong t
  take_nil : ∀ {g role next}, react g [] ≠ .take role next
  take_invalid : ∀ {g t ts role next}, react g (t :: ts) = .take role next → t.kind ≠ .invalid

theorem Terminal.accepts_invalid (terminal : Terminal) : terminal.accepts .invalid = false := by
  cases terminal <;> rfl

namespace Forthright

variable {wrong : Token → Prop} {react : Prediction G S}

theorem refusal_cases (h : Forthright wrong react) {k : List (Symbol G S)} {ahead : List Token}
    {done : List (Act S)} {refusal : Refusal}
    (hr : (react.run k ahead done).refusal = some refusal) :
    (∃ what, refusal = .expected what) ∨
      refusal = .wrongVersion ∧ ∃ t ∈ (react.run k ahead done).rest.head?, wrong t := by
  fun_induction Prediction.run react k ahead done with
  | case1 => cases hr
  | case2 _ _ _ _ ih | case3 _ _ _ ih | case8 _ _ _ _ _ ih => exact ih hr
  | case4 | case6 =>
    obtain rfl := Option.some.inj hr
    exact .inl ⟨_, rfl⟩
  | case5 _ _ _ _ _ _ _ ih | case10 _ _ _ _ _ _ _ _ ih => exact ih hr
  | case7 _ _ _ _ _ hreact =>
    obtain rfl := Option.some.inj hr
    exact h.reject hreact
  | case9 _ _ _ _ _ hreact => exact absurd hreact h.take_nil

theorem not_invalid (h : Forthright wrong react) {k : List (Symbol G S)} {ahead : List Token}
    {done : List (Act S)} (hdone : ∀ t role, .take t role ∈ done → t.kind ≠ .invalid) :
    ∀ t role, .take t role ∈ (react.run k ahead done).acts → t.kind ≠ .invalid := by
  fun_induction Prediction.run react k ahead done with
  | case1 | case4 | case6 | case7 | case9 => simpa using hdone
  | case2 _ _ _ _ ih | case3 _ _ _ ih => exact ih (by simpa using hdone)
  | case8 _ _ _ _ _ ih => exact ih hdone
  | case5 _ terminal _ _ t _ hacc ih =>
    refine ih fun u role hu => ?_
    rcases List.mem_cons.1 hu with hu | hu
    · obtain ⟨rfl, -⟩ := Act.take.inj hu
      intro hk
      rw [hk, terminal.accepts_invalid] at hacc
      cases hacc
    · exact hdone u role hu
  | case10 _ _ _ _ _ t _ hreact ih =>
    refine ih fun u role hu => ?_
    rcases List.mem_cons.1 hu with hu | hu
    · obtain ⟨rfl, -⟩ := Act.take.inj hu
      exact h.take_invalid hreact
    · exact hdone u role hu

end Forthright

theorem Trace.Makes.taken_eq {trace : Trace S} {ms : List (Move S)} {ps left : List Piece}
    (h : trace.Makes [] ms ps left) :
    trace.taken = (Signal.pieces (ms.flatMap Move.signals)).map (·.token) := by
  rw [Trace.taken, h.acts, List.reverse_nil, List.nil_append]
  clear h
  induction ms with
  | nil => rfl
  | cons m ms ih =>
    rw [List.flatMap_cons, Signal.pieces_append, List.map_append, ← ih]
    cases m with
    | take p role => cases role <;> rfl
    | complete | finish => rfl

section

variable [Vocabulary K] {g : Grammar G S K} {turn : G → Turn} {goal : G} {text : String}
  {tokens : List Token} {i : Nat} {e : ParseError}
  (h : Disciplined g.react turn) (hgoal : turn goal ⟨false, 0⟩ = some ⟨false, 0⟩)

include h hgoal

omit [Vocabulary K] in
theorem Disciplined.exists_taken (tokens : List Token) :
    ∃ before, tokens = before ++ (g.trace goal tokens).rest ∧
      (g.trace goal tokens).taken = before.filter (!·.isComment) ∧
      ∀ t ∈ (g.trace goal tokens).rest.head?, t.isComment = false := by
  obtain ⟨lead, ps, rfl, hlead⟩ := Piece.exists_flatten tokens
  have hstack : stackTurn turn ([.goal goal] : List (Symbol G S)) ⟨false, 0⟩ = some ⟨false, 0⟩ :=
    stackTurn_cons_eq_some.2 ⟨_, hgoal, rfl⟩
  obtain ⟨ms, left, l, hmakes, -, -⟩ := @Disciplined.run _ _ _ _ h _ ps [] _ _ hstack
  have htrace : g.trace goal (lead ++ flatten ps) = g.react.run [.goal goal] (flatten ps) [] := by
    rw [Grammar.trace, Piece.dropComments_append_flatten hlead]
  rw [htrace, hmakes.taken_eq, hmakes.rest, ← Piece.filter_append_flatten hlead]
  refine ⟨_, ?_, rfl, ?_⟩
  · rw [List.append_assoc, ← Piece.flatten_append, hmakes.pieces]
  · cases left with
    | nil => simp
    | cons p left => simp [p.token_isComment]

omit [Vocabulary K] in
theorem Disciplined.exists_rest_eq_drop (tokens : List Token) :
    ∃ n ≤ tokens.length, (g.trace goal tokens).rest = tokens.drop n := by
  obtain ⟨before, htokens, -, -⟩ := h.exists_taken hgoal tokens
  refine ⟨before.length, ?_, ?_⟩
  · conv_rhs => rw [htokens, List.length_append]
    exact Nat.le_add_right _ _
  · conv_rhs => rw [htokens, List.drop_left]

theorem Disciplined.failsAt_iff (hslice : Sliceable text tokens) (hspaced : Spaced tokens) :
    g.FailsAt goal text tokens i e ↔ i ≤ tokens.length ∧ (g.trace goal tokens).rest = tokens.drop i ∧
      ∃ refusal, (g.trace goal tokens).refusal = some refusal ∧
        e = .ofRefusal text tokens[i]? refusal := by
  have hparse := h.parse_eq hgoal hslice
  rw [← Grammar.trace] at hparse
  obtain ⟨n, hle, hdrop⟩ := h.exists_rest_eq_drop hgoal tokens
  constructor
  · intro hfails
    rw [hfails.parse] at hparse
    split at hparse
    · obtain ⟨tree, htree⟩ := hparse
      cases htree
    · next refusal href =>
      obtain rfl := Failure.refused.inj (Except.error.inj hparse)
      rw [hdrop, List.head?_drop] at hfails ⊢
      obtain rfl : i = n :=
        hspaced.eq_of_rangeAt_eq hfails.le hle hfails.range.symm
      exact ⟨hle, rfl, refusal, href, rfl⟩
  · rintro ⟨hi, hrest, refusal, href, rfl⟩
    rw [href, hrest, List.head?_drop] at hparse
    exact ⟨hparse, hi, rfl⟩

theorem Disciplined.exists_failsAt (hslice : Sliceable text tokens) {failure : Failure}
    (herror : g.parse goal text tokens = .error failure) :
    ∃ i e, failure = .refused e ∧ g.FailsAt goal text tokens i e := by
  have hparse := h.parse_eq hgoal hslice
  rw [← Grammar.trace] at hparse
  obtain ⟨n, hle, hdrop⟩ := h.exists_rest_eq_drop hgoal tokens
  split at hparse
  · obtain ⟨tree, htree⟩ := hparse
    rw [htree] at herror
    cases herror
  · next refusal _ =>
    refine ⟨n, _, Except.error.inj (herror.symm.trans hparse), hparse, hle, ?_⟩
    rw [ParseError.range_ofRefusal, hdrop, List.head?_drop]

/-- Whether and how a text is refused at a token does not depend on what follows. -/
theorem Attention.exists_failsAt (ha : Attention g.react) {text' : String} {tokens' : List Token}
    (hslice : Sliceable text tokens) (hspaced : Spaced tokens) (hslice' : Sliceable text' tokens')
    (hspaced' : Spaced tokens') (hi : i < tokens.length)
    (hb : (tokens'.take (i + 1)).map Token.bare = (tokens.take (i + 1)).map Token.bare)
    (hfails : g.FailsAt goal text tokens i e) :
    ∃ e', g.FailsAt goal text' tokens' i e' ∧ i < tokens'.length ∧ e'.message = e.message := by
  obtain ⟨-, hrest, refusal, href, rfl⟩ := (h.failsAt_iff hgoal hslice hspaced).1 hfails
  have hi' : i < tokens'.length := by
    have hlength := congrArg List.length hb
    simp only [List.length_map, List.length_take] at hlength
    omega
  simp only [List.take_succ_eq_append_getElem hi, List.take_succ_eq_append_getElem hi',
    List.map_append, List.map_singleton] at hb
  obtain ⟨hbefore, ht⟩ := List.append_inj hb (by simp; omega)
  have ht : tokens[i].bare = tokens'[i].bare := (List.singleton_inj.1 ht).symm
  have hc : tokens[i].isComment = false := by
    obtain ⟨-, -, -, hhead⟩ := h.exists_taken hgoal tokens
    refine hhead _ ?_
    rw [hrest, List.head?_drop, List.getElem?_eq_getElem hi]
    rfl
  have habreast : Abreast (tokens.drop i) (tokens'.drop i) tokens tokens' := by
    have := @Abreast.of_map_bare (tokens.drop i) (tokens'.drop i) _ _ hbefore.symm
    rwa [List.take_append_drop, List.take_append_drop] at this
  rw [List.drop_eq_getElem_cons hi] at hrest habreast
  rw [List.drop_eq_getElem_cons hi'] at habreast
  obtain ⟨hrest', href'⟩ : (g.trace goal tokens').rest = _ ∧
      (g.trace goal tokens').refusal = (g.trace goal tokens).refusal :=
    ha.run_eq_of_abreast ht hc (habreast.dropComments ht hc) hrest
  refine ⟨.ofRefusal text' tokens'[i]? refusal, ?_, hi', ?_⟩
  · refine (h.failsAt_iff hgoal hslice' hspaced').2 ⟨hi'.le, ?_, refusal, href'.trans href, rfl⟩
    rw [List.drop_eq_getElem_cons hi']
    exact hrest'
  · rw [List.getElem?_eq_getElem hi, List.getElem?_eq_getElem hi', ParseError.message_ofRefusal,
      ParseError.message_ofRefusal, Refusal.message_congr (Token.text_eq_of_bare_eq ht)]

end

end ProtoSyntax
