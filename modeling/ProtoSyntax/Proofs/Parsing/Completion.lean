import ProtoSyntax.Proofs.Parsing.Reading
import ProtoSyntax.Proofs.Parsing.Refusal

/-!
# Beginnings that can be completed

Where a run stops, the symbols left to pursue tell how the tokens taken so far could go on: anything
that these symbols derive makes them a derivation of a whole text. So a text is not refused later than
it has to be if no symbol asks for what cannot be had. `isProductive` finds that out for an expression.
-/

namespace ProtoSyntax
open Piece (flatten)

variable {G N S K L : Type}

namespace Reaches

variable {rule : N → Phrase N S} {lang : G → Phrase N S} {react : Prediction G S}
  {k l : List (Symbol G S)} {ps qs : List Piece}

theorem exists_of_run (react : Prediction G S) (k : List (Symbol G S)) (ps : List Piece)
    (done : List (Act S)) :
    ∃ l qs, Reaches react k ps l qs ∧ (react.run k (flatten ps) done).rest = flatten qs := by
  generalize ha : flatten ps = ahead
  fun_induction Prediction.run react k ahead done generalizing ps with
  | case1 | case4 | case6 | case7 | case9 => exact ⟨_, ps, .refl _ _, ha.symm⟩
  | case2 ahead done shape k ih =>
    obtain ⟨l, qs, h, hrest⟩ := ih ps ha
    exact ⟨l, qs, .complete h, hrest⟩
  | case3 ahead done k ih =>
    obtain ⟨l, qs, h, hrest⟩ := ih ps ha
    exact ⟨l, qs, .finish h, hrest⟩
  | case5 done terminal role k t ts hacc ih =>
    cases ps with
    | nil => simp at ha
    | cons p ps =>
      obtain ⟨rfl, rfl⟩ := List.cons.inj ha
      obtain ⟨l, qs, h, hrest⟩ := ih ps (Piece.dropComments_comments_append p ps).symm
      exact ⟨l, qs, .token hacc h, hrest⟩
  | case8 ahead done g k hr ih =>
    obtain ⟨l, qs, h, hrest⟩ := ih ps ha
    exact ⟨l, qs, .skip (ha ▸ hr) h, hrest⟩
  | case10 done g k role next t ts hr ih =>
    cases ps with
    | nil => simp at ha
    | cons p ps =>
      obtain ⟨rfl, rfl⟩ := List.cons.inj ha
      obtain ⟨l, qs, h, hrest⟩ := ih ps (Piece.dropComments_comments_append p ps).symm
      exact ⟨l, qs, .take hr h, hrest⟩

theorem forall_mem {P : Symbol G S → Prop}
    (hreact : ∀ {g ahead role next}, P (.goal g) → react g ahead = .take role next → ∀ s ∈ next, P s)
    (h : Reaches react k ps l qs) (hk : ∀ s ∈ k, P s) : ∀ s ∈ l, P s := by
  induction h with
  | refl => exact hk
  | complete _ ih | finish _ ih | token _ _ ih | skip _ _ ih =>
    exact ih fun s hs => hk s (List.mem_cons_of_mem _ hs)
  | take hr _ ih =>
    obtain ⟨hg, hk⟩ := List.forall_mem_cons.1 hk
    exact ih fun s hs => (List.mem_append.1 hs).elim (hreact hg hr s) (hk s)

theorem exists_derives (hs : Sound rule lang react) (h : Reaches react k ps l qs)
    {ts : List (Signal S)} (ht : Derives rule (stackPhrase lang l) ts) :
    ∃ before ss, ps = before ++ qs ∧ Derives rule (stackPhrase lang k) ss ∧
      Signal.pieces ss = before ++ Signal.pieces ts := by
  induction h with
  | refl => exact ⟨[], ts, rfl, ht, rfl⟩
  | complete _ ih | finish _ ih =>
    obtain ⟨before, ss, rfl, hd, hss⟩ := ih ht
    exact ⟨before, _, rfl, .mark _ hd, hss⟩
  | token hacc _ ih =>
    obtain ⟨before, ss, rfl, hd, hss⟩ := ih ht
    refine ⟨_ :: before, _, rfl, derives_token_append hacc hd, ?_⟩
    rw [Move.pieces_signals_append, hss, List.cons_append]
  | skip hr _ ih =>
    obtain ⟨before, ss, rfl, hd, hss⟩ := ih ht
    exact ⟨before, ss, rfl, hs.skip hr hd, hss⟩
  | take hr _ ih =>
    obtain ⟨before, ss, rfl, hd, hss⟩ := ih ht
    rw [stackPhrase_append] at hd
    refine ⟨_ :: before, _, rfl, hs.take hr hd, ?_⟩
    rw [Move.pieces_signals_append, hss, List.cons_append]

end Reaches

def Fruitful (rule : N → Phrase N S) (samples : List Token) (e : Phrase N S) : Prop :=
  ∃ ss, Derives rule e ss ∧ ∀ p ∈ Signal.pieces ss, p.token ∈ samples

namespace Fruitful

variable {rule : N → Phrase N S} {samples : List Token} {a b e : Phrase N S}

theorem nil : Fruitful rule samples [] := ⟨[], .nil, by simp [Signal.pieces]⟩

theorem append (ha : Fruitful rule samples a) (hb : Fruitful rule samples b) :
    Fruitful rule samples (a ++ b) := by
  obtain ⟨ss, hs, hss⟩ := ha
  obtain ⟨ts, ht, hts⟩ := hb
  refine ⟨ss ++ ts, hs.append ht, fun p hp => ?_⟩
  rw [Signal.pieces_append] at hp
  exact (List.mem_append.1 hp).elim (hss p) (hts p)

theorem token {accepts : TokenKind → String → Bool} {t : Token} (hmem : t ∈ samples)
    (hc : t.isComment = false) (ht : accepts t.kind t.text = true) (he : Fruitful rule samples e) :
    Fruitful rule samples (.token accepts :: e) := by
  obtain ⟨ss, hs, hss⟩ := he
  exact ⟨.token ⟨t, [], hc, by simp⟩ :: ss, .token ht hs, List.forall_mem_cons.2 ⟨hmem, hss⟩⟩

theorem stack {lang : G → Phrase N S} {k : List (Symbol G S)}
    (h : ∀ s ∈ k, Fruitful rule samples (s.phrase lang)) :
    Fruitful rule samples (stackPhrase lang k) := by
  induction k with
  | nil => exact nil
  | cons s k ih =>
    obtain ⟨hs, hk⟩ := List.forall_mem_cons.1 h
    exact hs.append (ih hk)

end Fruitful

namespace Ebnf

variable (samples : List Token) (known : N → Bool)

mutual

/-- Whether an item is found to derive something: nothing is repeated, and of the names some are known
to do so. -/
def isProductive : Ebnf N S → Bool
  | .token accepts => samples.any fun t => accepts t.kind t.text
  | .mark _ => true
  | .alt choices => anyProductive choices
  | .star _ => true
  | .ref n => known n

def allProductive : List (Ebnf N S) → Bool
  | [] => true
  | x :: e => isProductive x && allProductive e

def anyProductive : List (List (Ebnf N S)) → Bool
  | [] => false
  | a :: choices => allProductive a || anyProductive choices

end

variable {samples known} {rule : N → Phrase N S}

mutual

theorem fruitful_cons (hsamples : ∀ t ∈ samples, t.isComment = false)
    (hknown : ∀ n, known n = true → Fruitful rule samples (rule n)) (x : Ebnf N S)
    (h : x.isProductive samples known = true) {e : Phrase N S} (he : Fruitful rule samples e) :
    Fruitful rule samples (x :: e) := by
  match x with
  | .token accepts =>
    obtain ⟨t, hmem, ht⟩ := List.any_eq_true.1 h
    exact .token hmem (hsamples t hmem) ht he
  | .mark m =>
    obtain ⟨ss, hs, hss⟩ := he
    exact ⟨_, .mark m hs, hss⟩
  | .alt choices =>
    obtain ⟨a, ha, hfruitful⟩ := exists_fruitful hsamples hknown choices h
    obtain ⟨ss, hd, hss⟩ := hfruitful.append he
    exact ⟨ss, .alt ha hd, hss⟩
  | .star a =>
    obtain ⟨ss, hs, hss⟩ := he
    exact ⟨ss, .stop hs, hss⟩
  | .ref n =>
    obtain ⟨ss, hd, hss⟩ := (hknown n h).append he
    exact ⟨ss, .ref hd, hss⟩

theorem fruitful (hsamples : ∀ t ∈ samples, t.isComment = false)
    (hknown : ∀ n, known n = true → Fruitful rule samples (rule n)) (e : List (Ebnf N S))
    (h : allProductive samples known e = true) : Fruitful rule samples e := by
  match e with
  | [] => exact .nil
  | x :: e =>
    obtain ⟨hx, he⟩ := Bool.and_eq_true_iff.1 h
    exact fruitful_cons hsamples hknown x hx (fruitful hsamples hknown e he)

theorem exists_fruitful (hsamples : ∀ t ∈ samples, t.isComment = false)
    (hknown : ∀ n, known n = true → Fruitful rule samples (rule n))
    (choices : List (List (Ebnf N S))) (h : anyProductive samples known choices = true) :
    ∃ a ∈ choices, Fruitful rule samples a := by
  match choices with
  | [] => cases h
  | a :: choices =>
    rcases Bool.or_eq_true_iff.1 h with ha | h
    · exact ⟨a, List.mem_cons_self, fruitful hsamples hknown a ha⟩
    · obtain ⟨b, hb, h⟩ := exists_fruitful hsamples hknown choices h
      exact ⟨b, List.mem_cons_of_mem _ hb, h⟩

end

end Ebnf

namespace Reads

variable {g : Grammar G S K} {goal : G} {rule : N → Phrase N S} {lang : G → Phrase N S}
  {follow : G → List (Symbol G S) → Prop} {blind : G → List Piece → Prop}
  {layout : Layout N S L} {place : L}

theorem exists_completion (h : Reads g goal rule lang follow blind layout place)
    {samples : List Token} {P : Symbol G S → Prop} (hgoal : P (.goal goal))
    (hreact : ∀ {g' ahead role next}, P (.goal g') → g.react g' ahead = .take role next →
      ∀ s ∈ next, P s)
    (hfruitful : ∀ s, P s → Fruitful rule samples (s.phrase lang)) (tokens : List Token) :
    ∃ before more, tokens = before ++ (g.trace goal tokens).rest ∧ (∀ t ∈ more, t ∈ samples) ∧
      Generates rule (lang goal) (before.filter (!·.isComment) ++ more) := by
  obtain ⟨lead, ps, rfl, hlead⟩ := Piece.exists_flatten tokens
  obtain ⟨l, left, hreaches, hrest⟩ := Reaches.exists_of_run g.react [.goal goal] ps []
  have hl := hreaches.forall_mem hreact (by simpa using hgoal)
  -- What is still pursued where the run stops is satisfied with samples.
  obtain ⟨ts, ht, hts⟩ := Fruitful.stack fun s hs => hfruitful s (hl s hs)
  obtain ⟨before, ss, rfl, hd, hss⟩ := hreaches.exists_derives (Guided.sound h.guided) ht
  rw [Grammar.trace, Piece.dropComments_append_flatten hlead, hrest]
  refine ⟨lead ++ flatten before, (Signal.pieces ts).map (·.token), ?_, ?_, ss, ?_, ?_⟩
  · rw [Piece.flatten_append, List.append_assoc]
  · simpa using hts
  · simpa [Symbol.phrase] using hd
  · rw [hss, List.map_append, Piece.filter_append_flatten hlead]

end Reads
end ProtoSyntax
