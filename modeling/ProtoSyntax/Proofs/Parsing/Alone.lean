import ProtoSyntax.Proofs.Parsing.CutShort
import ProtoSyntax.Proofs.Parsing.Joined

/-!
# Parts read alone

If a closed part of a text is read alone, its node is the one that it has in the text, only that it
stands elsewhere. The comments after the part are not among the tokens then.
-/

namespace ProtoSyntax
open Piece (flatten)

variable {G N S K L : Type}

theorem Piece.exists_flatten_shift {n : Nat} {ts : List Token} {qs : List Piece}
    (h : ts.map (·.shift n) = flatten qs) : ∃ ps, ts = flatten ps ∧ ps.map (·.shift n) = qs := by
  induction qs generalizing ts with
  | nil => exact ⟨[], List.map_eq_nil_iff.1 h, rfl⟩
  | cons q qs ih =>
    obtain ⟨t, us, rfl, ht, hus⟩ := List.map_eq_cons_iff.1 h
    obtain ⟨cs, vs, rfl, hcs, hvs⟩ := List.map_eq_append_iff.1 hus
    obtain ⟨ps, rfl, rfl⟩ := ih hvs
    have hcomment (c : Token) : (c.shift n).isComment = c.isComment := rfl
    refine ⟨⟨t, cs, ?_, fun c hc => ?_⟩ :: ps, rfl, ?_⟩
    · rw [← hcomment, ht, q.token_isComment]
    · rw [← hcomment]
      exact q.comments_isComment _ (hcs ▸ List.mem_map_of_mem hc)
    · obtain ⟨token, comments, _, _⟩ := q
      obtain rfl : t.shift n = token := ht
      obtain rfl : cs.map (·.shift n) = comments := hcs
      rfl

theorem Part.isClosed_eq_of_bare_eq {q q' : Part S} (h : q'.bare = q.bare) :
    q'.isClosed = q.isClosed := by
  cases q <;> cases q' <;> simp only [bare, reduceCtorEq] at h
  · rfl
  · rfl
  · have hcloser := congrArg Option.isSome (block.inj h).2.2.2.2.2
    rwa [Option.isSome_map, Option.isSome_map] at hcloser

theorem Pursuit.refusal_trace_eq_none {g : Grammar G S K} {goal : G} {ps rest : List Piece}
    {ms : List (Move S)} (h : Pursuit g.react [.goal goal] ps ms rest) (ha : Attention g.react)
    {f : Token → Token} (hf : ∀ t, (f t).bare = t.bare) {ts : List Token}
    (hts : ts.map f = flatten ps) : (g.trace goal ts).refusal = none := by
  have hdrop : (dropComments ts).map f = flatten ps := by
    rw [← dropComments_map hf, hts, Piece.dropComments_flatten]
  have hrun := (ha.run_map hf [.goal goal] (dropComments ts) [] []).2
  rw [hdrop, h.run_eq] at hrun
  exact hrun.symm

theorem Reads.declares_alone [Vocabulary K] {g : Grammar G S K} {goal : G} {rule : N → Phrase N S}
    {lang : G → Phrase N S} {follow : G → List (Symbol G S) → Prop} {blind : G → List Piece → Prop}
    {layout : Layout N S L} {place : L} {text whole : String} {q : Part S} {p : Piece}
    {xs : List Piece} {ts : List Token} {n : Nat} {alone : Tree K}
    (h : Reads g goal rule lang follow blind layout place)
    (hblind : ∀ g ps, (∀ p ∈ ps, p.comments = []) → ¬ blind g ps)
    (hc : Vocabulary.isComment (Vocabulary.comment : K) = true)
    (hb : ∀ shape text us, Vocabulary.isComment (g.build shape text us) = false)
    (hd : Derives rule (lang goal) (Part.signals [q])) (hclosed : q.isClosed = true)
    (hq : q.pieces = xs ++ [p]) (hts : ts.map (·.shift n) = flatten (xs ++ [p.alone]))
    (ho : Ordered ts) (ha : Agrees n (fun shape => g.build shape text) (fun shape => g.build shape whole) ts)
    (hp : g.parse goal text ts = .ok alone) :
    ∃ os, alone.Declares os ∧ q.own (fun shape => g.build shape whole) = os.map (Outline.shift n) := by
  obtain ⟨ps, rfl, hps⟩ := Piece.exists_flatten_shift hts
  have htokens : (xs ++ [p.alone]).map (·.token) = (xs ++ [p]).map (·.token) := by simp [Piece.alone]
  have hbare : ps.map (·.bare) = (Part.listPieces [q]).map (·.bare) := by
    rw [← Piece.map_bare_map_shift n, hps, Piece.map_bare_congr htokens, ← hq]
    simp [Part.listPieces]
  obtain ⟨parts, hparts, hpieces, hmade⟩ := h.exists_made hblind hd Token.isComment_of_mem_nil ho hbare hp
  rw [Part.listBare_eq_map] at hparts
  obtain ⟨q', parts, rfl, hq', hnil⟩ := List.map_eq_cons_iff.1 hparts
  obtain rfl := List.map_eq_nil_iff.1 hnil
  obtain rfl : q'.pieces = ps := by simpa [Part.listPieces] using hpieces
  have hown : q.own (fun shape => g.build shape whole) =
      (q'.own fun shape => g.build shape text).map (Outline.shift n) := by
    refine Part.own_shift_of_isClosed ((Part.isClosed_eq_of_bare_eq hq').trans hclosed) hq'.symm
      ?_ ?_ (ha.mono ?_)
    · rw [List.map_dropLast, hps, hq, List.dropLast_concat, List.dropLast_concat]
    · rw [hq, ← htokens, ← hps, Piece.map_token_map_shift]
    · exact Piece.filter_append_flatten Token.isComment_of_mem_nil q'.pieces ▸ List.filter_sublist
  have hdeclares := hmade.declares hc (hb · text)
  rw [List.flatMap_singleton] at hdeclares
  exact ⟨_, hdeclares, hown⟩

end ProtoSyntax
