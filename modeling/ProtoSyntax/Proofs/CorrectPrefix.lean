import ProtoSyntax.Proofs.Errors
import ProtoSyntax.Proofs.JoinedTokens
import ProtoSyntax.Proofs.Parsing.Exchange
import ProtoSyntax.Proofs.Schema.Fruitful

/-!
# Errors are not reported too late

The tokens before the one that a schema file is refused for are those that some schema file begins
with. Such a file is spelled from the tokens taken and a few more, each on a line of its own, so that
none of them runs on into the next.
-/

namespace ProtoSyntax
open Piece (flatten)
open String (utf8Len)

theorem Piece.map_bare_of_map_token {ps qs : List Piece}
    (h : (ps.map (·.token)).map Token.bare = (qs.map (·.token)).map Token.bare) :
    ps.map (·.bare) = qs.map (·.bare) := by
  have htokens : (ps.map (·.bare)).map (·.token) = (qs.map (·.bare)).map (·.token) := by
    rw [List.map_map, List.map_map] at h ⊢
    exact h
  have hbare := Piece.map_bare_congr htokens
  rw [List.map_map, List.map_map] at hbare
  exact hbare

namespace Schema

/-- Before a line feed, the text of the token is cut off as this token. -/
def StandsAlone (t : Token) : Prop :=
  ∃ c body, t.text = String.ofList (c :: body) ∧ isBlank c = false ∧
    ∀ more, Language.schema.lexeme c (body ++ '\n' :: more) = (t.kind, body.length)

theorem standsAlone_of_mem_tokens {text : String} {t : Token}
    (ht : t ∈ Language.schema.tokens text) (hterminated : t.isTerminated = true) : StandsAlone t := by
  obtain ⟨before, c, body, after, -, hb, hl, -, htext⟩ := tokens_foundIn .schema text t ht
  refine ⟨c, body, htext, hb, fun more => ?_⟩
  refine (Language.schema.lexeme_append_lineFeed more (congrArg Prod.snd hl).le
    (.inl (congrArg Prod.snd hl)) ?_).trans hl
  rw [hl, List.take_left]
  simpa [Token.isTerminated, htext] using hterminated

theorem standsAlone_tokens {text : String}
    (hc : ∀ t ∈ Language.schema.tokens text, t.isComment = false)
    (hs : ∀ t ∈ Language.schema.tokens text, t.kind = .string → t.isTerminated = true) :
    ∀ t ∈ Language.schema.tokens text, StandsAlone t := by
  intro t ht
  refine standsAlone_of_mem_tokens ht ?_
  by_cases hstring : t.kind = .string
  · exact hs t ht hstring
  · refine isTerminated_of_ne hstring (fun hcomment => ?_) _
    have := hc t ht
    rw [Token.isComment, hcomment] at this
    cases this

theorem standsAlone_samples : ∀ t ∈ samples, StandsAlone t := by
  have h : samples.all (fun t => decide (t ∈ Language.schema.tokens t.text) && t.isTerminated) =
      true := by
    simp only [tokens_eq]
    cbv
  intro t ht
  obtain ⟨hmem, hterminated⟩ := Bool.and_eq_true_iff.1 (List.all_eq_true.1 h t ht)
  exact standsAlone_of_mem_tokens (of_decide_eq_true hmem) hterminated

def spelled (ts : List Token) : String := String.join (ts.map (·.text ++ "\n"))

theorem toList_spelled_cons (t : Token) (ts : List Token) :
    (spelled (t :: ts)).toList = t.text.toList ++ '\n' :: (spelled ts).toList := by
  simp [spelled, String.join_cons]

theorem exists_cuts_spelled {ts : List Token} (h : ∀ t ∈ ts, StandsAlone t) (offset : Nat) :
    ∃ us, Cuts Language.schema.lexeme offset (spelled ts).toList us ∧ us.map Token.bare = ts.map Token.bare := by
  induction ts generalizing offset with
  | nil => exact ⟨[], .done offset, rfl⟩
  | cons t ts ih =>
    obtain ⟨⟨c, body, htext, hb, hl⟩, hts⟩ := List.forall_mem_cons.1 h
    obtain ⟨us, hus, hbare⟩ := ih hts (offset + utf8Len (c :: body) + '\n'.utf8Size)
    have hl := hl (spelled ts).toList
    have hcut : Cuts Language.schema.lexeme offset _ _ :=
      .token hb (congrArg Prod.snd hl) (.blank rfl hus)
    rw [toList_spelled_cons, htext, String.toList_ofList]
    refine ⟨_, hcut, ?_⟩
    rw [List.map_cons, hbare, hl]
    simp [Token.bare, htext]

theorem tokens_spelled {ts : List Token} (h : ∀ t ∈ ts, StandsAlone t) :
    (Language.schema.tokens (spelled ts)).map Token.bare = ts.map Token.bare := by
  obtain ⟨us, hus, hbare⟩ := exists_cuts_spelled h 0
  rw [(tokens_cuts .schema (spelled ts)).unique hus, hbare]

theorem exists_tree_of_generates {text : String} {ts : List Token} (h : Generates rule document ts)
    (hbare : (Language.schema.tokens text).map Token.bare = ts.map Token.bare) :
    ∃ tree, parse text = .ok tree := by
  obtain ⟨ss, hd, rfl⟩ := h
  obtain ⟨parts, rfl, -⟩ := exists_parts hd
  have hc : ∀ t ∈ Language.schema.tokens text, t.isComment = false := by
    intro t ht
    have hmem := List.mem_map_of_mem (f := Token.bare) ht
    rw [hbare, List.map_map] at hmem
    obtain ⟨p, -, hp⟩ := List.mem_map.1 hmem
    exact (Token.isComment_eq_of_bare_eq hp.symm).trans p.token_isComment
  obtain ⟨ps, hps, hmap, hclear⟩ := Piece.exists_flatten_of_no_comment hc
  have ho : Ordered ([] ++ flatten ps) := hps ▸ ordered_tokens .schema text
  rw [← hmap, Part.pieces_signals] at hbare
  rw [parse, hps]
  exact reads.exists_tree hd (by simp) ho (Piece.map_bare_of_map_token hbare)
    fun g qs hqs => not_blind (fun p hp => hclear p (hqs.mem hp)) g

end Schema

namespace Document

/-- A file is refused at one of its tokens or at its end, and the tokens before are the first ones of a
file that is read. -/
theorem exists_parse_of_failsAt {text : String}
    (hc : ∀ t ∈ Language.schema.tokens text, t.isComment = false)
    (hs : ∀ t ∈ Language.schema.tokens text, t.kind = .string → t.isTerminated = true) :
    (∀ failure, parse .schema text = .error failure →
      ∃ i e, failure = .refused e ∧ FailsAt .schema text i e) ∧
    ∀ i e, FailsAt .schema text i e → ∃ other document, parse .schema other = .ok document ∧
      ((Language.schema.tokens other).take i).map (fun t => (t.kind, t.text)) =
        ((Language.schema.tokens text).take i).map fun t => (t.kind, t.text) := by
  refine ⟨fun failure h => ?_, fun i e hfails => ?_⟩
  · obtain ⟨i, e, hfailure, hfails⟩ := Schema.disciplined.exists_failsAt rfl
      (tokens_sliceable .schema text) (parse_schema_eq_error.1 h)
    exact ⟨i, e, hfailure, failsAt_schema.2 hfails⟩
  obtain ⟨hi, hrest, -⟩ := (Schema.disciplined.failsAt_iff rfl (tokens_sliceable .schema text)
    (spaced_tokens .schema text)).1 (failsAt_schema.1 hfails)
  obtain ⟨before, more, htokens, hmore, hgenerates⟩ :=
    Schema.exists_completion (Language.schema.tokens text)
  have htaken : before.filter (!·.isComment) = (Language.schema.tokens text).take i := by
    rw [hrest] at htokens
    have hbefore := List.append_cancel_right (htokens.symm.trans (List.take_append_drop i _).symm)
    rw [hbefore]
    exact List.filter_eq_self.2 fun t ht => by simp [hc t (List.mem_of_mem_take ht)]
  rw [htaken] at hgenerates
  have halone : ∀ t ∈ (Language.schema.tokens text).take i ++ more, Schema.StandsAlone t := by
    intro t ht
    rcases List.mem_append.1 ht with ht | ht
    · exact Schema.standsAlone_tokens hc hs t (List.mem_of_mem_take ht)
    · exact Schema.standsAlone_samples t (hmore t ht)
  have hbare := Schema.tokens_spelled halone
  obtain ⟨tree, htree⟩ := Schema.exists_tree_of_generates hgenerates hbare
  refine ⟨Schema.spelled ((Language.schema.tokens text).take i ++ more), .schema tree, ?_, ?_⟩
  · rw [parse, htree]
    rfl
  · have hfirst := congrArg (List.map (fun t : Token => (t.kind, t.text)) <| ·.take i) hbare
    rw [← List.map_take, ← List.map_take, List.take_left' (List.length_take_of_le hi)] at hfirst
    rw [List.map_map, List.map_map] at hfirst
    exact hfirst

theorem exists_parse_of_unclosed_literal :
    ∃ e other document, FailsAt .schema "message A\x7boption a=<b:[c" 11 e ∧
      parse .schema other = .ok document ∧
      ((Language.schema.tokens other).take 11).map (fun t => (t.kind, t.text)) =
        ((Language.schema.tokens "message A\x7boption a=<b:[c").take 11).map
          fun t => (t.kind, t.text) := by
  have hc : (Language.schema.tokens "message A\x7boption a=<b:[c").all (!·.isComment) = true := by
    rw [tokens_eq]
    cbv
  have hs : (Language.schema.tokens "message A\x7boption a=<b:[c").all (·.isTerminated) = true := by
    rw [tokens_eq]
    cbv
  obtain ⟨hrest, hrefusal⟩ :
      (Schema.grammar.trace .declarations (Language.schema.tokens "message A\x7boption a=<b:[c")).rest =
        (Language.schema.tokens "message A\x7boption a=<b:[c").drop 11 ∧
      (Schema.grammar.trace .declarations
        (Language.schema.tokens "message A\x7boption a=<b:[c")).refusal =
        some (.expected Punct.rightBracket.quoted) := by
    rw [tokens_eq]
    cbv
  have hfails := failsAt_schema.2 ((Schema.disciplined.failsAt_iff rfl (tokens_sliceable .schema _)
    (spaced_tokens .schema _)).2 ⟨by rw [tokens_eq]; cbv, hrest, _, hrefusal, rfl⟩)
  obtain ⟨other, document, hparse, htake⟩ := (exists_parse_of_failsAt (by simpa using hc)
    fun t ht _ => List.all_eq_true.1 hs t ht).2 11 _ hfails
  exact ⟨_, other, document, hfails, hparse, htake⟩

end Document
end ProtoSyntax
