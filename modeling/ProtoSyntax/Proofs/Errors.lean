import ProtoSyntax.Document
import ProtoSyntax.Proofs.Locations
import ProtoSyntax.Proofs.Parsing.Reading
import ProtoSyntax.Proofs.Reactions
import ProtoSyntax.Proofs.Safety

/-!
# What errors say

An error stands at the first token that was not taken, comments apart, or at the end when all were; it
tells what was expected there and what was found. It depends on nothing behind that token.
-/

namespace ProtoSyntax

namespace ParseError

/-- The error stands at a token that is no comment, and those before it were taken. -/
def AtToken (tokens taken : List Token) (wrong : Token → Prop) (e : ParseError) : Prop :=
  ∃ before t after, tokens = before ++ t :: after ∧ t.isComment = false ∧
    taken = before.filter (!·.isComment) ∧ e.range = ⟨t.start, t.stop⟩ ∧
    ((∃ what, e.message = "expected " ++ what ++ ", found '" ++ t.text ++ "'") ∨
      wrong t ∧ e.message = "expected \"proto3\", found " ++ t.text)

/-- The error stands at the end of the text, and all tokens were taken. -/
def AtEnd (text : String) (tokens taken : List Token) (e : ParseError) : Prop :=
  taken = tokens.filter (!·.isComment) ∧ e.range = ⟨text.utf8ByteSize, text.utf8ByteSize⟩ ∧
    ∃ what, e.message = "expected " ++ what ++ ", found end of input"

structure Anchored (text : String) (tokens taken : List Token) (wrong : Token → Prop)
    (e : ParseError) : Prop where
  place : e.AtToken tokens taken wrong ∨ e.AtEnd text tokens taken
  message_ne : e.message ≠ "unexpected end of input"
  start_le_invalid : ∀ t ∈ tokens, t.kind = .invalid → e.range.start ≤ t.start
  line : e.line = ((ByteCursor.bytesOf text).take e.range.start).count '\n' + 1
  column : e.column = lastLineLength ((ByteCursor.bytesOf text).take e.range.start) + 1

theorem expected_ne (rest : String) : "expected " ++ rest ≠ "unexpected end of input" := by
  intro h
  have hhead := congrArg (fun s : String => s.toList.head?) h
  simp at hhead

theorem message_ne {text : String} {tokens taken : List Token} {wrong : Token → Prop}
    {e : ParseError} (h : e.AtToken tokens taken wrong ∨ e.AtEnd text tokens taken) :
    e.message ≠ "unexpected end of input" := by
  rcases h with ⟨_, t, _, -, -, -, -, ⟨what, h⟩ | ⟨-, h⟩⟩ | ⟨-, -, what, h⟩
  · rw [h, String.append_assoc, String.append_assoc, String.append_assoc]
    exact expected_ne _
  · rw [h]
    exact expected_ne ("\"proto3\", found " ++ t.text)
  · rw [h, String.append_assoc]
    exact expected_ne _

end ParseError

theorem Recurs.trace_rest {G S K : Type} {g : Grammar G S K} {goal : G} (h : Recurs g.react goal)
    {tokens : List Token} (href : (g.trace goal tokens).refusal = none) :
    (g.trace goal tokens).rest = [] := by
  obtain ⟨lead, ps, rfl, hlead⟩ := Piece.exists_flatten tokens
  rw [Grammar.trace, Piece.dropComments_append_flatten hlead] at href ⊢
  obtain ⟨ms, rest, hp⟩ := Pursuit.exists_of_run href
  obtain rfl := h.rest_eq_nil (k := []) hp
  rw [hp.run_eq]
  rfl

section

variable {G S K : Type} {g : Grammar G S K} {turn : G → Turn} {goal : G} {text : String}
  {tokens : List Token} {wrong : Token → Prop}

theorem Forthright.not_invalid_of_mem_taken (hf : Forthright wrong g.react) {t : Token}
    (ht : t ∈ (g.trace goal tokens).taken) : t.kind ≠ .invalid := by
  obtain ⟨act, hact, he⟩ := List.mem_filterMap.1 ht
  cases act with
  | take u role =>
    obtain rfl := Option.some.inj he
    exact hf.not_invalid (by simp) u role hact
  | complete | finish => cases he

variable (h : Disciplined g.react turn) (hgoal : turn goal ⟨false, 0⟩ = some ⟨false, 0⟩)
  (hf : Forthright wrong g.react)

include h hgoal hf

theorem Disciplined.invalid_mem_rest {t : Token} (ht : t ∈ tokens) (hk : t.kind = .invalid) :
    t ∈ (g.trace goal tokens).rest := by
  obtain ⟨before, htokens, htaken, -⟩ := h.exists_taken hgoal tokens
  rw [htokens] at ht
  rcases List.mem_append.1 ht with ht | ht
  · have hmem : t ∈ (g.trace goal tokens).taken := by
      rw [htaken]
      exact List.mem_filter.2 ⟨ht, by simp [Token.isComment, hk, TokenKind.isComment]⟩
    exact absurd hk (hf.not_invalid_of_mem_taken hmem)
  · exact ht

theorem Disciplined.anchored (hslice : Sliceable text tokens) {refusal : Refusal}
    (href : (g.trace goal tokens).refusal = some refusal) :
    (ParseError.ofRefusal text (g.trace goal tokens).rest.head? refusal).Anchored text tokens
      (g.trace goal tokens).taken wrong := by
  obtain ⟨before, htokens, htaken, hhead⟩ := h.exists_taken hgoal tokens
  have hinvalid (t : Token) : t ∈ tokens → t.kind = .invalid → t ∈ (g.trace goal tokens).rest :=
    h.invalid_mem_rest hgoal hf
  have hcases := hf.refusal_cases href
  rw [← Grammar.trace] at hcases
  generalize (g.trace goal tokens).taken = taken at htaken ⊢
  generalize (g.trace goal tokens).rest = rest at htokens hhead hinvalid hcases ⊢
  set e := ParseError.ofRefusal text rest.head? refusal with he
  have hplace : e.AtToken tokens taken wrong ∨ e.AtEnd text tokens taken := by
    cases rest with
    | nil =>
      obtain ⟨what, rfl⟩ : ∃ what, refusal = .expected what := by simpa using hcases
      rw [List.append_nil] at htokens
      exact .inr ⟨htokens ▸ htaken, rfl, what, rfl⟩
    | cons t after =>
      refine .inl ⟨before, t, after, htokens, hhead t rfl, htaken, rfl, ?_⟩
      rcases hcases with ⟨what, rfl⟩ | ⟨rfl, u, hu, hwrong⟩
      · exact .inl ⟨what, rfl⟩
      · obtain rfl := Option.some.inj hu
        exact .inr ⟨hwrong, rfl⟩
  have hstart : e.range.start ≤ text.utf8ByteSize := by
    cases rest with
    | nil => exact Nat.le_refl _
    | cons t after =>
      exact (hslice.fits t (htokens ▸ by simp)).isValid_start.le_utf8ByteSize
  -- What is not taken stands at the place of the error or behind it.
  have hvalid : ∀ t ∈ tokens, t.kind = .invalid → e.range.start ≤ t.start := by
    intro t ht hk
    have hmem := hinvalid t ht hk
    cases rest with
    | nil => cases hmem
    | cons u after =>
      rcases List.mem_cons.1 hmem with rfl | hmem
      · exact Nat.le_refl _
      · have hordered : Ordered (before ++ u :: after) := htokens ▸ hslice.ordered
        have hle := (List.pairwise_cons.1 hordered.of_append_right).1 t hmem
        exact u.start_le_stop.trans hle
  have hlocate : e = ⟨e.message, e.range, _, _⟩ := ParseError.locate_eq hstart
  exact ⟨hplace, ParseError.message_ne hplace, hvalid, congrArg ParseError.line hlocate,
    congrArg ParseError.column hlocate⟩

theorem Disciplined.exists_error_of_invalid [Vocabulary K] (hr : Recurs g.react goal)
    (hslice : Sliceable text tokens) {t : Token} (ht : t ∈ tokens) (hk : t.kind = .invalid) :
    ∃ e, g.parse goal text tokens = .error (.refused e) ∧ e.range.start ≤ t.start := by
  have hparse := h.parse_eq hgoal hslice
  rw [← Grammar.trace] at hparse
  cases href : (g.trace goal tokens).refusal with
  | none =>
    have hmem := h.invalid_mem_rest hgoal hf ht hk
    rw [hr.trace_rest href] at hmem
    cases hmem
  | some refusal =>
    rw [href] at hparse
    exact ⟨_, hparse, (h.anchored hgoal hf hslice href).start_le_invalid t ht hk⟩

theorem Disciplined.exists_anchored [Vocabulary K] (hslice : Sliceable text tokens)
    {failure : Failure} (herror : g.parse goal text tokens = .error failure) :
    ∃ e, failure = .refused e ∧ e.Anchored text tokens (g.trace goal tokens).taken wrong := by
  have hparse := h.parse_eq hgoal hslice
  rw [← Grammar.trace] at hparse
  cases href : (g.trace goal tokens).refusal with
  | none =>
    rw [href] at hparse
    obtain ⟨tree, htree⟩ := hparse
    rw [htree] at herror
    cases herror
  | some refusal =>
    rw [href, herror] at hparse
    exact ⟨_, Except.error.inj hparse, h.anchored hgoal hf hslice href⟩

end

namespace Document

def taken (language : Language) (text : String) : List Token :=
  match language with
  | .schema => (Schema.grammar.trace .declarations (Language.schema.tokens text)).taken
  | .textFormat => (TextFormat.grammar.trace .fields (Language.textFormat.tokens text)).taken

def IsWrongVersion (t : Token) : Language → Prop
  | .schema => Schema.IsWrongVersion t
  | .textFormat => False

structure FailsAt (language : Language) (text : String) (i : Nat) (e : ParseError) : Prop where
  parse : parse language text = .error (.refused e)
  le : i ≤ (language.tokens text).length
  range : e.range = ParseError.rangeAt text (language.tokens text)[i]?

theorem parse_schema_eq_error {text : String} {failure : Failure} :
    parse .schema text = .error failure ↔ Schema.parse text = .error failure := by
  rw [parse]
  cases Schema.parse text <;> simp [Except.map]

theorem parse_textFormat_eq_error {text : String} {failure : Failure} :
    parse .textFormat text = .error failure ↔ TextFormat.parse text = .error failure := by
  rw [parse]
  cases TextFormat.parse text <;> simp [Except.map]

theorem failsAt_schema {text : String} {i : Nat} {e : ParseError} :
    FailsAt .schema text i e ↔
      Schema.grammar.FailsAt .declarations text (Language.schema.tokens text) i e :=
  ⟨fun h => ⟨parse_schema_eq_error.1 h.parse, h.le, h.range⟩,
    fun h => ⟨parse_schema_eq_error.2 h.parse, h.le, h.range⟩⟩

theorem failsAt_textFormat {text : String} {i : Nat} {e : ParseError} :
    FailsAt .textFormat text i e ↔
      TextFormat.grammar.FailsAt .fields text (Language.textFormat.tokens text) i e :=
  ⟨fun h => ⟨parse_textFormat_eq_error.1 h.parse, h.le, h.range⟩,
    fun h => ⟨parse_textFormat_eq_error.2 h.parse, h.le, h.range⟩⟩

/-- Errors depend on the tokens up to the one that is refused only. -/
theorem failsAt_of_take_eq (language : Language) {text text' : String} {i : Nat} {e : ParseError}
    (h : FailsAt language text i e) (hi : i < (language.tokens text).length)
    (htake : ((language.tokens text').take (i + 1)).map (fun t => (t.kind, t.text)) =
      ((language.tokens text).take (i + 1)).map fun t => (t.kind, t.text)) :
    ∃ e', FailsAt language text' i e' ∧ i < (language.tokens text').length ∧
      e'.message = e.message := by
  have hb : ((language.tokens text').take (i + 1)).map Token.bare =
      ((language.tokens text).take (i + 1)).map Token.bare := by
    have := congrArg (List.map fun p : TokenKind × String => (⟨p.1, 0, p.2⟩ : Token)) htake
    rwa [List.map_map, List.map_map] at this
  cases language with
  | schema =>
    obtain ⟨e', he', hi', hmessage⟩ := Schema.attention.exists_failsAt Schema.disciplined rfl
      (tokens_sliceable .schema text) (spaced_tokens .schema text) (tokens_sliceable .schema text')
      (spaced_tokens .schema text') hi hb (failsAt_schema.1 h)
    exact ⟨e', failsAt_schema.2 he', hi', hmessage⟩
  | textFormat =>
    obtain ⟨e', he', hi', hmessage⟩ := TextFormat.attention.exists_failsAt TextFormat.disciplined rfl
      (tokens_sliceable .textFormat text) (spaced_tokens .textFormat text)
      (tokens_sliceable .textFormat text') (spaced_tokens .textFormat text') hi hb
      (failsAt_textFormat.1 h)
    exact ⟨e', failsAt_textFormat.2 he', hi', hmessage⟩

theorem failsAt_equals_after_map :
    ∃ e e', FailsAt .schema "message A{map=1;}" 4 e ∧ FailsAt .schema "message A{map=<}" 4 e' ∧
      e'.message = e.message := by
  have hrun : (Schema.grammar.trace .declarations (Language.schema.tokens "message A{map=1;}")).rest =
      (Language.schema.tokens "message A{map=1;}").drop 4 ∧
    (Schema.grammar.trace .declarations (Language.schema.tokens "message A{map=1;}")).refusal =
      some (.expected "field name") := by
    rw [tokens_eq]
    cbv
  obtain ⟨hrest, hrefusal⟩ := hrun
  have h := failsAt_schema.2 ((Schema.disciplined.failsAt_iff rfl (tokens_sliceable .schema _)
    (spaced_tokens .schema _)).2 ⟨by rw [tokens_eq]; cbv, hrest, _, hrefusal, rfl⟩)
  obtain ⟨e', he', -, hmessage⟩ : ∃ e', FailsAt .schema "message A{map=<}" 4 e' ∧ _ :=
    failsAt_of_take_eq .schema h (by rw [tokens_eq]; cbv) (by rw [tokens_eq, tokens_eq]; cbv)
  exact ⟨_, e', h, he', hmessage⟩

end Document
end ProtoSyntax
