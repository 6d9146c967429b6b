import ProtoSyntax.Proofs.Scanning

/-!
# Tokens tile the text

Cutting a text is followed as a derivation: blanks and tokens in turn use up its characters, and
every token is as long as the language's lexeme there. The cursor over the bytes runs through this
derivation, standing between two characters after each blank and each token. So the tokens are non-empty,
ordered pieces of the text that begin and end between characters, with nothing but blanks outside of them.
-/

namespace ProtoSyntax
open String (utf8Len)

variable {lexeme : Char → List Char → TokenKind × Nat}

/-- The tokens that a lexer cuts off what remains of a text from an offset on. -/
inductive Cuts (lexeme : Char → List Char → TokenKind × Nat) :
    Nat → List Char → List Token → Prop where
  | done (offset : Nat) : Cuts lexeme offset [] []
  | blank {offset : Nat} {c : Char} {cs : List Char} {ts : List Token} :
      isBlank c = true → Cuts lexeme (offset + c.utf8Size) cs ts → Cuts lexeme offset (c :: cs) ts
  | token {offset : Nat} {c : Char} {cs rest : List Char} {ts : List Token} :
      isBlank c = false → (lexeme c (cs ++ rest)).2 = cs.length →
      Cuts lexeme (offset + utf8Len (c :: cs)) rest ts →
      Cuts lexeme offset (c :: cs ++ rest)
        (⟨(lexeme c (cs ++ rest)).1, offset, String.ofList (c :: cs)⟩ :: ts)

theorem Token.stop_ofList (kind : TokenKind) (start : Nat) (cs : List Char) :
    (⟨kind, start, String.ofList cs⟩ : Token).stop = start + utf8Len cs := by
  rw [Token.stop, Token.length, String.utf8ByteSize_ofList]

theorem Cuts.blanks {blanks rest : List Char} {ts : List Token} (hb : ∀ c ∈ blanks, isBlank c = true)
    {offset : Nat} (h : Cuts lexeme (offset + utf8Len blanks) rest ts) :
    Cuts lexeme offset (blanks ++ rest) ts := by
  induction blanks generalizing offset with
  | nil => exact h
  | cons c blanks ih =>
    obtain ⟨hc, hblanks⟩ := List.forall_mem_cons.1 hb
    rw [String.utf8Len_cons, Nat.add_comm (utf8Len blanks), ← Nat.add_assoc] at h
    exact .blank hc (ih hblanks h)

def Token.toSpan (t : Token) : Span := ⟨t.kind, t.start, t.stop⟩

theorem Span.token_eq (kind : TokenKind) (before cs after : List Char) :
    Span.token (String.ofList (before ++ (cs ++ after)))
        ⟨kind, utf8Len before, utf8Len (before ++ cs)⟩ =
      ⟨kind, utf8Len before, String.ofList cs⟩ := by
  have hextract := String.extract_of_valid before cs after
  rw [← String.utf8Len_append, List.append_assoc] at hextract
  rw [Span.token, hextract]

open ByteCursor in
theorem spans_cuts (language : Language) {text : String} {before rest : List Char}
    (htext : text.toList = before ++ rest) :
    Cuts language.lexeme (utf8Len before) rest
        ((language.spans (between before rest)).map (Span.token text)) ∧
      ∀ s ∈ language.spans (between before rest), (s.token text).toSpan = s := by
  -- Each round leaves fewer characters than there were.
  induction hn : rest.length using Nat.strongRecOn generalizing before rest with
  | _ n ih =>
    obtain ⟨blanks, rest, rfl, hblanks⟩ := exists_longestRun isBlank rest
    have hskip : (between before (blanks ++ rest)).skipBlanks = between (before ++ blanks) rest := by
      rw [skipBlanks, advanceWhile_between (coarse_of_ascii fun _ => toNat_lt_of_isBlank),
        hblanks.runLength_eq, List.take_left, List.drop_left]
    rw [Language.spans, hskip]
    cases rest with
    | nil =>
      rw [dif_pos (by simp)]
      exact ⟨.blanks hblanks.inside (.done _), by simp⟩
    | cons c cs =>
      rw [dif_neg (by simp), language.scan_between, Language.passed]
      have hsplit := List.take_append_drop (language.lexeme c cs).2 cs
      have hlength : (cs.take (language.lexeme c cs).2).length = (language.lexeme c cs).2 :=
        List.length_take_of_le (language.lexeme_bounded c cs)
      generalize cs.take (language.lexeme c cs).2 = body at *
      generalize cs.drop (language.lexeme c cs).2 = after at *
      subst hsplit
      have htext' : text.toList = (before ++ blanks) ++ (c :: body ++ after) := by simpa using htext
      have hafter : text.toList = (before ++ blanks ++ c :: body) ++ after := by simpa using htext
      obtain ⟨hcuts, hspans⟩ := ih after.length (by rw [← hn]; simp; omega) hafter rfl
      have htoken := Span.token_eq (language.lexeme c (body ++ after)).1 (before ++ blanks) (c :: body) after
      rw [← htext', String.ofList_toList] at htoken
      simp only [List.map_cons, position_between, htoken, List.forall_mem_cons]
      refine ⟨.blanks hblanks.inside ?_, ?_, hspans⟩
      · rw [← String.utf8Len_append]
        rw [String.utf8Len_append (before ++ blanks)] at hcuts
        exact .token (hblanks.stops c rfl) hlength.symm hcuts
      · simp only [Token.toSpan, Token.stop_ofList, String.utf8Len_append]

theorem tokens_cuts (language : Language) (text : String) :
    Cuts language.lexeme 0 text.toList (language.tokens text) := by
  have htext : text.toList = [] ++ text.toList := rfl
  rw [Language.tokens, ByteCursor.ofText_eq]
  exact (spans_cuts language htext).1

theorem map_toSpan_tokens (language : Language) (text : String) :
    (language.tokens text).map Token.toSpan = language.spans (.ofText text) := by
  have htext : text.toList = [] ++ text.toList := rfl
  rw [Language.tokens, List.map_map, ByteCursor.ofText_eq]
  exact (List.map_congr_left (spans_cuts language htext).2).trans (List.map_id _)

def Token.FoundIn (lexeme : Char → List Char → TokenKind × Nat) (cs : List Char) (t : Token) :
    Prop :=
  ∃ before c body after, cs = before ++ (c :: body ++ after) ∧ isBlank c = false ∧
    lexeme c (body ++ after) = (t.kind, body.length) ∧
    t.start = utf8Len before ∧ t.text = String.ofList (c :: body)

namespace Cuts

variable {offset : Nat} {before cs : List Char} {ts : List Token}

theorem foundIn (h : Cuts lexeme offset cs ts) (hb : utf8Len before = offset) :
    ∀ t ∈ ts, t.FoundIn lexeme (before ++ cs) := by
  induction h generalizing before with
  | done => simp
  | @blank offset c cs ts hc _ ih =>
    simpa using @ih (before ++ [c]) (by simp [hb])
  | @token offset c body rest ts hc hl _ ih =>
    intro t ht
    rcases List.mem_cons.1 ht with rfl | ht
    · exact ⟨before, c, body, rest, rfl, hc, Prod.ext rfl hl, hb.symm, rfl⟩
    · have hr := @ih (before ++ (c :: body)) (by rw [String.utf8Len_append, hb]) t ht
      rwa [List.append_assoc] at hr

theorem unique {us : List Token} (h : Cuts lexeme offset cs ts) (h' : Cuts lexeme offset cs us) :
    ts = us := by
  induction h generalizing us with
  | done =>
    cases h'
    rfl
  | blank hb _ ih =>
    cases h' with
    | blank _ h' => exact ih h'
    | token hb' => exact Bool.noConfusion (hb.symm.trans hb')
  | @token offset c body rest ts hb hl _ ih =>
    generalize hcs : c :: body ++ rest = cs at h'
    cases h' with
    | done => cases hcs
    | blank hb' =>
      obtain ⟨rfl, -⟩ := List.cons.inj hcs
      exact Bool.noConfusion (hb.symm.trans hb')
    | @token _ c' body' rest' us _ hl' h' =>
      obtain ⟨rfl, hbody⟩ := List.cons.inj hcs
      have hbody : body ++ rest = body' ++ rest' := hbody
      have hlength : body.length = body'.length := by rw [← hl, ← hl', hbody]
      obtain ⟨rfl, rfl⟩ := List.append_inj hbody hlength
      rw [ih h']

theorem offset_le (h : Cuts lexeme offset cs ts) : ∀ t ∈ ts, offset ≤ t.start := by
  induction h with
  | done => simp
  | blank _ _ ih => exact fun t ht => (Nat.le_add_right _ _).trans (ih t ht)
  | token _ _ _ ih =>
    intro t ht
    rcases List.mem_cons.1 ht with rfl | ht
    · exact Nat.le_refl _
    · exact (Nat.le_add_right _ _).trans (ih t ht)

theorem pairwise (h : Cuts lexeme offset cs ts) : ts.Pairwise fun t u => t.stop ≤ u.start := by
  induction h with
  | done => exact .nil
  | blank _ _ ih => exact ih
  | token _ _ hr ih =>
    refine .cons (fun u hu => ?_) ih
    rw [Token.stop_ofList]
    exact hr.offset_le u hu

theorem blank_or_covered (h : Cuts lexeme offset cs ts) {pre post : List Char} {c : Char}
    (hcs : cs = pre ++ c :: post) :
    isBlank c = true ∨
      ∃ t ∈ ts, t.start ≤ offset + utf8Len pre ∧ offset + utf8Len pre + c.utf8Size ≤ t.stop := by
  induction h generalizing pre with
  | done => simp at hcs
  | @blank offset b cs ts hb _ ih =>
    cases pre with
    | nil =>
      obtain ⟨rfl, -⟩ := List.cons.inj hcs
      exact .inl hb
    | cons d pre =>
      obtain ⟨rfl, rfl⟩ := List.cons.inj hcs
      rcases ih rfl with h | ⟨t, ht, hs, he⟩
      · exact .inl h
      · exact .inr ⟨t, ht, by simp only [String.utf8Len_cons]; omega,
          by simp only [String.utf8Len_cons]; omega⟩
  | @token offset b body rest ts _ _ _ ih =>
    by_cases hp : pre.length < (b :: body).length
    · -- The character is one of the token's.
      obtain ⟨tail, ht⟩ : pre ++ [c] <+: b :: body :=
        List.prefix_of_prefix_length_le ⟨post, by simp [hcs]⟩ (List.prefix_append _ rest)
          (by rw [List.length_append]; exact hp)
      refine .inr ⟨_, List.mem_cons_self, Nat.le_add_right _ _, ?_⟩
      rw [Token.stop_ofList, ← ht]
      simp only [String.utf8Len_append, String.utf8Len_cons, String.utf8Len_nil]
      omega
    · obtain ⟨mid, hm⟩ : b :: body <+: pre :=
        List.prefix_of_prefix_length_le (List.prefix_append _ rest) ⟨c :: post, hcs.symm⟩
          (Nat.le_of_not_lt hp)
      subst hm
      rw [List.append_assoc] at hcs
      rcases ih (List.append_cancel_left hcs) with h | ⟨t, ht, hs, he⟩
      · exact .inl h
      · refine .inr ⟨t, List.mem_cons_of_mem _ ht, ?_, ?_⟩ <;> rw [String.utf8Len_append] <;> omega

end Cuts

def cutFrom (lexeme : Char → List Char → TokenKind × Nat) (offset : Nat) (cs : List Char) : List Token :=
  match cs with
  | [] => []
  | c :: cs =>
    if isBlank c then cutFrom lexeme (offset + c.utf8Size) cs
    else
      let (kind, more) := lexeme c cs
      let body := c :: cs.take more
      ⟨kind, offset, String.ofList body⟩ :: cutFrom lexeme (offset + utf8Len body) (cs.drop more)
termination_by cs.length

theorem cuts_cutFrom (hl : Bounded lexeme) (offset : Nat) (cs : List Char) :
    Cuts lexeme offset cs (cutFrom lexeme offset cs) := by
  fun_induction cutFrom lexeme offset cs with
  | case1 offset => exact .done offset
  | case2 offset c cs hc ih => exact .blank hc ih
  | case3 offset c cs hc kind more hlexeme body ih =>
    have hle : more ≤ cs.length := by simpa [hlexeme] using hl c cs
    have hcut : Cuts lexeme offset (c :: cs.take more ++ cs.drop more) _ :=
      .token (Bool.eq_false_of_not_eq_true hc) (by simp [hlexeme, hle]) ih
    simpa only [List.cons_append, List.take_append_drop, hlexeme] using hcut

theorem tokens_eq (language : Language) (text : String) :
    language.tokens text = cutFrom language.lexeme 0 text.toList :=
  (tokens_cuts language text).unique (cuts_cutFrom language.lexeme_bounded 0 text.toList)

namespace Token.FoundIn

variable {text : String} {t : Token}

theorem start_lt_stop (h : t.FoundIn lexeme text.toList) : t.start < t.stop := by
  obtain ⟨before, c, body, after, -, -, -, -, he⟩ := h
  have := c.utf8Size_pos
  rw [stop, length, he, String.utf8ByteSize_ofList, String.utf8Len_cons]
  omega

theorem isValid_start (h : t.FoundIn lexeme text.toList) :
    (⟨t.start⟩ : String.Pos.Raw).IsValid text := by
  obtain ⟨before, c, body, after, hc, -, -, hs, -⟩ := h
  refine String.Pos.Raw.isValid_iff_exists_take_toList.2 ⟨before.length, ?_⟩
  rw [hc, List.take_left, String.utf8ByteSize_ofList, hs]

theorem isValid_stop (h : t.FoundIn lexeme text.toList) :
    (⟨t.stop⟩ : String.Pos.Raw).IsValid text := by
  obtain ⟨before, c, body, after, hc, -, -, hs, he⟩ := h
  refine String.Pos.Raw.isValid_iff_exists_take_toList.2 ⟨(before ++ (c :: body)).length, ?_⟩
  rw [hc, ← List.append_assoc, List.take_left, String.utf8ByteSize_ofList, String.utf8Len_append,
    stop, length, he, String.utf8ByteSize_ofList, hs]

theorem extract_eq (h : t.FoundIn lexeme text.toList) :
    String.Pos.Raw.extract text ⟨t.start⟩ ⟨t.stop⟩ = t.text := by
  obtain ⟨before, c, body, after, hc, -, -, hs, he⟩ := h
  have ht : text = String.ofList (before ++ (c :: body) ++ after) := by
    rw [List.append_assoc, ← hc, String.ofList_toList]
  rw [stop, length, he, String.utf8ByteSize_ofList, hs, ht]
  exact String.extract_of_valid _ _ _

theorem not_atBlank (h : t.FoundIn lexeme text.toList) :
    (ByteCursor.mk (ByteCursor.bytesOf text) t.start).atBlank = false := by
  obtain ⟨before, c, body, after, hc, hb, -, hs, -⟩ := h
  rw [hs, ByteCursor.mk_bytesOf hc, List.cons_append, ByteCursor.atBlank_between, hb]

end Token.FoundIn

theorem exists_char_at (cs : List Char) {i : Nat} (hi : i < utf8Len cs) :
    ∃ pre c post, cs = pre ++ c :: post ∧ utf8Len pre ≤ i ∧ i < utf8Len pre + c.utf8Size := by
  induction cs generalizing i with
  | nil => simp at hi
  | cons c cs ih =>
    by_cases h : i < c.utf8Size
    · exact ⟨[], c, cs, rfl, Nat.zero_le _, by simpa using h⟩
    · rw [String.utf8Len_cons] at hi
      obtain ⟨pre, d, post, rfl, hl, hu⟩ := ih (i := i - c.utf8Size) (by omega)
      exact ⟨c :: pre, d, post, rfl, by rw [String.utf8Len_cons]; omega,
        by rw [String.utf8Len_cons]; omega⟩

theorem utf8Size_of_isBlank {c : Char} (h : isBlank c = true) : c.utf8Size = 1 := by
  rw [← length_charBytes, charBytes_of_lt (toNat_lt_of_isBlank h)]
  rfl

/-- Pieces laid over the bytes of a text. -/
structure Tiling (text : String) (spans : List Span) : Prop where
  nonempty : ∀ s ∈ spans, s.start < s.stop
  ordered : spans.Pairwise fun s t => s.stop ≤ t.start
  isValid_start : ∀ s ∈ spans, (⟨s.start⟩ : String.Pos.Raw).IsValid text
  isValid_stop : ∀ s ∈ spans, (⟨s.stop⟩ : String.Pos.Raw).IsValid text
  starts_in_ink : ∀ s ∈ spans, (ByteCursor.mk (ByteCursor.bytesOf text) s.start).atBlank = false
  gaps_blank : ∀ i < text.utf8ByteSize, (∀ s ∈ spans, ¬ (s.start ≤ i ∧ i < s.stop)) →
    (ByteCursor.mk (ByteCursor.bytesOf text) i).atBlank = true

theorem tokens_foundIn (language : Language) (text : String) :
    ∀ t ∈ language.tokens text, t.FoundIn language.lexeme text.toList :=
  (tokens_cuts language text).foundIn String.utf8Len_nil

theorem tiling_tokens (language : Language) (text : String) :
    Tiling text ((language.tokens text).map Token.toSpan) where
  nonempty := List.forall_mem_map.2 fun t ht => (tokens_foundIn language text t ht).start_lt_stop
  ordered := List.pairwise_map.2 (tokens_cuts language text).pairwise
  isValid_start := List.forall_mem_map.2 fun t ht => (tokens_foundIn language text t ht).isValid_start
  isValid_stop := List.forall_mem_map.2 fun t ht => (tokens_foundIn language text t ht).isValid_stop
  starts_in_ink := List.forall_mem_map.2 fun t ht => (tokens_foundIn language text t ht).not_atBlank
  gaps_blank i hi hu := by
    rw [← String.utf8Len_toList] at hi
    obtain ⟨pre, c, post, hcs, hl, hs⟩ := exists_char_at text.toList hi
    rcases (tokens_cuts language text).blank_or_covered hcs with hb | ⟨t, ht, h₁, h₂⟩
    · have hi' : i = utf8Len pre := by
        rw [utf8Size_of_isBlank hb] at hs
        omega
      rw [hi', ByteCursor.mk_bytesOf hcs, ByteCursor.atBlank_between, hb]
    · exact absurd ⟨by simp only [Token.toSpan]; omega, by simp only [Token.toSpan]; omega⟩
        (hu t.toSpan (List.mem_map_of_mem ht))

/-- The pieces that a cursor finds on its way over the bytes of a text tile the text, and the tokens are
these pieces with their texts. -/
theorem tokens_tile (language : Language) (text : String) :
    Tiling text (language.spans (.ofText text)) ∧
      (language.tokens text).map Token.toSpan = language.spans (.ofText text) := by
  rw [← map_toSpan_tokens]
  exact ⟨tiling_tokens language text, rfl⟩

end ProtoSyntax
