import ProtoSyntax.Proofs.Extents

/-!
# Quotes taken off

Whether a literal was closed is told from its end alone when its quotes are taken off: a last quote is kept
if there is just one backslash before it. The scanner closes a literal on a quote with an even number of
backslashes before it. So the two agree on all literals but those that are not closed and end with three
backslashes or more and a quote.
-/

namespace ProtoSyntax

theorem backslashes_eq_one {cs : List Char} :
    backslashes cs = 1 ↔ cs.getLast? = some '\\' ∧ ¬ ['\\', '\\'] <:+ cs := by
  rw [← List.head?_reverse, ← List.reverse_prefix, backslashes]
  generalize cs.reverse = ds
  cases ds with
  | nil => simp
  | cons d ds =>
    by_cases hd : d = '\\'
    · cases ds with
      | nil => simp [hd]
      | cons e ds => by_cases he : e = '\\' <;> simp [hd, he, Ne.symm]
    · simp [hd]

theorem unquoteChars_concat (quote : Char) (content : List Char) :
    unquoteChars (quote :: (content ++ [quote])) =
      if backslashes content = 1 then content ++ [quote] else content := by
  simp only [unquoteChars, List.getLast?_concat, List.dropLast_concat, if_true, backslashes_eq_one]
  by_cases hlast : content.getLast? = some '\\'
  · by_cases htwo : ['\\', '\\'] <:+ content <;> simp [hlast, htwo]
  · simp [hlast]

theorem unquoteChars_of_ne {quote : Char} {inner : List Char} (h : ∀ content, inner ≠ content ++ [quote]) :
    unquoteChars (quote :: inner) = inner :=
  if_neg fun hlast => by
    obtain ⟨content, hcontent⟩ := List.getLast?_eq_some_iff.1 hlast
    exact h content hcontent

theorem unquoteChars_of_not_closesString {quote : Char} {inner : List Char}
    (hopen : ¬ ClosesString quote inner)
    (hfew : ∀ content, inner = content ++ [quote] → backslashes content < 3) :
    unquoteChars (quote :: inner) = inner := by
  by_cases hlast : ∃ content, inner = content ++ [quote]
  · obtain ⟨content, rfl⟩ := hlast
    have hodd : ¬ Even (backslashes content) := fun heven => hopen ⟨content, rfl, heven⟩
    obtain ⟨k, hk⟩ := Nat.not_even_iff_odd.1 hodd
    have hlt := hfew content rfl
    rw [unquoteChars_concat, if_pos (by omega)]
  · exact unquoteChars_of_ne (not_exists.1 hlast)

/-- A literal that is closed is its content between quotes. Of one that is not closed, the last quote is
kept if there are less than three backslashes before it. -/
theorem unquote_tokens {language : Language} {text : String} {t : Token} (ht : t ∈ language.tokens text)
    (hkind : t.kind = .string) : ∃ quote inner, isQuote quote = true ∧ t.text.toList = quote :: inner ∧
      (∀ content, inner = content ++ [quote] → Even (backslashes content) →
        unquote t.text = String.ofList content) ∧
      (¬ ClosesString quote inner → t.stop = text.utf8ByteSize ∧
        ((∀ content, inner = content ++ [quote] → backslashes content < 3) →
          unquote t.text = String.ofList inner) ∧
        ∀ content, inner = content ++ [quote] → 3 ≤ backslashes content →
          unquote t.text = String.ofList content) := by
  obtain ⟨before, quote, inner, after, htext, -, hl, hstart, hbody⟩ := tokens_foundIn language text t ht
  have hquote : isQuote quote = true := Language.isQuote_of_lexeme ((congrArg Prod.fst hl).trans hkind)
  have hchars : unquote t.text = String.ofList (unquoteChars (quote :: inner)) := by
    rw [unquote, hbody, String.toList_ofList]
  have hcontent (content : List Char) (hinner : inner = content ++ [quote])
      (hone : backslashes content ≠ 1) : unquote t.text = String.ofList content := by
    rw [hchars, hinner, unquoteChars_concat, if_neg hone]
  refine ⟨quote, inner, hquote, by rw [hbody, String.toList_ofList], fun content hinner heven => ?_,
    fun hopen => ⟨?_, fun hfew => ?_, fun content hinner hmany => ?_⟩⟩
  · exact hcontent content hinner fun h => absurd (h ▸ heven) (by decide)
  · have hends := endsAtFirst_stringTail (ne_backslash_of_isQuote hquote) (inner ++ after)
    rw [Language.lexeme_of_isQuote hquote] at hl
    have htail : stringTail quote (inner ++ after) = inner.length := congrArg Prod.snd hl
    rw [htail, List.take_left, List.drop_left] at hends
    obtain rfl : after = [] := hends.ends.resolve_left hopen
    rw [List.append_nil] at htext
    rw [Token.stop, Token.length, hstart, hbody, String.utf8ByteSize_ofList, ← String.utf8Len_append,
      ← htext, String.utf8Len_toList]
  · rw [hchars, unquoteChars_of_not_closesString hopen hfew]
  · exact hcontent content hinner (by omega)

theorem unquote_tokens_dangling :
    (⟨.string, 1, "'é\\'"⟩ : Token) ∈ Language.textFormat.tokens "['é\\'" ∧
      ∃ quote inner, isQuote quote = true ∧ "'é\\'".toList = quote :: inner ∧
        (∀ content, inner = content ++ [quote] → Even (backslashes content) →
          unquote "'é\\'" = String.ofList content) ∧
        (¬ ClosesString quote inner → (⟨.string, 1, "'é\\'"⟩ : Token).stop = "['é\\'".utf8ByteSize ∧
          ((∀ content, inner = content ++ [quote] → backslashes content < 3) →
            unquote "'é\\'" = String.ofList inner) ∧
          ∀ content, inner = content ++ [quote] → 3 ≤ backslashes content →
            unquote "'é\\'" = String.ofList content) := by
  have htokens : Language.textFormat.tokens "['é\\'" =
      [⟨.punct .leftBracket, 0, "["⟩, ⟨.string, 1, "'é\\'"⟩] := by
    rw [tokens_eq]
    cbv
  have ht : ⟨.string, 1, "'é\\'"⟩ ∈ Language.textFormat.tokens "['é\\'" := by simp [htokens]
  exact ⟨ht, unquote_tokens ht rfl⟩

/-- The third backslash takes the quote with it, but the quote is taken off. -/
theorem unquote_three_backslashes :
    ∃ t ∈ Language.schema.tokens "\"\\\\\\\"", t.kind = .string ∧ t.text.toList.head? = some '"' ∧
      ¬ ClosesString '"' t.text.toList.tail ∧ unquote t.text ≠ String.ofList t.text.toList.tail := by
  have htokens : Language.schema.tokens "\"\\\\\\\"" = [⟨.string, 0, "\"\\\\\\\""⟩] := by
    rw [tokens_eq]
    cbv
  refine ⟨⟨.string, 0, "\"\\\\\\\""⟩, by simp [htokens], rfl, rfl, ?_, by decide⟩
  rintro ⟨content, hcontent, heven⟩
  have hthree : ['\\', '\\', '\\'] ++ ['"'] = content ++ ['"'] := hcontent
  obtain rfl : ['\\', '\\', '\\'] = content := List.append_cancel_right hthree
  exact absurd heven (by decide)

end ProtoSyntax
