import ProtoSyntax.Proofs.CutTexts
import ProtoSyntax.Proofs.Numbers

/-!
# Semicolons end lexemes

No number and no word of a schema file has a semicolon in it, so what is cut off at the end of a text is
cut off in front of a semicolon too. A string and a block comment have to be terminated for this, and a
line comment has to end before the text does.
-/

namespace ProtoSyntax
open String (utf8Len)

theorem length_le_of_not_mem {α : Type} {x : α} {run after body more : List α}
    (h : run ++ after = body ++ x :: more) (hx : x ∉ run) : run.length ≤ body.length := by
  by_contra hlt
  obtain ⟨rest, hrest⟩ : body ++ [x] <+: run :=
    List.prefix_of_prefix_length_le (⟨more, by simp [h]⟩ : body ++ [x] <+: run ++ after)
      (List.prefix_append _ _)
      (by rw [List.length_append, List.length_singleton]; omega)
  exact hx (hrest ▸ by simp)

theorem runLength_append_of_lt {p : Char → Bool} {cs : List Char} (h : runLength p cs < cs.length)
    (more : List Char) : runLength p (cs ++ more) = runLength p cs := by
  have hne : (cs.takeWhile p).length ≠ cs.length := Nat.ne_of_lt h
  rw [runLength, List.takeWhile_append, if_neg hne]
  rfl

theorem not_mem_of_class {p : Char → Bool} {c : Char} {cs : List Char} (h : ∀ d ∈ cs, p d = true)
    (hc : p c = false) : c ∉ cs :=
  fun hmem => Bool.noConfusion (hc.symm.trans (h c hmem))

namespace Schema

theorem lexeme_semicolon_le {c : Char} (hquote : isQuote c ≠ true) (hslash : c ≠ '/')
    (cs more : List Char) : (Language.schema.lexeme c (cs ++ ';' :: more)).2 ≤ cs.length := by
  rw [Language.schema.lexeme_eq hslash, Lexicon.lexeme, if_neg hquote]
  split_ifs with hnumber hword
  · have hle := @number_le_of_not_isNumberPart (c :: cs) (';' :: more) hnumber
      (by rintro _ ⟨⟩; rfl)
    rw [List.length_cons] at hle
    exact Nat.le_of_succ_le_succ ((Language.schema.number_eq_succ hnumber).symm.trans_le hle)
  · have hmem : ';' ∉ (cs ++ ';' :: more).takeWhile isWordPart :=
      not_mem_of_class (fun d hd => List.mem_takeWhile_imp hd) rfl
    exact length_le_of_not_mem List.takeWhile_append_dropWhile hmem
  · exact Nat.zero_le _

theorem lexeme_append_semicolon {c : Char} {cs : List Char} (more : List Char)
    (ht : isTerminated (Language.schema.lexeme c cs).1
      (c :: cs.take (Language.schema.lexeme c cs).2) = true)
    (hline : (Language.schema.lexeme c cs).1 = .comment false →
      (Language.schema.lexeme c cs).2 < cs.length) :
    Language.schema.lexeme c (cs ++ ';' :: more) = Language.schema.lexeme c cs := by
  by_cases hquote : isQuote c = true
  · have hstring (cs : List Char) : Language.schema.lexeme c cs = (.string, stringTail c cs) :=
      Language.lexeme_of_isQuote hquote cs
    rw [hstring] at ht
    have htail := @stringTail_append c cs [] (';' :: more)
    rw [List.append_nil] at htail
    rw [hstring, hstring, htail ht (stringTail_le c cs)]
  by_cases hslash : c = '/'
  · subst hslash
    cases cs with
    | nil => rfl
    | cons d cs =>
      rw [lexeme_slash, slashLexeme] at ht hline
      rw [lexeme_slash, lexeme_slash, slashLexeme, slashLexeme]
      simp only [List.cons_append, List.head?_cons, List.tail_cons, Option.some.injEq] at ht hline ⊢
      split_ifs with hsecond hstar
      · rw [if_pos hsecond] at hline
        exact congrArg (Prod.mk (TokenKind.comment false)) (runLength_append_of_lt (hline rfl) _)
      · rw [if_neg hsecond, if_pos hstar] at ht
        have hsuffix : ['*', '/'] <:+ cs.take (blockTail cs) := by simpa [isTerminated] using ht
        have htail := @blockTail_of_isSuffixOf cs [] (';' :: more)
        rw [List.append_nil] at htail
        rw [htail hsuffix (blockTail_le cs)]
      · rfl
  · refine (Language.schema.lexeme_cut (lexeme_semicolon_le hquote hslash cs more) (.inr ?_) ?_).symm
    · exact apart_of_head? fun q hq => Option.some.inj hq ▸ rfl
    · by_contra hterminated
      rcases ((Language.schema.lexes c _).unterminated (Bool.eq_false_of_not_eq_true hterminated)).2
        with ⟨h, -⟩ | ⟨h, -⟩
      · exact hquote h
      · exact hslash h

end Schema

/-- The tokens of a text are followed by a semicolon put at its end, if the last one is no comment. -/
theorem Cuts.append_semicolon {offset : Nat} {cs : List Char} {ts : List Token}
    (h : Cuts Language.schema.lexeme offset cs ts) (ht : ∀ t ∈ ts, t.isTerminated = true)
    (hlast : ∀ t ∈ ts.getLast?, t.isComment = false) :
    Cuts Language.schema.lexeme offset (cs ++ [';']) (ts ++ [⟨.punct .semicolon, offset + utf8Len cs, ";"⟩]) := by
  induction h with
  | done offset => exact @token Language.schema.lexeme offset ';' [] [] [] rfl rfl (.done _)
  | @blank offset c cs ts hb _ ih =>
    have hcuts := ih ht hlast
    rw [Nat.add_assoc, Nat.add_comm c.utf8Size, ← String.utf8Len_cons] at hcuts
    exact .blank hb hcuts
  | @token offset c body rest ts hb hl hr ih =>
    obtain ⟨hterminated, ht⟩ := List.forall_mem_cons.1 ht
    have hsame := @Schema.lexeme_append_semicolon c (body ++ rest) [] (by
      rw [hl, List.take_left]
      simpa [Token.isTerminated] using hterminated) (fun hline => by
        rw [hl, List.length_append]
        -- A line comment has another token behind it, so it is not all that is left.
        cases hr with
        | done =>
          have hcomment := hlast _ rfl
          rw [Token.isComment, hline] at hcomment
          cases hcomment
        | blank => simp
        | token => simp)
    have hcuts := ih ht (fun t hmem => hlast t (by
      rw [List.getLast?_cons, Option.mem_def.1 hmem]
      rfl))
    rw [Nat.add_assoc, ← String.utf8Len_append] at hcuts
    rw [List.append_assoc] at hsame
    have hcut := token_congr hb hl hsame hcuts
    rwa [← List.append_assoc] at hcut

end ProtoSyntax
