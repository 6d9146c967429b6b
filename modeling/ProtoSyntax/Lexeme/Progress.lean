import ProtoSyntax.Schema.Lexeme
import ProtoSyntax.TextFormat.Lexeme

/-!
# Progress

No scanner goes back, and in front of the end of a text a token takes at least one byte.
-/

namespace ProtoSyntax

theorem runLength_pos {p : Char → Bool} {c : Char} (h : p c = true) (cs : List Char) :
    0 < runLength p (c :: cs) := by
  simp [runLength, h]

theorem floatLength_pos {cs : List Char} (h : startsUnsigned cs = true) : 0 < floatLength cs := by
  fun_cases startsUnsigned cs with
  | case1 c cs =>
    have hd : isDigit '.' = false := by decide
    simp only [floatLength, runLength, List.takeWhile, hd, List.length_nil, List.drop_zero,
      fractionLength]
    omega
  | case2 c cs =>
    have hr := runLength_pos (p := isDigit) (by simpa [startsUnsigned] using h) cs
    simp only [floatLength]
    omega
  | case3 => simp [startsUnsigned] at h

theorem unsigned_pos {cs : List Char} (h : startsUnsigned cs = true ∨ atInfOrNan cs = true) :
    0 < (unsigned cs).2 := by
  fun_cases unsigned cs with
  | case1 hword => exact Nat.zero_lt_succ 2
  | case2 hword hhex => exact Nat.add_pos_left (Nat.zero_lt_succ 1) _
  | case3 hword hhex hoctal => exact Nat.add_pos_left Nat.zero_lt_one _
  | case4 hword hhex hoctal hdecimal =>
    simp only [startsDecimal, Bool.and_eq_true, decide_eq_true_eq] at hdecimal
    exact hdecimal.1
  | case5 hword => exact floatLength_pos (h.resolve_right hword)

theorem number_pos {cs : List Char} (h : startsNumber cs = true) : 0 < (number cs).2 := by
  have hn : (number cs).2 = signLength cs + (unsigned (cs.drop (signLength cs))).2 := rfl
  rw [hn]
  cases cs with
  | nil => simp [startsNumber] at h
  | cons c cs =>
    by_cases hc : isSign c = true
    · simp only [signLength, hc, if_pos]
      omega
    · simp only [startsNumber, hc] at h
      simp only [signLength, hc]
      exact Nat.add_pos_right _ (unsigned_pos (.inl h))

theorem isWordPart_of_isWordStart {c : Char} (h : isWordStart c = true) : isWordPart c = true := by
  simp only [isWordStart, isWordPart, Bool.or_eq_true] at h ⊢
  exact h.imp_left .inl

namespace ByteCursor

variable {c : ByteCursor}

theorem remaining_advanceWhile_le (p : Char → Bool) (c : ByteCursor) :
    (c.advanceWhile p).remaining ≤ c.remaining := by
  fun_induction advanceWhile p c with
  | case1 c _ ih => exact Nat.le_trans ih (c.remaining_advance_le 1)
  | case2 c _ => exact Nat.le_refl _

theorem remaining_advanceWhile_lt {p : Char → Bool} (hend : c.atEnd = false)
    (hp : p c.current = true) : (c.advanceWhile p).remaining < c.remaining := by
  rw [advanceWhile, dif_pos ⟨hend, hp⟩]
  exact Nat.lt_of_le_of_lt (remaining_advanceWhile_le p _) (remaining_advance_lt hend Nat.one_pos)

theorem remaining_skipStringTail_le (quote : Char) (c : ByteCursor) :
    (c.skipStringTail quote).remaining ≤ c.remaining := by
  fun_induction skipStringTail quote c with
  | case1 c _ => exact Nat.le_refl _
  | case2 c _ _ ih => exact Nat.le_trans ih (c.remaining_advance_le 2)
  | case3 c _ _ _ => exact c.remaining_advance_le 1
  | case4 c _ _ _ ih => exact Nat.le_trans ih (c.remaining_advance_le 1)

theorem remaining_skipBlockTail_le (c : ByteCursor) : c.skipBlockTail.remaining ≤ c.remaining := by
  fun_induction skipBlockTail c with
  | case1 c _ => exact Nat.le_refl _
  | case2 c _ _ => exact c.remaining_advance_le 2
  | case3 c _ _ ih => exact Nat.le_trans ih (c.remaining_advance_le 1)

theorem remaining_skipString_lt (h : c.atEnd = false) : c.skipString.remaining < c.remaining :=
  Nat.lt_of_le_of_lt (remaining_skipStringTail_le _ _) (remaining_advance_lt h Nat.one_pos)

theorem remaining_skipBlockComment_lt (h : c.atEnd = false) :
    c.skipBlockComment.remaining < c.remaining :=
  Nat.lt_of_le_of_lt (remaining_skipBlockTail_le _) (remaining_advance_lt h Nat.two_pos)

theorem remaining_number_lt (hend : c.atEnd = false) (h : c.startsNumber = true) :
    c.number.2.remaining < c.remaining :=
  remaining_advance_lt hend (number_pos h)

theorem remaining_word_lt (hend : c.atEnd = false) (h : isWordStart c.current = true) :
    c.word.2.remaining < c.remaining :=
  remaining_advanceWhile_lt hend (isWordPart_of_isWordStart h)

theorem width_pos (lead : Char) : 0 < width lead := by
  fun_cases width lead <;> decide

theorem remaining_advanceChar_lt (h : c.atEnd = false) : c.advanceChar.remaining < c.remaining := by
  refine remaining_advance_lt h ?_
  cases c.rest.head? with
  | none => exact Nat.one_pos
  | some lead => exact width_pos lead

theorem remaining_single_lt (allowed : Punct → Bool) (h : c.atEnd = false) :
    (c.single allowed).2.remaining < c.remaining := by
  fun_cases single allowed c with
  | case1 => exact remaining_advance_lt h Nat.one_pos
  | case2 | case3 => exact remaining_advanceChar_lt h

end ByteCursor

open ByteCursor

theorem Schema.remaining_scan_lt {c : ByteCursor} (h : c.atEnd = false) :
    (scan c).2.remaining < c.remaining := by
  fun_cases scan c with
  | case1 hslash => exact remaining_advanceWhile_lt h (by rw [hslash]; rfl)
  | case2 => exact remaining_skipBlockComment_lt h
  | case3 => exact remaining_advance_lt h Nat.one_pos
  | case4 => exact remaining_skipString_lt h
  | case5 _ _ hnumber => exact remaining_number_lt h hnumber
  | case6 _ _ _ hword text after he =>
    have hlt := remaining_word_lt h hword
    rwa [he] at hlt
  | case7 => exact remaining_single_lt isPunct h

theorem TextFormat.remaining_floatSuffix_le (kind : TokenKind) (c : ByteCursor) :
    (floatSuffix kind c).2.remaining ≤ c.remaining := by
  fun_cases floatSuffix kind c with
  | case1 => exact c.remaining_advance_le 1
  | case2 => exact Nat.le_refl _

theorem TextFormat.remaining_scan_lt {c : ByteCursor} (h : c.atEnd = false) :
    (scan c).2.remaining < c.remaining := by
  fun_cases scan c with
  | case1 hhash => exact remaining_advanceWhile_lt h (by rw [hhash]; rfl)
  | case2 => exact remaining_skipString_lt h
  | case3 _ _ hnumber kind after he =>
    have hlt := remaining_number_lt h hnumber
    rw [he] at hlt
    exact Nat.lt_of_le_of_lt (remaining_floatSuffix_le _ _) hlt
  | case4 _ _ _ hword text after he =>
    have hlt := remaining_word_lt h hword
    rwa [he] at hlt
  | case5 => exact remaining_single_lt isPunct h

end ProtoSyntax
