import Mathlib.Data.String.Basic
import ProtoSyntax.Tokens

/-!
# Lexemes by their length

How many characters belong to a lexeme, told by the characters that follow its beginning. A string or
block comment that is never closed runs to the end of the text. No scanner claims more characters than
it is given.
-/

namespace ProtoSyntax

/-- The length of what follows an opening quote, up to and with the closing one. A backslash
takes the next character with it, so an escaped quote closes nothing. -/
def stringTail (quote : Char) : List Char → Nat
  | [] => 0
  | ['\\'] => 1
  | '\\' :: _ :: cs => stringTail quote cs + 2
  | c :: cs => if c = quote then 1 else stringTail quote cs + 1

def blockTail : List Char → Nat
  | [] => 0
  | '*' :: '/' :: _ => 2
  | _ :: cs => blockTail cs + 1

def wordLength (cs : List Char) : Nat := runLength isWordPart cs

def lineLength (cs : List Char) : Nat := runLength (fun c => !isLineBreak c) cs

theorem runLength_le (p : Char → Bool) (cs : List Char) : runLength p cs ≤ cs.length :=
  (List.takeWhile_prefix p).length_le

theorem take_runLength (p : Char → Bool) (cs : List Char) : cs.take (runLength p cs) = cs.takeWhile p :=
  (List.prefix_iff_eq_take.1 (List.takeWhile_prefix p)).symm

/-- For the cases of `stringTail` and its like that come after those of an escape. -/
theorem ne_backslash {c : Char} {cs : List Char} (hnil : c = '\\' → cs = [] → False)
    (hcons : ∀ d ds, c = '\\' → cs = d :: ds → False) : c ≠ '\\' := by
  rintro rfl
  cases cs with
  | nil => exact hnil rfl rfl
  | cons d ds => exact hcons d ds rfl rfl

theorem stringTail_le (quote : Char) (cs : List Char) : stringTail quote cs ≤ cs.length := by
  fun_induction stringTail quote cs <;> simp_all

theorem blockTail_le (cs : List Char) : blockTail cs ≤ cs.length := by
  fun_induction blockTail cs <;> simp_all

theorem signLength_le (cs : List Char) : signLength cs ≤ cs.length := by
  fun_cases signLength cs <;> grind

theorem fractionLength_le (cs : List Char) : fractionLength cs ≤ cs.length := by
  fun_cases fractionLength cs <;> grind [runLength_le]

theorem exponentLength_le (cs : List Char) : exponentLength cs ≤ cs.length := by
  unfold exponentLength
  grind [runLength_le, signLength_le]

theorem floatLength_le (cs : List Char) : floatLength cs ≤ cs.length := by
  unfold floatLength
  grind [runLength_le, fractionLength_le, exponentLength_le]

theorem length_le_of_atWord {word cs : List Char} (h : atWord word cs = true) :
    word.length ≤ cs.length := by
  simp only [atWord, Bool.and_eq_true, List.isPrefixOf_iff_prefix] at h
  exact h.1.length_le

theorem unsigned_le (cs : List Char) : (unsigned cs).2 ≤ cs.length := by
  unfold unsigned
  split_ifs with hi hx ho hd
  · simp only [atInfOrNan, Bool.or_eq_true] at hi
    rcases hi with hi | hi <;> simpa using length_le_of_atWord hi
  · have := runLength_le isHexDigit (cs.drop 2)
    fun_cases startsHexadecimal cs
    · simp_all only [List.drop_succ_cons, List.drop_zero, List.length_cons]
      omega
    · simp_all [startsHexadecimal]
  · have := runLength_le isOctalDigit (cs.drop 1)
    fun_cases startsOctal cs
    · simp_all only [List.drop_succ_cons, List.drop_zero, List.length_cons]
      omega
    · simp_all [startsOctal]
  · exact runLength_le _ _
  · exact floatLength_le cs

theorem number_le (cs : List Char) : (number cs).2 ≤ cs.length := by
  have := unsigned_le (cs.drop (signLength cs))
  have := signLength_le cs
  simp only [number, List.length_drop] at *
  omega

end ProtoSyntax
