import ProtoSyntax.Proofs.LexemeLength

/-!
# Lexemes

What a language cuts off in front of a character that is no blank and the characters after it: a kind, and
how many of the latter belong to it. In each language comments open with a character of their own. Apart
from them the languages differ in how a number ends, in what words stand for and in which characters are
punctuation: this is the lexicon of a language. What holds of lexemes follows from what holds of the
lexicon and of comments.
-/

namespace ProtoSyntax

structure Lexicon where
  number : List Char → TokenKind × Nat
  wordKind : String → TokenKind
  isPunct : Punct → Bool

def punctOrInvalid (allowed : Punct → Bool) (c : Char) : TokenKind :=
  match Punct.ofChar? c with
  | some p => if allowed p then .punct p else .invalid
  | none => .invalid

namespace Lexicon

def numberLexeme (l : Lexicon) (c : Char) (cs : List Char) : TokenKind × Nat :=
  match l.number (c :: cs) with
  | (kind, 0) => (kind, 0)
  | (kind, n + 1) => (kind, n)

def lexeme (l : Lexicon) (c : Char) (cs : List Char) : TokenKind × Nat :=
  if isQuote c then (.string, stringTail c cs)
  else if startsNumber (c :: cs) then l.numberLexeme c cs
  else if isWordStart c then
    (l.wordKind (String.ofList (c :: cs.take (wordLength cs))), wordLength cs)
  else (punctOrInvalid l.isPunct c, 0)

variable (l : Lexicon) (c : Char) (cs : List Char)

theorem numberLexeme_kind : (l.numberLexeme c cs).1 = (l.number (c :: cs)).1 := by
  fun_cases numberLexeme l c cs <;> simp_all

end Lexicon

namespace TextFormat

def startsFloatSuffix : List Char → Bool
  | c :: cs => (c = 'f' || c = 'F') && !(cs.head?.any isWordPart)
  | [] => false

def numberWithSuffix (cs : List Char) : TokenKind × Nat :=
  let (kind, n) := number cs
  if takesFloatSuffix kind && startsFloatSuffix (cs.drop n) then (.float, n + 1) else (kind, n)

end TextFormat

def Schema.slashLexeme (cs : List Char) : TokenKind × Nat :=
  if cs.head? = some '/' then (.comment false, lineLength cs)
  else if cs.head? = some '*' then (.comment true, blockTail cs.tail + 1)
  else (.invalid, 0)

namespace Language

def lexicon : Language → Lexicon
  | .schema => ⟨number, Schema.wordKind, Schema.isPunct⟩
  | .textFormat => ⟨TextFormat.numberWithSuffix, TextFormat.wordKind, TextFormat.isPunct⟩

def commentMark : Language → Char
  | .schema => '/'
  | .textFormat => '#'

def markLexeme : Language → List Char → TokenKind × Nat
  | .schema, cs => Schema.slashLexeme cs
  | .textFormat, cs => (.comment false, lineLength cs)

def lexeme (language : Language) (c : Char) (cs : List Char) : TokenKind × Nat :=
  if c = language.commentMark then language.markLexeme cs else language.lexicon.lexeme c cs

/-- What a word stands for in a language. -/
inductive Spells (language : Language) (word : String) : TokenKind → Prop where
  | float : word = "inf" ∨ word = "nan" → Spells language word .float
  | boolean : word = "true" ∨ word = "false" → Spells language word .boolean
  | primitive (p : Primitive) : language = .schema → p.spelling = word →
      Spells language word (.primitive p)
  | keyword (k : Keyword) : language = .schema → k.spelling = word →
      Spells language word (.keyword k)
  | identifier : word ∉ ["inf", "nan", "true", "false"] →
      (language = .schema → (∀ p : Primitive, p.spelling ≠ word) ∧ ∀ k : Keyword, k.spelling ≠ word) →
      Spells language word .identifier

end Language

/-! ### Words -/

section

variable {word : String} {kind : TokenKind}

theorem commonWord?_eq_none (h : commonWord? word = none) : word ∉ ["inf", "nan", "true", "false"] := by
  unfold commonWord? at h
  split_ifs at h with hfloat hboolean
  simp_all

theorem Language.Spells.of_commonWord? {language : Language} (h : commonWord? word = some kind) :
    language.Spells word kind := by
  unfold commonWord? at h
  split_ifs at h with hfloat hboolean <;> cases h
  · exact .float hfloat
  · exact .boolean hboolean

theorem Schema.spells_wordKind (word : String) : Language.schema.Spells word (wordKind word) := by
  unfold wordKind
  cases hcommon : commonWord? word with
  | some kind => exact .of_commonWord? hcommon
  | none =>
    cases hp : Primitive.ofText? word with
    | some p => exact .primitive p rfl (by simpa using List.find?_some hp)
    | none =>
      cases hk : Keyword.ofText? word with
      | some k => exact .keyword k rfl (by simpa using List.find?_some hk)
      | none =>
        refine .identifier (commonWord?_eq_none hcommon) fun _ => ⟨fun p => ?_, fun k => ?_⟩
        · simpa using List.find?_eq_none.1 hp p (by cases p <;> decide)
        · simpa using List.find?_eq_none.1 hk k (by cases k <;> decide)

theorem TextFormat.spells_wordKind (word : String) : Language.textFormat.Spells word (wordKind word) := by
  unfold wordKind
  cases hcommon : commonWord? word with
  | some kind => exact .of_commonWord? hcommon
  | none => exact .identifier (commonWord?_eq_none hcommon) nofun

theorem Language.spells_wordKind (language : Language) (word : String) :
    language.Spells word (language.lexicon.wordKind word) := by
  cases language with
  | schema => exact Schema.spells_wordKind word
  | textFormat => exact TextFormat.spells_wordKind word

end

/-! ### Numbers -/

theorem unsigned_kind (cs : List Char) :
    (unsigned cs).1 = .float ∨ ∃ radix, (unsigned cs).1 = .integer radix := by
  unfold unsigned
  split_ifs <;> simp

namespace TextFormat

variable (cs : List Char)

theorem numberWithSuffix_cases : numberWithSuffix cs = number cs ∨
    startsFloatSuffix (cs.drop (number cs).2) = true ∧
      numberWithSuffix cs = (.float, (number cs).2 + 1) := by
  rw [numberWithSuffix]
  dsimp only
  split_ifs with h
  · exact .inr ⟨(Bool.and_eq_true_iff.1 h).2, rfl⟩
  · exact .inl rfl

theorem numberWithSuffix_le : (numberWithSuffix cs).2 ≤ cs.length := by
  rcases numberWithSuffix_cases cs with h | ⟨hsuffix, h⟩
  · exact h ▸ number_le cs
  · have hdrop : cs.drop (number cs).2 ≠ [] := fun he => by
      rw [he] at hsuffix
      cases hsuffix
    have hpos := List.length_pos_of_ne_nil hdrop
    rw [List.length_drop] at hpos
    exact h ▸ Nat.lt_of_sub_pos hpos

end TextFormat

namespace Language

variable (language : Language) {cs : List Char}

theorem number_le (cs : List Char) : (language.lexicon.number cs).2 ≤ cs.length := by
  cases language with
  | schema => exact ProtoSyntax.number_le cs
  | textFormat => exact TextFormat.numberWithSuffix_le cs

theorem number_pos (h : startsNumber cs = true) : 0 < (language.lexicon.number cs).2 := by
  cases language with
  | schema => exact ProtoSyntax.number_pos h
  | textFormat =>
    rcases TextFormat.numberWithSuffix_cases cs with he | ⟨-, he⟩
    · exact (congrArg Prod.snd he).symm ▸ ProtoSyntax.number_pos h
    · exact (congrArg Prod.snd he).symm ▸ Nat.succ_pos _

theorem number_eq_succ {c : Char} (h : startsNumber (c :: cs) = true) :
    (language.lexicon.number (c :: cs)).2 = (language.lexicon.numberLexeme c cs).2 + 1 := by
  have hpos := language.number_pos h
  fun_cases Lexicon.numberLexeme language.lexicon c cs <;> simp_all

theorem numberLexeme_le (c : Char) (cs : List Char) :
    (language.lexicon.numberLexeme c cs).2 ≤ cs.length := by
  have hle := language.number_le (c :: cs)
  fun_cases Lexicon.numberLexeme language.lexicon c cs <;> simp_all

theorem number_kind (cs : List Char) : (language.lexicon.number cs).1 = .float ∨
    ∃ radix, (language.lexicon.number cs).1 = .integer radix := by
  cases language with
  | schema => exact unsigned_kind _
  | textFormat =>
    rcases TextFormat.numberWithSuffix_cases cs with he | ⟨-, he⟩
    · exact (congrArg Prod.fst he).symm ▸ unsigned_kind _
    · exact .inl (congrArg Prod.fst he)

end Language

theorem isSign_of_isWordStart {c : Char} (h : isWordStart c = true) : isSign c = false := by
  refine Bool.eq_false_of_not_eq_true fun hsign => ?_
  simp only [isSign, Bool.or_eq_true, decide_eq_true_eq] at hsign
  rcases hsign with rfl | rfl <;> cases h

theorem not_isWordStart_of_isDigit {c : Char} (h : isDigit c = true) : isWordStart c = false := by
  have hbelow : c < 'A' := by
    simp only [isDigit, Bool.and_eq_true, decide_eq_true_eq] at h
    exact lt_of_le_of_lt h.2 (by decide)
  have hlt {d : Char} (hd : 'A' ≤ d) : c < d := lt_of_lt_of_le hbelow hd
  have hlower : ¬ 'a' ≤ c := not_le.2 (hlt (by decide))
  have hline : c ≠ '_' := (@hlt '_' (by decide)).ne
  simp [isWordStart, isLetter, hlower, not_le.2 hbelow, hline]

theorem not_isWordStart_of_startsNumber {c : Char} {cs : List Char} (h : startsNumber (c :: cs) = true) :
    isWordStart c = false := by
  refine Bool.eq_false_of_not_eq_true fun hc => ?_
  have hdot : c ≠ '.' := by
    rintro rfl
    cases hc
  rw [startsNumber, if_neg (by simp [isSign_of_isWordStart hc])] at h
  have hdigit : isDigit c = true := by simpa [startsUnsigned, hdot] using h
  exact Bool.noConfusion ((not_isWordStart_of_isDigit hdigit).symm.trans hc)

/-! ### Lexemes -/

theorem punctOrInvalid_kind (allowed : Punct → Bool) (c : Char) :
    punctOrInvalid allowed c = .invalid ∨ ∃ p, punctOrInvalid allowed c = .punct p := by
  unfold punctOrInvalid
  split
  · split <;> simp
  · exact .inl rfl

theorem Schema.lexeme_slash (cs : List Char) : Language.schema.lexeme '/' cs = slashLexeme cs := rfl

namespace Language

variable (language : Language) {c : Char}

theorem lexeme_eq (h : c ≠ language.commentMark) (cs : List Char) :
    language.lexeme c cs = language.lexicon.lexeme c cs :=
  if_neg h

theorem lexeme_commentMark (cs : List Char) :
    language.lexeme language.commentMark cs = language.markLexeme cs :=
  if_pos rfl

theorem lexeme_of_isQuote {language : Language} (h : isQuote c = true) (cs : List Char) :
    language.lexeme c cs = (.string, stringTail c cs) := by
  have hmark : c ≠ language.commentMark := by
    rintro rfl
    cases language <;> cases h
  exact (language.lexeme_eq hmark cs).trans (if_pos h)

theorem lexeme_commentMark_kind (cs : List Char) :
    (language.lexeme language.commentMark cs).1 = .invalid ∨
      ∃ block, (language.lexeme language.commentMark cs).1 = .comment block := by
  rw [lexeme_commentMark]
  cases language with
  | textFormat => exact .inr ⟨false, rfl⟩
  | schema =>
    rw [markLexeme, Schema.slashLexeme]
    split_ifs <;> simp

/-- What a language cuts off in front of a character and the characters after it, by the way it is found. -/
inductive Lexes (language : Language) (c : Char) (cs : List Char) : TokenKind → Nat → Prop where
  | line : isLineBreak c = false → isWordStart c = false →
      Lexes language c cs (.comment false) (lineLength cs)
  | block (body : List Char) : c = '/' → cs = '*' :: body →
      Lexes language c cs (.comment true) (blockTail body + 1)
  | string : isQuote c = true → Lexes language c cs .string (stringTail c cs)
  | number {kind : TokenKind} (n : Nat) : isWordStart c = false →
      (kind = .float ∨ ∃ radix, kind = .integer radix) → Lexes language c cs kind n
  | word {kind : TokenKind} : isWordStart c = true →
      language.Spells (String.ofList (c :: cs.take (wordLength cs))) kind →
      Lexes language c cs kind (wordLength cs)
  | single {kind : TokenKind} : isWordStart c = false → (kind = .invalid ∨ ∃ p, kind = .punct p) →
      Lexes language c cs kind 0

theorem lexes_comment (cs : List Char) :
    language.Lexes language.commentMark cs (language.lexeme language.commentMark cs).1
      (language.lexeme language.commentMark cs).2 := by
  rw [lexeme_commentMark]
  cases language with
  | textFormat => exact .line rfl rfl
  | schema =>
    rw [markLexeme, Schema.slashLexeme]
    split_ifs with hline hblock
    · exact .line rfl rfl
    · obtain ⟨body, rfl⟩ := List.head?_eq_some_iff.1 hblock
      exact .block body rfl rfl
    · exact .single rfl (.inl rfl)

theorem lexes (c : Char) (cs : List Char) :
    language.Lexes c cs (language.lexeme c cs).1 (language.lexeme c cs).2 := by
  by_cases hmark : c = language.commentMark
  · subst hmark
    exact language.lexes_comment cs
  rw [language.lexeme_eq hmark, Lexicon.lexeme]
  split_ifs with hquote hnumber hword
  · exact .string hquote
  · refine .number _ (not_isWordStart_of_startsNumber hnumber) ?_
    rw [Lexicon.numberLexeme_kind]
    exact language.number_kind _
  · exact .word hword (language.spells_wordKind _)
  · exact .single (Bool.eq_false_of_not_eq_true hword) (punctOrInvalid_kind _ c)

end Language

def Bounded (lexeme : Char → List Char → TokenKind × Nat) : Prop :=
  ∀ c cs, (lexeme c cs).2 ≤ cs.length

theorem Schema.slashLexeme_le (cs : List Char) : (slashLexeme cs).2 ≤ cs.length := by
  rw [slashLexeme]
  split_ifs with hline hblock
  · exact runLength_le _ _
  · obtain ⟨body, rfl⟩ := List.head?_eq_some_iff.1 hblock
    exact Nat.succ_le_succ (blockTail_le body)
  · exact Nat.zero_le _

theorem Language.lexeme_bounded (language : Language) : Bounded language.lexeme := by
  intro c cs
  by_cases hmark : c = language.commentMark
  · subst hmark
    rw [lexeme_commentMark]
    cases language with
    | schema => exact Schema.slashLexeme_le cs
    | textFormat => exact runLength_le _ _
  rw [language.lexeme_eq hmark, Lexicon.lexeme]
  split_ifs
  · exact stringTail_le c cs
  · exact language.numberLexeme_le c cs
  · exact runLength_le _ _
  · exact Nat.zero_le _

end ProtoSyntax
