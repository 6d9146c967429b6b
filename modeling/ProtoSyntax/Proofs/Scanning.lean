import ProtoSyntax.Proofs.Numbers

/-!
# Scanning bytes

Each scanner goes from between two characters of a text to between two characters again, and the characters
it passes are the ones that belong to the lexeme, also where it steps into the middle of a longer one on its
way. So a language scans the bytes of a text as its lexemes say.
-/

namespace ProtoSyntax

open String (utf8Len)

namespace ByteCursor

/-! ### Loops -/

def Passes (loop : ByteCursor → ByteCursor) (q : Char → Prop) : Prop :=
  ∀ front b back, q b → loop (inside front (b :: back)) = loop (inside (front ++ [b]) back)

namespace Passes

variable {loop : ByteCursor → ByteCursor} {q : Char → Prop}

theorem run (h : Passes loop q) (front back : List Char) {mid : List Char} (hmid : ∀ b ∈ mid, q b) :
    loop (inside front (mid ++ back)) = loop (inside (front ++ mid) back) := by
  induction mid generalizing front with
  | nil => rw [List.nil_append, List.append_nil]
  | cons b mid ih =>
    obtain ⟨hb, hmid⟩ := List.forall_mem_cons.1 hmid
    rw [List.cons_append, h front b _ hb, ih _ hmid, List.append_assoc, List.singleton_append]

theorem char (h : Passes loop q) (before cs : List Char) {c : Char} (hc : q c)
    (hbeyond : 0x80 ≤ c.toNat → ∀ b : Char, 0x80 ≤ b.toNat → q b) :
    loop (between before (c :: cs)) = loop (between (before ++ [c]) cs) := by
  rw [between, List.flatMap_cons, h.run _ _ (forall_mem_charBytes hc hbeyond), between,
    List.flatMap_append, List.flatMap_singleton]

end Passes

theorem passes_advanceWhile (p : Char → Bool) : Passes (advanceWhile p) (p · = true) := by
  intro front b back hb
  rw [advanceWhile, dif_pos (by simp [hb]), advance_inside]
  rfl

theorem passes_skipStringTail (quote : Char) :
    Passes (skipStringTail quote) fun b => b ≠ '\\' ∧ b ≠ quote := by
  rintro front b back ⟨hslash, hquote⟩
  rw [skipStringTail, dif_neg (by simp), if_neg (by simpa using hslash), if_neg (by simpa using hquote),
    advance_inside]
  rfl

theorem passes_skipBlockTail : Passes skipBlockTail (· ≠ '*') := by
  intro front b back hb
  rw [skipBlockTail, dif_neg (by simp), if_neg (by simp [hb]), advance_inside]
  rfl

theorem advanceWhile_between {p : Char → Bool} (hp : Coarse p) (before cs : List Char) :
    (between before cs).advanceWhile p =
      between (before ++ cs.take (runLength p cs)) (cs.drop (runLength p cs)) := by
  induction cs generalizing before with
  | nil =>
    rw [advanceWhile, dif_neg (by simp)]
    simp
  | cons c cs ih =>
    by_cases hc : p c = true
    · rw [(passes_advanceWhile p).char _ _ hc fun h b hb => (hp b c hb h).trans hc, ih]
      simp [runLength, hc]
    · rw [advanceWhile, dif_neg (by simp [apply_current_between _ _ hp, hc])]
      simp [runLength, hc]

/-- A backslash takes the first byte of the next character with it; the other ones close nothing. -/
theorem skipStringTail_escape {quote : Char} (hquote : quote.toNat < 0x80) (before : List Char) (c : Char)
    (cs : List Char) : (between before ('\\' :: c :: cs)).skipStringTail quote =
      (between (before ++ ['\\', c]) cs).skipStringTail quote := by
  obtain ⟨b, bs, hb⟩ := exists_charBytes_cons c
  have hrest : ∀ x ∈ bs, x ≠ '\\' ∧ x ≠ quote := by
    intro x hx
    by_cases hc : c.toNat < 0x80
    · rw [charBytes_of_lt hc] at hb
      simp [(List.cons.inj hb).2.symm] at hx
    · have hle := le_of_mem_charBytes (Nat.le_of_not_lt hc) (b := x) (by simp [hb, hx])
      exact ⟨fun h => absurd (h ▸ hle) (by decide), fun h => absurd (h ▸ hle) (Nat.not_le.2 hquote)⟩
  have hslash : charBytes '\\' = ['\\'] := charBytes_of_lt (by decide)
  have hstep : (between before ('\\' :: c :: cs)).advance 2 =
      inside (before.flatMap charBytes ++ ['\\', b]) (bs ++ cs.flatMap charBytes) := by
    simp [between, advance_inside, hslash, hb]
  rw [skipStringTail, dif_neg (by simp), if_pos (current_between_eq before _ (by decide)), hstep,
    (passes_skipStringTail quote).run _ _ hrest]
  simp [between, hslash, hb]

theorem skipStringTail_between {quote : Char} (hquote : quote.toNat < 0x80) (before cs : List Char) :
    (between before cs).skipStringTail quote =
      between (before ++ cs.take (stringTail quote cs)) (cs.drop (stringTail quote cs)) := by
  have hend (before : List Char) : (between before []).skipStringTail quote = between before [] := by
    rw [skipStringTail, dif_pos (by simp)]
  fun_induction stringTail quote cs generalizing before with
  | case1 => simp [hend]
  | case2 =>
    have hslash : charBytes '\\' = ['\\'] := charBytes_of_lt (by decide)
    have hlast : (between before ['\\']).advance 2 = between (before ++ ['\\']) [] := by
      simp [between, advance_inside, hslash]
    rw [skipStringTail, dif_neg (by simp),
      if_pos (current_between_eq before [] (by decide)), hlast, hend]
    rfl
  | case3 c cs ih =>
    rw [skipStringTail_escape hquote, ih]
    simp
  | case4 cs hnil hcons =>
    have hslash : quote ≠ '\\' := ne_backslash hnil hcons
    have hcurrent := current_between_eq before cs hquote
    rw [skipStringTail, dif_neg (by simp), if_neg (by rwa [hcurrent]), if_pos hcurrent,
      advance_one_between before cs hquote]
    rfl
  | case5 c cs hnil hcons hne ih =>
    have hslash : c ≠ '\\' := ne_backslash hnil hcons
    rw [(passes_skipStringTail quote).char _ _ ⟨hslash, hne⟩, ih]
    · simp
    · exact fun _ b hb => ⟨fun h => absurd (h ▸ hb) (by decide),
        fun h => absurd (h ▸ hb) (Nat.not_le.2 hquote)⟩

theorem apply_peek_one {p : Char → Bool} (hp : Coarse p) (hend : p endOfText = false)
    (before : List Char) {c : Char} (hc : c.toNat < 0x80) (cs : List Char) :
    p ((between before (c :: cs)).peek 1) = cs.head?.any p := by
  rw [peek_one_between before cs hc]
  cases cs with
  | nil => simpa [between] using hend
  | cons d cs => exact apply_current_between _ _ hp

theorem peek_one_eq {x : Char} (hx : x.toNat < 0x80) (hend : x ≠ endOfText) (before : List Char) {c : Char}
    (hc : c.toNat < 0x80) (cs : List Char) :
    (between before (c :: cs)).peek 1 = x ↔ cs.head? = some x := by
  have hany := apply_peek_one (coarse_eq hx) (by simpa using hend.symm) before hc cs
  cases cs <;> simpa using hany

theorem skipBlockTail_between (before cs : List Char) : (between before cs).skipBlockTail =
    between (before ++ cs.take (blockTail cs)) (cs.drop (blockTail cs)) := by
  induction cs generalizing before with
  | nil =>
    rw [skipBlockTail, dif_pos (by simp)]
    simp [blockTail]
  | cons c cs ih =>
    rw [blockTail_cons]
    by_cases hstar : c = '*'
    · subst hstar
      have hcurrent := current_between_eq before (c := '*') cs (by decide)
      have hpeek := peek_one_eq (x := '/') (by decide) (by decide) before (c := '*') (by decide) cs
      rw [skipBlockTail, dif_neg (by simp)]
      by_cases hslash : cs.head? = some '/'
      · rw [if_pos ⟨hcurrent, hpeek.2 hslash⟩, if_pos ⟨rfl, hslash⟩]
        obtain ⟨cs, rfl⟩ := List.head?_eq_some_iff.1 hslash
        rw [advance_two_between before cs (by decide) (by decide)]
        rfl
      · rw [if_neg fun h => hslash (hpeek.1 h.2), if_neg fun h => hslash h.2,
          advance_one_between _ _ (by decide), ih]
        simp
    · rw [if_neg (by simp [hstar]), passes_skipBlockTail.char _ _ hstar, ih]
      · simp
      · exact fun _ b hb h => absurd (h ▸ hb) (by decide)

end ByteCursor

/-! ### Numbers and words -/

theorem flatMap_charBytes_of_ascii {cs : List Char} (h : ∀ c ∈ cs, c.toNat < 0x80) :
    cs.flatMap charBytes = cs := by
  induction cs with
  | nil => rfl
  | cons c cs ih =>
    obtain ⟨hc, hcs⟩ := List.forall_mem_cons.1 h
    rw [List.flatMap_cons, charBytes_of_lt hc, ih hcs, List.singleton_append]

theorem flatMap_charBytes_split {cs : List Char} {n : Nat} (h : ∀ c ∈ cs.take n, c.toNat < 0x80) :
    cs.flatMap charBytes = cs.take n ++ (cs.drop n).flatMap charBytes := by
  conv_lhs => rw [← List.take_append_drop n cs]
  rw [List.flatMap_append, flatMap_charBytes_of_ascii h]

theorem toNat_lt_of_isNumberPart {c : Char} (h : isNumberPart c = true) : c.toNat < 0x80 := by
  simp only [isNumberPart, isSign, Bool.or_eq_true, decide_eq_true_eq] at h
  rcases h with (h | rfl | rfl) | rfl
  · exact toNat_lt_of_isWordPart h
  all_goals decide

section

-- A character that no number has ends one just as a line feed does.
variable {cs after : List Char} (h : ∀ c ∈ after.head?, isNumberPart c = false)

include h

theorem startsNumber_iff_lineFeed : startsNumber (cs ++ after) = true ↔
    startsNumber (cs ++ ['\n']) = true := by
  constructor
  · exact fun hs => (number_append_lineFeed hs (number_le_of_not_isNumberPart hs h)).1
  · intro hs
    cases cs with
    | nil => cases hs
    | cons c cs =>
      refine startsNumber_of_lineFeed hs (.inr (apart_of_head? fun d hd => ?_))
      have hd := h d hd
      simp only [isNumberPart, Bool.or_eq_false_iff] at hd
      exact hd.1.1

theorem number_eq_lineFeed (hs : startsNumber (cs ++ after) = true) :
    number (cs ++ after) = number (cs ++ ['\n']) :=
  (number_append_lineFeed hs (number_le_of_not_isNumberPart hs h)).2.symm

end

theorem exists_split_isNumberPart (cs : List Char) : ∃ front back bytes, cs = front ++ back ∧
    cs.flatMap charBytes = front ++ bytes ∧ (∀ c ∈ back.head?, isNumberPart c = false) ∧
    ∀ b ∈ bytes.head?, isNumberPart b = false := by
  obtain ⟨front, back, rfl, hrun⟩ := exists_longestRun isNumberPart cs
  refine ⟨front, back, back.flatMap charBytes, rfl, ?_, hrun.stops, ?_⟩
  · rw [List.flatMap_append,
      flatMap_charBytes_of_ascii fun c hc => toNat_lt_of_isNumberPart (hrun.inside c hc)]
  · cases back with
    | nil => simp
    | cons c back =>
      obtain ⟨b, bs, hb⟩ := exists_charBytes_cons c
      have hbytes : ∀ x ∈ charBytes c, isNumberPart x = false :=
        forall_mem_charBytes (hrun.stops c rfl) fun _ x hx =>
          Bool.eq_false_of_not_eq_true fun hp => Nat.not_lt.2 hx (toNat_lt_of_isNumberPart hp)
      simpa [hb] using hbytes b (by simp [hb])

theorem startsNumber_bytes (cs : List Char) :
    startsNumber (cs.flatMap charBytes) = startsNumber cs := by
  obtain ⟨front, back, bytes, rfl, hbytes, hback, hb⟩ := exists_split_isNumberPart cs
  rw [hbytes, Bool.eq_iff_iff, startsNumber_iff_lineFeed hback, startsNumber_iff_lineFeed hb]

theorem number_bytes {cs : List Char} (h : startsNumber cs = true) :
    number (cs.flatMap charBytes) = number cs := by
  have hs := (startsNumber_bytes cs).trans h
  obtain ⟨front, back, bytes, rfl, hbytes, hback, hb⟩ := exists_split_isNumberPart cs
  rw [hbytes] at hs ⊢
  rw [number_eq_lineFeed hb hs, number_eq_lineFeed hback h]

namespace ByteCursor

theorem startsNumber_between (before cs : List Char) :
    (between before cs).startsNumber = ProtoSyntax.startsNumber cs := by
  rw [startsNumber, between, rest_inside, startsNumber_bytes]

theorem advance_ascii (before : List Char) {cs : List Char} {n : Nat} (hn : n ≤ cs.length)
    (h : ∀ c ∈ cs.take n, c.toNat < 0x80) :
    (between before cs).advance n = between (before ++ cs.take n) (cs.drop n) := by
  have hsplit := flatMap_charBytes_split h
  have hlength : (cs.take n).length = n := List.length_take_of_le hn
  rw [between, advance_inside, hsplit, List.take_left' hlength, List.drop_left' hlength, between,
    List.flatMap_append, flatMap_charBytes_of_ascii h]

theorem number_between (before : List Char) {cs : List Char} (h : ProtoSyntax.startsNumber cs = true) :
    (between before cs).number = ((ProtoSyntax.number cs).1,
      between (before ++ cs.take (ProtoSyntax.number cs).2) (cs.drop (ProtoSyntax.number cs).2)) := by
  rw [number, show (between before cs).rest = cs.flatMap charBytes from rest_inside _ _, number_bytes h]
  refine Prod.ext rfl (advance_ascii before (number_le cs) fun c hc => ?_)
  exact toNat_lt_of_isNumberPart (number_isNumberPart h c hc)

theorem word_between (before cs : List Char) : (between before cs).word =
    (String.ofList (cs.take (wordLength cs)),
      between (before ++ cs.take (wordLength cs)) (cs.drop (wordLength cs))) := by
  have hword : ∀ c ∈ cs.take (wordLength cs), c.toNat < 0x80 := fun c hc => by
    rw [wordLength, take_runLength] at hc
    exact toNat_lt_of_isWordPart (List.mem_takeWhile_imp hc)
  have hafter : (between before cs).advanceWhile isWordPart = _ :=
    advanceWhile_between (coarse_of_ascii fun _ => toNat_lt_of_isWordPart) before cs
  have hbytes : (between before cs).bytes = before.flatMap charBytes ++
      (cs.take (wordLength cs) ++ (cs.drop (wordLength cs)).flatMap charBytes) := by
    rw [← flatMap_charBytes_split hword]
    rfl
  have hstop : utf8Len (before ++ cs.take (wordLength cs)) =
      (before.flatMap charBytes ++ cs.take (wordLength cs)).length := by
    rw [← length_flatMap_charBytes, List.flatMap_append, flatMap_charBytes_of_ascii hword]
  refine Prod.ext ?_ hafter
  rw [word, hafter, position_between, position_between, hbytes, ← wordLength, hstop, ← List.append_assoc,
    List.take_left, ← length_flatMap_charBytes, List.drop_left]

/-! ### Tokens -/

theorem current_eq_iff {x : Char} (hx : x.toNat < 0x80) (before : List Char) (c : Char) (cs : List Char) :
    (between before (c :: cs)).current = x ↔ c = x := by
  simpa using apply_current_between before cs (coarse_eq hx)

theorem single_between (allowed : Punct → Bool) (before : List Char) (c : Char) (cs : List Char) :
    (between before (c :: cs)).single allowed =
      (punctOrInvalid allowed c, between (before ++ [c]) cs) := by
  rw [single, punctOrInvalid, apply_current_between before cs coarse_ofChar?, advanceChar_between]
  cases hp : Punct.ofChar? c with
  | none => rfl
  | some p =>
    dsimp only
    rw [advance_one_between before cs (toNat_lt_of_ofChar? hp)]
    split_ifs <;> rfl

theorem skipString_between {c : Char} (h : isQuote c = true) (before cs : List Char) :
    (between before (c :: cs)).skipString =
      between (before ++ c :: cs.take (stringTail c cs)) (cs.drop (stringTail c cs)) := by
  have hc := toNat_lt_of_isQuote h
  rw [skipString, current_between_eq before cs hc, advance_one_between before cs hc,
    skipStringTail_between hc, List.append_assoc, List.singleton_append]

theorem skipLine_between {c : Char} (h : isLineBreak c = false) (before cs : List Char) :
    (between before (c :: cs)).skipLine =
      between (before ++ c :: cs.take (lineLength cs)) (cs.drop (lineLength cs)) := by
  have hcoarse : Coarse fun c => !isLineBreak c :=
    (coarse_of_ascii fun _ => toNat_lt_of_isLineBreak).comp _
  rw [skipLine, advanceWhile_between hcoarse]
  simp [lineLength, runLength, h]

theorem skipBlockComment_between (before body : List Char) :
    (between before ('/' :: '*' :: body)).skipBlockComment =
      between (before ++ '/' :: '*' :: body.take (blockTail body)) (body.drop (blockTail body)) := by
  rw [skipBlockComment, advance_two_between before body (by decide) (by decide), skipBlockTail_between,
    List.append_assoc]
  rfl

end ByteCursor

open ByteCursor

theorem toNat_lt_of_isWordStart {c : Char} (h : isWordStart c = true) : c.toNat < 0x80 :=
  toNat_lt_of_isWordPart (isWordPart_of_isWordStart h)

theorem TextFormat.floatSuffix_between (kind : TokenKind) (before cs : List Char) :
    floatSuffix kind (between before cs) =
      if takesFloatSuffix kind && startsFloatSuffix cs then
        (.float, between (before ++ cs.take 1) (cs.drop 1))
      else (kind, between before cs) := by
  rw [floatSuffix]
  cases cs with
  | nil => simp [between, endOfText, startsFloatSuffix]
  | cons c cs =>
    have hf : (between before (c :: cs)).current = 'f' ↔ c = 'f' := current_eq_iff (by decide) before c cs
    have hF : (between before (c :: cs)).current = 'F' ↔ c = 'F' := current_eq_iff (by decide) before c cs
    simp only [hf, hF, startsFloatSuffix]
    by_cases hc : c = 'f' ∨ c = 'F'
    · have hascii : c.toNat < 0x80 := by rcases hc with rfl | rfl <;> decide
      rw [apply_peek_one (coarse_of_ascii fun _ => toNat_lt_of_isWordPart) rfl before hascii cs,
        advance_one_between before cs hascii, Bool.and_assoc]
      rfl
    · simp [not_or.1 hc]

namespace Language

variable (language : Language) (before : List Char) {c : Char} (cs : List Char)

def passed (before : List Char) (c : Char) (cs : List Char) (lexeme : TokenKind × Nat) :
    TokenKind × ByteCursor :=
  (lexeme.1, between (before ++ c :: cs.take lexeme.2) (cs.drop lexeme.2))

theorem number_passed (h : startsNumber (c :: cs) = true) :
    ((language.lexicon.number (c :: cs)).1,
        between (before ++ (c :: cs).take (language.lexicon.number (c :: cs)).2)
          ((c :: cs).drop (language.lexicon.number (c :: cs)).2)) =
      passed before c cs (language.lexicon.numberLexeme c cs) := by
  rw [passed, Lexicon.numberLexeme_kind, language.number_eq_succ h]
  rfl

theorem word_passed (h : isWordStart c = true) :
    (language.lexicon.wordKind (between before (c :: cs)).word.1, (between before (c :: cs)).word.2) =
      passed before c cs (language.lexicon.wordKind (String.ofList (c :: cs.take (wordLength cs))),
        wordLength cs) := by
  have hlength : wordLength (c :: cs) = wordLength cs + 1 := by
    simp [wordLength, runLength, isWordPart_of_isWordStart h]
  rw [word_between, hlength]
  rfl

end Language

theorem Schema.scan_slash (before cs : List Char) :
    scan (between before ('/' :: cs)) = Language.passed before '/' cs (slashLexeme cs) := by
  have hline := peek_one_eq (x := '/') (by decide) (by decide) before (c := '/') (by decide) cs
  have hblock := peek_one_eq (x := '*') (by decide) (by decide) before (c := '/') (by decide) cs
  rw [scan, if_pos (current_between_eq before cs (by decide)), slashLexeme]
  by_cases hslash : cs.head? = some '/'
  · rw [if_pos (hline.2 hslash), if_pos hslash]
    exact Prod.ext rfl (skipLine_between rfl before cs)
  rw [if_neg (mt hline.1 hslash), if_neg hslash]
  by_cases hstar : cs.head? = some '*'
  · rw [if_pos (hblock.2 hstar), if_pos hstar]
    obtain ⟨body, rfl⟩ := List.head?_eq_some_iff.1 hstar
    exact Prod.ext rfl (skipBlockComment_between before body)
  · rw [if_neg (mt hblock.1 hstar), if_neg hstar]
    exact Prod.ext rfl (advance_one_between before cs (by decide))

theorem Schema.scan_between (before : List Char) (c : Char) (cs : List Char) :
    scan (between before (c :: cs)) = Language.passed before c cs (Language.schema.lexeme c cs) := by
  by_cases hc : c = '/'
  · subst hc
    exact scan_slash before cs
  rw [scan, if_neg (mt (current_eq_iff (by decide) before c cs).1 hc), Language.schema.lexeme_eq hc,
    Lexicon.lexeme, apply_current_between before cs (coarse_of_ascii fun _ => toNat_lt_of_isQuote),
    apply_current_between before cs (coarse_of_ascii fun _ => toNat_lt_of_isWordStart),
    startsNumber_between]
  split_ifs with hquote hnumber hword
  · exact Prod.ext rfl (skipString_between hquote before cs)
  · rw [number_between before hnumber]
    exact Language.schema.number_passed before cs hnumber
  · exact Language.schema.word_passed before cs hword
  · exact single_between isPunct before c cs

theorem TextFormat.number_floatSuffix (before : List Char) {cs : List Char} (h : startsNumber cs = true) :
    floatSuffix (between before cs).number.1 (between before cs).number.2 =
      ((numberWithSuffix cs).1,
        between (before ++ cs.take (numberWithSuffix cs).2) (cs.drop (numberWithSuffix cs).2)) := by
  rw [number_between before h, floatSuffix_between, numberWithSuffix]
  dsimp only
  split_ifs
  · rw [List.append_assoc, ← List.take_add, List.drop_drop]
  · rfl

theorem TextFormat.scan_between (before : List Char) (c : Char) (cs : List Char) :
    scan (between before (c :: cs)) =
      Language.passed before c cs (Language.textFormat.lexeme c cs) := by
  by_cases hc : c = '#'
  · subst hc
    rw [scan, if_pos (current_between_eq before cs (by decide))]
    exact Prod.ext rfl (skipLine_between rfl before cs)
  rw [scan, if_neg (mt (current_eq_iff (by decide) before c cs).1 hc), Language.textFormat.lexeme_eq hc,
    Lexicon.lexeme, apply_current_between before cs (coarse_of_ascii fun _ => toNat_lt_of_isQuote),
    apply_current_between before cs (coarse_of_ascii fun _ => toNat_lt_of_isWordStart),
    startsNumber_between]
  split_ifs with hquote hnumber hword
  · exact Prod.ext rfl (skipString_between hquote before cs)
  · exact (number_floatSuffix before hnumber).trans
      (Language.textFormat.number_passed before cs hnumber)
  · exact Language.textFormat.word_passed before cs hword
  · exact single_between isPunct before c cs

theorem Language.scan_between (language : Language) (before : List Char) (c : Char) (cs : List Char) :
    language.scan (between before (c :: cs)) = passed before c cs (language.lexeme c cs) := by
  cases language with
  | schema => exact Schema.scan_between before c cs
  | textFormat => exact TextFormat.scan_between before c cs

end ProtoSyntax
