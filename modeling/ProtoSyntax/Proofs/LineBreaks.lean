import ProtoSyntax.Proofs.Lexicon

/-!
# Line breaks end lexemes

No number or word goes on past a line feed, and no scanner looks further than to the first character
that it does not claim, but to decide whether to claim it. So a lexeme stays what it is when a line
feed is put after it, or after all of the text. Strings and block comments that are terminated do
not go on either.
-/

namespace ProtoSyntax

/-- A scanner that claims as much if a line feed is put anywhere behind what it claims. -/
def Contained (f : List Char → Nat) : Prop :=
  ∀ body after more, f (body ++ after) ≤ body.length → f (body ++ '\n' :: more) = f (body ++ after)

theorem Contained.append {f g : List Char → Nat} (hf : Contained f) (hg : Contained g) :
    Contained fun cs => f cs + g (cs.drop (f cs)) := by
  intro body after more h
  dsimp only at h ⊢
  have hle : f (body ++ after) ≤ body.length := by omega
  have hdrop (cs : List Char) : (body ++ cs).drop (f (body ++ after)) =
      body.drop (f (body ++ after)) ++ cs := List.drop_append_of_le_length hle
  rw [hdrop] at h
  rw [hf body after more hle, hdrop, hdrop, hg _ after more (by rw [List.length_drop]; omega)]

theorem contained_runLength {p : Char → Bool} (hp : p '\n' = false) : Contained (runLength p) := by
  intro body after more h
  induction body with
  | nil =>
    have hbreak : runLength p ('\n' :: more) = 0 := by simp [runLength, hp]
    exact hbreak.trans (Nat.le_zero.1 h).symm
  | cons c body ih =>
    by_cases hc : p c = true
    · simp only [runLength, List.cons_append, List.takeWhile_cons, hc, if_pos,
        List.length_cons] at h ih ⊢
      rw [ih (by omega)]
    · simp [runLength, hc]

theorem contained_signLength : Contained signLength := by
  intro body after more h
  cases body with
  | nil => exact (Nat.le_zero.1 h).symm
  | cons c body => rfl

theorem contained_fractionLength : Contained fractionLength := by
  intro body after more h
  cases body with
  | nil => exact (Nat.le_zero.1 h).symm
  | cons c body =>
    by_cases hc : c = '.'
    · subst hc
      have hrun := contained_runLength (p := isDigit) rfl body after more
      simp only [List.cons_append, fractionLength, List.length_cons] at h ⊢
      rw [hrun (by omega)]
    · simp [fractionLength, hc]

theorem contained_exponentLength : Contained exponentLength := by
  intro body after more h
  cases body with
  | nil => exact (Nat.le_zero.1 h).symm
  | cons c body =>
    have hrun := contained_signLength.append (contained_runLength (p := isDigit) rfl) body after more
    simp only [List.cons_append, exponentLength, List.length_cons] at h hrun ⊢
    split
    · next hc =>
      rw [if_pos hc] at h
      rw [Nat.add_assoc, Nat.add_assoc, hrun (by omega)]
    · rfl

theorem contained_floatLength : Contained floatLength :=
  ((contained_runLength rfl).append contained_fractionLength).append contained_exponentLength

theorem any_head?_append_lineFeed {p : Char → Bool} (hp : p '\n' = false) (cs more : List Char) :
    (cs ++ '\n' :: more).head?.any p = cs.head?.any p := by
  cases cs <;> simp [hp]

/-- No word goes on from some characters to those after them. -/
def Apart (body after : List Char) : Prop :=
  ∀ p ∈ body.getLast?, ∀ q ∈ after.head?, isWordPart p = true → isWordPart q = false

section

variable {body after more : List Char}

theorem apart_nil_left : Apart [] after := by simp [Apart]

theorem apart_nil_right : Apart body [] := by simp [Apart]

theorem apart_of_getLast? (h : ∀ p ∈ body.getLast?, isWordPart p = false) : Apart body after :=
  fun p hp _ _ hword => Bool.noConfusion ((h p hp).symm.trans hword)

theorem apart_of_head? (h : ∀ q ∈ after.head?, isWordPart q = false) : Apart body after :=
  fun _ _ q hq _ => h q hq

theorem Apart.drop (h : Apart body after) (n : Nat) : Apart (body.drop n) after := by
  intro p hp
  rw [List.getLast?_drop] at hp
  split at hp
  · cases hp
  · exact h p hp

theorem atWord_of_length_le {word : List Char} (h : atWord word (body ++ after) = true)
    (hle : word.length ≤ body.length) : atWord word (body ++ '\n' :: more) = true := by
  simp only [atWord, Bool.and_eq_true, List.isPrefixOf_iff_prefix, Bool.not_eq_true'] at h ⊢
  obtain ⟨rest, rfl⟩ := List.prefix_of_prefix_length_le h.1 (List.prefix_append body after) hle
  have hnext := h.2
  rw [List.append_assoc, List.drop_left] at hnext
  refine ⟨⟨rest ++ '\n' :: more, by simp⟩, ?_⟩
  rw [List.append_assoc, List.drop_left, any_head?_append_lineFeed rfl]
  cases rest with
  | nil => rfl
  | cons c rest => exact hnext

theorem atInfOrNan_append_lineFeed (h : atInfOrNan (body ++ after) = true) (hle : 3 ≤ body.length) :
    atInfOrNan (body ++ '\n' :: more) = true := by
  simp only [atInfOrNan, Bool.or_eq_true] at h ⊢
  exact h.imp (atWord_of_length_le · hle) (atWord_of_length_le · hle)

theorem atInfOrNan_eq_false {cs : List Char} (h : startsUnsigned cs = true) :
    atInfOrNan cs = false := by
  cases cs with
  | nil => cases h
  | cons c cs =>
    have hi : c ≠ 'i' ∧ c ≠ 'n' := by
      constructor <;> rintro rfl <;> simp [startsUnsigned, isDigit] at h
    simp [atInfOrNan, atWord, hi.1.symm, hi.2.symm]

theorem startsUnsigned_of_lineFeed (h : startsUnsigned (body ++ '\n' :: more) = true) :
    startsUnsigned (body ++ after) = true := by
  match body with
  | [] => cases h
  | [c] =>
    by_cases hc : c = '.'
    · subst hc
      cases h
    · have hc' (cs : List Char) : startsUnsigned (c :: cs) = isDigit c := by simp [startsUnsigned, hc]
      rw [List.singleton_append, hc'] at h ⊢
      exact h
  | c :: d :: body =>
    by_cases hc : c = '.'
    · subst hc
      exact h
    · simpa [startsUnsigned, hc] using h

theorem startsHexadecimal_of_lineFeed (h : startsHexadecimal (body ++ '\n' :: more) = true) :
    startsHexadecimal (body ++ after) = true := by
  match body with
  | [] => cases h
  | [c] | [c, d] =>
    by_cases hc : c = '0'
    · subst hc
      cases more <;> simp [startsHexadecimal, isHexDigit, isDigit] at h
    · cases more <;> simp [startsHexadecimal, hc] at h
  | c :: d :: e :: body =>
    by_cases hc : c = '0'
    · subst hc
      exact h
    · simp [startsHexadecimal, hc] at h

theorem startsHexadecimal_of_length_le (h : startsHexadecimal (body ++ after) = true)
    (hle : 3 ≤ body.length) : startsHexadecimal (body ++ '\n' :: more) = true := by
  match body with
  | c :: d :: e :: body =>
    by_cases hc : c = '0'
    · subst hc
      exact h
    · simp [startsHexadecimal, hc] at h

theorem runLength_pos_of_startsHexadecimal {cs : List Char} (h : startsHexadecimal cs = true) :
    0 < runLength isHexDigit (cs.drop 2) := by
  fun_cases startsHexadecimal cs with
  | case1 x c cs =>
    simp only [startsHexadecimal, Bool.and_eq_true] at h
    exact runLength_pos h.2 cs
  | case2 cs hcs => simp [startsHexadecimal] at h

theorem startsOctal_of_lineFeed (h : startsOctal (body ++ '\n' :: more) = true) :
    startsOctal (body ++ after) = true := by
  match body with
  | [] => cases h
  | [c] =>
    by_cases hc : c = '0'
    · subst hc
      cases h
    · simp [startsOctal, hc] at h
  | c :: d :: body =>
    by_cases hc : c = '0'
    · subst hc
      exact h
    · simp [startsOctal, hc] at h

theorem startsOctal_of_length_le (h : startsOctal (body ++ after) = true) (hle : 2 ≤ body.length) :
    startsOctal (body ++ '\n' :: more) = true := by
  match body with
  | c :: d :: body =>
    by_cases hc : c = '0'
    · subst hc
      exact h
    · simp [startsOctal, hc] at h

theorem runLength_pos_of_startsOctal {cs : List Char} (h : startsOctal cs = true) :
    0 < runLength isOctalDigit (cs.drop 1) := by
  fun_cases startsOctal cs with
  | case1 c cs => exact runLength_pos (by simpa [startsOctal] using h) cs
  | case2 cs hcs => simp [startsOctal] at h

theorem runLength_lt_floatLength {cs : List Char}
    (h : (cs.drop (runLength isDigit cs)).head?.any continuesFloat = true) :
    runLength isDigit cs < floatLength cs := by
  rw [floatLength]
  cases hd : cs.drop (runLength isDigit cs) with
  | nil =>
    rw [hd] at h
    cases h
  | cons c rest =>
    rw [hd] at h
    by_cases hc : c = '.'
    · subst hc
      rw [fractionLength]
      omega
    · have he : c = 'e' ∨ c = 'E' := by simpa [continuesFloat, hc] using h
      simp [hd, fractionLength, hc, exponentLength, he]

theorem startsDecimal_of_length_le (h : startsDecimal (body ++ after) = true)
    (hle : runLength isDigit (body ++ after) ≤ body.length) :
    startsDecimal (body ++ '\n' :: more) = true := by
  simp only [startsDecimal, Bool.and_eq_true, decide_eq_true_eq, Bool.not_eq_true'] at h ⊢
  rw [contained_runLength rfl body after more hle, List.drop_append_of_le_length hle] at *
  refine ⟨h.1, ?_⟩
  rw [any_head?_append_lineFeed rfl]
  have hnext := h.2
  cases hb : body.drop (runLength isDigit (body ++ after)) with
  | nil => rfl
  | cons c rest =>
    rw [hb] at hnext
    exact hnext

theorem startsDecimal_of_lineFeed (h : startsDecimal (body ++ '\n' :: more) = true)
    (hle : floatLength (body ++ after) ≤ body.length) : startsDecimal (body ++ after) = true := by
  have hrun : runLength isDigit (body ++ after) ≤ body.length := by
    refine Nat.le_trans ?_ hle
    rw [floatLength, Nat.add_assoc]
    exact Nat.le_add_right _ _
  simp only [startsDecimal, Bool.and_eq_true, decide_eq_true_eq, Bool.not_eq_true'] at h ⊢
  rw [contained_runLength rfl body after more hrun, List.drop_append_of_le_length hrun,
    any_head?_append_lineFeed rfl] at h
  refine ⟨h.1, Bool.eq_false_of_not_eq_true fun hnext => ?_⟩
  have hlt := runLength_lt_floatLength hnext
  rw [List.drop_append_of_le_length hrun] at hnext
  cases hb : body.drop (runLength isDigit (body ++ after)) with
  | nil =>
    have := List.drop_eq_nil_iff.1 hb
    omega
  | cons c rest =>
    rw [hb] at h hnext
    exact Bool.noConfusion (h.2.symm.trans hnext)

theorem startsUnsigned_append_lineFeed (hs : startsUnsigned (body ++ after) = true)
    (h : (unsigned (body ++ after)).2 ≤ body.length) :
    startsUnsigned (body ++ '\n' :: more) = true := by
  match body with
  | [] => exact absurd h (Nat.not_le.2 (unsigned_pos (.inl hs)))
  | [c] =>
    by_cases hc : c = '.'
    · subst hc
      -- A point starts a number only with a digit after it, and then it is no lexeme alone.
      cases after with
      | nil => cases hs
      | cons d after =>
        have hrun := runLength_pos (p := isDigit) (by simpa [startsUnsigned] using hs) after
        have hfloat : unsigned ('.' :: d :: after) = (.float, floatLength ('.' :: d :: after)) := by
          simp [unsigned, atInfOrNan, atWord, startsHexadecimal, startsOctal, startsDecimal, runLength,
            isDigit]
        rw [List.singleton_append, hfloat] at h
        simp [floatLength, runLength, fractionLength, isDigit] at h hrun
        omega
    · have hc' (cs : List Char) : startsUnsigned (c :: cs) = isDigit c := by simp [startsUnsigned, hc]
      rw [List.singleton_append, hc'] at hs ⊢
      exact hs
  | c :: d :: body =>
    by_cases hc : c = '.'
    · subst hc
      exact hs
    · simpa [startsUnsigned, hc] using hs

theorem unsigned_append_lineFeed (h : (unsigned (body ++ after)).2 ≤ body.length)
    (hs : startsUnsigned (body ++ after) = true ∨ atInfOrNan (body ++ after) = true) :
    unsigned (body ++ '\n' :: more) = unsigned (body ++ after) := by
  -- In the order of the tests in the scanner: each one that fails has to fail before a line feed too.
  unfold unsigned at h ⊢
  by_cases hinf : atInfOrNan (body ++ after) = true
  · rw [if_pos hinf] at h ⊢
    rw [if_pos (atInfOrNan_append_lineFeed hinf h)]
  · have hunsigned : startsUnsigned (body ++ '\n' :: more) = true :=
      startsUnsigned_append_lineFeed (hs.resolve_right hinf) h
    have hinf' : ¬ atInfOrNan (body ++ '\n' :: more) = true := by
      rw [atInfOrNan_eq_false hunsigned]
      exact Bool.noConfusion
    rw [if_neg hinf] at h ⊢
    rw [if_neg hinf']
    by_cases hhex : startsHexadecimal (body ++ after) = true
    · rw [if_pos hhex] at h ⊢
      have hpos := runLength_pos_of_startsHexadecimal hhex
      have hrun := contained_runLength (p := isHexDigit) rfl (body.drop 2) after more
      dsimp only at h
      rw [if_pos (startsHexadecimal_of_length_le hhex (by omega))]
      rw [List.drop_append_of_le_length (by omega)] at h ⊢
      rw [List.drop_append_of_le_length (by omega), hrun (by rw [List.length_drop]; omega)]
    rw [if_neg hhex] at h ⊢
    rw [if_neg fun h => hhex (startsHexadecimal_of_lineFeed h)]
    by_cases hoctal : startsOctal (body ++ after) = true
    · rw [if_pos hoctal] at h ⊢
      have hpos := runLength_pos_of_startsOctal hoctal
      have hrun := contained_runLength (p := isOctalDigit) rfl (body.drop 1) after more
      dsimp only at h
      rw [if_pos (startsOctal_of_length_le hoctal (by omega))]
      rw [List.drop_append_of_le_length (by omega)] at h ⊢
      rw [List.drop_append_of_le_length (by omega), hrun (by rw [List.length_drop]; omega)]
    rw [if_neg hoctal] at h ⊢
    rw [if_neg fun h => hoctal (startsOctal_of_lineFeed h)]
    by_cases hdecimal : startsDecimal (body ++ after) = true
    · rw [if_pos hdecimal] at h ⊢
      rw [if_pos (startsDecimal_of_length_le hdecimal h), contained_runLength rfl body after more h]
    · rw [if_neg hdecimal] at h ⊢
      rw [if_neg fun hd => hdecimal (startsDecimal_of_lineFeed hd h),
        contained_floatLength body after more h]

theorem startsNumber_iff {cs : List Char} : startsNumber cs = true ↔
    signLength cs = 1 ∧ (startsUnsigned (cs.drop 1) = true ∨ atInfOrNan (cs.drop 1) = true) ∨
      signLength cs = 0 ∧ startsUnsigned cs = true := by
  cases cs with
  | nil => simp [startsNumber, startsUnsigned, signLength]
  | cons c cs => by_cases hc : isSign c = true <;> simp [startsNumber, signLength, hc]

theorem number_append_lineFeed (hs : startsNumber (body ++ after) = true)
    (h : (number (body ++ after)).2 ≤ body.length) :
    startsNumber (body ++ '\n' :: more) = true ∧
      number (body ++ '\n' :: more) = number (body ++ after) := by
  have hsum : (number (body ++ after)).2 = signLength (body ++ after) +
      (unsigned ((body ++ after).drop (signLength (body ++ after)))).2 := rfl
  rw [hsum] at h
  have hsign := contained_signLength body after more (by omega)
  have hdrop (cs : List Char) : (body ++ cs).drop (signLength (body ++ after)) =
      body.drop (signLength (body ++ after)) ++ cs := List.drop_append_of_le_length (by omega)
  have hunsigned : (unsigned (body.drop (signLength (body ++ after)) ++ after)).2 ≤
      (body.drop (signLength (body ++ after))).length := by
    rw [hdrop] at h
    rw [List.length_drop]
    omega
  rcases startsNumber_iff.1 hs with ⟨hone, hs⟩ | ⟨hzero, hs⟩
  · rw [hone] at hdrop hunsigned
    rw [hdrop] at hs
    have heq := @unsigned_append_lineFeed _ _ more hunsigned hs
    refine ⟨startsNumber_iff.2 (.inl ⟨hsign.trans hone, ?_⟩), ?_⟩
    · rw [hdrop]
      refine hs.imp (startsUnsigned_append_lineFeed · hunsigned) fun hinf => ?_
      rw [unsigned, if_pos hinf] at hunsigned
      exact atInfOrNan_append_lineFeed hinf hunsigned
    · rw [number, number, hsign, hone, hdrop, hdrop, heq]
  · rw [hzero, List.drop_zero] at hunsigned
    have heq := @unsigned_append_lineFeed _ _ more hunsigned (.inl hs)
    refine ⟨startsNumber_iff.2
      (.inr ⟨hsign.trans hzero, startsUnsigned_append_lineFeed hs hunsigned⟩), ?_⟩
    rw [number, number, hsign, hzero, List.drop_zero, List.drop_zero, heq]

theorem atWord_of_lineFeed {word cs : List Char} (hw : '\n' ∉ word)
    (h : atWord word (cs ++ '\n' :: more) = true) : atWord word cs = true := by
  simp only [atWord, Bool.and_eq_true, List.isPrefixOf_iff_prefix, Bool.not_eq_true'] at h ⊢
  have hle : word.length ≤ cs.length := by
    by_contra hlt
    obtain ⟨rest, hrest⟩ : cs ++ ['\n'] <+: word :=
      List.prefix_of_prefix_length_le ⟨more, by simp⟩ h.1 (by simp; omega)
    exact hw (hrest ▸ by simp)
  obtain ⟨rest, rfl⟩ := List.prefix_of_prefix_length_le h.1 (List.prefix_append cs _) hle
  have hnext := h.2
  rw [List.append_assoc, List.drop_left, any_head?_append_lineFeed rfl] at hnext
  exact ⟨List.prefix_append _ _, by rwa [List.drop_left]⟩

theorem atInfOrNan_of_lineFeed {cs : List Char} (h : atInfOrNan (cs ++ '\n' :: more) = true) :
    atInfOrNan cs = true := by
  simp only [atInfOrNan, Bool.or_eq_true] at h ⊢
  exact h.imp (atWord_of_lineFeed (by decide)) (atWord_of_lineFeed (by decide))

theorem atWord_append {word cs : List Char} (hw : word.getLast?.any isWordPart = true)
    (h : atWord word cs = true) (hapart : Apart cs after) : atWord word (cs ++ after) = true := by
  simp only [atWord, Bool.and_eq_true, List.isPrefixOf_iff_prefix, Bool.not_eq_true'] at h ⊢
  obtain ⟨⟨rest, rfl⟩, hnext⟩ := h
  rw [List.drop_left] at hnext
  refine ⟨⟨rest ++ after, by simp⟩, ?_⟩
  rw [List.append_assoc, List.drop_left]
  cases rest with
  | nil =>
    rw [List.append_nil] at hapart
    obtain ⟨p, hp, hpart⟩ := (Option.any_eq_true _ _).1 hw
    refine Bool.eq_false_of_not_eq_true fun hany => ?_
    obtain ⟨q, hq, hword⟩ := (Option.any_eq_true _ _).1 hany
    exact Bool.noConfusion ((hapart p hp q hq hpart).symm.trans hword)
  | cons c rest => exact hnext

theorem atInfOrNan_append {cs : List Char} (h : atInfOrNan cs = true) (hapart : Apart cs after) :
    atInfOrNan (cs ++ after) = true := by
  simp only [atInfOrNan, Bool.or_eq_true] at h ⊢
  exact h.imp (atWord_append rfl · hapart) (atWord_append rfl · hapart)

/-- What starts a number before a line feed does so too if no word is cut by the line feed. A sign does
not start one alone. -/
theorem startsNumber_of_lineFeed {c : Char} (h : startsNumber (c :: (body ++ '\n' :: more)) = true)
    (hend : isSign c = false ∨ Apart body after) : startsNumber (c :: (body ++ after)) = true := by
  by_cases hc : isSign c = true
  · simp only [startsNumber, hc, if_pos, Bool.or_eq_true] at h ⊢
    refine h.imp startsUnsigned_of_lineFeed fun h => ?_
    rcases hend with hsign | hapart
    · exact Bool.noConfusion (hsign.symm.trans hc)
    · exact atInfOrNan_append (atInfOrNan_of_lineFeed h) hapart
  · simp only [startsNumber, hc] at h ⊢
    exact @startsUnsigned_of_lineFeed (c :: body) after more h

end

def endsString (quote : Char) : List Char → Bool
  | [] => false
  | ['\\'] => false
  | '\\' :: _ :: cs => endsString quote cs
  | c :: cs => if c = quote then cs.isEmpty else endsString quote cs

/-- Whether the text of a token ends the token, so that it did not just reach the end of its text. -/
def isTerminated (kind : TokenKind) (text : List Char) : Bool :=
  match kind, text with
  | .string, quote :: cs => endsString quote cs
  | .comment true, _ :: _ :: cs => ['*', '/'].isSuffixOf cs
  | _, _ => true

def Token.isTerminated (t : Token) : Bool := ProtoSyntax.isTerminated t.kind t.text.toList

theorem stringTail_cons {quote c : Char} (hc : c ≠ '\\') (cs : List Char) :
    stringTail quote (c :: cs) = if c = quote then 1 else stringTail quote cs + 1 := by
  simp [stringTail, hc]

theorem stringTail_of_endsString {quote : Char} {cs : List Char} (h : endsString quote cs = true)
    (more : List Char) : stringTail quote (cs ++ more) = cs.length := by
  fun_induction endsString quote cs with
  | case1 | case2 => cases h
  | case3 c cs ih => simp [stringTail, ih h]
  | case4 cs hnil hcons =>
    have hc : quote ≠ '\\' := ne_backslash hnil hcons
    rw [List.cons_append, stringTail_cons hc, if_pos rfl, List.isEmpty_iff.1 h]
    rfl
  | case5 c cs hnil hcons hquote ih =>
    have hc : c ≠ '\\' := ne_backslash hnil hcons
    rw [List.cons_append, stringTail_cons hc, if_neg hquote, ih h]
    rfl

theorem blockTail_cons (c : Char) (cs : List Char) :
    blockTail (c :: cs) = if c = '*' ∧ cs.head? = some '/' then 2 else blockTail cs + 1 := by
  by_cases h : c = '*' ∧ cs.head? = some '/'
  · obtain ⟨rfl, hcs⟩ := h
    obtain ⟨tail, rfl⟩ := List.head?_eq_some_iff.1 hcs
    rfl
  · rw [if_neg h]
    cases cs with
    | nil => simp [blockTail]
    | cons d cs =>
      have hne : ∀ tail, c = '*' → d :: cs = '/' :: tail → False := by
        rintro tail rfl hd
        exact h ⟨rfl, hd ▸ rfl⟩
      rw [blockTail]
      exact hne

theorem blockTail_of_isSuffixOf {body after : List Char} (more : List Char)
    (h : ['*', '/'] <:+ (body ++ after).take (blockTail (body ++ after)))
    (hle : blockTail (body ++ after) ≤ body.length) :
    blockTail (body ++ more) = blockTail (body ++ after) := by
  induction body with
  | nil =>
    rw [Nat.le_zero.1 hle] at h
    simp at h
  | cons c body ih =>
    rw [List.cons_append, blockTail_cons] at h hle
    rw [List.cons_append, List.cons_append, blockTail_cons, blockTail_cons]
    by_cases hend : c = '*' ∧ (body ++ after).head? = some '/'
    · rw [if_pos hend] at hle ⊢
      cases body with
      | nil => simp at hle
      | cons d body => exact if_pos hend
    · rw [if_neg hend] at hle h ⊢
      rw [List.take_succ_cons, List.suffix_cons_iff] at h
      rcases h with h | h
      · obtain ⟨rfl, htake⟩ := List.cons.inj h
        have hhead := congrArg List.head? htake
        rw [List.head?_take] at hhead
        split at hhead
        · cases hhead
        · exact absurd ⟨rfl, hhead.symm⟩ hend
      · rw [List.length_cons] at hle
        cases body with
        | nil =>
          have hzero : blockTail after = 0 := by simpa using hle
          rw [List.nil_append, hzero] at h
          simp at h
        | cons d body => exact (if_neg hend).trans (congrArg (· + 1) (ih h (by omega)))

theorem stringTail_append {quote : Char} {body after : List Char} (more : List Char)
    (h : endsString quote ((body ++ after).take (stringTail quote (body ++ after))) = true)
    (hle : stringTail quote (body ++ after) ≤ body.length) :
    stringTail quote (body ++ more) = stringTail quote (body ++ after) := by
  rw [List.take_append_of_le_length hle] at h
  conv_lhs => rw [← List.take_append_drop (stringTail quote (body ++ after)) body, List.append_assoc]
  rw [stringTail_of_endsString h, List.length_take, Nat.min_eq_left hle]

theorem word_append_lineFeed {body after : List Char} (more : List Char) {c : Char}
    (kind : String → TokenKind) (hle : wordLength (body ++ after) ≤ body.length) :
    (kind (String.ofList (c :: (body ++ '\n' :: more).take (wordLength (body ++ '\n' :: more)))),
        wordLength (body ++ '\n' :: more)) =
      (kind (String.ofList (c :: (body ++ after).take (wordLength (body ++ after)))),
        wordLength (body ++ after)) := by
  rw [show wordLength (body ++ '\n' :: more) = wordLength (body ++ after) from
      contained_runLength rfl body after more hle, List.take_append_of_le_length hle,
    List.take_append_of_le_length hle]

namespace Schema

theorem slashLexeme_eq_invalid {cs : List Char} (h : (slashLexeme cs).2 = 0) :
    slashLexeme cs = (.invalid, 0) := by
  rw [slashLexeme] at h ⊢
  by_cases hslash : cs.head? = some '/'
  · obtain ⟨cs, rfl⟩ := List.head?_eq_some_iff.1 hslash
    rw [if_pos hslash] at h
    have := runLength_pos (p := fun c => !isLineBreak c) (c := '/') rfl cs
    simp only [lineLength] at h
    omega
  · rw [if_neg hslash] at h ⊢
    by_cases hstar : cs.head? = some '*'
    · rw [if_pos hstar] at h
      cases h
    · rw [if_neg hstar]

theorem slashLexeme_append_lineFeed {body after : List Char} (more : List Char)
    (hle : (slashLexeme (body ++ after)).2 ≤ body.length)
    (ht : isTerminated (slashLexeme (body ++ after)).1
      ('/' :: (body ++ after).take (slashLexeme (body ++ after)).2) = true) :
    slashLexeme (body ++ '\n' :: more) = slashLexeme (body ++ after) := by
  cases body with
  | nil => exact (slashLexeme_eq_invalid (Nat.le_zero.1 hle)).symm
  | cons d body =>
    rw [slashLexeme] at hle ht
    rw [slashLexeme, slashLexeme]
    simp only [List.cons_append, List.head?_cons, List.tail_cons, Option.some.injEq] at hle ht ⊢
    by_cases hslash : d = '/'
    · rw [if_pos hslash] at hle ⊢
      have hline := contained_runLength (p := fun c => !isLineBreak c) rfl (d :: body) after more hle
      rw [if_pos hslash]
      exact congrArg (Prod.mk (TokenKind.comment false)) hline
    · rw [if_neg hslash] at hle ht ⊢
      rw [if_neg hslash]
      by_cases hstar : d = '*'
      · rw [if_pos hstar] at hle ht ⊢
        have hsuffix : ['*', '/'] <:+ (body ++ after).take (blockTail (body ++ after)) := by
          simpa [isTerminated] using ht
        rw [if_pos hstar, blockTail_of_isSuffixOf _ hsuffix (Nat.le_of_succ_le_succ hle)]
      · rw [if_neg hstar, if_neg hstar]

end Schema

namespace TextFormat

def suffixLength (cs : List Char) : Nat := if startsFloatSuffix cs then 1 else 0

theorem startsFloatSuffix_append_lineFeed {cs after : List Char} (more : List Char)
    (hle : suffixLength (cs ++ after) ≤ cs.length)
    (hend : suffixLength (cs ++ after) = cs.length ∨ Apart cs after) :
    startsFloatSuffix (cs ++ '\n' :: more) = startsFloatSuffix (cs ++ after) := by
  cases cs with
  | nil =>
    by_cases hafter : startsFloatSuffix ([] ++ after) = true
    · rw [suffixLength, if_pos hafter] at hle
      cases hle
    · exact (Bool.eq_false_of_not_eq_true hafter).symm
  | cons c cs =>
    simp only [List.cons_append, startsFloatSuffix, any_head?_append_lineFeed (p := isWordPart) rfl]
    cases cs with
    | cons d cs => rfl
    | nil =>
      by_cases hsuffix : c = 'f' ∨ c = 'F'
      · have hnext : after.head?.any isWordPart = false := by
          refine Bool.eq_false_of_not_eq_true fun hany => ?_
          rcases hend with hend | hapart
          · simp [suffixLength, startsFloatSuffix, hany] at hend
          · obtain ⟨q, hq, hword⟩ := (Option.any_eq_true _ _).1 hany
            have hc : isWordPart c = true := by rcases hsuffix with rfl | rfl <;> rfl
            exact Bool.noConfusion ((hapart c rfl q hq hc).symm.trans hword)
        simp [hnext]
      · simp [not_or.1 hsuffix]

theorem numberWithSuffix_append_lineFeed {body after : List Char} (more : List Char)
    (hs : startsNumber (body ++ after) = true)
    (hle : (numberWithSuffix (body ++ after)).2 ≤ body.length)
    (hend : (numberWithSuffix (body ++ after)).2 = body.length ∨ Apart body after) :
    startsNumber (body ++ '\n' :: more) = true ∧
      numberWithSuffix (body ++ '\n' :: more) = numberWithSuffix (body ++ after) := by
  have hnumber : (number (body ++ after)).2 ≤ body.length := by
    rcases numberWithSuffix_cases (body ++ after) with he | ⟨-, he⟩
    · exact he ▸ hle
    · rw [he] at hle
      exact Nat.le_of_succ_le hle
  obtain ⟨hs', heq⟩ := @number_append_lineFeed body after more hs hnumber
  refine ⟨hs', ?_⟩
  by_cases htakes : takesFloatSuffix (number (body ++ after)).1 = true
  · have hlength : (numberWithSuffix (body ++ after)).2 = (number (body ++ after)).2 +
        suffixLength (body.drop (number (body ++ after)).2 ++ after) := by
      simp only [numberWithSuffix, htakes, Bool.true_and, List.drop_append_of_le_length hnumber,
        suffixLength]
      split_ifs <;> rfl
    have hsuffix := @startsFloatSuffix_append_lineFeed (body.drop (number (body ++ after)).2) after
      more (by rw [List.length_drop]; omega)
      (hend.imp (fun hend => by rw [List.length_drop]; omega) (·.drop _))
    simp only [numberWithSuffix, heq, List.drop_append_of_le_length hnumber, hsuffix]
  · simp only [numberWithSuffix, heq, Bool.eq_false_of_not_eq_true htakes, Bool.false_and]

end TextFormat

namespace Language

variable (language : Language) {c : Char} {body after : List Char} (more : List Char)

theorem number_append_lineFeed (hs : startsNumber (body ++ after) = true)
    (hle : (language.lexicon.number (body ++ after)).2 ≤ body.length)
    (hend : (language.lexicon.number (body ++ after)).2 = body.length ∨ Apart body after) :
    startsNumber (body ++ '\n' :: more) = true ∧
      language.lexicon.number (body ++ '\n' :: more) = language.lexicon.number (body ++ after) := by
  cases language with
  | schema => exact ProtoSyntax.number_append_lineFeed hs hle
  | textFormat => exact TextFormat.numberWithSuffix_append_lineFeed more hs hle hend

theorem lexicon_append_lineFeed (hle : (language.lexicon.lexeme c (body ++ after)).2 ≤ body.length)
    (hend : (language.lexicon.lexeme c (body ++ after)).2 = body.length ∨ Apart body after)
    (ht : isTerminated (language.lexicon.lexeme c (body ++ after)).1
      (c :: (body ++ after).take (language.lexicon.lexeme c (body ++ after)).2) = true) :
    language.lexicon.lexeme c (body ++ '\n' :: more) = language.lexicon.lexeme c (body ++ after) := by
  rw [Lexicon.lexeme] at hle ht hend
  rw [Lexicon.lexeme, Lexicon.lexeme]
  by_cases hquote : isQuote c = true
  · rw [if_pos hquote] at hle ht
    rw [if_pos hquote, if_pos hquote, stringTail_append _ ht hle]
  rw [if_neg hquote] at hle hend
  rw [if_neg hquote, if_neg hquote]
  by_cases hnumber : startsNumber (c :: (body ++ after)) = true
  · rw [if_pos hnumber] at hle hend
    have hlength := language.number_eq_succ hnumber
    have hend : (language.lexicon.number (c :: body ++ after)).2 = (c :: body).length ∨
        Apart (c :: body) after := by
      rw [List.cons_append, List.length_cons, hlength]
      cases body with
      | nil => exact .inl (congrArg Nat.succ (Nat.le_zero.1 hle))
      | cons d body => exact hend.imp_left (congrArg Nat.succ)
    obtain ⟨hnumber', heq⟩ := @number_append_lineFeed language (c :: body) after more hnumber
      (by rw [List.cons_append, List.length_cons]; omega) hend
    rw [List.cons_append, List.cons_append] at heq
    rw [List.cons_append] at hnumber'
    rw [if_pos hnumber, if_pos hnumber', Lexicon.numberLexeme, Lexicon.numberLexeme, heq]
  rw [if_neg hnumber] at hle hend ⊢
  have hnumber' : ¬ startsNumber (c :: (body ++ '\n' :: more)) = true := by
    refine fun h => hnumber (startsNumber_of_lineFeed h ?_)
    by_cases hword : isWordStart c = true
    · exact .inl (isSign_of_isWordStart hword)
    · -- A sign alone is invalid, but could start a number with what follows it in the text.
      rw [if_neg hword] at hend
      exact .inr (hend.elim (fun h => List.length_eq_zero_iff.1 h.symm ▸ apart_nil_left) id)
  rw [if_neg hnumber']
  by_cases hword : isWordStart c = true
  · rw [if_pos hword] at hle ⊢
    rw [if_pos hword, word_append_lineFeed more language.lexicon.wordKind hle]
  · rw [if_neg hword, if_neg hword]

/-- A lexeme that is terminated is the same before a line feed, if the line feed is put right after it
or somewhere behind it where it cuts no word. -/
theorem lexeme_append_lineFeed (hle : (language.lexeme c (body ++ after)).2 ≤ body.length)
    (hend : (language.lexeme c (body ++ after)).2 = body.length ∨ Apart body after)
    (ht : isTerminated (language.lexeme c (body ++ after)).1
      (c :: (body ++ after).take (language.lexeme c (body ++ after)).2) = true) :
    language.lexeme c (body ++ '\n' :: more) = language.lexeme c (body ++ after) := by
  by_cases hmark : c = language.commentMark
  · subst hmark
    rw [lexeme_commentMark] at hle ht
    rw [lexeme_commentMark, lexeme_commentMark]
    cases language with
    | schema => exact Schema.slashLexeme_append_lineFeed more hle ht
    | textFormat =>
      have hline : lineLength (body ++ '\n' :: more) = lineLength (body ++ after) :=
        contained_runLength rfl body after more hle
      exact congrArg (Prod.mk (TokenKind.comment false)) hline
  · rw [language.lexeme_eq hmark] at hle hend ht
    rw [language.lexeme_eq hmark, language.lexeme_eq hmark,
      language.lexicon_append_lineFeed more hle hend ht]

end Language

theorem Language.lexeme_lineFeed (language : Language) {c : Char} {cs : List Char} (more : List Char)
    (ht : isTerminated (language.lexeme c cs).1 (c :: cs.take (language.lexeme c cs).2) = true) :
    language.lexeme c (cs ++ '\n' :: more) = language.lexeme c cs := by
  have hsame := @Language.lexeme_append_lineFeed language c cs [] more
  rw [List.append_nil] at hsame
  exact hsame (language.lexeme_bounded c cs) (.inr apart_nil_right) ht

end ProtoSyntax
