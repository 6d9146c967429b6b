import Mathlib.Data.List.TakeWhile
import ProtoSyntax.Proofs.Bytes
import ProtoSyntax.Proofs.LineBreaks

/-!
# Numbers

A number begins with a digit, with a point before a digit, or with a sign and one of the words `inf` and
`nan`. After the sign there are five ways to read it, and the first one that applies is taken; the last
of them, for floating point, takes the longest beginning that has the form of such a number.
-/

namespace ProtoSyntax

/-- A run of characters of a class, as long as it can be before the characters after it. -/
structure LongestRun (p : Char → Bool) (run after : List Char) : Prop where
  inside : ∀ c ∈ run, p c = true
  stops : ∀ c ∈ after.head?, p c = false

theorem LongestRun.runLength_eq {p : Char → Bool} {run after : List Char} (h : LongestRun p run after) :
    runLength p (run ++ after) = run.length := by
  rw [runLength, List.takeWhile_append_of_pos h.inside]
  cases after with
  | nil => simp
  | cons c after => simp [h.stops c rfl]

theorem exists_longestRun (p : Char → Bool) (cs : List Char) :
    ∃ run after, cs = run ++ after ∧ LongestRun p run after := by
  refine ⟨cs.takeWhile p, cs.dropWhile p, List.takeWhile_append_dropWhile.symm,
    fun c hc => List.mem_takeWhile_imp hc, fun c hc => ?_⟩
  have hhead := List.head?_dropWhile_not p cs
  rw [Option.mem_def.1 hc] at hhead
  simpa using hhead

theorem exists_longestRun_cons {p : Char → Bool} {c : Char} (hc : p c = true) (cs : List Char) :
    ∃ run after, c :: cs = run ++ after ∧ run ≠ [] ∧ LongestRun p run after := by
  obtain ⟨run, after, he, hrun⟩ := exists_longestRun p (c :: cs)
  refine ⟨run, after, he, ?_, hrun⟩
  rintro rfl
  exact Bool.noConfusion (hc.symm.trans (hrun.stops c (congrArg List.head? he.symm)))

/-! ### Forms -/

def Then (A B : List Char → Prop) (cs : List Char) : Prop := ∃ x y, cs = x ++ y ∧ A x ∧ B y

def Optionally (q : Char → Bool) (A : List Char → Prop) (cs : List Char) : Prop :=
  cs = [] ∨ ∃ c x, cs = c :: x ∧ q c = true ∧ A x

def IsSign : List Char → Prop := Optionally isSign (· = [])

def IsDigits (cs : List Char) : Prop := ∀ c ∈ cs, isDigit c = true

def IsFraction : List Char → Prop := Optionally (· = '.') IsDigits

def IsExponent : List Char → Prop := Optionally (fun c => c = 'e' || c = 'E') (Then IsSign IsDigits)

/-- Digits, a point and digits, an `e` with an optional sign and digits. Each of them may be missing. -/
def IsFloat : List Char → Prop := Then IsDigits (Then IsFraction IsExponent)

/-- A scanner claims what has a form, and no beginning of that form is longer. -/
def Greedy (A : List Char → Prop) (f : List Char → Nat) : Prop :=
  ∀ cs, A (cs.take (f cs)) ∧ ∀ p, p <+: cs → A p → p <+: cs.take (f cs)

namespace Greedy

variable {A B : List Char → Prop} {f g : List Char → Nat}

/-- Two scanners in a row, where the second form never begins with a character that the first one has. -/
theorem append (hf : Greedy A f) (hg : Greedy B g)
    (hsep : ∀ x y, A x → B y → ∀ c ∈ x, y.head? ≠ some c) :
    Greedy (Then A B) fun cs => f cs + g (cs.drop (f cs)) := by
  intro cs
  rw [List.take_add]
  refine ⟨⟨_, _, rfl, (hf cs).1, (hg _).1⟩, ?_⟩
  rintro _ hp ⟨x, y, rfl, hx, hy⟩
  obtain ⟨z, hz⟩ := (hf cs).2 x ((List.prefix_append x y).trans hp) hx
  have hcs : x ++ (z ++ cs.drop (f cs)) = cs := by
    rw [← List.append_assoc, hz, List.take_append_drop]
  have hy' : y <+: z ++ cs.drop (f cs) := (List.prefix_append_right_inj x).1 (hcs.symm ▸ hp)
  cases z with
  | nil =>
    rw [List.append_nil] at hz
    rw [← hz]
    exact (List.prefix_append_right_inj x).2 ((hg _).2 y hy' hy)
  | cons c z =>
    cases y with
    | nil => simp [← hz]
    | cons d y =>
      -- The first scanner goes on where the second form would have to begin.
      obtain ⟨rfl, -⟩ := List.cons_prefix_cons.1 hy'
      exact absurd rfl (hsep _ _ (hf cs).1 hy d (hz ▸ by simp))

theorem optionally {q : Char → Bool} (hf : Greedy A f)
    (hcons : ∀ c cs, g (c :: cs) = if q c then f cs + 1 else 0) : Greedy (Optionally q A) g := by
  intro cs
  cases cs with
  | nil => exact ⟨.inl (by simp), fun p hp _ => by simpa using hp⟩
  | cons c cs =>
    rw [hcons]
    by_cases hc : q c = true
    · rw [if_pos hc, List.take_succ_cons]
      refine ⟨.inr ⟨c, _, rfl, hc, (hf cs).1⟩, ?_⟩
      rintro p hp (rfl | ⟨d, x, rfl, -, hx⟩)
      · exact List.nil_prefix
      · obtain ⟨rfl, hx'⟩ := List.cons_prefix_cons.1 hp
        exact List.cons_prefix_cons.2 ⟨rfl, (hf cs).2 x hx' hx⟩
    · rw [if_neg hc]
      refine ⟨.inl rfl, ?_⟩
      rintro p hp (rfl | ⟨d, x, rfl, hd, -⟩)
      · exact List.nil_prefix
      · obtain ⟨rfl, -⟩ := List.cons_prefix_cons.1 hp
        exact absurd hd hc

end Greedy

theorem greedy_digits : Greedy IsDigits (runLength isDigit) := by
  intro cs
  obtain ⟨run, after, rfl, hrun⟩ := exists_longestRun isDigit cs
  rw [hrun.runLength_eq, List.take_left]
  refine ⟨hrun.inside, fun p hp hdigits => ?_⟩
  rcases List.prefix_or_prefix_of_prefix hp (List.prefix_append run after) with h | ⟨more, rfl⟩
  · exact h
  · cases more with
    | nil => simp
    | cons c more =>
      obtain ⟨rest, rfl⟩ := (List.prefix_append_right_inj run).1 hp
      have hc := hrun.stops c rfl
      rw [hdigits c (by simp)] at hc
      cases hc

theorem greedy_sign : Greedy IsSign signLength :=
  Greedy.optionally (f := fun _ => 0) (fun cs => ⟨rfl, fun p _ hp => by simp [hp]⟩) fun _ _ => rfl

theorem greedy_fraction : Greedy IsFraction fractionLength :=
  greedy_digits.optionally fun c cs => by
    by_cases hc : c = '.' <;> simp [fractionLength, hc]

theorem IsDigits.isDigit_of_head? {cs : List Char} (h : IsDigits cs) {c : Char} (hc : cs.head? = some c) :
    isDigit c = true :=
  h c (List.mem_of_mem_head? hc)

theorem Optionally.of_head? {q : Char → Bool} {A : List Char → Prop} {cs : List Char}
    (h : Optionally q A cs) {c : Char} (hc : cs.head? = some c) : q c = true := by
  rcases h with rfl | ⟨d, x, rfl, hd, -⟩
  · cases hc
  · exact Option.some.inj hc ▸ hd

theorem not_isDigit_of_isSign {c : Char} (h : isSign c = true) : isDigit c = false := by
  simp only [isSign, Bool.or_eq_true, decide_eq_true_eq] at h
  rcases h with rfl | rfl <;> rfl

theorem greedy_exponent : Greedy IsExponent exponentLength := by
  have hsigned := greedy_sign.append greedy_digits fun x y hx hy c hc hhead => by
    obtain rfl | ⟨d, x, rfl, hd, rfl⟩ := hx
    · cases hc
    · obtain rfl := List.mem_singleton.1 hc
      exact Bool.noConfusion ((not_isDigit_of_isSign hd).symm.trans (hy.isDigit_of_head? hhead))
  refine hsigned.optionally fun c cs => ?_
  simp only [exponentLength]
  split_ifs <;> omega

theorem Then.of_head? {A B : List Char → Prop} {cs : List Char} (h : Then A B cs) {c : Char}
    (hc : cs.head? = some c) : (∃ x, A x ∧ x.head? = some c) ∨ ∃ y, B y ∧ y.head? = some c := by
  obtain ⟨x, y, rfl, hx, hy⟩ := h
  cases x with
  | nil => exact .inr ⟨y, hy, hc⟩
  | cons d x => exact .inl ⟨d :: x, hx, hc⟩

theorem greedy_float : Greedy IsFloat floatLength := by
  have hrest := greedy_fraction.append greedy_exponent fun x y hx hy c hc hhead => by
    have hexp : (c = 'e' || c = 'E') = true := hy.of_head? hhead
    obtain rfl | ⟨d, x, rfl, hd, hdigits⟩ := hx
    · cases hc
    · have hclass : c = '.' ∨ isDigit c = true :=
        (List.mem_cons.1 hc).imp (fun h => h.trans (of_decide_eq_true hd)) (hdigits c)
      rcases Bool.or_eq_true_iff.1 hexp with h | h <;> obtain rfl := of_decide_eq_true h <;>
        simp [isDigit] at hclass
  have hfloat := greedy_digits.append hrest fun x y hx hy c hc hhead => by
    have hdigit := hx c hc
    rcases hy.of_head? hhead with ⟨u, hu, hhead⟩ | ⟨v, hv, hhead⟩
    · obtain rfl := of_decide_eq_true (hu.of_head? hhead)
      cases hdigit
    · rcases Bool.or_eq_true_iff.1 (hv.of_head? hhead) with h | h <;> obtain rfl := of_decide_eq_true h <;>
        cases hdigit
  have hlength : floatLength = fun cs => runLength isDigit cs +
      (fractionLength (cs.drop (runLength isDigit cs)) + exponentLength
        ((cs.drop (runLength isDigit cs)).drop (fractionLength (cs.drop (runLength isDigit cs))))) := by
    funext cs
    rw [floatLength, List.drop_drop, Nat.add_assoc]
  rw [hlength]
  exact hfloat

/-! ### The cases -/

def BeginsNumber (cs : List Char) : Prop :=
  ∃ d after, (cs = d :: after ∨ cs = '.' :: d :: after) ∧ isDigit d = true

def infOrNan : List (List Char) := [['i', 'n', 'f'], ['n', 'a', 'n']]

def BeginsInfOrNan (cs : List Char) : Prop :=
  ∃ word ∈ infOrNan, ∃ after, cs = word ++ after ∧ ∀ c ∈ after.head?, isWordPart c = false

def BeginsHexadecimal (cs : List Char) : Prop :=
  ∃ x d after, cs = '0' :: x :: d :: after ∧ (x = 'x' ∨ x = 'X') ∧ isHexDigit d = true

def BeginsOctal (cs : List Char) : Prop := ∃ d after, cs = '0' :: d :: after ∧ isOctalDigit d = true

/-- Some decimal digits, all there are, and nothing after them that makes a floating-point number. -/
def BeginsDecimal (cs : List Char) : Prop :=
  ∃ digits after, cs = digits ++ after ∧ digits ≠ [] ∧ LongestRun isDigit digits after ∧
    ∀ c ∈ after.head?, continuesFloat c = false

/-- A number may begin here: after an optional sign, or with a word after a sign. -/
def StartsNumber (cs : List Char) : Prop :=
  ∃ sign rest, cs = sign ++ rest ∧ IsSign sign ∧
    (BeginsNumber rest ∨ sign ≠ [] ∧ BeginsInfOrNan rest)

/-- How a number is read after its sign, by the first case that applies; what is before the characters
that are left over, and its kind. -/
inductive ReadsUnsigned : List Char → List Char → TokenKind → Prop where
  | word {word after : List Char} : word ∈ infOrNan → (∀ c ∈ after.head?, isWordPart c = false) →
      ReadsUnsigned word after .float
  | hexadecimal {x : Char} {digits after : List Char} : x = 'x' ∨ x = 'X' → digits ≠ [] →
      LongestRun isHexDigit digits after →
      ReadsUnsigned ('0' :: x :: digits) after (.integer .hexadecimal)
  | octal {digits after : List Char} : digits ≠ [] → LongestRun isOctalDigit digits after →
      ReadsUnsigned ('0' :: digits) after (.integer .octal)
  | decimal {digits after : List Char} : ¬ BeginsHexadecimal (digits ++ after) →
      ¬ BeginsOctal (digits ++ after) → digits ≠ [] → LongestRun isDigit digits after →
      (∀ c ∈ after.head?, continuesFloat c = false) → ReadsUnsigned digits after (.integer .decimal)
  | float {lexeme after : List Char} : ¬ BeginsInfOrNan (lexeme ++ after) →
      ¬ BeginsHexadecimal (lexeme ++ after) → ¬ BeginsOctal (lexeme ++ after) →
      ¬ BeginsDecimal (lexeme ++ after) → IsFloat lexeme →
      (∀ p, p <+: lexeme ++ after → IsFloat p → p <+: lexeme) → ReadsUnsigned lexeme after .float

theorem atWord_iff {word cs : List Char} : atWord word cs = true ↔
    ∃ after, cs = word ++ after ∧ ∀ c ∈ after.head?, isWordPart c = false := by
  simp only [atWord, Bool.and_eq_true, List.isPrefixOf_iff_prefix, Bool.not_eq_true']
  constructor
  · rintro ⟨⟨after, rfl⟩, hnext⟩
    rw [List.drop_left] at hnext
    refine ⟨after, rfl, fun c hc => ?_⟩
    rw [Option.mem_def.1 hc] at hnext
    exact hnext
  · rintro ⟨after, rfl, hnext⟩
    refine ⟨List.prefix_append _ _, ?_⟩
    rw [List.drop_left]
    cases after with
    | nil => rfl
    | cons c after => exact hnext c rfl

theorem atInfOrNan_iff {cs : List Char} : atInfOrNan cs = true ↔ BeginsInfOrNan cs := by
  simp [atInfOrNan, atWord_iff, BeginsInfOrNan, infOrNan]

theorem startsUnsigned_iff {cs : List Char} : startsUnsigned cs = true ↔ BeginsNumber cs := by
  constructor
  · intro h
    fun_cases startsUnsigned cs with
    | case1 d after => exact ⟨d, after, .inr rfl, h⟩
    | case2 d after hd => exact ⟨d, after, .inl rfl, by simpa [startsUnsigned, hd] using h⟩
    | case3 => cases h
  · rintro ⟨d, after, rfl | rfl, hd⟩
    · have hpoint : d ≠ '.' := by
        rintro rfl
        cases hd
      simpa [startsUnsigned, hpoint] using hd
    · exact hd

theorem startsHexadecimal_iff {cs : List Char} : startsHexadecimal cs = true ↔ BeginsHexadecimal cs := by
  constructor
  · intro h
    fun_cases startsHexadecimal cs with
    | case1 x d after => exact ⟨x, d, after, rfl, by simpa [startsHexadecimal] using h⟩
    | case2 => simp [startsHexadecimal] at h
  · rintro ⟨x, d, after, rfl, hx, hd⟩
    simp [startsHexadecimal, hx, hd]

theorem startsOctal_iff {cs : List Char} : startsOctal cs = true ↔ BeginsOctal cs := by
  constructor
  · intro h
    fun_cases startsOctal cs with
    | case1 d after => exact ⟨d, after, rfl, h⟩
    | case2 => simp [startsOctal] at h
  · rintro ⟨d, after, rfl, hd⟩
    exact hd

theorem LongestRun.unique {p : Char → Bool} {run run' after after' : List Char} (h : LongestRun p run after)
    (h' : LongestRun p run' after') (he : run ++ after = run' ++ after') : run = run' ∧ after = after' := by
  refine List.append_inj he ?_
  rw [← h.runLength_eq, he, h'.runLength_eq]

theorem startsDecimal_iff {cs : List Char} : startsDecimal cs = true ↔ BeginsDecimal cs := by
  obtain ⟨run, after, rfl, hrun⟩ := exists_longestRun isDigit cs
  simp only [startsDecimal, hrun.runLength_eq, List.drop_left, Bool.and_eq_true, decide_eq_true_eq,
    List.length_pos_iff, Bool.not_eq_true', Option.any_eq_false]
  constructor
  · rintro ⟨hne, hnext⟩
    exact ⟨run, after, rfl, hne, hrun, fun c hc => by simpa using hnext c hc⟩
  · rintro ⟨digits, after', he, hne, hdigits, hnext⟩
    obtain ⟨rfl, rfl⟩ := hrun.unique hdigits he
    exact ⟨hne, fun c hc => by simpa using hnext c hc⟩

theorem unsigned_reads (cs : List Char) : ∃ lexeme after, cs = lexeme ++ after ∧
    (unsigned cs).2 = lexeme.length ∧ ReadsUnsigned lexeme after (unsigned cs).1 := by
  unfold unsigned
  split_ifs with hword hhex hoctal hdecimal
  · obtain ⟨word, hmem, after, rfl, hnext⟩ := atInfOrNan_iff.1 hword
    refine ⟨word, after, rfl, ?_, .word hmem hnext⟩
    simp only [infOrNan, List.mem_cons, List.not_mem_nil, or_false] at hmem
    rcases hmem with rfl | rfl <;> rfl
  · obtain ⟨x, d, cs, rfl, hx, hd⟩ := startsHexadecimal_iff.1 hhex
    obtain ⟨digits, after, hcs, hne, hdigits⟩ := exists_longestRun_cons hd cs
    rw [hcs]
    refine ⟨'0' :: x :: digits, after, rfl, ?_, .hexadecimal hx hne hdigits⟩
    simp only [List.drop_succ_cons, List.drop_zero, hdigits.runLength_eq, List.length_cons]
    omega
  · obtain ⟨d, cs, rfl, hd⟩ := startsOctal_iff.1 hoctal
    obtain ⟨digits, after, hcs, hne, hdigits⟩ := exists_longestRun_cons hd cs
    rw [hcs]
    refine ⟨'0' :: digits, after, rfl, ?_, .octal hne hdigits⟩
    simp [hdigits.runLength_eq, Nat.add_comm]
  · obtain ⟨digits, after, rfl, hne, hdigits, hnext⟩ := startsDecimal_iff.1 hdecimal
    rw [startsHexadecimal_iff] at hhex
    rw [startsOctal_iff] at hoctal
    exact ⟨digits, after, rfl, hdigits.runLength_eq, .decimal hhex hoctal hne hdigits hnext⟩
  · rw [atInfOrNan_iff] at hword
    rw [startsHexadecimal_iff] at hhex
    rw [startsOctal_iff] at hoctal
    rw [startsDecimal_iff] at hdecimal
    obtain ⟨hform, hlongest⟩ := greedy_float cs
    have hsplit := List.take_append_drop (floatLength cs) cs
    refine ⟨cs.take (floatLength cs), cs.drop (floatLength cs), hsplit.symm, ?_, ?_⟩
    · rw [List.length_take, Nat.min_eq_left (floatLength_le cs)]
    · exact .float (by rwa [hsplit]) (by rwa [hsplit]) (by rwa [hsplit]) (by rwa [hsplit]) hform
        (by rwa [hsplit])

theorem ReadsUnsigned.consumes {lexeme after : List Char} {kind : TokenKind}
    (h : ReadsUnsigned lexeme after kind)
    (hbegins : BeginsNumber (lexeme ++ after) ∨ BeginsInfOrNan (lexeme ++ after)) :
    lexeme ∈ infOrNan ∨ ∃ d ∈ lexeme, isDigit d = true := by
  cases h with
  | word hmem => exact .inl hmem
  | hexadecimal | octal => exact .inr ⟨'0', by simp, rfl⟩
  | decimal _ _ hne hdigits =>
    obtain ⟨d, ds, rfl⟩ := List.exists_cons_of_ne_nil hne
    exact .inr ⟨d, by simp, hdigits.inside d (by simp)⟩
  | float hword _ _ _ _ hlongest =>
    -- The digit that announces the number is in a beginning of the form, so in the longest one.
    obtain ⟨d, cs, he, hd⟩ := hbegins.resolve_right hword
    have hone : IsDigits [d] := by simpa [IsDigits] using hd
    rcases he with he | he
    · have hp := hlongest [d] ⟨cs, he.symm⟩ ⟨[d], [], rfl, hone, [], [], rfl, .inl rfl, .inl rfl⟩
      exact .inr ⟨d, hp.subset (by simp), hd⟩
    · have hp := hlongest ['.', d] ⟨cs, he.symm⟩ ⟨[], ['.', d], rfl, by simp [IsDigits], ['.', d], [], rfl,
        .inr ⟨'.', [d], rfl, rfl, hone⟩, .inl rfl⟩
      exact .inr ⟨d, hp.subset (by simp), hd⟩

theorem BeginsNumber.signLength_eq {cs : List Char} (h : BeginsNumber cs) : signLength cs = 0 := by
  obtain ⟨d, after, rfl | rfl, hd⟩ := h
  · refine if_neg fun hsign => ?_
    rw [not_isDigit_of_isSign hsign] at hd
    cases hd
  · rfl

theorem startsNumber_eq_true {cs : List Char} : startsNumber cs = true ↔ StartsNumber cs := by
  rw [startsNumber_iff, startsUnsigned_iff, startsUnsigned_iff, atInfOrNan_iff]
  constructor
  · rintro (⟨hone, h⟩ | ⟨hzero, h⟩)
    · refine ⟨cs.take 1, cs.drop 1, (List.take_append_drop 1 cs).symm, hone ▸ (greedy_sign cs).1, ?_⟩
      refine h.imp_right fun hword => ⟨?_, hword⟩
      rintro hnil
      cases cs with
      | nil => cases hone
      | cons c cs => cases hnil
    · exact ⟨[], cs, rfl, .inl rfl, .inl h⟩
  · rintro ⟨sign, rest, rfl, rfl | ⟨c, _, rfl, hc, rfl⟩, h⟩
    · have hnumber := h.resolve_right fun h => h.1 rfl
      exact .inr ⟨hnumber.signLength_eq, hnumber⟩
    · exact .inl ⟨if_pos hc, h.imp_right And.right⟩

theorem number_reads {cs : List Char} (h : startsNumber cs = true) : ∃ sign lexeme after,
    cs = sign ++ (lexeme ++ after) ∧ IsSign sign ∧ (number cs).2 = (sign ++ lexeme).length ∧
      ReadsUnsigned lexeme after (number cs).1 ∧
      (lexeme ∈ infOrNan ∨ ∃ d ∈ lexeme, isDigit d = true) := by
  obtain ⟨lexeme, after, he, hlength, hreads⟩ := unsigned_reads (cs.drop (signLength cs))
  refine ⟨cs.take (signLength cs), lexeme, after, ?_, (greedy_sign cs).1, ?_, hreads, ?_⟩
  · rw [← he, List.take_append_drop]
  · rw [List.length_append, List.length_take, Nat.min_eq_left (signLength_le cs), ← hlength]
    rfl
  · refine hreads.consumes ?_
    rw [← he]
    rcases startsNumber_iff.1 h with ⟨hone, h⟩ | ⟨hzero, h⟩
    · rw [hone]
      exact h.imp startsUnsigned_iff.1 atInfOrNan_iff.1
    · rw [hzero]
      exact .inl (startsUnsigned_iff.1 h)

/-! ### Characters of numbers -/

def isNumberPart (c : Char) : Bool := isWordPart c || isSign c || c = '.'

theorem isNumberPart_of_isDigit {c : Char} (h : isDigit c = true) : isNumberPart c = true := by
  simp [isNumberPart, isWordPart, h]

theorem isDigit_of_isOctalDigit {c : Char} (h : isOctalDigit c = true) : isDigit c = true := by
  simp only [isOctalDigit, isDigit, Bool.and_eq_true, decide_eq_true_eq] at h ⊢
  exact h.imp_right (le_trans · (by decide))

theorem isNumberPart_of_isHexDigit {c : Char} (h : isHexDigit c = true) : isNumberPart c = true := by
  simp only [isHexDigit, Bool.or_eq_true, Bool.and_eq_true, decide_eq_true_eq] at h
  rcases h with (h | h) | h
  · exact isNumberPart_of_isDigit h
  · simp [isNumberPart, isWordPart, isLetter, h.1, le_trans h.2 (show 'f' ≤ 'z' by decide)]
  · simp [isNumberPart, isWordPart, isLetter, h.1, le_trans h.2 (show 'F' ≤ 'Z' by decide)]

theorem Optionally.forall_mem {q r : Char → Bool} {A : List Char → Prop} {cs : List Char}
    (h : Optionally q A cs) (hq : ∀ c, q c = true → r c = true)
    (hA : ∀ x, A x → ∀ c ∈ x, r c = true) : ∀ c ∈ cs, r c = true := by
  rcases h with rfl | ⟨d, x, rfl, hd, hx⟩
  · simp
  · exact List.forall_mem_cons.2 ⟨hq d hd, hA x hx⟩

theorem Then.forall_mem {r : Char → Bool} {A B : List Char → Prop} {cs : List Char}
    (h : Then A B cs) (hA : ∀ x, A x → ∀ c ∈ x, r c = true) (hB : ∀ x, B x → ∀ c ∈ x, r c = true) :
    ∀ c ∈ cs, r c = true := by
  obtain ⟨x, y, rfl, hx, hy⟩ := h
  exact List.forall_mem_append.2 ⟨hA x hx, hB y hy⟩

theorem IsDigits.isNumberPart {cs : List Char} (h : IsDigits cs) : ∀ c ∈ cs, isNumberPart c = true :=
  fun c hc => isNumberPart_of_isDigit (h c hc)

theorem IsSign.isNumberPart {cs : List Char} (h : IsSign cs) : ∀ c ∈ cs, isNumberPart c = true :=
  h.forall_mem (fun c hc => by simp [ProtoSyntax.isNumberPart, hc]) fun x hx => by simp [hx]

theorem IsFloat.isNumberPart {cs : List Char} (h : IsFloat cs) : ∀ c ∈ cs, isNumberPart c = true := by
  have hfraction (x : List Char) (hx : IsFraction x) : ∀ c ∈ x, ProtoSyntax.isNumberPart c = true :=
    hx.forall_mem (fun c hc => by simp [ProtoSyntax.isNumberPart, of_decide_eq_true hc])
      fun _ => IsDigits.isNumberPart
  have hexponent (x : List Char) (hx : IsExponent x) : ∀ c ∈ x, ProtoSyntax.isNumberPart c = true := by
    refine hx.forall_mem (fun c hc => ?_)
      fun _ hy => hy.forall_mem (fun _ => IsSign.isNumberPart) fun _ => IsDigits.isNumberPart
    rcases Bool.or_eq_true_iff.1 hc with hc | hc <;> obtain rfl := of_decide_eq_true hc <;> rfl
  exact h.forall_mem (fun _ => IsDigits.isNumberPart) fun _ hy => hy.forall_mem hfraction hexponent

theorem ReadsUnsigned.isNumberPart {lexeme after : List Char} {kind : TokenKind}
    (h : ReadsUnsigned lexeme after kind) : ∀ c ∈ lexeme, isNumberPart c = true := by
  have hzero : ProtoSyntax.isNumberPart '0' = true := rfl
  cases h with
  | word hmem =>
    simp only [infOrNan, List.mem_cons, List.not_mem_nil, or_false] at hmem
    rcases hmem with rfl | rfl <;> exact List.all_eq_true.1 rfl
  | @hexadecimal x _ _ hx _ hdigits =>
    have hx' : ProtoSyntax.isNumberPart x = true := by rcases hx with rfl | rfl <;> rfl
    exact List.forall_mem_cons.2 ⟨hzero, List.forall_mem_cons.2
      ⟨hx', fun c hc => isNumberPart_of_isHexDigit (hdigits.inside c hc)⟩⟩
  | octal _ hdigits =>
    exact List.forall_mem_cons.2 ⟨hzero, fun c hc =>
      isNumberPart_of_isDigit (isDigit_of_isOctalDigit (hdigits.inside c hc))⟩
  | decimal _ _ _ hdigits => exact IsDigits.isNumberPart hdigits.inside
  | float _ _ _ _ hform => exact hform.isNumberPart

theorem number_isNumberPart {cs : List Char} (h : startsNumber cs = true) :
    ∀ c ∈ cs.take (number cs).2, isNumberPart c = true := by
  obtain ⟨sign, lexeme, after, he, hsign, hlength, hreads, -⟩ := number_reads h
  have htake : cs.take (number cs).2 = sign ++ lexeme := by
    rw [hlength, he, ← List.append_assoc, List.take_left]
  rw [htake]
  exact List.forall_mem_append.2 ⟨hsign.isNumberPart, hreads.isNumberPart⟩

theorem number_le_of_not_isNumberPart {cs after : List Char} (h : startsNumber (cs ++ after) = true)
    (hafter : ∀ c ∈ after.head?, isNumberPart c = false) : (number (cs ++ after)).2 ≤ cs.length := by
  by_contra hlt
  cases after with
  | nil =>
    have hle := number_le (cs ++ [])
    rw [List.append_nil] at hlt hle
    exact hlt hle
  | cons c after =>
    have hpart := number_isNumberPart h c (List.mem_take_iff_getElem.2
      ⟨cs.length, by rw [List.length_append, List.length_cons]; omega, by simp⟩)
    exact Bool.noConfusion ((hafter c rfl).symm.trans hpart)

/-! ### Cursors -/

/-- Wherever a cursor is in a text, numbers are announced just where one can be read, and are read exactly:
the cursor passes the sign and what the first case takes, and stays inside of the text. -/
theorem ByteCursor.number_exact (c : ByteCursor) :
    (c.startsNumber = true ↔ StartsNumber c.rest) ∧
      (c.startsNumber = true → ∃ sign lexeme after kind, c.rest = sign ++ (lexeme ++ after) ∧
        IsSign sign ∧ ReadsUnsigned lexeme after kind ∧
        (lexeme ∈ infOrNan ∨ ∃ d ∈ lexeme, isDigit d = true) ∧
        c.number = (kind, { c with position := c.position + (sign ++ lexeme).length }) ∧
        c.position + (sign ++ lexeme).length ≤ c.bytes.length) := by
  refine ⟨startsNumber_eq_true, fun h => ?_⟩
  obtain ⟨sign, lexeme, after, hrest, hsign, hlength, hreads, hconsumes⟩ := number_reads h
  have hinside : c.position + (sign ++ lexeme).length ≤ c.bytes.length := by
    have hpos : 0 < (ProtoSyntax.number c.rest).2 := number_pos h
    have hle := number_le c.rest
    have hlength' : c.rest.length = c.bytes.length - c.position := List.length_drop
    omega
  refine ⟨sign, lexeme, after, _, hrest, hsign, hreads, hconsumes, ?_, hinside⟩
  simp only [ByteCursor.number, ByteCursor.advance, hlength, Nat.min_eq_left hinside]

theorem ByteCursor.number_exact_after_bytes :
    (ByteCursor.mk (ByteCursor.bytesOf "é-.5e+x") 2).startsNumber = true ∧
      ∃ sign lexeme after kind,
        (ByteCursor.mk (ByteCursor.bytesOf "é-.5e+x") 2).rest = sign ++ (lexeme ++ after) ∧
        IsSign sign ∧ ReadsUnsigned lexeme after kind ∧
        (lexeme ∈ infOrNan ∨ ∃ d ∈ lexeme, isDigit d = true) ∧
        (ByteCursor.mk (ByteCursor.bytesOf "é-.5e+x") 2).number =
          (kind, ⟨ByteCursor.bytesOf "é-.5e+x", 2 + (sign ++ lexeme).length⟩) ∧
        2 + (sign ++ lexeme).length ≤ (ByteCursor.bytesOf "é-.5e+x").length := by
  have hbytes : ByteCursor.bytesOf "é-.5e+x" =
      ['é', '-', '.', '5', 'e', '+', 'x'].flatMap charBytes := bytesOf_ofList _
  have h : (ByteCursor.mk (ByteCursor.bytesOf "é-.5e+x") 2).startsNumber = true := by
    rw [hbytes]
    decide
  exact ⟨h, (ByteCursor.number_exact ⟨ByteCursor.bytesOf "é-.5e+x", 2⟩).2 h⟩

end ProtoSyntax
