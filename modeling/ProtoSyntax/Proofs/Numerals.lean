import Mathlib.Data.Nat.Digits.Defs
import ProtoSyntax.Proofs.Extents

/-!
# The values of integer tokens

An integer token is a sign that may be missing, the prefix of its radix and at least one digit of this
radix, so that the cuts which take off sign and prefix fall between characters. Its value is the positional
one, if that is below 2^64.
-/

namespace ProtoSyntax

def fromByte? : Nat → List Char → Option (List Char)
  | 0, cs => some cs
  | _ + 1, [] => none
  | n + 1, c :: cs => if c.utf8Size ≤ n + 1 then fromByte? (n + 1 - c.utf8Size) cs else none

theorem fromByte?_append {front : List Char} (h : ∀ c ∈ front, c.utf8Size = 1) (cs : List Char) :
    fromByte? front.length (front ++ cs) = some cs := by
  induction front with
  | nil => simp [fromByte?]
  | cons c front ih =>
    obtain ⟨hc, hfront⟩ := List.forall_mem_cons.1 h
    rw [List.length_cons, List.cons_append, fromByte?, if_pos (by omega), hc]
    exact ih hfront

namespace Radix

def IsPrefix : Radix → List Char → Prop
  | .octal, lead => lead = ['0']
  | .decimal, lead => lead = []
  | .hexadecimal, lead => lead = ['0', 'x'] ∨ lead = ['0', 'X']

/-- What is left of a literal when its sign and its prefix are cut off, byte by byte. -/
def digitsOf? (r : Radix) (text : String) : Option (List Char) :=
  (fromByte? (signLength text.toList) text.toList).bind (fromByte? r.prefixLength)

def Reads (r : Radix) (digits : List Char) (ds : List Nat) : Prop :=
  List.Forall₂ (fun c d => digitValue? c = some d ∧ d < r.base) digits ds

variable {r : Radix} {sign lead digits : List Char} {ds : List Nat}

section classes

variable {c : Char}

theorem exists_digitValue?_of_isDigit (h : isDigit c = true) :
    ∃ d, digitValue? c = some d ∧ d < 10 ∧ (isOctalDigit c = true → d < 8) := by
  simp only [isDigit, Bool.and_eq_true, decide_eq_true_eq] at h
  have hle : c.toNat ≤ '9'.toNat := h.2
  refine ⟨_, if_pos h, ?_, fun hoctal => ?_⟩
  · simp only [Char.reduceToNat] at hle ⊢
    omega
  · simp only [isOctalDigit, Bool.and_eq_true, decide_eq_true_eq] at hoctal
    have hle' : c.toNat ≤ '7'.toNat := hoctal.2
    simp only [Char.reduceToNat] at hle' ⊢
    omega

theorem exists_digitValue?_of_isOctalDigit (h : isOctalDigit c = true) :
    ∃ d, digitValue? c = some d ∧ d < 8 := by
  obtain ⟨d, hd, -, hlt⟩ := exists_digitValue?_of_isDigit (isDigit_of_isOctalDigit h)
  exact ⟨d, hd, hlt h⟩

theorem exists_digitValue?_of_isHexDigit (h : isHexDigit c = true) :
    ∃ d, digitValue? c = some d ∧ d < 16 := by
  by_cases hdigit : isDigit c = true
  · obtain ⟨d, hd, hlt, -⟩ := exists_digitValue?_of_isDigit hdigit
    exact ⟨d, hd, by omega⟩
  have hnine : ¬ ('0' ≤ c ∧ c ≤ '9') := by simpa [isDigit] using hdigit
  simp only [isHexDigit, hdigit, Bool.false_or, Bool.or_eq_true, Bool.and_eq_true,
    decide_eq_true_eq] at h
  by_cases hlower : 'a' ≤ c ∧ c ≤ 'f'
  · have hle : c.toNat ≤ 'f'.toNat := hlower.2
    refine ⟨c.toNat - 'a'.toNat + 10, by rw [digitValue?, if_neg hnine, if_pos hlower], ?_⟩
    simp only [Char.reduceToNat] at hle ⊢
    omega
  · have hupper := h.resolve_left hlower
    have hle : c.toNat ≤ 'F'.toNat := hupper.2
    refine ⟨c.toNat - 'A'.toNat + 10, by
      rw [digitValue?, if_neg hnine, if_neg hlower, if_pos hupper], ?_⟩
    simp only [Char.reduceToNat] at hle ⊢
    omega

end classes

theorem exists_reads {p : Char → Bool} (hp : ∀ c, p c = true → ∃ d, digitValue? c = some d ∧ d < r.base)
    (h : ∀ c ∈ digits, p c = true) : ∃ ds, r.Reads digits ds := by
  induction digits with
  | nil => exact ⟨[], .nil⟩
  | cons c digits ih =>
    obtain ⟨hc, hdigits⟩ := List.forall_mem_cons.1 h
    obtain ⟨d, hd⟩ := hp c hc
    obtain ⟨ds, hds⟩ := ih hdigits
    exact ⟨d :: ds, .cons hd hds⟩

theorem digitsFrom?_eq (h : r.Reads digits ds) (n : Nat) :
    r.digitsFrom? n digits = some (n * r.base ^ ds.length + Nat.ofDigits r.base ds.reverse) := by
  induction h generalizing n with
  | nil => simp [digitsFrom?]
  | @cons c d digits ds hd _ ih =>
    have hdigit : r.digit? c = some d := by
      rw [digit?, hd.1, Option.filter_some, if_pos (by simpa using hd.2)]
    rw [digitsFrom?, hdigit, Option.bind_some, ih, List.reverse_cons, Nat.ofDigits_append,
      Nat.ofDigits_singleton, List.length_reverse, List.length_cons, Nat.pow_succ]
    congr 1
    ring

theorem digitValue?_plus : digitValue? '+' = none := by decide

theorem digits?_eq (h : r.Reads digits ds) (hne : digits ≠ []) :
    r.digits? digits = some (Nat.ofDigits r.base ds.reverse) := by
  have hvalue := digitsFrom?_eq h 0
  rw [Nat.zero_mul, Nat.zero_add] at hvalue
  cases h with
  | nil => exact absurd rfl hne
  | @cons c d digits ds hd _ =>
    have hplus : c ≠ '+' := by
      rintro rfl
      rw [digitValue?_plus] at hd
      cases hd.1
    rw [← hvalue]
    simp [digits?, hplus]

theorem length_of_isPrefix (h : r.IsPrefix lead) : lead.length = r.prefixLength := by
  cases r with
  | octal | decimal =>
    obtain rfl := h
    rfl
  | hexadecimal => rcases h with rfl | rfl <;> rfl

theorem magnitude?_eq (hlead : r.IsPrefix lead) (h : r.Reads digits ds) (hne : digits ≠ []) :
    r.magnitude? (lead ++ digits) =
      if Nat.ofDigits r.base ds.reverse < 2 ^ 64 then some (Nat.ofDigits r.base ds.reverse) else none := by
  rw [magnitude?, List.drop_left' (length_of_isPrefix hlead), digits?_eq h hne, Option.filter_some]
  simp

theorem exists_head (hlead : r.IsPrefix lead) (h : r.Reads digits ds) (hne : digits ≠ []) :
    ∃ c cs, lead ++ digits = c :: cs ∧ (digitValue? c).isSome = true := by
  cases r with
  | octal =>
    obtain rfl := hlead
    exact ⟨'0', _, rfl, by decide⟩
  | hexadecimal => rcases hlead with rfl | rfl <;> exact ⟨'0', _, rfl, by decide⟩
  | decimal =>
    obtain rfl := hlead
    cases h with
    | nil => exact absurd rfl hne
    | @cons c d digits ds hd _ => exact ⟨c, digits, rfl, by rw [hd.1]; rfl⟩

theorem not_isSign_of_digitValue? {c : Char} (h : (digitValue? c).isSome = true) : isSign c = false := by
  refine Bool.eq_false_of_not_eq_true fun hsign => ?_
  simp only [isSign, Bool.or_eq_true, decide_eq_true_eq] at hsign
  rcases hsign with rfl | rfl <;> exact absurd h (by decide)

def signed (sign : List Char) (magnitude : Nat) : Int :=
  if sign = ['-'] then -magnitude else magnitude

theorem isSign_iff : IsSign sign ↔ sign = [] ∨ sign = ['-'] ∨ sign = ['+'] := by
  simp only [IsSign, Optionally, isSign, Bool.or_eq_true, decide_eq_true_eq]
  constructor
  · rintro (rfl | ⟨c, _, rfl, rfl | rfl, rfl⟩) <;> simp
  · rintro (rfl | rfl | rfl) <;> simp

theorem value?_ofList (hsign : IsSign sign) (hlead : r.IsPrefix lead) (h : r.Reads digits ds)
    (hne : digits ≠ []) :
    r.value? (String.ofList (sign ++ (lead ++ digits))) =
      if Nat.ofDigits r.base ds.reverse < 2 ^ 64 then
        some (signed sign (Nat.ofDigits r.base ds.reverse)) else none := by
  have hmagnitude := magnitude?_eq hlead h hne
  rw [value?, String.toList_ofList]
  rcases isSign_iff.1 hsign with rfl | rfl | rfl
  · obtain ⟨c, cs, hcs, hc⟩ := exists_head hlead h hne
    have hplain := not_isSign_of_digitValue? hc
    simp only [isSign, Bool.or_eq_false_iff, decide_eq_false_iff_not] at hplain
    rw [hcs] at hmagnitude
    rw [List.nil_append, hcs]
    split
    · next heq => exact absurd (List.cons.inj heq).1 hplain.1
    · next heq => exact absurd (List.cons.inj heq).1 hplain.2
    · rw [hmagnitude]
      split_ifs <;> rfl
  · simp only [List.singleton_append, hmagnitude]
    split_ifs <;> rfl
  · simp only [List.singleton_append, hmagnitude]
    split_ifs <;> rfl

theorem digitsOf?_ofList (hsign : IsSign sign) (hlead : r.IsPrefix lead) (h : r.Reads digits ds)
    (hne : digits ≠ []) : r.digitsOf? (String.ofList (sign ++ (lead ++ digits))) = some digits := by
  have hlength : signLength (sign ++ (lead ++ digits)) = sign.length := by
    rcases isSign_iff.1 hsign with rfl | rfl | rfl
    · obtain ⟨c, cs, hcs, hc⟩ := exists_head hlead h hne
      rw [List.nil_append, hcs, signLength, not_isSign_of_digitValue? hc]
      rfl
    · rfl
    · rfl
  have hsigns : ∀ c ∈ sign, c.utf8Size = 1 := by
    rcases isSign_iff.1 hsign with rfl | rfl | rfl <;> simp <;> rfl
  have hleads : ∀ c ∈ lead, c.utf8Size = 1 := by
    cases r with
    | octal | decimal =>
      obtain rfl := hlead
      simp <;> rfl
    | hexadecimal => rcases hlead with rfl | rfl <;> simp <;> exact ⟨rfl, rfl⟩
  rw [digitsOf?, String.toList_ofList, hlength, fromByte?_append hsigns, Option.bind_some,
    ← length_of_isPrefix hlead, fromByte?_append hleads]

end Radix

theorem ReadsUnsigned.exists_digits {lexeme after : List Char} {r : Radix}
    (h : ReadsUnsigned lexeme after (.integer r)) :
    ∃ lead digits ds, lexeme = lead ++ digits ∧ r.IsPrefix lead ∧ digits ≠ [] ∧ r.Reads digits ds := by
  cases h with
  | @hexadecimal x digits _ hx hne hrun =>
    obtain ⟨ds, hds⟩ := Radix.exists_reads (r := .hexadecimal)
      (fun c => Radix.exists_digitValue?_of_isHexDigit) hrun.inside
    exact ⟨['0', x], digits, ds, rfl, by rcases hx with rfl | rfl <;> simp [Radix.IsPrefix], hne, hds⟩
  | @octal digits _ hne hrun =>
    obtain ⟨ds, hds⟩ := Radix.exists_reads (r := .octal)
      (fun c => Radix.exists_digitValue?_of_isOctalDigit) hrun.inside
    exact ⟨['0'], digits, ds, rfl, rfl, hne, hds⟩
  | decimal _ _ hne hrun =>
    obtain ⟨ds, hds⟩ := Radix.exists_reads (r := .decimal) (fun c hc => by
      obtain ⟨d, hd, hlt, -⟩ := Radix.exists_digitValue?_of_isDigit hc
      exact ⟨d, hd, hlt⟩) hrun.inside
    exact ⟨[], lexeme, ds, rfl, rfl, hne, hds⟩

section

variable {language : Language} {c : Char} {cs : List Char} {r : Radix}

theorem Language.number_eq_of_integer (h : (language.lexicon.number cs).1 = .integer r) :
    language.lexicon.number cs = number cs := by
  cases language with
  | schema => rfl
  | textFormat =>
    rcases TextFormat.numberWithSuffix_cases cs with he | ⟨-, he⟩
    · exact he
    · cases (congrArg Prod.fst he).symm.trans h

theorem Language.number_of_lexeme_eq_integer (h : (language.lexeme c cs).1 = .integer r) :
    startsNumber (c :: cs) = true ∧ (number (c :: cs)).1 = .integer r ∧
      (number (c :: cs)).2 = (language.lexeme c cs).2 + 1 := by
  by_cases hmark : c = language.commentMark
  · subst hmark
    rcases language.lexeme_commentMark_kind cs with hkind | ⟨block, hkind⟩ <;>
      cases hkind.symm.trans h
  rw [language.lexeme_eq hmark, Lexicon.lexeme] at h ⊢
  split_ifs at h ⊢ with hquote hnumber hword
  · rw [Lexicon.numberLexeme_kind] at h
    have hsame : language.lexicon.number (c :: cs) = number (c :: cs) := number_eq_of_integer h
    have hlength := language.number_eq_succ hnumber
    rw [hsame] at h hlength
    exact ⟨hnumber, h, hlength⟩
  · have hspells := language.spells_wordKind (String.ofList (c :: cs.take (wordLength cs)))
    rw [show language.lexicon.wordKind _ = .integer r from h] at hspells
    cases hspells
  · rcases punctOrInvalid_kind language.lexicon.isPunct c with hkind | ⟨p, hkind⟩ <;>
      cases hkind.symm.trans h

end

theorem exists_digits_of_integer {language : Language} {text : String} {t : Token} {r : Radix}
    (ht : t ∈ language.tokens text) (hk : t.kind = .integer r) :
    ∃ sign lead digits ds, t.text = String.ofList (sign ++ (lead ++ digits)) ∧ IsSign sign ∧
      r.IsPrefix lead ∧ digits ≠ [] ∧ r.Reads digits ds := by
  obtain ⟨before, c, body, after, -, -, hl, -, htext⟩ := tokens_foundIn language text t ht
  obtain ⟨hstarts, hkind, hlength⟩ :=
    Language.number_of_lexeme_eq_integer ((congrArg Prod.fst hl).trans hk)
  obtain ⟨sign, lexeme, after', he, hsign, hreach, hreads, -⟩ := number_reads hstarts
  rw [hkind] at hreads
  rw [hlength, congrArg Prod.snd hl] at hreach
  obtain ⟨lead, digits, ds, rfl, hlead, hne, hds⟩ := hreads.exists_digits
  refine ⟨sign, lead, digits, ds, ?_, hsign, hlead, hne, hds⟩
  have hsplit : (c :: body) ++ after = (sign ++ (lead ++ digits)) ++ after' := by
    simpa using he
  rw [htext, (List.append_inj hsplit hreach).1]

/-- An integer token has at least one digit after its sign and the prefix of its radix, and nothing but
digits of this radix; its value is the positional one of these digits with the sign, if that fits. -/
theorem integer_token_value {language : Language} {text : String} {t : Token} {r : Radix}
    (ht : t ∈ language.tokens text) (hk : t.kind = .integer r) :
    ∃ sign lead digits ds, t.text.toList = sign ++ (lead ++ digits) ∧ IsSign sign ∧ r.IsPrefix lead ∧
      r.digitsOf? t.text = some digits ∧ digits ≠ [] ∧ r.Reads digits ds ∧
      r.value? t.text = if Nat.ofDigits r.base ds.reverse < 2 ^ 64 then
        some (Radix.signed sign (Nat.ofDigits r.base ds.reverse)) else none := by
  obtain ⟨sign, lead, digits, ds, htext, hsign, hlead, hne, hds⟩ := exists_digits_of_integer ht hk
  rw [htext]
  exact ⟨sign, lead, digits, ds, String.toList_ofList, hsign, hlead,
    Radix.digitsOf?_ofList hsign hlead hds hne, hne, hds, Radix.value?_ofList hsign hlead hds hne⟩

theorem integer_token_value_hexadecimal :
    ⟨.integer .hexadecimal, 2, "-0XfF"⟩ ∈ Language.textFormat.tokens "a:-0XfF" ∧
      ∃ sign lead digits ds, "-0XfF".toList = sign ++ (lead ++ digits) ∧ IsSign sign ∧
        Radix.hexadecimal.IsPrefix lead ∧ Radix.hexadecimal.digitsOf? "-0XfF" = some digits ∧
        digits ≠ [] ∧ Radix.hexadecimal.Reads digits ds ∧
        Radix.hexadecimal.value? "-0XfF" = if Nat.ofDigits 16 ds.reverse < 2 ^ 64 then
          some (Radix.signed sign (Nat.ofDigits 16 ds.reverse)) else none := by
  have htokens : Language.textFormat.tokens "a:-0XfF" =
      [⟨.identifier, 0, "a"⟩, ⟨.punct .colon, 1, ":"⟩, ⟨.integer .hexadecimal, 2, "-0XfF"⟩] := by
    rw [tokens_eq]
    cbv
  have ht : ⟨.integer .hexadecimal, 2, "-0XfF"⟩ ∈ Language.textFormat.tokens "a:-0XfF" := by
    simp [htokens]
  exact ⟨ht, integer_token_value ht rfl⟩

end ProtoSyntax
