import ProtoSyntax.Proofs.LineBreaks
import ProtoSyntax.Proofs.Tiling

/-!
# Tokens of joined texts

The tokens of two texts with a line feed between them are those of the first and then those of the
second, further on in the text. This takes that all tokens of the first are terminated, of which
only the last one can fail to be, as it then reached the end of the text.
-/

namespace ProtoSyntax
open String (utf8Len)

def Token.shift (n : Nat) (t : Token) : Token := ⟨t.kind, n + t.start, t.text⟩

theorem isTerminated_of_ne {kind : TokenKind} (hs : kind ≠ .string) (hc : kind ≠ .comment true)
    (text : List Char) : isTerminated kind text = true := by
  unfold isTerminated
  split
  · exact absurd rfl hs
  · exact absurd rfl hc
  · rfl

theorem stringTail_eq_length {quote : Char} {cs : List Char}
    (h : endsString quote (cs.take (stringTail quote cs)) = false) :
    stringTail quote cs = cs.length := by
  fun_induction stringTail quote cs with
  | case1 | case2 => rfl
  | case3 c cs ih => exact congrArg (· + 2) (ih h)
  | case4 cs hnil hcons =>
    have hc : quote ≠ '\\' := ne_backslash hnil hcons
    simp [endsString, hc] at h
  | case5 c cs hnil hcons hquote ih =>
    have hc : c ≠ '\\' := ne_backslash hnil hcons
    rw [List.take_succ_cons] at h
    exact congrArg (· + 1) (ih (by simpa [endsString, hc, hquote] using h))

theorem blockTail_eq_length {cs : List Char} (h : ¬ ['*', '/'] <:+ cs.take (blockTail cs)) :
    blockTail cs = cs.length := by
  induction cs with
  | nil => rfl
  | cons c cs ih =>
    rw [blockTail_cons] at h ⊢
    by_cases hend : c = '*' ∧ cs.head? = some '/'
    · obtain ⟨rfl, hcs⟩ := hend
      obtain ⟨cs, rfl⟩ := List.head?_eq_some_iff.1 hcs
      exact absurd (by simp) h
    · rw [if_neg hend] at h ⊢
      rw [List.take_succ_cons] at h
      rw [ih fun hs => h (hs.trans (List.suffix_cons _ _)), List.length_cons]

/-- Only a string or a block comment can lack its end, and then it takes all that is left of a text. -/
theorem Language.Lexes.unterminated {language : Language} {c : Char} {cs : List Char} {kind : TokenKind}
    {n : Nat} (h : language.Lexes c cs kind n) (ht : isTerminated kind (c :: cs.take n) = false) :
    n = cs.length ∧
      (isQuote c = true ∧ kind = .string ∨ c = '/' ∧ cs.head? = some '*' ∧ kind = .comment true) := by
  cases h with
  | line => cases ht
  | block body hc hcs =>
    subst hcs
    refine ⟨congrArg (· + 1) (blockTail_eq_length fun hs => ?_), .inr ⟨hc, rfl, rfl⟩⟩
    have hends : ['*', '/'].isSuffixOf (body.take (blockTail body)) = true :=
      List.isSuffixOf_iff_suffix.2 hs
    exact Bool.noConfusion (hends.symm.trans ht)
  | string hquote => exact ⟨stringTail_eq_length ht, .inl ⟨hquote, rfl⟩⟩
  | number _ _ hkind => rcases hkind with rfl | ⟨radix, rfl⟩ <;> cases ht
  | word _ hspells => cases hspells <;> cases ht
  | single _ hkind => rcases hkind with rfl | ⟨p, rfl⟩ <;> cases ht

theorem Language.lexeme_eq_length (language : Language) {c : Char} {cs : List Char}
    (h : isTerminated (language.lexeme c cs).1 (c :: cs.take (language.lexeme c cs).2) = false) :
    (language.lexeme c cs).2 = cs.length := ((language.lexes c cs).unterminated h).1

namespace Cuts

variable {lexeme : Char → List Char → TokenKind × Nat} {offset : Nat} {cs : List Char}
  {ts us : List Token}

theorem shift (n : Nat) (h : Cuts lexeme offset cs ts) :
    Cuts lexeme (n + offset) cs (ts.map (·.shift n)) := by
  induction h with
  | done offset => exact .done _
  | blank hb _ ih => exact .blank hb (Nat.add_assoc n _ _ ▸ ih)
  | token hb hl _ ih => exact .token hb hl (Nat.add_assoc n _ _ ▸ ih)

theorem eq_nil_of_not_isTerminated {language : Language} {before after : List Token} {t : Token}
    (h : Cuts language.lexeme offset cs (before ++ t :: after)) (ht : t.isTerminated = false) :
    after = [] := by
  generalize hts : before ++ t :: after = ts at h
  induction h generalizing before with
  | done => simp at hts
  | blank _ _ ih => exact ih hts
  | @token offset c body rest ts _ hl hr ih =>
    cases before with
    | nil =>
      -- The token takes all that is left of the text.
      obtain ⟨rfl, rfl⟩ := List.cons.inj hts
      have hlength := @Language.lexeme_eq_length language c (body ++ rest) (by
        rw [hl, List.take_left]
        simpa [Token.isTerminated] using ht)
      rw [hl, List.length_append] at hlength
      obtain rfl : rest = [] := List.length_eq_zero_iff.1 (by omega)
      cases hr
      rfl
    | cons u before => exact ih (List.cons.inj hts).2

theorem append_lineFeed {language : Language} {more : List Char}
    (h : Cuts language.lexeme offset cs ts) (ht : ∀ t ∈ ts, t.isTerminated = true)
    (h' : Cuts language.lexeme (offset + utf8Len cs + 1) more us) :
    Cuts language.lexeme offset (cs ++ '\n' :: more) (ts ++ us) := by
  induction h with
  | done offset => exact .blank rfl h'
  | blank hb _ ih =>
    refine .blank hb (ih ht ?_)
    rwa [String.utf8Len_cons, Nat.add_comm (utf8Len _), ← Nat.add_assoc] at h'
  | @token offset c body rest ts hb hl _ ih =>
    have hsame := @Language.lexeme_lineFeed language c (body ++ rest) more (by
      rw [hl, List.take_left]
      simpa [Token.isTerminated] using ht _ List.mem_cons_self)
    rw [List.append_assoc] at hsame
    have hrest := ih (fun t ht' => ht t (List.mem_cons_of_mem _ ht')) (by
      rwa [String.utf8Len_append, ← Nat.add_assoc] at h')
    rw [← hsame] at hl
    have := Cuts.token hb hl hrest
    rw [hsame] at this
    simpa using this

end Cuts

def joined (text more : String) : String := text ++ "\n" ++ more

theorem toList_joined (text more : String) :
    (joined text more).toList = text.toList ++ '\n' :: more.toList := by
  simp [joined]

/-- How far what comes after a text and a line feed is behind the beginning. -/
def behind (text : String) : Nat := text.utf8ByteSize + 1

theorem utf8Len_append_lineFeed (text : String) : utf8Len (text.toList ++ ['\n']) = behind text := by
  rw [String.utf8Len_append, String.utf8Len_toList]
  rfl

theorem Language.tokens_joined (language : Language) {text : String} (more : String)
    (h : ∀ t ∈ language.tokens text, t.isTerminated = true) :
    language.tokens (joined text more) =
      language.tokens text ++ (language.tokens more).map (·.shift (behind text)) := by
  have hmore := (tokens_cuts language more).shift (behind text)
  rw [Nat.add_zero, behind, ← String.utf8Len_toList] at hmore
  have hjoined := (tokens_cuts language text).append_lineFeed h (by rwa [Nat.zero_add])
  rw [← toList_joined, String.utf8Len_toList] at hjoined
  exact (tokens_cuts language _).unique hjoined

theorem Language.isTerminated_of_getLast? (language : Language) {text : String}
    (h : ∀ t ∈ (language.tokens text).getLast?, t.isTerminated = true) :
    ∀ t ∈ language.tokens text, t.isTerminated = true := by
  intro t ht
  by_contra hterminated
  obtain ⟨before, after, htokens⟩ := List.append_of_mem ht
  have hcuts := tokens_cuts language text
  rw [htokens] at hcuts h
  obtain rfl := hcuts.eq_nil_of_not_isTerminated (Bool.eq_false_of_not_eq_true hterminated)
  exact hterminated (h t (by simp))

end ProtoSyntax
