import Mathlib.Algebra.Ring.Parity
import ProtoSyntax.Proofs.AdjacentStrings
import ProtoSyntax.Proofs.Numbers

/-!
# How far lexemes reach

A string ends with the first quote of its sort that has an even number of backslashes right before it, a
block comment with the first `*/` after its opening, and where there is none they reach the end of the
text. Line comments and words are runs of characters, and what fits nowhere is one character.
-/

namespace ProtoSyntax
open String (utf8Len)

/-- What comes next ends where a beginning of it is closed for the first time; if none is, it is all that is
left. -/
structure EndsAtFirst (closed : List Char → Prop) (body after : List Char) : Prop where
  ends : closed body ∨ after = []
  first : ∀ p, p <+: body → closed p → p = body

def backslashes (cs : List Char) : Nat := (cs.reverse.takeWhile (· = '\\')).length

/-- At its end there is a quote with an even number of backslashes right before it. -/
def ClosesString (quote : Char) (cs : List Char) : Prop :=
  ∃ content, cs = content ++ [quote] ∧ Even (backslashes content)

def ClosesBlock (cs : List Char) : Prop := ['*', '/'] <:+ cs

/-- Some characters reach exactly as far as their kind says, and no part of what is after them belongs to
them. -/
structure Language.Exact (language : Language) (kind : TokenKind) (cs after : List Char) : Prop where
  string : kind = .string → ∃ quote body, cs = quote :: body ∧ isQuote quote = true ∧
    EndsAtFirst (ClosesString quote) body after
  block : kind = .comment true → ∃ body, cs = '/' :: '*' :: body ∧ EndsAtFirst ClosesBlock body after
  line : kind = .comment false → LongestRun (fun c => !isLineBreak c) cs after
  word : ∀ c ∈ cs.head?, isWordStart c = true →
    LongestRun isWordPart cs after ∧ language.Spells (String.ofList cs) kind
  invalid : kind = .invalid → ∃ c, cs = [c]

/-! ### Strings and block comments -/

theorem EndsAtFirst.append_left {closed : List Char → Prop} {body after : List Char}
    (h : EndsAtFirst closed body after) (front : List Char) (hkeeps : closed body → closed (front ++ body))
    (hback : ∀ p, p <+: body → closed (front ++ p) → closed p)
    (hshort : ∀ p, p <+: front → p ≠ front → ¬ closed p) :
    EndsAtFirst closed (front ++ body) after where
  ends := h.ends.imp_left hkeeps
  first p hp hclosed := by
    by_cases hfront : front <+: p
    · obtain ⟨m, rfl⟩ := hfront
      have hm := (List.prefix_append_right_inj front).1 hp
      rw [h.first m hm (hback m hm hclosed)]
    · have hpf : p <+: front :=
        (List.prefix_or_prefix_of_prefix hp (List.prefix_append front body)).resolve_right hfront
      refine absurd hclosed (hshort p hpf ?_)
      rintro rfl
      exact hfront (List.prefix_refl p)

theorem backslashes_cons {c : Char} (hc : c ≠ '\\') (cs : List Char) :
    backslashes (c :: cs) = backslashes cs := by
  simp only [backslashes, List.reverse_cons, List.takeWhile_append]
  split
  · next h => simp [hc, h]
  · rfl

theorem even_backslashes_escape (c : Char) (cs : List Char) :
    Even (backslashes ('\\' :: c :: cs)) ↔ Even (backslashes cs) := by
  simp only [backslashes, List.reverse_cons, List.append_assoc, List.cons_append, List.nil_append,
    List.takeWhile_append]
  split
  · next h =>
    by_cases hc : c = '\\'
    · simp [hc, h, Nat.even_add, even_two]
    · simp [hc, h]
  · rfl

section

variable {quote c : Char} {cs after : List Char}

theorem ClosesString.getLast?_eq (h : ClosesString quote cs) : cs.getLast? = some quote := by
  obtain ⟨content, rfl, -⟩ := h
  exact List.getLast?_concat

theorem closesString_escape :
    ClosesString quote ('\\' :: c :: cs) ↔ ClosesString quote cs := by
  constructor
  · rintro ⟨content, h, heven⟩
    match content with
    | [] => simp at h
    | [b] =>
      obtain ⟨rfl, -⟩ := List.cons.inj h
      simp [backslashes] at heven
    | b :: d :: content =>
      simp only [List.cons_append, List.cons.injEq] at h
      obtain ⟨rfl, rfl, rfl⟩ := h
      exact ⟨content, rfl, (even_backslashes_escape _ _).1 heven⟩
  · rintro ⟨content, rfl, heven⟩
    exact ⟨'\\' :: c :: content, rfl, (even_backslashes_escape _ _).2 heven⟩

theorem closesString_cons (hc : c ≠ '\\') :
    ClosesString quote (c :: cs) ↔ c = quote ∧ cs = [] ∨ ClosesString quote cs := by
  constructor
  · rintro ⟨content, h, heven⟩
    cases content with
    | nil => exact .inl (by simpa using h)
    | cons b content =>
      obtain ⟨rfl, rfl⟩ := List.cons.inj h
      exact .inr ⟨content, rfl, backslashes_cons hc content ▸ heven⟩
  · rintro (⟨rfl, rfl⟩ | ⟨content, rfl, heven⟩)
    · exact ⟨[], rfl, by simp [backslashes]⟩
    · exact ⟨c :: content, rfl, (backslashes_cons hc content).symm ▸ heven⟩

theorem endsAtFirst_stringTail (hquote : quote ≠ '\\') (cs : List Char) :
    EndsAtFirst (ClosesString quote) (cs.take (stringTail quote cs)) (cs.drop (stringTail quote cs)) := by
  have hnil : ¬ ClosesString quote [] := fun h => by simpa using h.getLast?_eq
  have hback : ¬ ClosesString quote ['\\'] := fun h => hquote (by simpa using h.getLast?_eq.symm)
  fun_induction stringTail quote cs with
  | case1 => exact ⟨.inr rfl, fun p hp _ => List.prefix_nil.1 hp⟩
  | case2 =>
    refine ⟨.inr rfl, fun p hp hclosed => ?_⟩
    have hp : p = [] ∨ p = ['\\'] := by simpa [List.prefix_cons_iff] using hp
    exact hp.resolve_left fun h => hnil (h ▸ hclosed)
  | case3 c cs ih =>
    refine ih.append_left ['\\', c] closesString_escape.2
      (fun p _ => closesString_escape.1) fun p hp hne hclosed => ?_
    have hp : p = [] ∨ p = ['\\'] ∨ p = ['\\', c] := by grind [List.prefix_cons_iff]
    rcases hp with rfl | rfl | rfl
    · exact hnil hclosed
    · exact hback hclosed
    · exact hne rfl
  | case4 cs =>
    refine ⟨.inl ((closesString_cons hquote).2 (.inl ⟨rfl, rfl⟩)), fun p hp hclosed => ?_⟩
    have hp : p = [] ∨ p = [quote] := by simpa [List.prefix_cons_iff] using hp
    exact hp.resolve_left fun h => hnil (h ▸ hclosed)
  | case5 c cs htail hpair hcq ih =>
    have hc : c ≠ '\\' := ne_backslash htail hpair
    have hiff {p : List Char} : ClosesString quote (c :: p) ↔ ClosesString quote p := by
      simp [closesString_cons hc, hcq]
    refine ih.append_left [c] hiff.2 (fun p _ => hiff.1) fun p hp hne hclosed => ?_
    have hp : p = [] ∨ p = [c] := by simpa [List.prefix_cons_iff] using hp
    exact hnil (hp.resolve_right hne ▸ hclosed)

end

theorem endsAtFirst_blockTail (cs : List Char) :
    EndsAtFirst ClosesBlock (cs.take (blockTail cs)) (cs.drop (blockTail cs)) := by
  have hshort {p : List Char} (hp : p.length < 2) : ¬ ClosesBlock p := fun h =>
    absurd h.length_le (by simpa using hp)
  induction cs with
  | nil => exact ⟨.inr rfl, fun p hp _ => List.prefix_nil.1 hp⟩
  | cons c cs ih =>
    rw [blockTail_cons]
    by_cases hend : c = '*' ∧ cs.head? = some '/'
    · obtain ⟨rfl, hcs⟩ := hend
      obtain ⟨cs, rfl⟩ := List.head?_eq_some_iff.1 hcs
      rw [if_pos ⟨rfl, hcs⟩]
      refine ⟨.inl (List.suffix_refl _), fun p hp hclosed => ?_⟩
      exact hp.eq_of_length_le (by simpa using hclosed.length_le)
    · rw [if_neg hend, List.take_succ_cons, List.drop_succ_cons]
      refine ih.append_left [c] (fun h => h.trans (List.suffix_cons _ _)) (fun p hp h => ?_)
        fun p hp _ => hshort (Nat.lt_succ_of_le hp.length_le)
      refine (List.suffix_cons_iff.1 h).resolve_left fun hstar => hend ?_
      obtain ⟨rfl, rfl⟩ := List.cons.inj hstar
      obtain ⟨rest, rfl⟩ := hp.trans (List.take_prefix _ _)
      exact ⟨rfl, rfl⟩

/-! ### Runs and words -/

theorem longestRun_of_runLength {p : Char → Bool} {run after : List Char}
    (h : runLength p (run ++ after) = run.length) : LongestRun p run after := by
  obtain ⟨run', after', he, hrun⟩ := exists_longestRun p (run ++ after)
  have hlength : run.length = run'.length := by rw [← h, he, hrun.runLength_eq]
  obtain ⟨rfl, rfl⟩ := List.append_inj he hlength
  exact hrun

theorem LongestRun.cons {p : Char → Bool} {c : Char} {run after : List Char} (hc : p c = true)
    (h : LongestRun p run after) : LongestRun p (c :: run) after :=
  ⟨List.forall_mem_cons.2 ⟨hc, h.inside⟩, h.stops⟩

theorem not_isWordStart_of_isQuote {c : Char} (h : isQuote c = true) : isWordStart c = false := by
  simp only [isQuote, Bool.or_eq_true, decide_eq_true_eq] at h
  rcases h with rfl | rfl <;> rfl

/-! ### Lexemes -/

theorem Language.Lexes.exact {language : Language} {c : Char} {body after : List Char}
    {kind : TokenKind} {n : Nat} (h : language.Lexes c (body ++ after) kind n) (hn : n = body.length) :
    language.Exact kind (c :: body) after := by
  have hnoWord (hc : isWordStart c = false) : ∀ d ∈ (c :: body).head?, isWordStart d = true →
      LongestRun isWordPart (c :: body) after ∧
        language.Spells (String.ofList (c :: body)) kind := by
    rintro _ ⟨⟩ hd
    exact Bool.noConfusion (hc.symm.trans hd)
  cases h with
  | line hline hword =>
    have hrun : LongestRun (fun c => !isLineBreak c) (c :: body) after :=
      (longestRun_of_runLength hn).cons (by simp [hline])
    exact ⟨nofun, nofun, fun _ => hrun, hnoWord hword, nofun⟩
  | block rest hslash hrest =>
    subst hslash
    cases body with
    | nil => cases hn
    | cons d body =>
      obtain ⟨rfl, hcs⟩ : d = '*' ∧ body ++ after = rest := List.cons.inj hrest
      have hends := endsAtFirst_blockTail rest
      rw [Nat.succ.inj hn, ← hcs, List.take_left, List.drop_left] at hends
      exact ⟨nofun, fun _ => ⟨body, rfl, hends⟩, nofun, hnoWord rfl, nofun⟩
  | string hquote =>
    have hends := endsAtFirst_stringTail (ne_backslash_of_isQuote hquote) (body ++ after)
    rw [hn, List.take_left, List.drop_left] at hends
    exact ⟨fun _ => ⟨c, body, rfl, hquote, hends⟩, nofun, nofun,
      hnoWord (not_isWordStart_of_isQuote hquote), nofun⟩
  | number _ hword hkind =>
    rcases hkind with rfl | ⟨radix, rfl⟩ <;>
      exact ⟨nofun, nofun, nofun, hnoWord hword, nofun⟩
  | word hword hspells =>
    have hrun : LongestRun isWordPart (c :: body) after :=
      (longestRun_of_runLength hn).cons (isWordPart_of_isWordStart hword)
    rw [hn, List.take_left] at hspells
    have hexact := And.intro hrun hspells
    cases hspells <;> exact ⟨nofun, nofun, nofun, fun _ _ _ => hexact, nofun⟩
  | single hword hkind =>
    obtain rfl : body = [] := List.length_eq_zero_iff.1 hn.symm
    rcases hkind with rfl | ⟨p, rfl⟩
    · exact ⟨nofun, nofun, nofun, hnoWord hword, fun _ => ⟨c, rfl⟩⟩
    · exact ⟨nofun, nofun, nofun, hnoWord hword, nofun⟩

/-- Every token reaches as far in the text as its kind says. -/
theorem tokens_exact {language : Language} {text : String} {t : Token} (ht : t ∈ language.tokens text) :
    ∃ before after, text.toList = before ++ (t.text.toList ++ after) ∧ t.start = utf8Len before ∧
      language.Exact t.kind t.text.toList after := by
  obtain ⟨before, c, body, after, htext, -, hl, hstart, hbody⟩ := tokens_foundIn language text t ht
  have hlexes := language.lexes c (body ++ after)
  rw [hl] at hlexes
  rw [hbody, String.toList_ofList]
  exact ⟨before, after, htext, hstart, hlexes.exact rfl⟩

theorem tokens_exact_slashes :
    ⟨.comment true, 1, "/*/é*/"⟩ ∈ Language.schema.tokens "x/*/é*/-" ∧
      ∃ before after, "x/*/é*/-".toList = before ++ ("/*/é*/".toList ++ after) ∧
        1 = utf8Len before ∧ Language.schema.Exact (.comment true) "/*/é*/".toList after := by
  have htokens : Language.schema.tokens "x/*/é*/-" =
      [⟨.identifier, 0, "x"⟩, ⟨.comment true, 1, "/*/é*/"⟩, ⟨.invalid, 8, "-"⟩] := by
    rw [tokens_eq]
    cbv
  have ht : ⟨.comment true, 1, "/*/é*/"⟩ ∈ Language.schema.tokens "x/*/é*/-" := by simp [htokens]
  exact ⟨ht, tokens_exact ht⟩

end ProtoSyntax
