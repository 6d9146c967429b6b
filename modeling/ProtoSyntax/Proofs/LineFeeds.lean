import ProtoSyntax.Proofs.CutTexts
import ProtoSyntax.Proofs.JoinedTexts
import ProtoSyntax.Proofs.Parsing.Readers
import ProtoSyntax.Text.Quoted

/-!
# Line feeds in texts

Of all tokens only strings and block comments can hold a line feed. Numerals have none, and in quoted text
it is escaped.
-/

namespace ProtoSyntax

@[simp] theorem lineFeeds_append (s t : String) : lineFeeds (s ++ t) = lineFeeds s + lineFeeds t := by
  rw [lineFeeds, String.toList_append, List.count_append, lineFeeds, lineFeeds]

theorem lineFeeds_eq_zero {s : String} : lineFeeds s = 0 ↔ '\n' ∉ s.toList := List.count_eq_zero

theorem lineFeeds_join (l : List String) : lineFeeds (String.join l) = (l.map lineFeeds).sum := by
  rw [lineFeeds, String.toList_join, List.count_flatMap]
  rfl

theorem lineFeeds_concat {ts us : List Token} (h : ∀ u ∈ us, lineFeeds u.text = 0) (hsub : ts ⊆ us) :
    lineFeeds (Token.concat ts) = 0 := by
  rw [Token.concat, lineFeeds_join, List.sum_eq_zero_iff]
  simpa using fun t ht => h t (hsub ht)

theorem lineFeeds_intercalate {separator : String} (hs : lineFeeds separator = 0) {l : List String}
    (h : ∀ s ∈ l, lineFeeds s = 0) : lineFeeds (separator.intercalate l) = 0 := by
  induction l with
  | nil => rfl
  | cons s l ih =>
    obtain ⟨hs', hl⟩ := List.forall_mem_cons.1 h
    cases l with
    | nil => simpa using hs'
    | cons s' l => simp [String.intercalate_cons_cons, hs, hs', ih hl]

theorem lineFeed_not_mem_toDigits {base : Nat} (hbase : 1 < base) (n : Nat) :
    '\n' ∉ Nat.toDigits base n := by
  induction n using Nat.strongRecOn with
  | _ n ih =>
    rw [Nat.toDigits_eq_if hbase]
    split
    · simp
    · have hlt : n / base < n := Nat.div_lt_self (by omega) hbase
      simpa using ih _ hlt

theorem lineFeeds_repr (n : Nat) : lineFeeds n.repr = 0 := by
  rw [lineFeeds_eq_zero, Nat.toList_repr]
  exact lineFeed_not_mem_toDigits (by decide) n

namespace Quoted

theorem lineFeed_not_mem_escape (c : Char) : '\n' ∉ escape c := by
  unfold escape
  split_ifs with _ _ _ _ _ hfeed
  on_goal 7 => simpa [codePoint, hexDigits] using lineFeed_not_mem_toDigits (by decide) c.toNat
  on_goal 7 => simpa using Ne.symm hfeed
  all_goals decide

theorem lineFeeds_quote (text : String) : lineFeeds (quote text) = 0 := by
  rw [lineFeeds_eq_zero, quote, String.toList_ofList]
  simpa using fun c _ => lineFeed_not_mem_escape c

end Quoted

theorem Language.string_or_comment_of_lineFeed (language : Language) {c : Char} {before more : List Char}
    (h : before.length < (language.lexeme c (before ++ '\n' :: more)).2) :
    (language.lexeme c (before ++ '\n' :: more)).1 = .string ∨
      (language.lexeme c (before ++ '\n' :: more)).1 = .comment true := by
  have hunterminated : ¬ isTerminated (language.lexeme c before).1
      (c :: before.take (language.lexeme c before).2) = true := by
    intro ht
    rw [language.lexeme_lineFeed more ht] at h
    exact Nat.not_lt.2 (language.lexeme_bounded c before) h
  obtain ⟨-, ⟨hquote, -⟩ | ⟨rfl, hstar, hkind⟩⟩ :=
    (language.lexes c before).unterminated (Bool.eq_false_of_not_eq_true hunterminated)
  · exact .inl (congrArg Prod.fst (Language.lexeme_of_isQuote hquote _))
  · obtain ⟨before, rfl⟩ := List.head?_eq_some_iff.1 hstar
    cases language with
    | schema => exact .inr rfl
    | textFormat => cases hkind

theorem tokens_lineFeeds {language : Language} {text : String} {t : Token} (ht : t ∈ language.tokens text)
    (hstring : t.kind ≠ .string) (hcomment : t.isComment = false) : lineFeeds t.text = 0 := by
  obtain ⟨-, c, body, after, -, hblank, hl, -, hbody⟩ := tokens_foundIn language text t ht
  rw [lineFeeds_eq_zero, hbody, String.toList_ofList]
  intro hmem
  rcases List.mem_cons.1 hmem with rfl | hmem
  · cases hblank
  · obtain ⟨before, more, rfl⟩ := List.append_of_mem hmem
    have hcut := @Language.string_or_comment_of_lineFeed language c before (more ++ after)
    rw [List.append_assoc, List.cons_append] at hl
    rw [hl] at hcut
    rcases hcut (by simp) with hk | hk
    · exact hstring hk
    · rw [Token.isComment, show t.kind = _ from hk] at hcomment
      cases hcomment

namespace Reader

variable {α β : Type} {P Q : α → Prop} {R : β → Prop}

/-- What the reader makes of tokens without line feeds is as told. -/
def OnLine (r : Reader α) (P : α → Prop) : Prop :=
  ∀ ts, (∀ t ∈ ts, lineFeeds t.text = 0) → P (r ts).1 ∧ ∀ t ∈ (r ts).2, lineFeeds t.text = 0

namespace OnLine

theorem pure {a : α} (h : P a) : OnLine (Pure.pure a) P := fun _ hts => ⟨h, hts⟩

theorem bind {r : Reader α} {k : α → Reader β} (hr : OnLine r P) (hk : ∀ a, P a → OnLine (k a) R) :
    OnLine (r >>= k) R := by
  intro ts hts
  obtain ⟨ha, hrest⟩ := hr ts hts
  exact hk _ ha _ hrest

theorem ite {c : Prop} [Decidable c] {r r' : Reader α} (h : OnLine r P) (h' : OnLine r' P) :
    OnLine (if c then r else r') P := by split <;> assumption

theorem of_steady {r : Reader α} (h : Steady r) : OnLine r fun _ => True :=
  fun ts hts => ⟨trivial, fun t ht => hts t ((h.suffix ts).subset ht)⟩

theorem takeText : OnLine takeText (lineFeeds · = 0)
  | [], h => ⟨rfl, h⟩
  | _ :: _, h => List.forall_mem_cons.1 h

theorem moreWords {mark? : Token → Option String}
    (hmark : ∀ t : Token, lineFeeds t.text = 0 → ∀ s ∈ mark? t, lineFeeds s = 0) {name : String}
    (hname : lineFeeds name = 0) : OnLine (moreWords mark? name) (lineFeeds · = 0) := by
  intro ts hts
  fun_induction Reader.moreWords mark? name ts with
  | case1 name mark word ts s hs ih =>
    obtain ⟨hfeeds, hword, hts⟩ := List.forall_mem_cons.1 hts |>.imp_right List.forall_mem_cons.1
    exact ih (by simp [hname, hmark mark hfeeds s hs, hword]) hts
  | case2 | case3 => exact ⟨hname, hts⟩

end OnLine

end Reader

end ProtoSyntax
