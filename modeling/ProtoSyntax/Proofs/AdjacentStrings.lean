import ProtoSyntax.Proofs.CutTexts
import ProtoSyntax.Proofs.Parsing.Consistency
import ProtoSyntax.Proofs.Parsing.Refusal
import ProtoSyntax.Proofs.Safety

/-!
# Adjacent strings

String literals that stand next to each other are joined: what is between their quotes is put together as
it stands, between quotes like those of the first one. That makes one literal unless a quote of this
sort stood between quotes of the other sort, where nothing had to be put before it. There the joined
literal ends too early.
-/

namespace ProtoSyntax
open Piece (flatten)

inductive Content : List Char → Prop where
  | nil : Content []
  | escape (c : Char) {cs : List Char} : Content cs → Content ('\\' :: c :: cs)
  | char {c : Char} {cs : List Char} : c ≠ '\\' → Content cs → Content (c :: cs)

/-- Whether there is a quote that no backslash takes. -/
def hasBare (quote : Char) : List Char → Bool
  | [] => false
  | ['\\'] => false
  | '\\' :: _ :: cs => hasBare quote cs
  | c :: cs => c = quote || hasBare quote cs

/-- Whether a text is one string literal that is closed. -/
def Language.IsLiteral (language : Language) (text : String) : Prop :=
  language.tokens text = [⟨.string, 0, text⟩] ∧ isTerminated .string text.toList = true

namespace Content

variable {quote : Char} {cs ds : List Char}

theorem append (hc : Content cs) (hd : Content ds) : Content (cs ++ ds) := by
  induction hc with
  | nil => exact hd
  | escape c _ ih => exact .escape c ih
  | char hc _ ih => exact .char hc ih

theorem hasBare_append (hc : Content cs) :
    hasBare quote (cs ++ ds) = (hasBare quote cs || hasBare quote ds) := by
  induction hc with
  | nil => rfl
  | escape c _ ih => exact ih
  | char hc _ ih => simp [hasBare, hc, ih, Bool.or_assoc]

theorem hasBare_flatten {css : List (List Char)} (h : ∀ cs ∈ css, Content cs) :
    hasBare quote css.flatten = css.any (hasBare quote) := by
  induction css with
  | nil => rfl
  | cons cs css ih =>
    obtain ⟨hcs, hcss⟩ := List.forall_mem_cons.1 h
    rw [List.flatten_cons, hcs.hasBare_append, ih hcss, List.any_cons]

theorem flatten {css : List (List Char)} (h : ∀ cs ∈ css, Content cs) : Content css.flatten := by
  induction css with
  | nil => exact .nil
  | cons cs css ih =>
    obtain ⟨hcs, hcss⟩ := List.forall_mem_cons.1 h
    exact hcs.append (ih hcss)

theorem endsString_concat (hquote : quote ≠ '\\') (hc : Content cs) :
    endsString quote (cs ++ [quote]) = !hasBare quote cs := by
  induction hc with
  | nil => simp [endsString, hasBare, hquote]
  | escape c _ ih => exact ih
  | @char c cs hc _ ih =>
    by_cases hcq : c = quote
    · subst hcq
      simp [endsString, hasBare, hc]
    · simp [endsString, hasBare, hc, hcq, ih]

theorem isSuffix_of_getLast? (hc : Content cs) (h : cs.getLast? = some '\\') : ['\\', '\\'] <:+ cs := by
  induction hc with
  | nil => cases h
  | @escape c cs _ ih =>
    cases cs with
    | nil =>
      obtain rfl : c = '\\' := Option.some.inj h
      exact List.suffix_refl _
    | cons d ds => exact (ih h).trans ((List.suffix_cons _ _).trans (List.suffix_cons _ _))
  | @char c cs hc _ ih =>
    cases cs with
    | nil => exact absurd (Option.some.inj h) hc
    | cons d ds => exact (ih h).trans (List.suffix_cons _ _)

theorem unquoteChars_eq (hc : Content cs) : unquoteChars (quote :: (cs ++ [quote])) = cs := by
  have hlast : (cs ++ [quote]).getLast? = some quote := by simp
  rw [unquoteChars, if_pos hlast, List.dropLast_concat]
  refine if_pos (Bool.or_eq_true_iff.2 ?_)
  by_cases h : cs.getLast? = some '\\'
  · exact .inr (List.isSuffixOf_iff_suffix.2 (hc.isSuffix_of_getLast? h))
  · exact .inl (decide_eq_true h)

end Content

theorem exists_content_of_endsString {quote : Char} {cs : List Char} (h : endsString quote cs = true) :
    ∃ content, cs = content ++ [quote] ∧ Content content := by
  fun_induction endsString quote cs with
  | case1 | case2 => cases h
  | case3 c cs ih =>
    obtain ⟨content, rfl, hc⟩ := ih h
    exact ⟨'\\' :: c :: content, rfl, .escape c hc⟩
  | case4 cs hnil hcons =>
    obtain rfl := List.isEmpty_iff.1 h
    exact ⟨[], rfl, .nil⟩
  | case5 c cs hnil hcons hquote ih =>
    obtain ⟨content, rfl, hc⟩ := ih h
    refine ⟨c :: content, rfl, .char ?_ hc⟩
    rintro rfl
    obtain ⟨d, ds, hcs⟩ := List.exists_cons_of_ne_nil (List.concat_ne_nil quote content)
    exact hcons d ds rfl (by simpa using hcs)

theorem ne_backslash_of_isQuote {c : Char} (h : isQuote c = true) : c ≠ '\\' := by
  rintro rfl
  cases h

section

variable {language : Language} {c : Char} {cs : List Char}

theorem Language.Lexes.isQuote {n : Nat} (h : language.Lexes c cs .string n) : isQuote c = true := by
  cases h with
  | string hquote => exact hquote
  | number _ _ hkind => simp at hkind
  | word _ hspells => cases hspells
  | single _ hkind => simp at hkind

theorem Language.isQuote_of_lexeme (h : (language.lexeme c cs).1 = .string) : isQuote c = true :=
  (h ▸ language.lexes c cs).isQuote

theorem Language.isLiteral_iff (h : isQuote c = true) :
    language.IsLiteral (String.ofList (c :: cs)) ↔ endsString c cs = true := by
  rw [IsLiteral, String.toList_ofList]
  refine and_iff_right_of_imp fun hends => ?_
  have htail := stringTail_of_endsString hends []
  have hlexeme := @Language.lexeme_of_isQuote c language h (cs ++ [])
  have hblank : isBlank c = false := by
    simp only [isQuote, Bool.or_eq_true, decide_eq_true_eq] at h
    rcases h with rfl | rfl <;> rfl
  rw [htail] at hlexeme
  have hcut : Cuts language.lexeme 0 (c :: cs ++ []) _ :=
    .token hblank (congrArg Prod.snd hlexeme) (.done _)
  rw [hlexeme, List.append_nil] at hcut
  have hcuts := tokens_cuts language (String.ofList (c :: cs))
  rw [String.toList_ofList] at hcuts
  exact hcuts.unique hcut

theorem exists_quoted {text : String} {t : Token} (ht : t ∈ language.tokens text)
    (hkind : t.kind = .string) (hterminated : t.isTerminated = true) :
    ∃ quote content, isQuote quote = true ∧ t.text.toList = quote :: (content ++ [quote]) ∧
      Content content := by
  obtain ⟨before, c, body, after, -, -, hl, -, htext⟩ := tokens_foundIn language text t ht
  have hquote : isQuote c = true := Language.isQuote_of_lexeme ((congrArg Prod.fst hl).trans hkind)
  rw [Token.isTerminated, hkind, htext, String.toList_ofList] at hterminated
  obtain ⟨content, rfl, hcontent⟩ := exists_content_of_endsString hterminated
  exact ⟨c, content, hquote, by rw [htext, String.toList_ofList], hcontent⟩

end

namespace Token

def content (t : Token) : List Char := unquoteChars t.text.toList

def quote (t : Token) : Char := t.text.toList.headD '"'

theorem joined_eq (t u : Token) (ts : List Token) : joined (t :: u :: ts) =
    String.ofList (t.quote :: (((t :: u :: ts).map content).flatten ++ [t.quote])) := by
  apply String.toList_injective
  simp [joined, unquote, content, quote, List.flatMap_def, Function.comp_def]
  rfl

theorem isLiteral_joined_iff {language : Language} {text : String} {ts : List Token} {u : Token}
    (hu : u ∈ ts.head?) (htwo : 2 ≤ ts.length) (hts : ∀ t ∈ ts, t ∈ language.tokens text ∧
      t.kind = .string ∧ t.isTerminated = true) :
    language.IsLiteral (joined ts) ↔ ∀ t ∈ ts, hasBare u.quote t.content = false := by
  obtain ⟨ts, rfl⟩ := List.head?_eq_some_iff.1 hu
  have quoted {t : Token} (ht : t ∈ u :: ts) : isQuote t.quote = true ∧ Content t.content := by
    obtain ⟨htext, hkind, hterminated⟩ := hts t ht
    obtain ⟨quote, content, hquote, he, hcontent⟩ := exists_quoted htext hkind hterminated
    rw [Token.quote, Token.content, he, hcontent.unquoteChars_eq]
    exact ⟨hquote, hcontent⟩
  have hquote := (quoted List.mem_cons_self).1
  have hcontents : ∀ cs ∈ (u :: ts).map content, Content cs :=
    List.forall_mem_map.2 fun t ht => (quoted ht).2
  cases ts with
  | nil => exact absurd htwo (Nat.not_succ_le_self 1)
  | cons v ts =>
    rw [joined_eq, Language.isLiteral_iff hquote,
      (Content.flatten hcontents).endsString_concat (ne_backslash_of_isQuote hquote),
      Content.hasBare_flatten hcontents, Bool.not_eq_true', List.any_eq_false]
    simp only [Bool.not_eq_true, List.forall_mem_map]

end Token

def State.stringsAhead {K : Type} (s : State K) : List Token :=
  (s.stream.rest.filter fun t => !t.isComment).takeWhile fun t => t.kind = .string

theorem State.mem_stringsAhead {K : Type} {s : State K} {t : Token} (ht : t ∈ s.stringsAhead) :
    t ∈ s.stream.rest ∧ t.kind = .string := by
  rw [stringsAhead] at ht
  exact ⟨List.mem_of_mem_filter ((List.takeWhile_sublist _).subset ht),
    by simpa using List.mem_takeWhile_imp ht⟩

section reading

variable {G S K : Type} {g : Grammar G S K} {embed : Literal.Goal → G}
  (hreact : ∀ goal ahead, g.react (embed goal) ahead = Literal.react embed goal ahead)

include hreact

theorem pursuit_moreStrings {qs ps : List Piece} (hqs : ∀ q ∈ qs, q.kind = .string)
    (hps : ∀ p ∈ ps.head?, p.kind ≠ .string) :
    Pursuit g.react [Literal.goal embed .moreStrings] (qs ++ ps) (Part.plain qs) ps := by
  induction qs with
  | nil =>
    refine .skip ?_ (.done ps)
    rw [hreact, Literal.react, Piece.kindAt_flatten_zero, if_neg]
    · rfl
    · intro h
      obtain ⟨p, hp, hkind⟩ := Option.map_eq_some_iff.1 h
      exact hps p hp hkind
  | cons q qs ih =>
    obtain ⟨hq, hqs⟩ := List.forall_mem_cons.1 hqs
    refine .take (?_ : g.react _ (flatten (q :: (qs ++ ps))) = .take .plain [_]) (ih hqs)
    rw [hreact, Literal.react, Piece.kindAt_flatten_zero, if_pos]
    · rfl
    · exact congrArg some hq

theorem State.Consistent.read_strings [Vocabulary K] {text : String} {tokens : List Token} {s : State K}
    (h : s.Consistent text tokens) (hslice : Sliceable text tokens) (hne : s.stringsAhead ≠ []) :
    ∃ s', g.read (Literal.strings embed) s = .ok s.stringsAhead s' ∧ Leads text tokens s s' := by
  obtain ⟨ps, hps⟩ := h.exists_flatten
  have hsplit := List.takeWhile_append_dropWhile (p := fun p : Piece => p.kind = .string) (l := ps)
  generalize hqs : ps.takeWhile (fun p => p.kind = .string) = qs at hsplit
  generalize hleft : ps.dropWhile (fun p => p.kind = .string) = left at hsplit
  have hahead : s.stringsAhead = qs.map (·.token) := by
    rw [stringsAhead, hps, Piece.filter_flatten, List.takeWhile_map, ← hqs]
    rfl
  cases qs with
  | nil => exact absurd hahead hne
  | cons q qs =>
    have hkinds : ∀ p ∈ q :: qs, p.kind = .string := by
      intro p hp
      rw [← hqs] at hp
      simpa using List.mem_takeWhile_imp hp
    have hend : ∀ p ∈ left.head?, p.kind ≠ .string := by
      intro p hp
      have := List.head?_dropWhile_not (fun p : Piece => decide (p.kind = .string)) ps
      rw [hleft, Option.mem_def.1 hp] at this
      simpa using this
    obtain ⟨hq, hqs⟩ := List.forall_mem_cons.1 hkinds
    have hpursuit : Pursuit g.react (Literal.strings embed) (q :: qs ++ left)
        (Part.plain (q :: qs)) left :=
      .token (decide_eq_true hq) (pursuit_moreStrings hreact hqs hend)
    have hrun := hpursuit.run_eq []
    rw [hsplit, ← hps] at hrun
    obtain ⟨s', hplays, hleads, -⟩ := h.plays_plain g hslice (hps.trans (congrArg flatten hsplit.symm))
    refine ⟨s', ?_, hleads⟩
    have hmakes : Trace.Makes (g.react.run (Literal.strings embed) s.stream.rest []) []
        (Part.plain (q :: qs)) (q :: qs ++ left) left :=
      ⟨congrArg Trace.acts hrun, congrArg Trace.rest hrun, hpursuit.pieces_eq⟩
    have hread := g.read_of_plays (by rw [hmakes.acts]; exact hplays) (congrArg Trace.refusal hrun)
    rw [hread, hmakes.taken_eq, Part.flatMap_signals_plain, Part.pieces_map_token, hahead]

end reading

/-- Adjacent string literals make one literal just if none of them holds a bare quote of the sort that
the first one has. -/
theorem read_strings_isLiteral_iff {G S K : Type} [Vocabulary K] {g : Grammar G S K}
    {embed : Literal.Goal → G}
    (hreact : ∀ goal ahead, g.react (embed goal) ahead = Literal.react embed goal ahead)
    {language : Language} {text : String} {s : State K} (h : s.Consistent text (language.tokens text))
    (htwo : 2 ≤ s.stringsAhead.length) (hterminated : ∀ t ∈ s.stringsAhead, t.isTerminated = true) :
    (∃ s', g.read (Literal.strings embed) s = .ok s.stringsAhead s') ∧
      ∀ u ∈ s.stringsAhead.head?, (language.IsLiteral (Token.joined s.stringsAhead) ↔
        ∀ t ∈ s.stringsAhead, hasBare u.quote t.content = false) := by
  constructor
  · obtain ⟨s', hread, -⟩ := h.read_strings hreact (tokens_sliceable language text) (by
      rintro hnil
      simp [hnil] at htwo)
    exact ⟨s', hread⟩
  · intro u hu
    refine @Token.isLiteral_joined_iff language text _ _ hu htwo fun t ht => ?_
    obtain ⟨hmem, hkind⟩ := State.mem_stringsAhead ht
    rw [h.rest] at hmem
    exact ⟨List.mem_of_mem_drop hmem, hkind, hterminated t ht⟩

theorem exists_stringsAhead {language : Language} {text : String} {ts : List Token}
    (h : (match State.ofTokens (K := TextFormat.Kind) text (language.tokens text) with
      | .ok _ s => s.stringsAhead
      | .error _ _ => []) = ts) :
    ∃ s : State TextFormat.Kind, State.ofTokens text (language.tokens text) = .ok () s ∧
      s.Consistent text (language.tokens text) ∧ s.stringsAhead = ts := by
  obtain ⟨s, hs, hconsistent⟩ := State.exists_consistent (K := TextFormat.Kind)
    (tokens_sliceable language text)
  rw [hs] at h
  exact ⟨s, hs, hconsistent, h⟩

theorem read_strings_around_comment : ∃ s : State TextFormat.Kind,
    s.Consistent "\"a\\'\"#c\n'b'" (Language.textFormat.tokens "\"a\\'\"#c\n'b'") ∧
      2 ≤ s.stringsAhead.length ∧ (∀ t ∈ s.stringsAhead, t.isTerminated = true) ∧
      (∃ s', TextFormat.grammar.read (Literal.strings .literal) s = .ok s.stringsAhead s') ∧
      ∀ u ∈ s.stringsAhead.head?, (Language.textFormat.IsLiteral (Token.joined s.stringsAhead) ↔
        ∀ t ∈ s.stringsAhead, hasBare u.quote t.content = false) := by
  obtain ⟨s, -, hs, hahead⟩ := @exists_stringsAhead .textFormat "\"a\\'\"#c\n'b'"
    [⟨.string, 0, "\"a\\'\""⟩, ⟨.string, 8, "'b'"⟩] (by rw [tokens_eq]; cbv)
  have htwo : 2 ≤ s.stringsAhead.length := by rw [hahead]; decide
  have hterminated : ∀ t ∈ s.stringsAhead, t.isTerminated = true := by rw [hahead]; decide
  exact ⟨s, hs, htwo, hterminated, read_strings_isLiteral_iff (fun _ _ => rfl) hs htwo hterminated⟩

/-- A bare quote ends the joined literal too early. -/
theorem joined_ends_early : ∃ s s' : State TextFormat.Kind,
    State.ofTokens "\"a\" 'b\"c'" (Language.textFormat.tokens "\"a\" 'b\"c'") = .ok () s ∧
      2 ≤ s.stringsAhead.length ∧ (∀ t ∈ s.stringsAhead, t.isTerminated = true) ∧
      TextFormat.grammar.read (Literal.strings .literal) s = .ok s.stringsAhead s' ∧
      ¬ Language.textFormat.IsLiteral (Token.joined s.stringsAhead) := by
  obtain ⟨s, hstart, hs, hahead⟩ := @exists_stringsAhead .textFormat "\"a\" 'b\"c'"
    [⟨.string, 0, "\"a\""⟩, ⟨.string, 4, "'b\"c'"⟩] (by rw [tokens_eq]; cbv)
  obtain ⟨s', hread, -⟩ := @State.Consistent.read_strings _ _ _ TextFormat.grammar .literal
    (fun _ _ => rfl) _ _ _ s hs (tokens_sliceable _ _) (by rw [hahead]; exact List.cons_ne_nil _ _)
  refine ⟨s, s', hstart, ?_, ?_, hread, ?_⟩
  · rw [hahead]
    decide
  · rw [hahead]
    decide
  · rintro ⟨htokens, -⟩
    have hlength : (Language.textFormat.tokens "\"ab\"c\"").length = 3 := by
      rw [tokens_eq]
      cbv
    have hjoined : Token.joined [⟨.string, 0, "\"a\""⟩, ⟨.string, 4, "'b\"c'"⟩] = "\"ab\"c\"" := by cbv
    rw [hahead, hjoined] at htokens
    simp [htokens] at hlength

end ProtoSyntax
