import ProtoSyntax.Proofs.JoinedTokens

/-!
# One text in both languages

Without a hash or a slash no comment can begin, and the two languages cut a text at the same places,
but that in text-format data a number takes an `f` right after it. Otherwise they differ in what they
call the pieces: text-format data has no reserved words, and no use for parentheses and equals signs.
-/

namespace ProtoSyntax
open String (utf8Len)

def TokenKind.unreserved : TokenKind → TokenKind
  | .keyword _ | .primitive _ => .identifier
  | .punct .leftParen | .punct .rightParen | .punct .eq => .invalid
  | kind => kind

namespace Token

def unreserved (t : Token) : Token := { t with kind := t.kind.unreserved }

def takesSuffix (t u : Token) : Bool :=
  (t.kind = .float || t.kind = .integer .decimal) && u.kind = .identifier &&
    (u.text = "f" || u.text = "F") && u.start = t.stop

def withSuffix (t u : Token) : Token := ⟨.float, t.start, t.text ++ u.text⟩

end Token

/-- Makes one token of each number and the `f` that it takes. -/
def mergeSuffixes : List Token → List Token
  | t :: u :: ts =>
    if t.takesSuffix u then t.withSuffix u :: mergeSuffixes ts else t :: mergeSuffixes (u :: ts)
  | ts => ts

theorem Token.takesSuffix_eq_true {t u : Token} : t.takesSuffix u = true ↔
    TextFormat.takesFloatSuffix t.kind = true ∧ u.kind = .identifier ∧
      (u.text = "f" ∨ u.text = "F") ∧ u.start = t.stop := by
  simp [takesSuffix, TextFormat.takesFloatSuffix, and_assoc]

theorem mergeSuffixes_cons {t : Token} {ts : List Token}
    (h : ∀ u ∈ ts.head?, t.takesSuffix u = false) : mergeSuffixes (t :: ts) = t :: mergeSuffixes ts := by
  cases ts with
  | nil => rfl
  | cons u ts => rw [mergeSuffixes, h u rfl, if_neg Bool.false_ne_true]

theorem mergeSuffixes_identifier {t : Token} (h : t.kind = .identifier) (ts : List Token) :
    mergeSuffixes (t :: ts) = t :: mergeSuffixes ts :=
  mergeSuffixes_cons fun u _ => by simp [Token.takesSuffix, h]

section kinds

theorem unreserved_unsigned (cs : List Char) : (unsigned cs).1.unreserved = (unsigned cs).1 := by
  unfold unsigned
  split_ifs <;> rfl

theorem unreserved_commonWord {word : String} {kind : TokenKind} (h : commonWord? word = some kind) :
    kind.unreserved = kind := by
  unfold commonWord? at h
  split_ifs at h <;> cases h <;> rfl

theorem unreserved_wordKind (word : String) :
    (Schema.wordKind word).unreserved = TextFormat.wordKind word := by
  unfold Schema.wordKind TextFormat.wordKind
  cases h : commonWord? word with
  | some kind => exact unreserved_commonWord h
  | none =>
    cases Primitive.ofText? word with
    | some p => rfl
    | none => cases Keyword.ofText? word <;> rfl

theorem punct_of_ofChar? {c : Char} {p : Punct} (h : Punct.ofChar? c = some p) : p.char = c := by
  simpa using List.find?_some h

theorem unreserved_punctOrInvalid {c : Char} (hc : c ≠ '/') :
    (punctOrInvalid Schema.isPunct c).unreserved = punctOrInvalid TextFormat.isPunct c := by
  unfold punctOrInvalid
  cases h : Punct.ofChar? c with
  | none => rfl
  | some p =>
    have hslash : p ≠ .slash := by
      rintro rfl
      exact hc (punct_of_ofChar? h).symm
    cases p <;> first | rfl | exact absurd rfl hslash

theorem takesFloatSuffix_punctOrInvalid (allowed : Punct → Bool) (c : Char) :
    TextFormat.takesFloatSuffix (punctOrInvalid allowed c) = false := by
  unfold punctOrInvalid
  split
  · split <;> rfl
  · rfl

end kinds

section lexemes

open TextFormat (startsFloatSuffix takesFloatSuffix)

theorem not_isWordPart_after_word (cs : List Char) :
    (cs.drop (wordLength cs)).head?.any isWordPart = false := by
  induction cs with
  | nil => rfl
  | cons c cs ih =>
    by_cases hc : isWordPart c = true
    · simpa [wordLength, runLength, hc] using ih
    · simp [wordLength, runLength, hc]

theorem startsFloatSuffix_eq_true {cs : List Char} : startsFloatSuffix cs = true ↔
    ∃ f rest, cs = f :: rest ∧ (f = 'f' ∨ f = 'F') ∧ rest.head?.any isWordPart = false := by
  cases cs <;> simp [startsFloatSuffix]

theorem not_startsFloatSuffix_after_word (cs : List Char) :
    startsFloatSuffix (cs.drop (wordLength cs)) = false := by
  refine Bool.eq_false_of_not_eq_true fun h => ?_
  obtain ⟨f, rest, he, hf, -⟩ := startsFloatSuffix_eq_true.1 h
  have hnext := not_isWordPart_after_word cs
  rw [he] at hnext
  rcases hf with rfl | rfl <;> exact Bool.noConfusion hnext

theorem lexeme_textFormat_eq {c : Char} (hhash : c ≠ '#') (hslash : c ≠ '/') (cs : List Char) :
    Language.textFormat.lexeme c cs =
      if takesFloatSuffix (Language.schema.lexeme c cs).1 &&
          startsFloatSuffix (cs.drop (Language.schema.lexeme c cs).2) then
        (.float, (Language.schema.lexeme c cs).2 + 1)
      else ((Language.schema.lexeme c cs).1.unreserved, (Language.schema.lexeme c cs).2) := by
  rw [Language.textFormat.lexeme_eq hhash, Language.schema.lexeme_eq hslash, Lexicon.lexeme,
    Lexicon.lexeme]
  by_cases hquote : isQuote c = true
  · simp only [hquote, ↓reduceIte]
    rfl
  by_cases hnumber : startsNumber (c :: cs) = true
  · obtain ⟨kind, n, hn⟩ : ∃ kind n, number (c :: cs) = (kind, n + 1) :=
      ⟨_, _, Prod.ext rfl (Language.schema.number_eq_succ hnumber)⟩
    have hsame : kind.unreserved = kind := by
      have hkind := unreserved_unsigned ((c :: cs).drop (signLength (c :: cs)))
      rwa [show (unsigned _).1 = kind from congrArg Prod.fst hn] at hkind
    simp only [hquote, hnumber, Bool.false_eq_true, ↓reduceIte, Language.lexicon, Lexicon.numberLexeme,
      TextFormat.numberWithSuffix, hn, hsame, List.drop_succ_cons]
    split_ifs <;> rfl
  by_cases hword : isWordStart c = true
  · simp only [hquote, hnumber, hword, Bool.false_eq_true, ↓reduceIte, Language.lexicon,
      not_startsFloatSuffix_after_word, Bool.and_false, unreserved_wordKind]
  · simp only [hquote, hnumber, hword, Bool.false_eq_true, ↓reduceIte, Language.lexicon,
      takesFloatSuffix_punctOrInvalid, Bool.false_and, unreserved_punctOrInvalid hslash]

theorem lexeme_suffix {f : Char} (hf : f = 'f' ∨ f = 'F') (cs : List Char) :
    Language.schema.lexeme f cs =
      (Schema.wordKind (String.ofList (f :: cs.take (wordLength cs))), wordLength cs) := by
  rcases hf with rfl | rfl <;> rfl

end lexemes

namespace Cuts

open TextFormat (startsFloatSuffix takesFloatSuffix)

variable {offset : Nat} {cs : List Char} {ts : List Token} {u : Token}

theorem exists_floatSuffix (h : Cuts Language.schema.lexeme offset cs ts) (hs : startsFloatSuffix cs = true) :
    ∃ f rest us, cs = f :: rest ∧ (f = 'f' ∨ f = 'F') ∧
      ts = ⟨.identifier, offset, String.ofList [f]⟩ :: us := by
  obtain ⟨f, rest, rfl, hf, hnext⟩ := startsFloatSuffix_eq_true.1 hs
  have hlexeme : Language.schema.lexeme f rest = (.identifier, 0) := by
    have hzero : wordLength rest = 0 := by
      cases rest with
      | nil => rfl
      | cons d rest =>
        have hd : isWordPart d = false := hnext
        simp [wordLength, runLength, hd]
    rw [lexeme_suffix hf, hzero, List.take_zero]
    rcases hf with rfl | rfl <;> cbv
  generalize hcs : f :: rest = cs at h
  cases h with
  | done => cases hcs
  | blank hb =>
    obtain ⟨rfl, -⟩ := List.cons.inj hcs
    rcases hf with rfl | rfl <;> cases hb
  | @token _ c body rest' us _ hl hr =>
    obtain ⟨rfl, hbody⟩ := List.cons.inj hcs
    have hbody : rest = body ++ rest' := hbody
    rw [← hbody, hlexeme] at hl ⊢
    obtain rfl : body = [] := List.length_eq_zero_iff.1 hl.symm
    exact ⟨f, rest', us, rfl, hf, rfl⟩

theorem tail {lexeme : Char → List Char → TokenKind × Nat} {c : Char} {kind : TokenKind}
    (h : Cuts lexeme offset (c :: cs) (⟨kind, offset, String.ofList [c]⟩ :: ts)) :
    Cuts lexeme (offset + utf8Len [c]) cs ts := by
  generalize hts : (⟨kind, offset, String.ofList [c]⟩ : Token) :: ts = us at h
  generalize hcs : c :: cs = ds at h
  cases h with
  | done => cases hcs
  | @blank _ d ds _ _ hr =>
    subst hts
    have : offset + d.utf8Size ≤ offset := hr.offset_le _ List.mem_cons_self
    have := d.utf8Size_pos
    omega
  | @token _ d body rest us _ _ hr =>
    obtain ⟨htoken, rfl⟩ := List.cons.inj hts
    obtain ⟨rfl, hbody⟩ := List.cons.inj hcs
    obtain rfl : body = [] := by
      simpa using congrArg (fun t => t.text.toList) htoken
    obtain rfl : cs = rest := hbody
    exact hr

theorem startsFloatSuffix_of_identifier (h : Cuts Language.schema.lexeme offset cs (u :: ts))
    (hstart : u.start = offset) (htext : u.text = "f" ∨ u.text = "F") :
    startsFloatSuffix cs = true := by
  generalize hts : u :: ts = us at h
  cases h with
  | done => cases hts
  | @blank _ c cs _ _ hr =>
    subst hts
    have := hr.offset_le u List.mem_cons_self
    have := c.utf8Size_pos
    omega
  | @token _ c body rest us _ hl _ =>
    obtain ⟨rfl, -⟩ := List.cons.inj hts
    obtain ⟨hf, rfl⟩ : (c = 'f' ∨ c = 'F') ∧ body = [] := by
      rcases htext with h | h
      · obtain ⟨rfl, rfl⟩ : c = 'f' ∧ body = [] := by simpa using congrArg String.toList h
        exact ⟨.inl rfl, rfl⟩
      · obtain ⟨rfl, rfl⟩ : c = 'F' ∧ body = [] := by simpa using congrArg String.toList h
        exact ⟨.inr rfl, rfl⟩
    rw [List.nil_append, lexeme_suffix hf] at hl
    have hnext := not_isWordPart_after_word rest
    rw [show wordLength rest = 0 from hl, List.drop_zero] at hnext
    exact startsFloatSuffix_eq_true.2 ⟨c, rest, rfl, hf, hnext⟩

theorem token_eq {lexeme : Char → List Char → TokenKind × Nat} {c : Char} {body rest : List Char}
    {kind : TokenKind} (hb : isBlank c = false) (hl : lexeme c (body ++ rest) = (kind, body.length))
    (hr : Cuts lexeme (offset + utf8Len (c :: body)) rest ts) :
    Cuts lexeme offset (c :: (body ++ rest)) (⟨kind, offset, String.ofList (c :: body)⟩ :: ts) := by
  have h := Cuts.token hb (congrArg Prod.snd hl) hr
  rwa [hl] at h

theorem textFormat (h : Cuts Language.schema.lexeme offset cs ts) (hcs : ∀ c ∈ cs, c ≠ '#' ∧ c ≠ '/') :
    Cuts Language.textFormat.lexeme offset cs ((mergeSuffixes ts).map Token.unreserved) := by
  induction h with
  | done => exact .done _
  | blank hb _ ih => exact .blank hb (ih fun c hc => hcs c (List.mem_cons_of_mem _ hc))
  | @token offset c body rest ts hb hl hr ih =>
    have ih := ih fun d hd => hcs d (List.mem_append_right _ hd)
    obtain ⟨hhash, hslash⟩ := hcs c List.mem_cons_self
    have hlexeme := lexeme_textFormat_eq hhash hslash (body ++ rest)
    rw [hl, List.drop_left] at hlexeme
    generalize (Language.schema.lexeme c (body ++ rest)).1 = kind at hlexeme ⊢
    by_cases hsuffix : (takesFloatSuffix kind && startsFloatSuffix rest) = true
    · -- The next token is the suffix, and what was cut after it stays.
      rw [if_pos hsuffix] at hlexeme
      rw [Bool.and_eq_true] at hsuffix
      obtain ⟨f, rest, us, rfl, hf, rfl⟩ := hr.exists_floatSuffix hsuffix.2
      rw [mergeSuffixes_identifier rfl] at ih
      have htail := ih.tail
      rw [Nat.add_assoc, ← String.utf8Len_append, List.cons_append] at htail
      have htakes : Token.takesSuffix ⟨kind, offset, String.ofList (c :: body)⟩
          ⟨.identifier, offset + utf8Len (c :: body), String.ofList [f]⟩ = true := by
        refine Token.takesSuffix_eq_true.2 ⟨hsuffix.1, rfl, ?_, (Token.stop_ofList _ _ _).symm⟩
        exact hf.imp (by rintro rfl; rfl) (by rintro rfl; rfl)
      rw [mergeSuffixes, if_pos htakes, Token.withSuffix, ← String.ofList_append]
      rw [List.append_cons] at hlexeme ⊢
      have hlength : (body ++ [f]).length = body.length + 1 := List.length_append
      rw [← hlength] at hlexeme
      exact token_eq hb hlexeme htail
    · rw [if_neg hsuffix] at hlexeme
      rw [mergeSuffixes_cons]
      · exact token_eq hb hlexeme ih
      · intro u hu
        refine Bool.eq_false_of_not_eq_true fun htakes => hsuffix ?_
        obtain ⟨us, rfl⟩ := List.head?_eq_some_iff.1 hu
        obtain ⟨hkind, -, htext, hstart⟩ := Token.takesSuffix_eq_true.1 htakes
        rw [Token.stop_ofList] at hstart
        rw [Bool.and_eq_true]
        exact ⟨hkind, hr.startsFloatSuffix_of_identifier hstart htext⟩

end Cuts

/-- In a text where no comment can begin the tokens of text-format data are those of a schema file,
with suffixes merged into numbers and with the kinds of text-format data. -/
theorem tokens_textFormat_eq {text : String} (h : ∀ c ∈ text.toList, c ≠ '#' ∧ c ≠ '/') :
    Language.textFormat.tokens text =
      (mergeSuffixes (Language.schema.tokens text)).map Token.unreserved :=
  (tokens_cuts .textFormat text).unique ((tokens_cuts .schema text).textFormat h)

theorem tokens_textFormat_eq_suffixes :
    (∀ c ∈ "2.F 017f 4fx = int32".toList, c ≠ '#' ∧ c ≠ '/') ∧
      Language.textFormat.tokens "2.F 017f 4fx = int32" =
        (mergeSuffixes (Language.schema.tokens "2.F 017f 4fx = int32")).map Token.unreserved :=
  have h : ∀ c ∈ "2.F 017f 4fx = int32".toList, c ≠ '#' ∧ c ≠ '/' := by simp
  ⟨h, tokens_textFormat_eq h⟩

example : (Language.textFormat.tokens "2.F 017f 4fx = int32").map (fun t => (t.kind, t.text)) =
    [(.float, "2.F"), (.integer .octal, "017"), (.identifier, "f"), (.integer .decimal, "4"),
      (.identifier, "fx"), (.invalid, "="), (.identifier, "int32")] := by
  rw [tokens_eq]
  cbv

end ProtoSyntax
