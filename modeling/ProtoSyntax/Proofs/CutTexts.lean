import ProtoSyntax.Proofs.JoinedTokens

/-!
# Texts cut short

A lexeme is the same if the text ends right after it, and also if it ends further on, unless in the
middle of a word: a sign takes a word for a number only when all of it is there. Both are reduced to what
is known of lexemes before a line feed, except for strings and block comments, as only these can fail to
be terminated where a text ends too early.
-/

namespace ProtoSyntax
open String (utf8Len)

theorem Language.lexeme_cut (language : Language) {c : Char} {body after : List Char}
    (hle : (language.lexeme c (body ++ after)).2 ≤ body.length)
    (hend : (language.lexeme c (body ++ after)).2 = body.length ∨ Apart body after)
    (ht : isTerminated (language.lexeme c (body ++ after)).1
      (c :: (body ++ after).take (language.lexeme c (body ++ after)).2) = true) :
    language.lexeme c body = language.lexeme c (body ++ after) := by
  by_cases halone : isTerminated (language.lexeme c body).1
      (c :: body.take (language.lexeme c body).2) = true
  · rw [← language.lexeme_append_lineFeed [] hle hend ht, language.lexeme_lineFeed [] halone]
  obtain ⟨-, ⟨hquote, -⟩ | ⟨rfl, hstar, hkind⟩⟩ :=
    (language.lexes c body).unterminated (Bool.eq_false_of_not_eq_true halone)
  · rw [Language.lexeme_of_isQuote hquote] at hle ht
    have htail := stringTail_append [] ht hle
    rw [List.append_nil] at htail
    rw [Language.lexeme_of_isQuote hquote, Language.lexeme_of_isQuote hquote, htail]
  · cases language with
    | textFormat => cases hkind
    | schema =>
      obtain ⟨body, rfl⟩ := List.head?_eq_some_iff.1 hstar
      have hsuffix : ['*', '/'] <:+ (body ++ after).take (blockTail (body ++ after)) := by
        simpa [Schema.lexeme_slash, Schema.slashLexeme, isTerminated] using ht
      have htail := blockTail_of_isSuffixOf [] hsuffix (Nat.le_of_succ_le_succ hle)
      rw [List.append_nil] at htail
      exact congrArg (fun n => (TokenKind.comment true, n + 1)) htail

theorem Language.lexeme_eq_append (language : Language) {c : Char} {body after : List Char}
    (hend : (language.lexeme c (body ++ after)).2 = body.length) :
    language.lexeme c body = language.lexeme c (body ++ after) := by
  by_cases ht : isTerminated (language.lexeme c (body ++ after)).1
      (c :: (body ++ after).take (language.lexeme c (body ++ after)).2) = true
  · exact language.lexeme_cut hend.le (.inl hend) ht
  · -- Then the lexeme took all of the text before.
    have hlength := language.lexeme_eq_length (Bool.eq_false_of_not_eq_true ht)
    rw [hend, List.length_append] at hlength
    obtain rfl : after = [] := List.length_eq_zero_iff.1 (by omega)
    rw [List.append_nil]

theorem tokens_text {language : Language} {text : String} {t : Token}
    (ht : t ∈ language.tokens text) : language.tokens t.text = [⟨t.kind, 0, t.text⟩] := by
  obtain ⟨before, c, body, after, -, hb, hl, -, htext⟩ := tokens_foundIn language text t ht
  have hsame := language.lexeme_eq_append (congrArg Prod.snd hl)
  rw [hl] at hsame
  have hcut : Cuts language.lexeme 0 (c :: body ++ []) _ :=
    .token hb (by rw [List.append_nil, hsame]) (.done _)
  rw [List.append_nil, List.append_nil, hsame, ← htext] at hcut
  have hcuts := tokens_cuts language t.text
  rw [htext, String.toList_ofList, ← htext] at hcuts
  exact hcuts.unique hcut

namespace Cuts

variable {lexeme : Char → List Char → TokenKind × Nat} {offset : Nat} {cs : List Char}
  {t u : Token} {before ts after : List Token}

theorem exists_suffix (h : Cuts lexeme offset cs (before ++ t :: ts)) :
    ∃ pre rest, cs = pre ++ rest ∧ t.start = offset + utf8Len pre ∧ Cuts lexeme t.start rest (t :: ts) := by
  generalize hts : before ++ t :: ts = us at h
  induction h generalizing before with
  | done => simp at hts
  | @blank offset c cs us hb _ ih =>
    obtain ⟨pre, rest, rfl, hstart, hcuts⟩ := ih hts
    exact ⟨c :: pre, rest, rfl, by rw [hstart, String.utf8Len_cons]; omega, hcuts⟩
  | @token offset c body rest us hb hl hr ih =>
    cases before with
    | nil =>
      obtain ⟨rfl, rfl⟩ := List.cons.inj hts
      exact ⟨[], _, rfl, rfl, .token hb hl hr⟩
    | cons v before =>
      obtain ⟨pre, rest, rfl, hstart, hcuts⟩ := ih (List.cons.inj hts).2
      exact ⟨c :: body ++ pre, rest, (List.append_assoc _ _ _).symm,
        by rw [hstart, String.utf8Len_append]; omega, hcuts⟩

theorem token_congr {c : Char} {body rest rest' : List Char} (hb : isBlank c = false)
    (hl : (lexeme c (body ++ rest)).2 = body.length)
    (hsame : lexeme c (body ++ rest') = lexeme c (body ++ rest))
    (h : Cuts lexeme (offset + utf8Len (c :: body)) rest' ts) :
    Cuts lexeme offset (c :: body ++ rest')
      (⟨(lexeme c (body ++ rest)).1, offset, String.ofList (c :: body)⟩ :: ts) := by
  rw [← hsame] at hl ⊢
  exact .token hb hl h

/-- Only the last lexeme of a text can lack its end. -/
theorem isTerminated_lexeme {language : Language} {c : Char} {body rest : List Char}
    (hb : isBlank c = false) (hl : (language.lexeme c (body ++ rest)).2 = body.length)
    (hr : Cuts language.lexeme (offset + utf8Len (c :: body)) rest ts) (hne : ts ≠ []) :
    isTerminated (language.lexeme c (body ++ rest)).1
      (c :: (body ++ rest).take (language.lexeme c (body ++ rest)).2) = true := by
  by_contra hterminated
  have hcut : Cuts language.lexeme offset (c :: body ++ rest) ([] ++ _ :: ts) := .token hb hl hr
  rw [hl, List.take_left, Bool.not_eq_true] at hterminated
  exact hne (hcut.eq_nil_of_not_isTerminated
    (hterminated ▸ congrArg (isTerminated _) String.toList_ofList))

theorem exists_prefix {language : Language} (h : Cuts language.lexeme offset cs (ts ++ u :: after))
    (hu : ts ≠ [] → ∃ c ∈ u.text.toList.getLast?, isWordPart c = false) :
    ∃ mid post, cs = mid ++ post ∧ u.stop = offset + utf8Len mid ∧
      Cuts language.lexeme offset mid (ts ++ [u]) ∧ mid.getLast? = u.text.toList.getLast? := by
  generalize hts : ts ++ u :: after = us at h
  induction h generalizing ts with
  | done => simp at hts
  | @blank offset c cs us hb _ ih =>
    obtain ⟨mid, post, rfl, hstop, hcuts, hlast⟩ := ih hu hts
    refine ⟨c :: mid, post, rfl, by rw [hstop, String.utf8Len_cons]; omega, .blank hb hcuts, ?_⟩
    cases mid with
    | nil =>
      have hne : ts ++ [u] ≠ [] := by simp
      generalize ts ++ [u] = vs at hcuts hne
      cases hcuts
      exact absurd rfl hne
    | cons d mid => exact hlast
  | @token offset c body rest us hb hl hr ih =>
    cases ts with
    | nil =>
      obtain ⟨rfl, rfl⟩ := List.cons.inj hts
      have hsame := language.lexeme_eq_append hl
      refine ⟨c :: body, rest, rfl, Token.stop_ofList _ _ _, ?_, by rw [String.toList_ofList]⟩
      have hcut := token_congr hb hl (by rw [List.append_nil]; exact hsame) (.done (offset + _))
      rwa [List.append_nil] at hcut
    | cons v ts =>
      obtain ⟨rfl, hmore⟩ := List.cons.inj hts
      obtain ⟨d, hd, hpart⟩ := hu (List.cons_ne_nil _ _)
      obtain ⟨mid, post, rfl, hstop, hcuts, hlast⟩ := ih (fun _ => ⟨d, hd, hpart⟩) hmore
      have ht := isTerminated_lexeme hb hl hr (by simp [← hmore])
      have hend : (c :: body ++ mid).getLast? = u.text.toList.getLast? := by
        rw [List.getLast?_append, hlast, Option.mem_def.1 hd]
        rfl
      have hapart : Apart (body ++ mid) post := by
        refine apart_of_getLast? fun p hp => ?_
        rw [List.getLast?_append, hlast, Option.mem_def.1 hd] at hp
        exact Option.some.inj hp ▸ hpart
      have hsame := @Language.lexeme_cut language c (body ++ mid) post (by simp [hl]) (.inr hapart)
        (by rwa [List.append_assoc])
      rw [List.append_assoc] at hsame
      exact ⟨c :: body ++ mid, post, (List.append_assoc _ _ _).symm,
        by rw [hstop, String.utf8Len_append]; omega, token_congr hb hl hsame hcuts, hend⟩

end Cuts

theorem Language.tokens_extract (language : Language) {text : String} {before ts after : List Token}
    {t u : Token} (htokens : language.tokens text = before ++ (ts ++ u :: after))
    (ht : t ∈ (ts ++ [u]).head?)
    (hu : ts ≠ [] → ∃ c ∈ u.text.toList.getLast?, isWordPart c = false) :
    ∃ pre post, text.toList =
        pre ++ (String.Pos.Raw.extract text ⟨t.start⟩ ⟨u.stop⟩).toList ++ post ∧
      utf8Len pre = t.start ∧
      utf8Len (pre ++ (String.Pos.Raw.extract text ⟨t.start⟩ ⟨u.stop⟩).toList) = u.stop ∧
      (language.tokens (String.Pos.Raw.extract text ⟨t.start⟩ ⟨u.stop⟩)).map (·.shift t.start) =
        ts ++ [u] := by
  obtain ⟨us, hus⟩ : ∃ us, ts ++ u :: after = t :: us := by
    cases ts with
    | nil =>
      obtain rfl := Option.some.inj ht
      exact ⟨after, rfl⟩
    | cons v ts =>
      obtain rfl := Option.some.inj ht
      exact ⟨_, rfl⟩
  have hcuts := tokens_cuts language text
  rw [htokens, hus] at hcuts
  obtain ⟨pre, rest, htext, hstart, hcuts⟩ := hcuts.exists_suffix
  rw [Nat.zero_add] at hstart
  rw [← hus] at hcuts
  obtain ⟨mid, post, rfl, hstop, hcuts, -⟩ := hcuts.exists_prefix hu
  have hextract : String.Pos.Raw.extract text ⟨t.start⟩ ⟨u.stop⟩ = String.ofList mid := by
    have htext' : text = String.ofList (pre ++ mid ++ post) := by
      rw [List.append_assoc, ← htext, String.ofList_toList]
    rw [hstop, hstart, htext']
    exact String.extract_of_valid pre mid post
  refine ⟨pre, post, by rw [hextract, String.toList_ofList, htext, List.append_assoc], hstart.symm, ?_, ?_⟩
  · rw [hextract, String.toList_ofList, String.utf8Len_append, hstop, hstart]
  · have halone := (tokens_cuts language (String.ofList mid)).shift t.start
    rw [String.toList_ofList, Nat.add_zero] at halone
    rw [hextract]
    exact halone.unique hcuts

end ProtoSyntax
