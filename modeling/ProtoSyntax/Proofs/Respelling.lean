import ProtoSyntax.Proofs.CutTexts

/-!
# White space

What stands between tokens does not matter. The texts of the tokens of a text, with nothing but a line
feed between each two, are cut into the same tokens again, also where the tokens touched each other.
-/

namespace ProtoSyntax
open String (utf8Len)

def respelled (ts : List Token) : String := "\n".intercalate (ts.map (·.text))

theorem toList_respelled_singleton (t : Token) : (respelled [t]).toList = t.text.toList := by
  simp [respelled]

theorem toList_respelled_cons_cons (t u : Token) (ts : List Token) :
    (respelled (t :: u :: ts)).toList = t.text.toList ++ '\n' :: (respelled (u :: ts)).toList := by
  simp [respelled, String.toList_intercalate]

/-- Each token but the last was followed by another one, so it is terminated. The last one may go on to
the end of its text, and does so again. -/
theorem Cuts.exists_respelled {language : Language} {offset : Nat} {cs : List Char} {ts : List Token}
    (h : Cuts language.lexeme offset cs ts) (n : Nat) :
    ∃ us, Cuts language.lexeme n (respelled ts).toList us ∧
      us.map (fun t => (t.kind, t.text)) = ts.map fun t => (t.kind, t.text) := by
  induction h generalizing n with
  | done => exact ⟨[], .done n, rfl⟩
  | blank _ _ ih => exact ih n
  | @token offset c body rest ts hb hl hr ih =>
    cases ts with
    | nil =>
      have hsame := language.lexeme_eq_append hl
      rw [← hsame] at hl ⊢
      rw [toList_respelled_singleton, String.toList_ofList]
      refine ⟨[⟨(language.lexeme c body).1, n, String.ofList (c :: body)⟩], ?_, rfl⟩
      have hcut : Cuts language.lexeme n (c :: body ++ []) _ :=
        .token hb (by rwa [List.append_nil]) (.done _)
      rwa [List.append_nil, List.append_nil] at hcut
    | cons u ts =>
      obtain ⟨us, hus, hspelling⟩ := ih (n + utf8Len (c :: body) + '\n'.utf8Size)
      have ht : isTerminated (language.lexeme c (body ++ rest)).1
          (c :: (body ++ rest).take (language.lexeme c (body ++ rest)).2) = true := by
        by_contra ht
        have hlength := language.lexeme_eq_length (Bool.eq_false_of_not_eq_true ht)
        rw [hl, List.length_append] at hlength
        obtain rfl : rest = [] := List.length_eq_zero_iff.1 (by omega)
        cases hr
      have hsame := language.lexeme_append_lineFeed (respelled (u :: ts)).toList hl.le (.inl hl) ht
      rw [← hsame] at hl ⊢
      rw [toList_respelled_cons_cons, String.toList_ofList]
      refine ⟨_, .token hb hl (.blank rfl hus), ?_⟩
      rw [List.map_cons, hspelling]
      rfl

/-- A text may be written anew with each token on a line of its own. -/
theorem tokens_respelled (language : Language) (text : String) :
    (language.tokens (respelled (language.tokens text))).map (fun t => (t.kind, t.text)) =
      (language.tokens text).map fun t => (t.kind, t.text) := by
  obtain ⟨us, hus, hsame⟩ := (tokens_cuts language text).exists_respelled 0
  rw [(tokens_cuts language _).unique hus, hsame]

end ProtoSyntax
