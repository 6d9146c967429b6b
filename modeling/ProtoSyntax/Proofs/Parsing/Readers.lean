import ProtoSyntax.Literal.Text
import ProtoSyntax.Parsing.Reader
import ProtoSyntax.Proofs.Parsing.Bare
import ProtoSyntax.Proofs.Parsing.Written

/-!
# What readers make of tokens

A reader that follows the grammar takes what the grammar derives and leaves the rest. It sees the kinds
and texts of the tokens and not where they stand.
-/

namespace ProtoSyntax

variable {α β : Type}

namespace Token

@[simp] theorem concat_nil : concat [] = "" := rfl

@[simp] theorem concat_cons (t : Token) (ts : List Token) : concat (t :: ts) = t.text ++ concat ts := by
  simp [concat]

@[simp] theorem concat_append (ts us : List Token) : concat (ts ++ us) = concat ts ++ concat us := by
  simp [concat]

end Token

namespace Reader

@[simp] theorem pure_apply (a : α) (ts : List Token) : (pure a : Reader α) ts = (a, ts) := rfl

@[simp] theorem bind_apply (r : Reader α) (k : α → Reader β) (ts : List Token) :
    (r >>= k) ts = k (r ts).1 (r ts).2 := rfl

@[simp] theorem map_apply (f : α → β) (r : Reader α) (ts : List Token) :
    (f <$> r) ts = (f (r ts).1, (r ts).2) := rfl

@[simp] theorem ite_apply (c : Prop) [Decidable c] (r r' : Reader α) (ts : List Token) :
    (if c then r else r') ts = if c then r ts else r' ts := by split <;> rfl

@[simp] theorem peek_apply (k : Nat) (ts : List Token) : peek k ts = (kindAt ts k, ts) := rfl

@[simp] theorem advance_cons (t : Token) (ts : List Token) : advance (t :: ts) = ((), ts) := rfl

@[simp] theorem takeText_cons (t : Token) (ts : List Token) : takeText (t :: ts) = (t.text, ts) := rfl

@[simp] theorem eat_cons (kind : TokenKind) (t : Token) (ts : List Token) :
    eat kind (t :: ts) = if t.kind = kind then (true, ts) else (false, t :: ts) := by
  simp [eat]

theorem eat_of_ne {ts : List Token} {kind : TokenKind} (h : ∀ t ∈ ts.head?, t.kind ≠ kind) :
    eat kind ts = (false, ts) := by
  cases ts with
  | nil => rfl
  | cons t ts => simp [h t rfl]

section moreWords

variable {mark? : Token → Option String} {rest : List Token}

theorem moreWords_of_none (name : String) (h : ∀ t ∈ rest.head?, mark? t = none) :
    moreWords mark? name rest = (name, rest) := by
  match rest with
  | [] | [_] => rfl
  | t :: _ :: _ => simp [moreWords, h t rfl]

theorem moreWords_flatten {xs : List (List Token)}
    (h : ∀ x ∈ xs, ∃ mark word, x = [mark, word] ∧ mark? mark = some mark.text)
    (hrest : ∀ t ∈ rest.head?, mark? t = none) (name : String) :
    moreWords mark? name (xs.flatten ++ rest) = (name ++ Token.concat xs.flatten, rest) := by
  induction xs generalizing name with
  | nil => simpa using moreWords_of_none name hrest
  | cons x xs ih =>
    obtain ⟨⟨mark, word, rfl, hmark⟩, hxs⟩ := List.forall_mem_cons.1 h
    simp only [List.flatten_cons, List.cons_append, List.nil_append, moreWords, hmark, ih hxs,
      Token.concat_cons, String.append_assoc]

end moreWords

/-- It does not matter to the reader where tokens stand, and it leaves the last of them. -/
structure Steady (r : Reader α) : Prop where
  moved : ∀ f : Token → Token, (∀ t, (f t).bare = t.bare) → ∀ ts, r (ts.map f) = ((r ts).1, (r ts).2.map f)
  suffix : ∀ ts, (r ts).2 <:+ ts

namespace Steady

theorem bare {r : Reader α} (h : Steady r) (ts : List Token) :
    r (ts.map Token.bare) = ((r ts).1, (r ts).2.map Token.bare) := h.moved Token.bare (fun _ => rfl) ts

theorem pure (a : α) : Steady (Pure.pure a) := ⟨fun _ _ _ => rfl, List.suffix_refl⟩

theorem bind {r : Reader α} {k : α → Reader β} (hr : Steady r) (hk : ∀ a, Steady (k a)) :
    Steady (r >>= k) where
  moved f hf ts := by
    rw [bind_apply, bind_apply, hr.moved f hf ts]
    exact (hk _).moved f hf _
  suffix ts := ((hk _).suffix _).trans (hr.suffix ts)

theorem peek (k : Nat) : Steady (peek k) where
  moved f hf ts := by
    have hkind (t : Token) : (f t).kind = t.kind := Token.kind_eq_of_bare_eq (hf t)
    simp [kindAt, Function.comp_def, hkind]
  suffix := List.suffix_refl

theorem advance : Steady advance := ⟨fun f _ ts => by simp [Reader.advance], List.drop_suffix 1⟩

theorem takeText : Steady takeText where
  moved
    | _, _, [] => rfl
    | f, hf, t :: ts => congrArg (·, ts.map f) (Token.text_eq_of_bare_eq (hf t))
  suffix
    | [] => List.suffix_refl []
    | t :: ts => List.suffix_cons t ts

theorem eat (kind : TokenKind) : Steady (eat kind) where
  moved
    | _, _, [] => rfl
    | f, hf, t :: ts => by
      rw [List.map_cons, eat_cons, eat_cons, Token.kind_eq_of_bare_eq (hf t)]
      split <;> rfl
  suffix
    | [] => List.suffix_refl []
    | t :: ts => by
      rw [eat_cons]
      split
      · exact List.suffix_cons t ts
      · exact List.suffix_refl _

theorem ite {c : Prop} [Decidable c] {r r' : Reader α} (h : Steady r) (h' : Steady r') :
    Steady (if c then r else r') := by split <;> assumption

theorem moreWords {mark? : Token → Option String} (hmark : ∀ t, mark? t.bare = mark? t) (name : String) :
    Steady (moreWords mark? name) := by
  refine ⟨fun f hf ts => ?_, fun ts => ?_⟩
  · have hmark (t : Token) : mark? (f t) = mark? t := by rw [← hmark, hf, hmark]
    have htext (t : Token) : (f t).text = t.text := Token.text_eq_of_bare_eq (hf t)
    fun_induction Reader.moreWords mark? name ts with
    | case1 name mark word ts s hs ih => simp [Reader.moreWords, hmark, htext, hs, ih]
    | case2 name mark word ts hs => simp [Reader.moreWords, hmark, hs]
    | case3 name ts hts =>
      match ts with
      | [] | [_] => rfl
      | t :: u :: ts => exact absurd rfl (hts t u ts)
  · fun_induction Reader.moreWords mark? name ts with
    | case1 name mark word ts s hs ih => exact ih.trans ((List.suffix_cons _ _).trans (List.suffix_cons _ _))
    | case2 | case3 => exact List.suffix_refl _

end Steady

end Reader
end ProtoSyntax
