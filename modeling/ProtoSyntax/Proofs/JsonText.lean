import ProtoSyntax.Json
import ProtoSyntax.Proofs.Numbers

/-!
# JSON text is read in one way

The text of a value tells the value. Every part of it ends where no other part of its sort could go
on: a string at the first quote that is not escaped, a number where a character comes that is no
digit, an array or object at its closing bracket. So a text that goes on after the value can be
split behind it in one way only.
-/

namespace ProtoSyntax.Json

variable {level : Nat} {r s : List Char}

/-! ### Strings -/

def marks : List (Char × Char) :=
  [('"', '"'), ('\\', '\\'), ('\x08', 'b'), ('\t', 't'), ('\n', 'n'), ('\x0c', 'f'), ('\r', 'r')]

inductive Escaped : Char → List Char → Prop where
  | itself {c : Char} : c ≠ '"' → c ≠ '\\' → Escaped c [c]
  | mark {c d : Char} : (c, d) ∈ marks → Escaped c ['\\', d]
  | code {c : Char} : c.toNat < 32 →
      Escaped c ['\\', 'u', '0', '0', hexDigit (c.toNat / 16), hexDigit (c.toNat % 16)]

theorem escaped_escapeChar (c : Char) : Escaped c (escapeChar c) := by
  unfold escapeChar
  split_ifs with hquote hbackslash hb ht hn hf hr hcode
  on_goal 8 => exact .code hcode
  on_goal 8 => exact .itself hquote hbackslash
  all_goals
    subst c
    exact .mark (by decide)

theorem eq_of_mark : ∀ p ∈ marks, ∀ q ∈ marks, p.2 = q.2 → p.1 = q.1 := by decide

theorem mark_ne_u : ∀ p ∈ marks, p.2 ≠ 'u' := by decide

theorem hexDigit_inj : ∀ m < 16, ∀ n < 16, hexDigit m = hexDigit n → m = n := by decide

/-- The first character tells the way, and each way has a length of its own. -/
theorem Escaped.append_inj {c d : Char} {x y : List Char} (hx : Escaped c x) (hy : Escaped d y)
    (h : x ++ r = y ++ s) : c = d ∧ r = s := by
  cases hx with
  | itself _ hc =>
    cases hy with
    | itself => exact List.cons.inj h
    | mark => exact absurd (List.cons.inj h).1 hc
    | code => exact absurd (List.cons.inj h).1 hc
  | @mark p hp =>
    cases hy with
    | itself _ hd => exact absurd (List.cons.inj h).1.symm hd
    | @mark q hq =>
      simp only [List.cons_append, List.nil_append, List.cons.injEq, true_and] at h
      exact ⟨eq_of_mark _ hp _ hq h.1, h.2⟩
    | code =>
      simp only [List.cons_append, List.nil_append, List.cons.injEq, true_and] at h
      exact absurd h.1 (mark_ne_u _ hp)
  | code hc =>
    cases hy with
    | itself _ hd => exact absurd (List.cons.inj h).1.symm hd
    | mark hq =>
      simp only [List.cons_append, List.nil_append, List.cons.injEq, true_and] at h
      exact absurd h.1.symm (mark_ne_u _ hq)
    | code hd =>
      simp only [List.cons_append, List.nil_append, List.cons.injEq, true_and] at h
      obtain ⟨hhigh, hlow, hrest⟩ := h
      have hdiv := hexDigit_inj _ (by omega) _ (by omega) hhigh
      have hmod := hexDigit_inj _ (by omega) _ (by omega) hlow
      exact ⟨Char.toNat_inj.1 (by omega), hrest⟩

theorem Escaped.ne_quote {c : Char} {x : List Char} (hx : Escaped c x) : x ++ r ≠ '"' :: s := by
  intro h
  cases hx with
  | itself hc => exact hc (List.cons.inj h).1
  | mark => exact absurd (List.cons.inj h).1 (by decide)
  | code => exact absurd (List.cons.inj h).1 (by decide)

theorem escaped_append_inj {cs ds : List Char}
    (h : cs.flatMap escapeChar ++ '"' :: r = ds.flatMap escapeChar ++ '"' :: s) : cs = ds ∧ r = s := by
  induction cs generalizing ds with
  | nil =>
    cases ds with
    | nil => exact ⟨rfl, (List.cons.inj h).2⟩
    | cons d ds =>
      rw [List.flatMap_cons, List.append_assoc] at h
      exact absurd h.symm (escaped_escapeChar d).ne_quote
  | cons c cs ih =>
    rw [List.flatMap_cons, List.append_assoc] at h
    cases ds with
    | nil => exact absurd h (escaped_escapeChar c).ne_quote
    | cons d ds =>
      rw [List.flatMap_cons, List.append_assoc] at h
      obtain ⟨rfl, hmore⟩ := (escaped_escapeChar c).append_inj (escaped_escapeChar d) h
      obtain ⟨rfl, hrest⟩ := ih hmore
      exact ⟨rfl, hrest⟩

theorem quoted_append_inj {a b : String} (h : quoted a ++ r = quoted b ++ s) : a = b ∧ r = s := by
  simp only [quoted, List.cons_append, List.append_assoc, List.nil_append, List.cons.injEq,
    true_and] at h
  obtain ⟨htext, hrest⟩ := escaped_append_inj h
  exact ⟨String.toList_inj.1 htext, hrest⟩

/-! ### Values -/

def EndsNumber (cs : List Char) : Prop := ∀ c ∈ cs.head?, c.isDigit = false

theorem toDigits_append_inj {m n : Nat} (h : Nat.toDigits 10 m ++ r = Nat.toDigits 10 n ++ s)
    (hr : EndsNumber r) (hs : EndsNumber s) : m = n ∧ r = s := by
  have hrun (n : Nat) {after : List Char} (hafter : EndsNumber after) :
      LongestRun Char.isDigit (Nat.toDigits 10 n) after :=
    ⟨fun _ => Nat.isDigit_of_mem_toDigits (by decide) (by decide), hafter⟩
  obtain ⟨hdigits, hrest⟩ := (hrun m hr).unique (hrun n hs) h
  have hvalue := congrArg (Nat.ofDigitChars 10 · 0) hdigits
  simp only [Nat.ofDigitChars_toDigits (b := 10) (by decide) (by decide)] at hvalue
  exact ⟨hvalue, hrest⟩

/-- The sort of the value whose text begins with a character, counted as the constructors are. -/
def sortAt : Char → Nat
  | 'n' => 0
  | 't' | 'f' => 1
  | '"' => 3
  | '[' => 4
  | '\x7b' => 5
  | _ => 2

theorem sortAt_of_isDigit {c : Char} (h : c.isDigit = true) : sortAt c = 2 := by
  unfold sortAt
  split <;> first | rfl | exact absurd h (by decide)

theorem exists_write_eq (j : Json) (level : Nat) :
    ∃ c cs, j.write level = c :: cs ∧ sortAt c = j.ctorIdx := by
  cases j with
  | null => exact ⟨_, _, rfl, rfl⟩
  | bool value => cases value <;> exact ⟨_, _, rfl, rfl⟩
  | number n =>
    obtain ⟨c, cs, hdigits⟩ := List.exists_cons_of_ne_nil (Nat.toDigits_ne_nil (n := n) (b := 10))
    have hc : c.isDigit = true :=
      Nat.isDigit_of_mem_toDigits (by decide) (by decide) (hdigits ▸ List.mem_cons_self)
    exact ⟨c, cs, hdigits, sortAt_of_isDigit hc⟩
  | string text => exact ⟨_, _, rfl, rfl⟩
  | array elements => cases elements <;> exact ⟨_, _, rfl, rfl⟩
  | object members => cases members <;> exact ⟨_, _, rfl, rfl⟩

theorem ctorIdx_eq {i j : Json} (h : i.write level ++ r = j.write level ++ s) :
    i.ctorIdx = j.ctorIdx := by
  obtain ⟨c, cs, hc, hi⟩ := i.exists_write_eq level
  obtain ⟨d, ds, hd, hj⟩ := j.exists_write_eq level
  rw [hc, hd] at h
  rw [← hi, ← hj, (List.cons.inj h).1]

theorem endsNumber_newline (level : Nat) (cs : List Char) : EndsNumber (newline level ++ cs) := by
  simp [EndsNumber, newline]

theorem endsNumber_writeElements (level below : Nat) (xs : List Json) (cs : List Char) :
    EndsNumber (writeElements level xs ++ (newline below ++ cs)) := by
  cases xs with
  | nil => exact endsNumber_newline below cs
  | cons x xs => simp [EndsNumber, writeElements]

theorem endsNumber_writeMembers (level below : Nat) (ms : List (String × Json)) (cs : List Char) :
    EndsNumber (writeMembers level ms ++ (newline below ++ cs)) := by
  cases ms with
  | nil => exact endsNumber_newline below cs
  | cons m ms => simp [EndsNumber, writeMembers]

mutual

theorem write_append_inj (i j : Json) {level : Nat} {r s : List Char} (hr : EndsNumber r)
    (hs : EndsNumber s) (h : i.write level ++ r = j.write level ++ s) : i = j ∧ r = s := by
  -- The first characters leave only values of the same sort.
  match i, j, ctorIdx_eq h with
  | .null, .null, _ => exact ⟨rfl, List.append_cancel_left h⟩
  | .bool true, .bool true, _ | .bool false, .bool false, _ => exact ⟨rfl, List.append_cancel_left h⟩
  | .bool true, .bool false, _ | .bool false, .bool true, _ => cases h
  | .number m, .number n, _ =>
    obtain ⟨rfl, hrest⟩ := toDigits_append_inj h hr hs
    exact ⟨rfl, hrest⟩
  | .string a, .string b, _ =>
    obtain ⟨rfl, hrest⟩ := quoted_append_inj h
    exact ⟨rfl, hrest⟩
  | .array [], .array [], _ | .object [], .object [], _ => exact ⟨rfl, List.append_cancel_left h⟩
  | .array [], .array (y :: ys), _ | .array (x :: xs), .array [], _ => cases h
  | .object [], .object (n :: ns), _ | .object (m :: ms), .object [], _ => cases h
  | .array (x :: xs), .array (y :: ys), _ =>
    simp only [write, List.cons_append, List.append_assoc, List.cons.injEq, true_and,
      List.append_cancel_left_eq] at h
    obtain ⟨rfl, hxs⟩ := write_append_inj x y (endsNumber_writeElements _ _ _ _)
      (endsNumber_writeElements _ _ _ _) h
    obtain ⟨rfl, hrest⟩ := writeElements_append_inj xs ys hxs
    exact ⟨rfl, (List.cons.inj hrest).2⟩
  | .object (m :: ms), .object (n :: ns), _ =>
    simp only [write, List.cons_append, List.append_assoc, List.cons.injEq, true_and,
      List.append_cancel_left_eq] at h
    obtain ⟨rfl, hms⟩ := writeMember_append_inj m n (endsNumber_writeMembers _ _ _ _)
      (endsNumber_writeMembers _ _ _ _) h
    obtain ⟨rfl, hrest⟩ := writeMembers_append_inj ms ns hms
    exact ⟨rfl, (List.cons.inj hrest).2⟩

theorem writeElements_append_inj (xs ys : List Json) {level below : Nat} {r s : List Char}
    (h : writeElements level xs ++ (newline below ++ r) =
      writeElements level ys ++ (newline below ++ s)) : xs = ys ∧ r = s := by
  match xs, ys with
  | [], [] => exact ⟨rfl, List.append_cancel_left h⟩
  | [], y :: ys | x :: xs, [] => cases h
  | x :: xs, y :: ys =>
    simp only [writeElements, List.cons_append, List.append_assoc, List.cons.injEq, true_and,
      List.append_cancel_left_eq] at h
    obtain ⟨rfl, hxs⟩ := write_append_inj x y (endsNumber_writeElements _ _ _ _)
      (endsNumber_writeElements _ _ _ _) h
    obtain ⟨rfl, hrest⟩ := writeElements_append_inj xs ys hxs
    exact ⟨rfl, hrest⟩

theorem writeMember_append_inj (m n : String × Json) {level : Nat} {r s : List Char}
    (hr : EndsNumber r) (hs : EndsNumber s)
    (h : writeMember level m ++ r = writeMember level n ++ s) : m = n ∧ r = s := by
  match m, n with
  | (key, value), (key', value') =>
    simp only [writeMember, List.append_assoc] at h
    obtain ⟨rfl, hvalue⟩ := quoted_append_inj h
    obtain ⟨rfl, hrest⟩ := write_append_inj value value' hr hs (List.append_cancel_left hvalue)
    exact ⟨rfl, hrest⟩

theorem writeMembers_append_inj (ms ns : List (String × Json)) {level below : Nat}
    {r s : List Char} (h : writeMembers level ms ++ (newline below ++ r) =
      writeMembers level ns ++ (newline below ++ s)) : ms = ns ∧ r = s := by
  match ms, ns with
  | [], [] => exact ⟨rfl, List.append_cancel_left h⟩
  | [], n :: ns | m :: ms, [] => cases h
  | m :: ms, n :: ns =>
    simp only [writeMembers, List.cons_append, List.append_assoc, List.cons.injEq, true_and,
      List.append_cancel_left_eq] at h
    obtain ⟨rfl, hms⟩ := writeMember_append_inj m n (endsNumber_writeMembers _ _ _ _)
      (endsNumber_writeMembers _ _ _ _) h
    obtain ⟨rfl, hrest⟩ := writeMembers_append_inj ms ns hms
    exact ⟨rfl, hrest⟩

end

theorem text_injective : Function.Injective text := by
  intro i j h
  have hwrite : i.write 0 ++ [] = j.write 0 ++ [] := by
    rw [String.ofList_injective h]
  exact (write_append_inj i j (by simp [EndsNumber]) (by simp [EndsNumber]) hwrite).1

theorem ofOption_injective : Function.Injective ofOption := by
  intro a b h
  cases a <;> cases b <;> simp_all [ofOption]

end ProtoSyntax.Json
