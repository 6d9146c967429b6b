import Mathlib.Data.String.Basic
import ProtoSyntax.Lexeme.ByteCursor

/-!
# Bytes of a text

The bytes under a byte cursor are those of the characters in turn. A character below U+0080 is one
byte of its own number, and every byte of a longer one lies beyond that range.
-/

namespace ProtoSyntax
open String (utf8Len)

theorem toList_loop (bytes : ByteArray) (i : Nat) (done : List UInt8) :
    ByteArray.toList.loop bytes i done = done.reverse ++ bytes.data.toList.drop i := by
  induction hn : bytes.size - i generalizing i done with
  | zero =>
    have hi : bytes.data.toList.length ≤ i := by
      have : bytes.data.toList.length = bytes.size := rfl
      omega
    rw [ByteArray.toList.loop, if_neg (by omega), List.drop_eq_nil_of_le hi, List.append_nil]
  | succ n ih =>
    have hi : i < bytes.data.toList.length := by
      have : bytes.data.toList.length = bytes.size := rfl
      omega
    have hb : bytes.get! i = bytes.data.toList[i] := by
      simp [ByteArray.get!, getElem!_pos, show i < bytes.size by omega]
    rw [ByteArray.toList.loop, if_pos (by omega), ih (i + 1) _ (by omega), hb,
      List.drop_eq_getElem_cons hi]
    simp

theorem toList_eq_data (bytes : ByteArray) : bytes.toList = bytes.data.toList := by
  simp [ByteArray.toList, toList_loop]

def charBytes (c : Char) : List Char :=
  (String.utf8EncodeChar c).map fun b => Char.ofNat b.toNat

theorem bytesOf_ofList (cs : List Char) :
    ByteCursor.bytesOf (String.ofList cs) = cs.flatMap charBytes := by
  have ht : (String.ofList cs).toUTF8.toList = cs.flatMap String.utf8EncodeChar := by
    rw [String.toUTF8_eq_toByteArray, String.toByteArray_ofList, List.utf8Encode, toList_eq_data,
      List.toList_data_toByteArray]
  rw [ByteCursor.bytesOf, ht, List.map_flatMap]
  rfl

theorem length_charBytes (c : Char) : (charBytes c).length = c.utf8Size := by
  simp [charBytes]

theorem length_flatMap_charBytes (cs : List Char) :
    (cs.flatMap charBytes).length = utf8Len cs := by
  induction cs with
  | nil => rfl
  | cons c cs ih =>
    rw [List.flatMap_cons, List.length_append, ih, length_charBytes, String.utf8Len_cons,
      Nat.add_comm]

theorem charBytes_of_lt {c : Char} (h : c.toNat < 0x80) : charBytes c = [c] := by
  have hv : c.val.toNat ≤ 0x7f := Nat.le_of_lt_succ h
  have hb : (UInt8.ofNat c.val.toNat).toNat = c.toNat := by
    rw [UInt8.toNat_ofNat']
    exact Nat.mod_eq_of_lt (by omega)
  simp only [charBytes, String.utf8EncodeChar, hv, if_pos, List.map_cons, List.map_nil, hb,
    Char.ofNat_toNat]

theorem toNat_ofNat_byte (b : UInt8) : (Char.ofNat b.toNat).toNat = b.toNat := by
  have hb : b.toNat < 256 := b.toNat_lt
  have hv : b.toNat.isValidChar := Or.inl (by omega)
  rw [Char.ofNat, dif_pos hv]
  rfl

theorem le_of_mem_charBytes {c b : Char} (h : 0x80 ≤ c.toNat) (hb : b ∈ charBytes c) :
    0x80 ≤ b.toNat := by
  obtain ⟨x, hx, rfl⟩ := List.mem_map.1 hb
  have hv : ¬ c.val.toNat ≤ 0x7f := Nat.not_le.2 h
  rw [toNat_ofNat_byte]
  simp only [String.utf8EncodeChar, hv, if_false] at hx
  split_ifs at hx <;> simp only [List.mem_cons, List.not_mem_nil, or_false] at hx <;>
    rcases hx with rfl | rfl | rfl | rfl <;> simp only [UInt8.toNat_ofNat'] <;> omega

theorem exists_charBytes_cons (c : Char) : ∃ b bs, charBytes c = b :: bs :=
  List.exists_cons_of_length_pos (by rw [length_charBytes]; exact c.utf8Size_pos)

theorem forall_mem_charBytes {q : Char → Prop} {c : Char} (hc : q c)
    (hbeyond : 0x80 ≤ c.toNat → ∀ b : Char, 0x80 ≤ b.toNat → q b) : ∀ b ∈ charBytes c, q b := by
  by_cases h : c.toNat < 0x80
  · rw [charBytes_of_lt h]
    exact fun b hb => List.mem_singleton.1 hb ▸ hc
  · have h := Nat.le_of_not_lt h
    exact fun b hb => hbeyond h b (le_of_mem_charBytes h hb)

theorem width_charBytes {c b : Char} {bs : List Char} (h : charBytes c = b :: bs) :
    ByteCursor.width b = c.utf8Size := by
  have hsize : c.utf8Size = if c.val.toNat ≤ 0x7f then 1 else if c.val.toNat ≤ 0x7ff then 2
      else if c.val.toNat ≤ 0xffff then 3 else 4 := rfl
  rw [charBytes] at h
  simp only [String.utf8EncodeChar] at h
  rw [hsize]
  split_ifs at h ⊢ <;> obtain ⟨rfl, -⟩ := List.cons.inj h <;>
    simp only [ByteCursor.width, toNat_ofNat_byte] <;> simp only [UInt8.toNat_ofNat'] <;> grind

/-! ### Classes -/

/-- Something said of characters that does not tell those beyond ASCII apart. -/
def Coarse {β : Type} (f : Char → β) : Prop :=
  ∀ b c : Char, 0x80 ≤ b.toNat → 0x80 ≤ c.toNat → f b = f c

theorem coarse_of_ascii {p : Char → Bool} (h : ∀ c, p c = true → c.toNat < 0x80) : Coarse p := by
  have hfalse {c : Char} (hc : 0x80 ≤ c.toNat) : p c = false :=
    Bool.eq_false_of_not_eq_true fun hp => Nat.not_lt.2 hc (h c hp)
  exact fun b c hb hc => (hfalse hb).trans (hfalse hc).symm

theorem coarse_eq {x : Char} (hx : x.toNat < 0x80) : Coarse fun c => decide (c = x) :=
  coarse_of_ascii fun _ hc => of_decide_eq_true hc ▸ hx

theorem Coarse.comp {β γ : Type} {f : Char → β} (h : Coarse f) (g : β → γ) : Coarse fun c => g (f c) :=
  fun b c hb hc => congrArg g (h b c hb hc)

theorem toNat_lt_of_le {c d : Char} (h : c ≤ d) (hd : d.toNat < 0x80) : c.toNat < 0x80 :=
  Nat.lt_of_le_of_lt (UInt32.le_iff_toNat_le.1 h) hd

section

variable {c : Char}

theorem toNat_lt_of_isBlank (h : isBlank c = true) : c.toNat < 0x80 := by
  simp only [isBlank, Bool.or_eq_true, decide_eq_true_eq] at h
  rcases h with (((rfl | rfl) | rfl) | rfl) | rfl <;> decide

theorem toNat_lt_of_isLineBreak (h : isLineBreak c = true) : c.toNat < 0x80 := by
  simp only [isLineBreak, Bool.or_eq_true, decide_eq_true_eq] at h
  rcases h with rfl | rfl <;> decide

theorem toNat_lt_of_isQuote (h : isQuote c = true) : c.toNat < 0x80 := by
  simp only [isQuote, Bool.or_eq_true, decide_eq_true_eq] at h
  rcases h with rfl | rfl <;> decide

theorem toNat_lt_of_isWordPart (h : isWordPart c = true) : c.toNat < 0x80 := by
  simp only [isWordPart, isLetter, isDigit, Bool.or_eq_true, Bool.and_eq_true, decide_eq_true_eq] at h
  rcases h with ((h | h) | h) | rfl
  · exact toNat_lt_of_le h.2 (by decide)
  · exact toNat_lt_of_le h.2 (by decide)
  · exact toNat_lt_of_le h.2 (by decide)
  · decide

theorem toNat_lt_of_ofChar? {p : Punct} (h : Punct.ofChar? c = some p) : c.toNat < 0x80 := by
  have hc : p.char = c := by simpa using List.find?_some h
  rw [← hc]
  cases p <;> decide

end

theorem coarse_ofChar? : Coarse Punct.ofChar? := by
  have hnone {c : Char} (hc : 0x80 ≤ c.toNat) : Punct.ofChar? c = none :=
    Option.eq_none_iff_forall_ne_some.2 fun p hp => Nat.not_lt.2 hc (toNat_lt_of_ofChar? hp)
  exact fun b c hb hc => (hnone hb).trans (hnone hc).symm

/-! ### Cursors -/

namespace ByteCursor

def inside (front back : List Char) : ByteCursor := ⟨front ++ back, front.length⟩

section

variable (front back : List Char)

@[simp]
theorem rest_inside : (inside front back).rest = back := List.drop_left

@[simp]
theorem atEnd_inside : (inside front back).atEnd = back.isEmpty := by
  cases back <;> simp [atEnd, inside]

theorem peek_inside (n : Nat) : (inside front back).peek n = back[n]?.getD endOfText := by
  have hindex : (front.length + n : Int).toNat = front.length + n := by omega
  have hinside : ¬ (front.length + n : Int) < 0 := by omega
  simp only [peek, inside, if_neg hinside, hindex]
  rw [List.getElem?_append_right (Nat.le_add_right _ _), Nat.add_sub_cancel_left]

@[simp]
theorem current_inside : (inside front back).current = back.head?.getD endOfText := by
  rw [current, show (0 : Int) = (0 : Nat) from rfl, peek_inside, List.head?_eq_getElem?]

theorem advance_inside (n : Nat) :
    (inside front back).advance n = inside (front ++ back.take n) (back.drop n) := by
  simp only [advance, inside, List.append_assoc, List.take_append_drop, List.length_append,
    List.length_take]
  congr 1
  omega

end

theorem advance_advance (c : ByteCursor) (m n : Nat) : (c.advance m).advance n = c.advance (m + n) := by
  simp only [advance, ByteCursor.mk.injEq, true_and]
  omega

def between (before after : List Char) : ByteCursor :=
  inside (before.flatMap charBytes) (after.flatMap charBytes)

theorem mk_bytesOf {text : String} {before after : List Char} (h : text.toList = before ++ after) :
    ⟨bytesOf text, utf8Len before⟩ = between before after := by
  have hbytes := bytesOf_ofList text.toList
  rw [String.ofList_toList, h] at hbytes
  rw [hbytes, List.flatMap_append, ← length_flatMap_charBytes]
  rfl

theorem ofText_eq (text : String) : ofText text = between [] text.toList := by
  rw [← mk_bytesOf (List.nil_append _).symm]
  rfl

section

variable (before : List Char) {c : Char} (cs : List Char)

theorem position_between : (between before cs).position = utf8Len before :=
  length_flatMap_charBytes before

@[simp]
theorem atEnd_between : (between before cs).atEnd = cs.isEmpty := by
  cases cs with
  | nil => simp [between]
  | cons c cs =>
    obtain ⟨b, bs, hb⟩ := exists_charBytes_cons c
    simp [between, hb]

theorem current_between : (between before (c :: cs)).current = c ∨
    0x80 ≤ (between before (c :: cs)).current.toNat ∧ 0x80 ≤ c.toNat := by
  by_cases h : c.toNat < 0x80
  · exact .inl (by simp [between, charBytes_of_lt h])
  · obtain ⟨b, bs, hb⟩ := exists_charBytes_cons c
    have hle := le_of_mem_charBytes (Nat.le_of_not_lt h) (b := b) (by simp [hb])
    exact .inr ⟨by simpa [between, hb] using hle, Nat.le_of_not_lt h⟩

theorem apply_current_between {β : Type} {f : Char → β} (hf : Coarse f) :
    f (between before (c :: cs)).current = f c := by
  rcases current_between before cs with h | ⟨hcurrent, hc⟩
  · rw [h]
  · exact hf _ _ hcurrent hc

theorem current_between_eq (hc : c.toNat < 0x80) : (between before (c :: cs)).current = c :=
  (current_between before cs).resolve_right fun h => Nat.not_lt.2 h.2 hc

theorem advance_between : (between before (c :: cs)).advance c.utf8Size = between (before ++ [c]) cs := by
  rw [between, advance_inside, List.flatMap_cons, ← length_charBytes, List.take_left, List.drop_left]
  simp [between]

theorem advance_one_between (hc : c.toNat < 0x80) :
    (between before (c :: cs)).advance 1 = between (before ++ [c]) cs := by
  have hsize : c.utf8Size = 1 := by rw [← length_charBytes, charBytes_of_lt hc]; rfl
  rw [← hsize, advance_between]

theorem advance_two_between {d : Char} (hc : c.toNat < 0x80) (hd : d.toNat < 0x80) :
    (between before (c :: d :: cs)).advance 2 = between (before ++ [c, d]) cs := by
  rw [← advance_advance (between before (c :: d :: cs)) 1 1, advance_one_between before _ hc,
    advance_one_between _ cs hd, List.append_assoc]
  rfl

theorem advanceChar_between :
    (between before (c :: cs)).advanceChar = between (before ++ [c]) cs := by
  obtain ⟨b, bs, hb⟩ := exists_charBytes_cons c
  have hwidth : (between before (c :: cs)).rest.head?.elim 1 width = c.utf8Size := by
    simpa [between, hb] using width_charBytes hb
  rw [advanceChar, hwidth, advance_between]

theorem peek_one_between (hc : c.toNat < 0x80) :
    (between before (c :: cs)).peek 1 = (between (before ++ [c]) cs).current := by
  rw [show (1 : Int) = (1 : Nat) from rfl, between, peek_inside, between, current_inside,
    List.flatMap_cons, charBytes_of_lt hc, List.head?_eq_getElem?]
  rfl

end

theorem atBlank_between (before : List Char) (c : Char) (cs : List Char) :
    (between before (c :: cs)).atBlank = isBlank c := by
  rw [atBlank, atEnd_between, apply_current_between _ _ (coarse_of_ascii fun _ => toNat_lt_of_isBlank)]
  rfl

end ByteCursor
end ProtoSyntax
