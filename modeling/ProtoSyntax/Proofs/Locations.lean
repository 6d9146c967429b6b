import ProtoSyntax.Parsing.Error
import ProtoSyntax.Proofs.Bytes

/-!
# Lines and columns

The line of an offset is the number of line feeds among the bytes before it, its column the number
of bytes after the last of these line feeds, both counted from one in errors. A line feed is never
part of a longer character, so that bytes can be counted instead of characters.
-/

namespace ProtoSyntax
open String (utf8Len)

/-- How many bytes come after the last line feed, or how many there are if there is none. -/
def lastLineLength (bytes : List Char) : Nat := (bytes.reverse.takeWhile (· ≠ '\n')).length

theorem lastLineLength_append_of_not_mem {bytes more : List Char} (h : '\n' ∉ more) :
    lastLineLength (bytes ++ more) = lastLineLength bytes + more.length := by
  have hmore : ∀ b ∈ more.reverse, (decide (b ≠ '\n')) = true := by
    intro b hb
    have : b ≠ '\n' := fun he => h (he ▸ List.mem_reverse.1 hb)
    simpa using this
  rw [lastLineLength, List.reverse_append, List.takeWhile_append_of_pos hmore, List.length_append,
    List.length_reverse, Nat.add_comm, lastLineLength]

theorem lastLineLength_append_cons (bytes more : List Char) :
    lastLineLength (bytes ++ '\n' :: more) = lastLineLength more := by
  rw [lastLineLength, List.reverse_append, List.reverse_cons, List.append_assoc,
    List.takeWhile_append]
  split <;> simp_all [lastLineLength]

theorem not_mem_charBytes {c : Char} (h : c ≠ '\n') : '\n' ∉ charBytes c := by
  by_cases hc : c.toNat < 0x80
  · simpa [charBytes_of_lt hc] using h.symm
  · intro hb
    exact absurd (le_of_mem_charBytes (Nat.le_of_not_lt hc) hb) (by decide)

theorem locateFrom_eq (before : List Char) {offset : Nat} {cs : List Char} (h : offset ≤ utf8Len cs) :
    locateFrom (before.count '\n') (lastLineLength before) offset cs =
      ((before ++ (cs.flatMap charBytes).take offset).count '\n',
        lastLineLength (before ++ (cs.flatMap charBytes).take offset)) := by
  induction cs generalizing before offset with
  | nil => simp_all [locateFrom]
  | cons c cs ih =>
    rw [String.utf8Len_cons] at h
    have hsize := c.utf8Size_pos
    rw [locateFrom, List.flatMap_cons]
    split
    · next hlt =>
      rw [List.take_append_of_le_length (by rw [length_charBytes]; omega)]
      have hbreak : '\n' ∉ (charBytes c).take offset := by
        by_cases hc : c = '\n'
        · subst hc
          obtain rfl : offset = 0 := Nat.lt_one_iff.1 hlt
          simp
        · exact fun hmem => not_mem_charBytes hc (List.mem_of_mem_take hmem)
      rw [lastLineLength_append_of_not_mem hbreak, List.count_append, List.count_eq_zero.2 hbreak,
        List.length_take, length_charBytes, Nat.min_eq_left hlt.le, Nat.add_zero]
    · next hge =>
      have htake : (charBytes c ++ cs.flatMap charBytes).take offset =
          charBytes c ++ (cs.flatMap charBytes).take (offset - c.utf8Size) := by
        rw [List.take_append, length_charBytes,
          List.take_of_length_le (by rw [length_charBytes]; omega)]
      rw [htake, ← List.append_assoc, ← ih (before ++ charBytes c) (by omega), List.count_append]
      split
      · next hc =>
        subst hc
        rw [charBytes_of_lt (by decide), lastLineLength_append_cons]
        rfl
      · next hc =>
        rw [List.count_eq_zero.2 (not_mem_charBytes hc),
          lastLineLength_append_of_not_mem (not_mem_charBytes hc), length_charBytes, Nat.add_zero]

namespace ParseError

variable {text message : String} {range : Range}

theorem locate_eq (h : range.start ≤ text.utf8ByteSize) :
    locate text message range =
      ⟨message, range, ((ByteCursor.bytesOf text).take range.start).count '\n' + 1,
        lastLineLength ((ByteCursor.bytesOf text).take range.start) + 1⟩ := by
  rw [← String.utf8Len_toList] at h
  have hbytes : ByteCursor.bytesOf text = text.toList.flatMap charBytes := by
    rw [← bytesOf_ofList, String.ofList_toList]
  have hlocate := locateFrom_eq [] h
  rw [List.nil_append, ← hbytes] at hlocate
  rw [locate, show locateFrom 0 0 range.start text.toList = _ from hlocate]

end ParseError
end ProtoSyntax
