import ProtoSyntax.Proofs.Parsing.Bare
import ProtoSyntax.Proofs.Parsing.Nesting
import ProtoSyntax.Proofs.Schema.Readers
import ProtoSyntax.Proofs.Tiling

/-!
# Kinds read off bare tokens

The kind of a node depends on the kinds and texts of its tokens alone, not on where they stand. Only
the text of an option's value is cut out of the whole text.
-/

namespace ProtoSyntax
open Piece (flatten)
open String (utf8Len)

namespace Token

@[simp] theorem concat_map_bare (ts : List Token) : concat (ts.map bare) = concat ts := by
  simp [concat, Function.comp_def]

theorem joined_map_bare (ts : List Token) : joined (ts.map bare) = joined ts := by
  match ts with
  | [] => rfl
  | [t] => rfl
  | t :: u :: ts => simp [joined, Function.comp_def]

theorem slice_eq {text : String} {t : Token} {ts : List Token} {before mid after : List Char}
    (htext : text.toList = before ++ mid ++ after) (hstart : t.start = utf8Len before)
    (hstop : (ts.getLastD t).stop = utf8Len (before ++ mid)) :
    slice text (t :: ts) = String.ofList mid := by
  have hlist : text = String.ofList (before ++ mid ++ after) := by
    rw [← htext, String.ofList_toList]
  rw [slice, hstart, hstop, hlist]
  have := String.extract_of_valid before mid after
  simpa [String.utf8Len_append] using this

end Token

open Token (bare)

namespace Schema

@[simp] theorem cut_map_bare (p : Punct) (ts : List Token) :
    cut p (ts.map bare) = ((cut p ts).1.map bare, (cut p ts).2.map bare) := by
  simp only [cut, List.takeWhile_map, List.dropWhile_map, List.map_drop]
  rfl

theorem commaRuns_ne_nil (ts : List Token) : commaRuns ts ≠ [] := by
  induction ts with
  | nil => simp [commaRuns]
  | cons t ts ih =>
    rw [commaRuns]
    split
    · simp
    · split <;> simp

theorem commaRuns_map_bare (ts : List Token) :
    commaRuns (ts.map bare) = (commaRuns ts).map (·.map bare) := by
  induction ts with
  | nil => rfl
  | cons t ts ih =>
    cases hr : commaRuns ts with
    | nil => exact absurd hr (commaRuns_ne_nil ts)
    | cons run runs =>
      by_cases hk : t.kind = .punct .comma
      · simp [commaRuns, ih, hr, hk]
      · simp [commaRuns, ih, hr, hk]

theorem entryOf_map_bare (ts : List Token) : entryOf (ts.map bare) = entryOf ts := by
  match ts with
  | [] => rfl
  | [t] => rfl
  | t :: u :: ts =>
    show ReservedEntry.range (Token.concat (((t :: u :: ts).map bare).take 1))
      (some (Token.concat (((t :: u :: ts).map bare).drop 2))) = entryOf (t :: u :: ts)
    rw [← List.map_take, ← List.map_drop, Token.concat_map_bare, Token.concat_map_bare]
    rfl

theorem build_map_bare {shape : Shape} (h : shape ≠ .optionValue) (text text' : String)
    (ts : List Token) : build shape text (ts.map bare) = build shape text' ts := by
  have hentries (runs : List (List Token)) : (runs.map (·.map bare)).map entryOf = runs.map entryOf := by
    simp [entryOf_map_bare]
  cases shape with
  | optionValue => exact absurd rfl h
  | reserved => simp only [build, ← List.map_drop, cut_map_bare, commaRuns_map_bare, hentries]
  | _ =>
    simp only [build, ← List.map_drop, Reader.Steady.takeText.bare, steady_readVersion.bare,
      steady_readImport.bare, (steady_readFullName _).bare, steady_readOptionName.bare, steady_readField.bare,
      steady_readEnumValue.bare, steady_readRpc.bare]

end Schema

structure LaidIn (language : Language) (text : String) (ts : List Token) : Prop where
  spaced : Spaced ts
  foundIn : ∀ t ∈ ts, t.FoundIn language.lexeme text.toList

namespace LaidIn

variable {language : Language} {text : String} {t : Token} {ts : List Token}

theorem exists_slice (h : LaidIn language text (t :: ts)) :
    ∃ before c mid after, text.toList = before ++ (c :: mid) ++ after ∧ t.start = utf8Len before ∧
      (ts.getLastD t).stop = utf8Len (before ++ (c :: mid)) ∧ t.text.toList.head? = some c := by
  obtain ⟨before, c, body, after, hcs, -, -, hstart, htext⟩ := h.foundIn t List.mem_cons_self
  have hlast : ts.getLastD t ∈ t :: ts := List.getLastD_mem_cons
  obtain ⟨before', c', body', after', hcs', -, -, hstart', htext'⟩ := h.foundIn _ hlast
  have hlt : t.start < (ts.getLastD t).stop := by
    have := h.spaced.nonempty t List.mem_cons_self
    rcases List.mem_cons.1 hlast with he | hmem
    · rwa [he]
    · have := h.spaced.stop_le_start_cons hmem
      have := (ts.getLastD t).start_le_stop
      omega
  have hstop : (ts.getLastD t).stop = utf8Len (before' ++ (c' :: body')) := by
    rw [Token.stop, Token.length, htext', String.utf8ByteSize_ofList, hstart', String.utf8Len_append]
  -- The last token ends after the first character of the first.
  obtain ⟨mid, hmid⟩ : before ++ [c] <+: before' ++ (c' :: body') := by
    have hp : before ++ [c] <+: text.toList := ⟨body ++ after, by simp [hcs]⟩
    have hp' : before' ++ (c' :: body') <+: text.toList := ⟨after', by simp [hcs']⟩
    rcases List.prefix_or_prefix_of_prefix hp hp' with hle | hle
    · exact hle
    · rcases List.prefix_concat_iff.1 hle with he | ⟨rest, hle⟩
      · exact he ▸ List.prefix_refl _
      · rw [hstop, hstart, ← hle, String.utf8Len_append] at hlt
        omega
  have hmid' : before' ++ (c' :: body') = before ++ (c :: mid) := by simp [← hmid]
  refine ⟨before, c, mid, after', ?_, hstart, hmid' ▸ hstop, by simp [htext]⟩
  rw [hcs', ← List.append_assoc, hmid']

theorem head?_slice (h : LaidIn language text (t :: ts)) :
    (Token.slice text (t :: ts)).toList.head? = t.text.toList.head? := by
  obtain ⟨before, c, mid, after, htext, hstart, hstop, hhead⟩ := h.exists_slice
  rw [Token.slice_eq htext hstart hstop, hhead, String.toList_ofList, List.head?_cons]

theorem sublist {us : List Token} (h : LaidIn language text us) (hs : ts.Sublist us) :
    LaidIn language text ts :=
  ⟨h.spaced.sublist hs, fun t ht => h.foundIn t (hs.subset ht)⟩

theorem slice_singleton (h : LaidIn language text [t]) : Token.slice text [t] = t.text :=
  (h.foundIn t List.mem_cons_self).extract_eq

theorem valueText_string (h : LaidIn language text (t :: ts)) (hk : t.kind = .string) :
    Token.valueText text (t :: ts) = Token.joined (t :: ts) := by
  cases ts with
  | nil => exact h.slice_singleton
  | cons u ts => exact if_pos hk

theorem valueText_of_ne_string (hk : t.kind ≠ .string) :
    Token.valueText text (t :: ts) = Token.slice text (t :: ts) := by
  cases ts with
  | nil => rfl
  | cons u ts => exact if_neg hk

end LaidIn

theorem LaidIn.head?_text {text : String} {t : Token} {ts : List Token} {p : Punct}
    (h : LaidIn .schema text (t :: ts)) (hk : t.kind = .punct p) :
    t.text.toList.head? = some p.char := by
  rw [(h.foundIn t List.mem_cons_self).text_eq hk, String.toList_ofList, List.head?_cons]

end ProtoSyntax
