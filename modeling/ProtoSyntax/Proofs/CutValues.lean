import ProtoSyntax.Proofs.CutTexts
import ProtoSyntax.Proofs.JoinedTexts
import ProtoSyntax.Proofs.Parsing.Alone
import ProtoSyntax.Proofs.Parsing.Written

/-!
# Values cut out of a text

A value is one token, or some strings, or what stands between two characters. Unless it was put together
from several strings, it is a piece of the text, and this piece by itself has the tokens that the value
has in the text.
-/

namespace ProtoSyntax
open Piece (flatten)
open String (utf8Len)

variable {N S : Type}

def AreStrings (us : List Token) : Prop := 2 ≤ us.length ∧ ∀ t ∈ us, t.kind = .string

instance decidableAreStrings (us : List Token) : Decidable (AreStrings us) :=
  inferInstanceAs (Decidable (2 ≤ us.length ∧ ∀ t ∈ us, t.kind = .string))

inductive IsValue : List Token → Prop where
  | single (t : Token) : IsValue [t]
  | strings {us : List Token} : AreStrings us → IsValue us
  | between {t u : Token} {ts : List Token} {p q : Punct} : t.kind = .punct p → u.kind = .punct q →
      IsValue (t :: (ts ++ [u]))

namespace Generates

variable {rule : N → Phrase N S} {us : List Token}

theorem kind_of_strings (h : Generates rule [.star [.string]] us) : ∀ t ∈ us, t.kind = .string := by
  obtain ⟨ss, hd, rfl⟩ := h
  obtain ⟨x, xs, rfl, hx, hxs⟩ := Derives.star_inv (b := []) hd
  cases hx
  intro t ht
  obtain ⟨p, hp, rfl⟩ := List.mem_map.1 ht
  rw [Signal.mem_pieces, List.nil_append, List.mem_flatten] at hp
  obtain ⟨y, hy, hp⟩ := hp
  cases hxs y hy with
  | token hk hnil =>
    cases hnil
    obtain rfl := Signal.token.inj (List.mem_singleton.1 hp)
    exact of_decide_eq_true hk

theorem isValue_stringRun (h : Generates rule Literal.stringRun us) : IsValue us := by
  obtain ⟨t, ts, rfl, ht, hts⟩ := h.token_inv
  cases ts with
  | nil => exact .single t
  | cons u ts =>
    exact .strings ⟨by simp, List.forall_mem_cons.2 ⟨of_decide_eq_true ht, hts.kind_of_strings⟩⟩

theorem isValue_scalar (h : Generates rule Literal.scalar us) : IsValue us := by
  obtain ⟨t, rfl, -⟩ := h.single_inv
  exact .single t

theorem isValue_between {p q : Punct} {e : Phrase N S}
    (h : Generates rule (.punct p :: (e ++ [.punct q])) us) : IsValue us := by
  obtain ⟨t, ts, rfl, ht, hts⟩ := h.kind_inv
  obtain ⟨xs, ys, rfl, -, hys⟩ := hts.append_inv
  obtain ⟨u, rfl, hu⟩ := hys.single_kind_inv
  exact .between ht hu

end Generates

theorem IsValue.exists_last {us : List Token} (h : IsValue us) (hs : ¬ AreStrings us) :
    ∃ ts u, us = ts ++ [u] ∧ (ts ≠ [] → ∃ p, u.kind = .punct p) ∧
      ∀ text, Token.valueText text us = Token.slice text us := by
  cases h with
  | single t => exact ⟨[], t, rfl, fun h => absurd rfl h, fun _ => rfl⟩
  | strings h => exact absurd h hs
  | @between t u ts p q ht hu =>
    refine ⟨t :: ts, u, rfl, fun _ => ⟨q, hu⟩, fun text => LaidIn.valueText_of_ne_string ?_⟩
    rw [ht]
    exact TokenKind.noConfusion

theorem Token.slice_pieces (text : String) (first : Piece) (more : List Piece) :
    slice text ((first :: more).map (·.token)) =
      String.Pos.Raw.extract text ⟨first.token.start⟩ ⟨lastStop 0 (first :: more)⟩ := by
  rw [lastStop_cons, lastStop, List.map_cons, slice, List.getLastD_eq_getLast?, List.getLast?_map]
  cases more.getLast? <;> rfl

theorem Derives.congr_pieces {rule : N → Phrase N S} {e : Phrase N S} {ps qs : List Piece}
    (h : Derives rule e (ps.map .token)) (hb : ps.map (·.bare) = qs.map (·.bare)) :
    Derives rule e (qs.map .token) := by
  refine h.congr_bare ?_
  have hbare (rs : List Piece) :
      (rs.map Signal.token).map Signal.bare = (rs.map (·.bare)).map (Signal.token : Piece → Signal S) := by
    rw [List.map_map, List.map_map]
    rfl
  rw [hbare, hbare, hb]

def Piece.ofToken (t : Token) (h : t.isComment = false) : Piece :=
  ⟨t, [], h, Token.isComment_of_mem_nil⟩

/-- A text that is a value and nothing else, cut into pieces. -/
structure Whole (language : Language) (value : String) (ps : List Piece) : Prop where
  tokens : language.tokens value = flatten ps
  valueText : Token.valueText value (ps.map (·.token)) = value
  ends : ∃ xs p, ps = xs ++ [p] ∧ p.comments = []

theorem Token.slice_concat (text : String) {ts : List Token} {t u : Token}
    (ht : t ∈ (ts ++ [u]).head?) :
    slice text (ts ++ [u]) = String.Pos.Raw.extract text ⟨t.start⟩ ⟨u.stop⟩ := by
  cases ts with
  | nil =>
    obtain rfl := Option.some.inj ht
    rfl
  | cons v ts =>
    obtain rfl := Option.some.inj ht
    rw [List.cons_append, slice, List.getLastD_concat]

theorem exists_concat_of_map_eq {α β : Type} {f : α → β} {l : List α} {ys : List β} {z : β}
    (h : l.map f = ys ++ [z]) : ∃ xs x, l = xs ++ [x] ∧ xs.map f = ys ∧ f x = z := by
  obtain ⟨xs, rest, rfl, hxs, hrest⟩ := List.map_eq_append_iff.1 h
  obtain ⟨x, rest, rfl, hx, hnil⟩ := List.map_eq_cons_iff.1 hrest
  obtain rfl := List.map_eq_nil_iff.1 hnil
  exact ⟨xs, x, rfl, hxs, hx⟩

theorem Whole.exists_of_shift {language : Language} {text value : String} {pre post : List Char}
    {xs : List Piece} {p : Piece} (htext : text.toList = pre ++ value.toList ++ post)
    (hcut : (language.tokens value).map (·.shift (utf8Len pre)) = flatten (xs ++ [p.alone]))
    (hvalue : Token.valueText text ((xs ++ [p]).map (·.token)) = value) :
    ∃ ps, Whole language value ps ∧ ps.map (·.bare) = (xs ++ [p]).map (·.bare) := by
  obtain ⟨ps, hps, hshift⟩ := Piece.exists_flatten_shift hcut
  have htoken : (xs ++ [p.alone]).map (·.token) = (xs ++ [p]).map (·.token) := by simp [Piece.alone]
  refine ⟨ps, ⟨hps, ?_, ?_⟩, ?_⟩
  · have hlaid := (laidIn_tokens language value).sublist (hps ▸ Schema.tokens_sublist ps)
    rw [← hlaid.valueText_shift htext, ← Piece.map_token_map_shift, hshift, htoken, hvalue]
  · obtain ⟨ys, q, hys, -, hq⟩ := exists_concat_of_map_eq hshift
    exact ⟨ys, q, hys, List.map_eq_nil_iff.1 (congrArg Piece.comments hq)⟩
  · rw [← Piece.map_bare_map_shift (utf8Len pre), hshift, Piece.map_bare_congr htoken]

/-- A value that is not several strings stands in the text as it is, and cut out of the text it has the
same tokens. -/
theorem Whole.exists_of_isValue {language : Language} {text : String} {lead : List Token}
    {vs after : List Piece} (htokens : language.tokens text = lead ++ flatten (vs ++ after))
    (hvalue : IsValue (vs.map (·.token))) (hs : ¬ AreStrings (vs.map (·.token))) :
    ∃ pre post ps, text.toList = pre ++ (Token.valueText text (vs.map (·.token))).toList ++ post ∧
      utf8Len (pre ++ (Token.valueText text (vs.map (·.token))).toList) = lastStop 0 vs ∧
      Whole language (Token.valueText text (vs.map (·.token))) ps ∧
      ps.map (·.bare) = vs.map (·.bare) := by
  obtain ⟨ts, u, hus, hpunct, hslice⟩ := hvalue.exists_last hs
  obtain ⟨xs, p, rfl, rfl, rfl⟩ := exists_concat_of_map_eq hus
  obtain ⟨t, ht⟩ : ∃ t, t ∈ (flatten xs ++ [p.token]).head? := by
    cases xs with
    | nil => exact ⟨_, rfl⟩
    | cons x xs => exact ⟨_, rfl⟩
  have hfirst : t ∈ (xs.map (·.token) ++ [p.token]).head? := by
    cases xs with
    | nil => exact ht
    | cons x xs => exact ht
  have hsplit : language.tokens text =
      lead ++ (flatten xs ++ p.token :: (p.comments ++ flatten after)) := by simp [htokens]
  have hmem : p.token ∈ language.tokens text := by simp [hsplit]
  obtain ⟨pre, post, htext, hpre, hend, hcut⟩ := language.tokens_extract hsplit ht fun hne => by
    obtain ⟨c, hc⟩ := hpunct fun hnil => hne (by rw [List.map_eq_nil_iff.1 hnil]; rfl)
    exact Token.exists_getLast?_of_punct hmem hc
  have hextract := (hslice text).trans ((congrArg _ hus).trans (Token.slice_concat text hfirst))
  rw [← hextract] at htext hend hcut
  rw [← hpre] at hcut
  obtain ⟨ps, hw, hbare⟩ :=
    @Whole.exists_of_shift _ _ _ _ _ xs p htext (by rw [hcut]; simp [Piece.alone]) rfl
  exact ⟨pre, post, ps, htext, hend.trans (lastStop_concat 0 xs p).symm, hw, hbare⟩

theorem Whole.valueText_shift {language : Language} {value whole : String} {ps : List Piece}
    {pre post : List Char} (h : Whole language value ps)
    (hwhole : whole.toList = pre ++ value.toList ++ post) :
    Token.valueText whole ((ps.map (·.shift (utf8Len pre))).map (·.token)) = value := by
  have hlaid := (laidIn_tokens language value).sublist (h.tokens ▸ Schema.tokens_sublist ps)
  rw [Piece.map_token_map_shift, hlaid.valueText_shift hwhole, h.valueText]

end ProtoSyntax
