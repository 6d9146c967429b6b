import Mathlib
import ProtoSyntax.Proofs.Parsing.Bare
import ProtoSyntax.Proofs.Parsing.Reading
import ProtoSyntax.Proofs.Schema.Guided
import ProtoSyntax.Proofs.Schema.Layout
import ProtoSyntax.Schema.Document

/-!
# The schema files that are accepted

A text without comments is parsed exactly if its tokens are derived from the expression of a file.
-/

namespace ProtoSyntax
open Piece (flatten)

namespace Piece

theorem exists_flatten_of_no_comment {ts : List Token} (h : ∀ t ∈ ts, t.isComment = false) :
    ∃ ps, ts = flatten ps ∧ ps.map (·.token) = ts ∧ ∀ p ∈ ps, p.comments = [] := by
  induction ts with
  | nil => exact ⟨[], rfl, rfl, by simp⟩
  | cons t ts ih =>
    obtain ⟨ps, hps, hmap, hc⟩ := ih fun u hu => h u (List.mem_cons_of_mem _ hu)
    refine ⟨⟨t, [], h t List.mem_cons_self, by simp⟩ :: ps, ?_, ?_, ?_⟩
    · simp [← hps]
    · simp [hmap]
    · simpa using hc

end Piece

namespace Schema

theorem recurs_declarations : Recurs react .declarations where
  skip t ts := by
    simp only [react, kindAt_cons_zero]
    split <;> simp_all
  take h := by
    obtain ⟨m, -, rfl⟩ := react_declarations_eq_take.1 h
    exact ⟨m, rfl⟩

theorem reads : Reads grammar .declarations rule phrase follow blind layout .file where
  recurs := recurs_declarations
  guided := guided
  follow := ⟨.unguarded, rfl⟩
  exists_parts := exists_parts

theorem not_blind {ps : List Piece} (h : ∀ p ∈ ps, p.comments = []) (g : Goal) : ¬ blind g ps := by
  have hparted (k l : TokenKind) : ¬ Parted k l ps := by
    rintro ⟨p, q, rest, rfl, -, -, hp⟩
    exact hp (h p List.mem_cons_self)
  cases g <;> first | exact hparted _ _ | exact id

theorem parse_succeeds_iff_generates (text : String)
    (hc : ∀ t ∈ Language.schema.tokens text, t.isComment = false) :
    (∃ tree, parse text = .ok tree) ↔ Generates rule document (Language.schema.tokens text) := by
  obtain ⟨ps, hps, hmap, hps'⟩ := Piece.exists_flatten_of_no_comment hc
  have ho : Ordered ([] ++ flatten ps) := hps ▸ ordered_tokens .schema text
  constructor
  · rintro ⟨tree, htree⟩
    rw [parse, hps] at htree
    obtain ⟨parts, rfl, hd, -⟩ := reads.parse_sound (by simp) ho htree
    exact ⟨_, hd, by rw [Part.pieces_signals, hmap]⟩
  · rintro ⟨ss, hd, hss⟩
    obtain ⟨parts, rfl, -⟩ := exists_parts hd
    rw [Part.pieces_signals, ← hmap] at hss
    -- The derivation may be one over other pieces, with the same tokens.
    obtain ⟨parts', hbare, rfl⟩ :=
      Part.exists_listBare_eq parts ps (Piece.map_bare_congr hss.symm)
    have hd' := Part.derives_congr_bare hd hbare.symm
    obtain ⟨tree, htree, -⟩ := reads.parse_complete (by simp) ho hd' fun g l ts hg _ _ =>
      not_blind (fun p hp => hps' p (hg.suffix.mem hp)) g
    exact ⟨tree, by rw [parse, hps]; exact htree⟩

theorem generates_nested_map :
    (∀ t ∈ Language.schema.tokens "message A{message B{}map<int32,.to>map=1[deprecated=true];}",
      t.isComment = false) ∧
    Generates rule document
      (Language.schema.tokens "message A{message B{}map<int32,.to>map=1[deprecated=true];}") := by
  have hc : (Language.schema.tokens
      "message A{message B{}map<int32,.to>map=1[deprecated=true];}").all (!·.isComment) = true := by
    rw [tokens_eq]
    cbv
  have hok : (parse "message A{message B{}map<int32,.to>map=1[deprecated=true];}").isOk = true := by
    rw [parse, tokens_eq]
    cbv
  have hc' : ∀ t ∈ Language.schema.tokens
      "message A{message B{}map<int32,.to>map=1[deprecated=true];}", t.isComment = false := by
    simpa using hc
  refine ⟨hc', (parse_succeeds_iff_generates _ hc').1 ?_⟩
  cases h : parse "message A{message B{}map<int32,.to>map=1[deprecated=true];}" with
  | ok tree => exact ⟨tree, rfl⟩
  | error e =>
    rw [h] at hok
    cases hok

end Schema
end ProtoSyntax
