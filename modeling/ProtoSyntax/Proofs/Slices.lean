import ProtoSyntax.Proofs.CutTexts
import ProtoSyntax.Proofs.JoinedTexts
import ProtoSyntax.Proofs.Parsing.Alone
import ProtoSyntax.Proofs.Parsing.Coverage
import ProtoSyntax.Proofs.Schema.BareKinds
import ProtoSyntax.Proofs.Schema.Nested

/-!
# Declarations cut out of a text

The piece of a text from the first to the last character of a declaration is the text of a file with
this declaration only. Its last token is a character of its own, so that nothing behind it matters to
the tokens and to the goals.
-/

namespace ProtoSyntax
open Piece (flatten)

theorem Part.tokens_extract {S : Type} {text : String} {lead : List Token} {parts : List (Part S)}
    {q : Part S} {first p : Piece} {xs : List Piece} {c : Punct}
    (htokens : Language.schema.tokens text = lead ++ flatten (listPieces parts))
    (hin : Inside q parts) (hq : q.pieces = first :: (xs ++ [p])) (hc : p.kind = .punct c) :
    ∃ pre post, text.toList =
        pre ++ (String.Pos.Raw.extract text ⟨first.token.start⟩ ⟨p.token.stop⟩).toList ++ post ∧
      String.utf8Len pre = first.token.start ∧
      (Language.schema.tokens (String.Pos.Raw.extract text ⟨first.token.start⟩ ⟨p.token.stop⟩)).map
        (·.shift first.token.start) = flatten ((first :: xs) ++ [p.alone]) := by
  obtain ⟨before, after, hparts⟩ := hin.pieces_infix
  have hsplit : Language.schema.tokens text = (lead ++ flatten before) ++
      (flatten (first :: xs) ++ p.token :: (p.comments ++ flatten after)) := by
    simp [htokens, ← hparts, hq]
  have hmem : p.token ∈ Language.schema.tokens text := by simp [hsplit]
  obtain ⟨pre, post, htext, hpre, -, hcut⟩ := Language.schema.tokens_extract hsplit rfl
    fun _ => Token.exists_getLast?_of_punct hmem hc
  exact ⟨pre, post, htext, hpre, by rw [hcut, Piece.flatten_append]; rfl⟩

namespace Schema

variable {text : String} {parts : List (Part Shape)} {q : Part Shape}

theorem IsDeclaration.exists_ends (h : IsDeclaration parts q) :
    ∃ first xs p c, q.pieces = first :: (xs ++ [p]) ∧ p.kind = .punct c := by
  obtain ⟨-, ps, p, hps, c, hc⟩ := exists_last h.fits
  obtain ⟨n, rest, first, _, _, hpieces, -, hreact, -⟩ := h.readBy
  cases ps with
  | cons q ps => exact ⟨q, ps, p, c, hps, hc⟩
  | nil =>
    obtain ⟨rfl, -⟩ := List.cons.inj (hps.symm.trans hpieces)
    obtain ⟨m, ⟨-, hrole, -⟩ | ⟨-, hm⟩, -⟩ := react_declarations_eq_take.1 hreact
    · cases hrole
    · rw [show p.token.kind = .punct c from hc] at hm
      cases hm

theorem parse_eq_ok_of_pursuit {ps rest : List Piece} {ms : List (Move Shape)} {k : Nat}
    (h : Pursuit react [.goal .declarations] ps ms rest)
    (hts : (Language.schema.tokens text).map (·.shift k) = flatten ps) :
    ∃ tree, parse text = .ok tree := by
  have hparse := disciplined.parse_eq (g := grammar)
    (rfl : turn .declarations ⟨false, 0⟩ = some ⟨false, 0⟩) (tokens_sliceable .schema text)
  rw [← Grammar.trace,
    Pursuit.refusal_trace_eq_none (g := grammar) h attention (Token.bare_shift k) hts] at hparse
  exact hparse

/-- The text of a declaration is read as this declaration, as its tokens are those of the declaration
without the comments after it, and as the goals come to their end with the last one. -/
theorem IsDeclaration.exists_alone {lead : List Token} {o : Outline Kind} (h : IsDeclaration parts q)
    (htokens : Language.schema.tokens text = lead ++ flatten (Part.listPieces parts))
    (ho : o ∈ q.own fun shape => grammar.build shape text) :
    ∃ alone o', parse (String.Pos.Raw.extract text ⟨o.range.start⟩ ⟨o.range.stop⟩) = .ok alone ∧
      alone.Declares [o'] ∧ o = o'.shift o.range.start := by
  obtain ⟨n, rest, hr⟩ := h.readBy
  obtain ⟨first, xs, p, c, hq, hc⟩ := h.exists_ends
  have hclosed := (exists_last h.fits).1
  obtain ⟨pre, post, htext, hpre, hslice⟩ := Part.tokens_extract htokens h.inside hq hc
  rw [Part.range_own_concat hclosed hq ho]
  generalize String.Pos.Raw.extract text ⟨first.token.start⟩ ⟨p.token.stop⟩ = slice at htext hslice ⊢
  obtain ⟨ms, hpursuit⟩ := hr.exists_pursuit_alone isSealed (fun hg => hg.ne_skip) rfl attention hq
    (react_of_punct hc)
  obtain ⟨alone, halone⟩ := parse_eq_ok_of_pursuit hpursuit hslice
  obtain ⟨os, hdeclares, hos⟩ := reads.declares_alone (fun g ps hps => not_blind hps g) rfl
    (fun shape text us => (closes text).isComment_build shape us)
    (hr.derives (Guided.sound guided) rfl) hclosed hq hslice (ordered_tokens .schema slice)
    (hpre ▸ agrees htext) halone
  obtain ⟨o', os, rfl, ho', hnil⟩ := List.map_eq_cons_iff.1 (hos.symm.trans (Part.own_eq_of_mem ho))
  obtain rfl := List.map_eq_nil_iff.1 hnil
  exact ⟨alone, o', halone, hdeclares, ho'.symm⟩

theorem exists_nestable {shape : Shape} {us : List Token}
    (h : (∃ name, build shape text us = .message name) ∨ ∃ name, build shape text us = .enum name) :
    ∃ w m, Nestable shape w m := by
  cases shape with
  | message => exact ⟨_, _, .message⟩
  | enum => exact ⟨_, _, .enum⟩
  | _ => rcases h with ⟨_, h⟩ | ⟨_, h⟩ <;> cases h

section

variable {tree : Tree Kind} {lead : List Token} {ps rest : List Piece} {id : Nat}
  (hmade : Reads.Made grammar text lead parts tree)
  (hp : Pursuit react [.goal .declarations] ps (Part.listMoves parts) rest)
  (hfits : ∀ q ∈ parts, Fits rule layout .file q)

include hmade hp hfits

theorem exists_isDeclaration_of_mem (hid : id ∈ tree.declarations Tree.root) :
    ∃ q o, IsDeclaration parts q ∧ (o ∈ q.own fun shape => grammar.build shape text) ∧
      tree.outlineAt? id = some o := by
  have hdeclares := hmade.declares rfl (closes text).isComment_build
  obtain ⟨o, hmem, ho⟩ := hdeclares.exists_outline hid
  obtain ⟨q, hq, hown⟩ := List.mem_flatMap.1 hmem
  refine ⟨q, o, .of_mem hp hfits hq ?_, hown, ho⟩
  rintro p rfl
  cases hown

theorem exists_isDeclaration_of_kind {o : Outline Kind} (ho : tree.outlineAt? id = some o)
    (hkind : (∃ name, o.kind = .message name) ∨ ∃ name, o.kind = .enum name) :
    ∃ q, IsDeclaration parts q ∧ o ∈ q.own fun shape => grammar.build shape text := by
  have hpos : 0 < id := by
    refine Nat.pos_of_ne_zero ?_
    rintro rfl
    obtain rfl := Option.some.inj (ho.symm.trans hmade.outline)
    rcases hkind with ⟨_, h⟩ | ⟨_, h⟩ <;> cases h
  rcases hmade.linked.exists_inside hmade.outline hpos ho with ⟨range, rfl⟩ | ⟨q, hq, hown⟩
  · rcases hkind with ⟨_, h⟩ | ⟨_, h⟩ <;> cases h
  · obtain ⟨shape, us, hs, hbuild⟩ := Part.exists_shape_of_mem_own hown
    rw [hbuild] at hkind
    obtain ⟨w, m, hnestable⟩ := exists_nestable hkind
    exact ⟨q, .of_nestable hp hfits hnestable hq hs, hown⟩

end

/-- The text of a declaration of a file, or of a message or enum at any depth, is read as a file with
this declaration alone, in which all is as it was but further to the front. -/
theorem parse_slice {tree : Tree Kind} (h : parse text = .ok tree) {id : Nat} {n : Node Kind}
    (hn : tree.node? id = some n)
    (hid : id ∈ tree.declarations Tree.root ∨ (∃ name, n.kind = .message name) ∨
      ∃ name, n.kind = .enum name) :
    ∃ alone o, parse (String.Pos.Raw.extract text ⟨n.range.start⟩ ⟨n.range.stop⟩) = .ok alone ∧
      alone.Declares [o] ∧ tree.outlineAt? id = some (o.shift n.range.start) := by
  obtain ⟨lead, ps, htokens, hlead⟩ := Piece.exists_flatten (Language.schema.tokens text)
  have hordered : Ordered (lead ++ flatten ps) := htokens ▸ ordered_tokens .schema text
  rw [parse, htokens] at h
  obtain ⟨parts, rfl, hp, hfits, hmade⟩ := reads.exists_pursuit hlead hordered h
  obtain ⟨q, o, hq, hown, ho⟩ : ∃ q o, IsDeclaration parts q ∧
      (o ∈ q.own fun shape => grammar.build shape text) ∧ tree.outlineAt? id = some o := by
    rcases hid with hid | hkind
    · exact exists_isDeclaration_of_mem hmade hp hfits hid
    · obtain ⟨o, ho⟩ := Tree.exists_outlineAt? (Tree.lt_size_of_node? hn)
      obtain ⟨n', hn', hk, -⟩ := hmade.linked.shows_children ho
      obtain rfl := Option.some.inj (hn'.symm.trans hn)
      obtain ⟨q, hq, hown⟩ := exists_isDeclaration_of_kind hmade hp hfits ho (hk ▸ hkind)
      exact ⟨q, o, hq, hown, ho⟩
  obtain ⟨n', hn', -, hrange, -⟩ := hmade.linked.shows_children ho
  obtain rfl := Option.some.inj (hn'.symm.trans hn)
  obtain ⟨alone, o', halone, hdeclares, hshift⟩ := hq.exists_alone htokens hown
  rw [hrange]
  exact ⟨alone, o', halone, hdeclares, ho.trans (congrArg some hshift)⟩

theorem parse_slice_nested_message :
    ∃ tree n alone o,
      parse "message A{/*a*/message B/*b*/{/*c*/int32 d/*d*/=1;}/*e*/}" = .ok tree ∧
      tree.node? 4 = some n ∧ n.kind = .message "B" ∧
      parse "message B/*b*/{/*c*/int32 d/*d*/=1;}" = .ok alone ∧ alone.Declares [o] ∧
      tree.outlineAt? 4 = some (o.shift 15) := by
  obtain ⟨tree, htree⟩ : ∃ tree,
      parse "message A{/*a*/message B/*b*/{/*c*/int32 d/*d*/=1;}/*e*/}" = .ok tree :=
    exists_ok_of_isOk (by rw [parse, tokens_eq]; cbv)
  have hnode : ((parse "message A{/*a*/message B/*b*/{/*c*/int32 d/*d*/=1;}/*e*/}").toOption.bind
      (·.node? 4)).map (fun n => (n.kind, n.range)) = some (.message "B", ⟨15, 51⟩) := by
    rw [parse, tokens_eq]
    cbv
  rw [htree] at hnode
  obtain ⟨n, hn, hshown⟩ := Option.map_eq_some_iff.1 hnode
  obtain ⟨hkind, hrange⟩ := Prod.mk.inj hshown
  obtain ⟨alone, o, halone, hdeclares, ho⟩ := parse_slice htree hn (.inr (.inl ⟨_, hkind⟩))
  have hslice : String.Pos.Raw.extract "message A{/*a*/message B/*b*/{/*c*/int32 d/*d*/=1;}/*e*/}"
      ⟨15⟩ ⟨51⟩ = "message B/*b*/{/*c*/int32 d/*d*/=1;}" := by cbv
  rw [hrange] at halone ho
  exact ⟨tree, n, alone, o, htree, hn, hkind, hslice ▸ halone, hdeclares, ho⟩

end Schema
end ProtoSyntax
