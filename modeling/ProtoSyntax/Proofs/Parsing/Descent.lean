import ProtoSyntax.Proofs.Parsing.Layout
import ProtoSyntax.Proofs.Tree.Nested

/-!
# Parts inside of parts

A part stands in a row or, further down, in the row between the delimiters of a block. Every node of a
tree made of parts is the node of a part somewhere down there, unless it is one of comments.
-/

namespace ProtoSyntax

variable {N S K L : Type}

def Outline.IsRun [Vocabulary K] (o : Outline K) : Prop := ∃ range, o = .node Vocabulary.comment range []

namespace Part

def shape? : Part S → Option S
  | .token _ => none
  | .leaf shape _ _ | .block shape _ _ _ _ _ => some shape

inductive Inside : Part S → List (Part S) → Prop where
  | here {q : Part S} {parts : List (Part S)} : q ∈ parts → Inside q parts
  | deeper {q : Part S} {parts body : List (Part S)} {shape : S} {first opener : Piece}
      {more : List Piece} {closer : Option Piece} :
      .block shape first more opener body closer ∈ parts → Inside q body → Inside q parts

theorem pieces_infix_of_mem {q : Part S} {parts : List (Part S)} (h : q ∈ parts) :
    q.pieces <:+: listPieces parts := by
  obtain ⟨before, after, rfl⟩ := List.append_of_mem h
  rw [listPieces_append, listPieces]
  exact ⟨listPieces before, listPieces after, List.append_assoc _ _ _⟩

namespace Inside

variable {q q' : Part S} {parts body : List (Part S)} {shape : S} {first opener : Piece}
  {more : List Piece} {closer : Option Piece}

theorem pieces_infix (h : Inside q parts) : q.pieces <:+: listPieces parts := by
  induction h with
  | here hq => exact pieces_infix_of_mem hq
  | @deeper _ body _ first opener more closer hb _ ih =>
    have hbody : listPieces body <:+: first :: more ++ opener :: listPieces body ++ closer.toList :=
      ⟨first :: more ++ [opener], closer.toList, by simp⟩
    exact ih.trans (hbody.trans (pieces_infix_of_mem hb))

theorem trans_mem (h : Inside (.block shape first more opener body closer) parts) (hq : q ∈ body) :
    Inside q parts := by
  generalize hb : Part.block shape first more opener body closer = b at h
  induction h with
  | here hmem =>
    subst hb
    exact .deeper hmem (.here hq)
  | deeper hmem _ ih => exact .deeper hmem ih

end Inside

variable [Vocabulary K] {build : S → List Token → K}

theorem own_eq_of_mem {q : Part S} {o : Outline K} (ho : o ∈ q.own build) : q.own build = [o] := by
  cases q with
  | token p => cases ho
  | leaf | block =>
    obtain rfl := List.mem_singleton.1 ho
    rfl

theorem exists_shape_of_mem_own {q : Part S} {o : Outline K} (ho : o ∈ q.own build) :
    ∃ shape us, q.shape? = some shape ∧ o.kind = build shape us := by
  cases q with
  | token p => cases ho
  | leaf | block =>
    obtain rfl := List.mem_singleton.1 ho
    exact ⟨_, _, rfl, rfl⟩

theorem exists_own_of_mem_listForest {parts : List (Part S)} {o : Outline K} (ho : o ∈ listForest build parts) :
    o.IsRun ∨ ∃ q ∈ parts, o ∈ q.own build := by
  induction parts with
  | nil => cases ho
  | cons q parts ih =>
    rw [listForest, List.append_assoc] at ho
    rcases List.mem_append.1 ho with ho | ho
    · exact .inr ⟨q, List.mem_cons_self, ho⟩
    · rcases List.mem_append.1 ho with ho | ho
      · exact .inl (mem_commentForest ho)
      · exact (ih ho).imp_right fun ⟨r, hr, ho⟩ => ⟨r, List.mem_cons_of_mem _ hr, ho⟩

theorem exists_own_of_mem_below {cs : List Token} {parts : List (Part S)} {o : Outline K}
    (ho : o ∈ commentNode cs ++ listForest build parts) :
    o.IsRun ∨ ∃ q ∈ parts, o ∈ q.own build := by
  rcases List.mem_append.1 ho with ho | ho
  · exact .inl (mem_commentNode ho)
  · exact exists_own_of_mem_listForest ho

theorem Inside.exists_of_mem_children {q : Part S} {parts : List (Part S)} {o c : Outline K}
    (h : Inside q parts) (ho : o ∈ q.own build) (hmem : c ∈ o.children) :
    c.IsRun ∨ ∃ q', Inside q' parts ∧ c ∈ q'.own build := by
  cases q with
  | token p => cases ho
  | leaf shape first more =>
    obtain rfl := List.mem_singleton.1 ho
    cases hmem
  | block shape first more opener body closer =>
    obtain rfl := List.mem_singleton.1 ho
    exact (exists_own_of_mem_below hmem).imp_right fun ⟨q', hq', hown⟩ =>
      ⟨q', h.trans_mem hq', hown⟩

end Part

section

variable {rule : N → Phrase N S} {layout : Layout N S L} {l l' : L} {q : Part S} {shape : S}

theorem Fits.exists_head (h : Fits rule layout l q) (hs : q.shape? = some shape) :
    ∃ e, layout.head l shape = some e := by
  cases h with
  | token => cases hs
  | leaf hhead | block hhead =>
    obtain rfl := Option.some.inj hs
    exact ⟨_, hhead⟩

theorem Fits.congr_head (h : Fits rule layout l q) (hs : q.shape? = some shape)
    (hl : layout.head l' shape = layout.head l shape) : Fits rule layout l' q := by
  cases h with
  | token => cases hs
  | leaf hhead hend hd =>
    obtain rfl := Option.some.inj hs
    exact .leaf (hl.trans hhead) hend hd
  | block hhead hd hdel hopener hcloser hone hbody =>
    obtain rfl := Option.some.inj hs
    exact .block (hl.trans hhead) hd hdel hopener hcloser hone hbody

theorem Part.Inside.exists_fits {parts : List (Part S)} (h : Part.Inside q parts)
    (hfits : ∀ q ∈ parts, Fits rule layout l q) : ∃ l', Fits rule layout l' q := by
  induction h generalizing l with
  | here hq => exact ⟨l, hfits _ hq⟩
  | deeper hb _ ih =>
    cases hfits _ hb with
    | block _ _ _ _ _ _ hbody => exact ih hbody

end

/-- The nodes below the root are those of parts, and those of comments, which have no nodes below. -/
theorem Tree.Linked.exists_inside [Vocabulary K] {t : Tree K} {build : S → List Token → K}
    (ht : t.Linked) {kind : K}
    {range : Range} {lead : List Token} {parts : List (Part S)}
    (htop : t.outline? = some (.node kind range (commentNode lead ++ Part.listForest build parts)))
    {id : Nat} {o : Outline K} (hpos : 0 < id) (ho : t.outlineAt? id = some o) :
    o.IsRun ∨ ∃ q, Part.Inside q parts ∧ o ∈ q.own build := by
  -- A node is younger than its parent, and what is known of that carries over to its children.
  induction id using Nat.strongRecOn generalizing o with
  | _ id ih =>
    obtain ⟨n, hn, -⟩ := ht.shows_children ho
    obtain ⟨p, -, hmem⟩ := ht.adopted id hpos (lt_size_of_node? hn)
    obtain ⟨hlt, hsize⟩ := ht.younger p id hmem
    obtain ⟨op, hp⟩ := exists_outlineAt? (Nat.lt_trans hlt hsize)
    obtain ⟨m, hm, -, -, hshows⟩ := ht.shows_children hp
    rw [children_of_node? hm] at hmem
    obtain ⟨o', ho', he⟩ := hshows.exists_outline hmem
    obtain rfl : o' = o := Option.some.inj (he.symm.trans ho)
    rcases Nat.eq_zero_or_pos p with rfl | hp0
    · obtain rfl := Option.some.inj (hp.symm.trans htop)
      exact (Part.exists_own_of_mem_below ho').imp_right fun ⟨q, hq, hown⟩ => ⟨q, .here hq, hown⟩
    · rcases ih p hlt hp0 hp with ⟨range, rfl⟩ | ⟨q, hq, hown⟩
      · cases ho'
      · exact hq.exists_of_mem_children hown ho'

end ProtoSyntax
