import ProtoSyntax.Proofs.Parsing.Closing
import ProtoSyntax.Proofs.Tree.Comments

/-!
# Comments between delimiters

A block opens with the first token of its that may open it, since its head has no such token. So
the comments in it are the runs between its delimiters, and this describes every tree that a grammar
reads.
-/

namespace ProtoSyntax
open Piece (flatten)

variable {G N S K L : Type}

/-- What is asked of a layout so that `opening` tells the tokens that open a kind of node, and
`bodiless` the kinds of node that may do without. -/
structure Opens [Vocabulary K] (rule : N → Phrase N S) (layout : Layout N S L)
    (build : S → List Token → K) (opening : K → List Punct) (bodiless : K → Bool) : Prop where
  root : opening Vocabulary.root = []
  comment : opening Vocabulary.comment = []
  block : ∀ {l shape e p close us}, layout.head l shape = some e →
    (p, close) ∈ layout.delimiters shape → opening (build shape us) ≠ [] →
    p ∈ opening (build shape us) ∧ close.isSome = true ∧
      Lacks rule (opening (build shape us)) e
  leaf : ∀ {l shape e tail us}, layout.head l shape = some e → layout.leafEnd shape = some tail →
    opening (build shape us) ≠ [] → bodiless (build shape us) = true ∧
      Lacks rule (opening (build shape us)) (e ++ tail)

theorem Lacks.isOneOf_eq {rule : N → Phrase N S} {ps : List Punct} {e : Phrase N S}
    (h : Lacks rule ps e) {qs : List Piece}
    (hd : Derives rule e (qs.map .token)) {t : Token} (ht : t ∈ flatten qs) : t.isOneOf ps = false := by
  obtain ⟨q, hq, ht⟩ := List.mem_flatMap.1 ht
  rw [Bool.eq_false_iff]
  intro hone
  rcases List.mem_cons.1 ht with rfl | ht
  · obtain ⟨p, hp, hkind⟩ := Token.isOneOf_iff.1 hone
    exact h _ hd q (by rwa [Part.pieces_map_token]) p hp hkind
  · have := Token.isComment_of_isOneOf hone
    simp [q.comments_isComment t ht] at this

theorem Spaced.mem_of_mem_tokensIn {pre us : List Token} {r : Range} {t : Token}
    (hs : Spaced (pre ++ us)) (hpre : ∀ u ∈ pre, u.stop ≤ r.start)
    (ht : t ∈ tokensIn (pre ++ us) r) : t ∈ us := by
  obtain ⟨hmem, hstart, -⟩ := mem_tokensIn.1 ht
  rcases List.mem_append.1 hmem with hmem | hmem
  · have := hs.nonempty t (List.mem_append_left _ hmem)
    have := hpre t hmem
    omega
  · exact hmem

namespace Opens

variable [Vocabulary K] {rule : N → Phrase N S} {layout : Layout N S L}
  {build : S → List Token → K} {At : K → L → Prop} {closers : K → K → List Punct}
  {trails : K → K → Bool} {opening : K → List Punct} {bodiless : K → Bool} {ts : List Token} {l : L}
  (h : Opens rule layout build opening bodiless) (hs : Spaced ts)

include h hs

theorem bodiless_leaf {shape : S} {first : Piece} {more : List Piece}
    (hq : Fits rule layout l (.leaf shape first more)) (hts : flatten (first :: more) <:+: ts)
    (hne : opening (build shape ((first :: more).map (·.token))) ≠ []) :
    bodiless (build shape ((first :: more).map (·.token))) = true ∧
      ∀ t ∈ tokensIn ts ⟨first.token.start, lastStop 0 (first :: more)⟩,
        t.isOneOf (opening (build shape ((first :: more).map (·.token)))) = false := by
  obtain ⟨pre, post, rfl⟩ := hts
  cases hq with
  | leaf hhead hend hd =>
    obtain ⟨hbodiless, hlacks⟩ := h.leaf hhead hend hne
    refine ⟨hbodiless, fun t ht => hlacks.isOneOf_eq hd ?_⟩
    rw [List.append_assoc] at hs ht
    have hmem := hs.mem_of_mem_tokensIn (fun u hu => hs.stop_le_start hu List.mem_cons_self) ht
    rcases List.mem_append.1 hmem with hmem | hmem
    · exact hmem
    · -- What comes after the leaf does not end within it.
      obtain ⟨u, hu, he⟩ := lastStop_mem 0 first more
      have := hs.right.stop_le_start hu hmem
      have := hs.right.nonempty t (List.mem_append_right _ hmem)
      have : t.stop ≤ lastStop 0 (first :: more) := (mem_tokensIn.1 ht).2.2
      omega

theorem between_block {shape : S} {first opener : Piece} {more : List Piece} {body : List (Part S)}
    {closer : Option Piece} {pre post : List Token} {o : Outline K}
    (hq : Fits rule layout l (.block shape first more opener body closer))
    (hts : ts = pre ++ flatten (Part.block shape first more opener body closer).pieces ++ post)
    (ho : o ∈ (Part.block shape first more opener body closer).own build) (hne : opening o.kind ≠ []) :
    ∃ c, closer = some c ∧ Between ts (opening o.kind) o.range opener.token
      (opener.comments ++ flatten (Part.listPieces body)) c.token (pre ++ flatten (first :: more))
      (c.comments ++ post) := by
  obtain rfl := List.mem_singleton.1 ho
  cases hq with
  | block hhead hd hdel hopener hcloser =>
    obtain ⟨hp, hsome, hlacks⟩ := h.block hhead hdel hne
    obtain ⟨close, rfl⟩ := Option.isSome_iff_exists.1 hsome
    obtain ⟨closer, rfl, -⟩ := Option.map_eq_some_iff.1 hcloser
    have haround : Around ts opener.token (opener.comments ++ flatten (Part.listPieces body))
        closer.token (pre ++ flatten (first :: more)) (closer.comments ++ post) :=
      ⟨by simp [hts, Part.pieces], opener.token_isComment, closer.token_isComment⟩
    rw [haround.tokens_eq] at hs
    refine ⟨closer, rfl, haround, Token.isOneOf_iff.2 ⟨_, hp, hopener⟩, ?_, rfl, fun t ht => ?_⟩
    · have hfirst : first.token.stop ≤ opener.token.start :=
        hs.stop_le_start (List.mem_append_right _ List.mem_cons_self) List.mem_cons_self
      exact Nat.le_trans first.token.start_le_stop hfirst
    · -- Before the opening token the range only holds the head.
      refine hlacks.isOneOf_eq hd (hs.left.mem_of_mem_tokensIn (fun u hu => ?_) ht)
      exact hs.left.stop_le_start hu List.mem_cons_self

theorem encloses_block (hb : ∀ shape us, Vocabulary.isComment (build shape us) = false)
    (hc : Vocabulary.isComment (Vocabulary.comment : K) = true) {shape : S} {first opener : Piece}
    {more : List Piece} {body : List (Part S)} {closer : Option Piece} {o : Outline K}
    (hq : Fits rule layout l (.block shape first more opener body closer))
    (hts : flatten (Part.block shape first more opener body closer).pieces <:+: ts)
    (ho : o ∈ (Part.block shape first more opener body closer).own build) :
    o.Encloses ts opening bodiless := by
  intro hne
  obtain ⟨pre, post, hts⟩ := hts
  obtain ⟨c, rfl, hbetween⟩ := h.between_block hs hq hts.symm ho hne
  refine .inl ⟨_, _, _, _, _, hbetween.toAround, hbetween.isOneOf, hbetween.start_le,
    hbetween.stop_eq, hbetween.head, ?_⟩
  obtain rfl := List.mem_singleton.1 ho
  rw [Outline.comments, if_neg (by simp [hb])]
  exact Part.comments_lead_perm hc hb opener.comments_isComment body

theorem specifies (hcloses : Closes layout build At closers trails) :
    Specifies rule layout build ts At fun _ => Outline.Encloses ts opening bodiless where
  isComment_build := hcloses.isComment_build
  isComment_comment := hcloses.isComment_comment
  inside := hcloses.inside
  unclosed := hcloses.exists_leaf
  comment _ _ hne := absurd h.comment hne
  own {k l q o} _ hq _ hts ho _ := by
    cases q with
    | token p => cases ho
    | leaf shape first more =>
      obtain rfl := List.mem_singleton.1 ho
      exact fun hne => .inr (h.bodiless_leaf hs hq hts hne)
    | block shape first more opener body closer =>
      exact h.encloses_block hs hcloses.isComment_build hcloses.isComment_comment hq hts ho

end Opens

theorem Reads.commentsPlaced [Vocabulary K] {g : Grammar G S K} {goal : G} {rule : N → Phrase N S}
    {lang : G → Phrase N S} {follow : G → List (Symbol G S) → Prop} {blind : G → List Piece → Prop}
    {layout : Layout N S L} {place : L} {At : K → L → Prop} {closers : K → K → List Punct}
    {trails : K → K → Bool} {opening : K → List Punct} {bodiless : K → Bool} {language : Language}
    {text : String} {tree : Tree K} (h : Reads g goal rule lang follow blind layout place)
    (hcloses : Closes layout (fun shape => g.build shape text) At closers trails)
    (hopens : Opens rule layout (fun shape => g.build shape text) opening bodiless)
    (hroot : At Vocabulary.root place) (hp : g.parse goal text (language.tokens text) = .ok tree)
    (hnode : Vocabulary.isComment (Vocabulary.root : K) = false) :
    tree.CommentsPlaced (language.tokens text) opening bodiless := by
  have hs := spaced_tokens language text
  obtain ⟨lead, parts, htokens, hlead, -, hmade, htidy⟩ :=
    h.exists_tidy (hopens.specifies hs hcloses) hroot hp
  refine hmade.linked.commentsPlaced hs hmade.outline ?_ hopens.root htidy
  rw [Outline.comments, if_neg (by simp [hnode]), htokens]
  exact Part.comments_lead_perm hcloses.isComment_comment hcloses.isComment_build hlead parts

end ProtoSyntax
