import ProtoSyntax.Proofs.Parsing.Reading
import ProtoSyntax.Proofs.Tree.Nested

/-!
# The ends of nodes

A leaf or block that is closed ends with its closing token; one that is not ends with its value or
a comment after it. Together with the order of the ranges this describes every tree that a grammar
reads.
-/

namespace ProtoSyntax
open Piece (flatten)
open Outline (Ends)

variable {G N S K L : Type}

/-- What is asked of a layout so that its nodes end as `closers` and `trails` tell, where `At` tells
in which place the children of a kind of node are. -/
structure Closes [Vocabulary K] (layout : Layout N S L) (build : S → List Token → K)
    (At : K → L → Prop) (closers : K → K → List Punct) (trails : K → K → Bool) : Prop where
  isComment_build : ∀ shape us, Vocabulary.isComment (build shape us) = false
  isComment_comment : Vocabulary.isComment (Vocabulary.comment : K) = true
  closers_comment : ∀ k, closers k Vocabulary.comment = []
  trails_comment : ∀ k, trails k Vocabulary.comment = false
  inside : ∀ {shape us}, layout.delimiters shape ≠ [] → At (build shape us) (layout.inside shape)
  leaf : ∀ {k l shape e tail us}, At k l → layout.head l shape = some e →
    layout.leafEnd shape = some tail → closers k (build shape us) ≠ [] →
    ∃ p ∈ closers k (build shape us), tail = [.punct p]
  block : ∀ {k l shape e opening p us}, At k l → layout.head l shape = some e →
    (opening, some p) ∈ layout.delimiters shape → p ∈ closers k (build shape us)
  unclosed : ∀ {k l shape e opening us}, At k l → layout.head l shape = some e →
    (opening, none) ∈ layout.delimiters shape → closers k (build shape us) = []
  trails : ∀ {k l shape e us}, At k l → layout.head l shape = some e →
    trails k (build shape us) = true → layout.leafEnd shape = none ∧
      ∀ opening close, (opening, close) ∈ layout.delimiters shape → close = none
  single : ∀ {shape opening}, (opening, none) ∈ layout.delimiters shape →
    layout.single shape = true ∧ (∀ kind, layout.loose (layout.inside shape) kind = false) ∧
      ∀ shape' e, layout.head (layout.inside shape) shape' = some e → layout.delimiters shape' = []

theorem Derives.exists_last {rule : N → Phrase N S} {e : Phrase N S} {p : Punct} {ps : List Piece}
    (h : Derives rule (e ++ [.punct p]) (ps.map .token)) :
    ∃ init q, ps = init ++ [q] ∧ q.kind = .punct p := by
  obtain ⟨x, y, hxy, -, hy⟩ := h.split
  obtain ⟨init, last, rfl, -, rfl⟩ := List.map_eq_append_iff.1 hxy
  cases last with
  | nil => cases hy
  | cons q last =>
    cases hy with
    | token hq hy =>
      cases last with
      | nil => exact ⟨init, q, rfl, by simpa using hq⟩
      | cons r last => cases hy

theorem lastStop_concat (before : Nat) (ps : List Piece) (q : Piece) :
    lastStop before (ps ++ [q]) = q.token.stop := by
  rw [lastStop_append]
  rfl

theorem Spaced.start_le_start {p q : Piece} {ps : List Piece} (h : Spaced (flatten (p :: ps)))
    (hq : q ∈ p :: ps) : p.token.start ≤ q.token.start := by
  rcases List.mem_cons.1 hq with rfl | hq
  · exact Nat.le_refl _
  · have := h.stop_le_start_cons (List.mem_append_right p.comments (Piece.token_mem_flatten hq))
    have := p.token.start_le_stop
    omega

namespace Closes

variable [Vocabulary K] {rule : N → Phrase N S} {layout : Layout N S L}
  {build : S → List Token → K} {At : K → L → Prop} {closers : K → K → List Punct}
  {trails : K → K → Bool} {ts : List Token} {k : K} {l : L}

theorem value_stop {v : S} {us : List Token} {range : Range} {opener f : Piece} {m : List Piece}
    (hs : Spaced (opener.comments ++ flatten (f :: m))) (hr : range.stop = lastStop 0 (f :: m)) :
    max (Outline.lastStop (commentNode opener.comments ++
        .node (build v us) range [] :: commentForest (f :: m))) (lastStop 0 (opener :: f :: m)) =
      max range.stop (Outline.lastStop
        (commentNode opener.comments ++ commentForest (f :: m) : List (Outline K))) := by
  rw [lastStop_cons, lastStop_cons_congr _ 0, ← hr]
  cases hlast : (commentForest (f :: m) : List (Outline K)).getLast? with
  | some o =>
    -- The last child is a comment, so it is the last comment too.
    simp only [Outline.lastStop, List.getLast?_append, List.getLast?_cons, hlast]
    exact Nat.max_comm _ _
  | none =>
    have hempty : (commentForest (f :: m) : List (Outline K)) = [] := List.getLast?_eq_none_iff.1 hlast
    have hvalue : Outline.lastStop (commentNode opener.comments ++ [.node (build v us) range []]) =
        range.stop := by
      simp [Outline.lastStop, Outline.range]
    rw [hempty, hvalue, List.append_nil, Nat.max_self, Nat.max_eq_left]
    cases hcs : opener.comments with
    | nil => exact Nat.zero_le _
    | cons c cs =>
      obtain ⟨t, ht, he⟩ := lastStop_mem 0 f m
      have hmem : cs.getLastD c ∈ opener.comments := by
        rw [hcs]
        exact List.getLastD_mem_cons
      have := hs.stop_le_start hmem ht
      have := t.start_le_stop
      rw [hr, he]
      show (cs.getLastD c).stop ≤ t.stop
      omega

variable (h : Closes layout build At closers trails)

include h

theorem exists_leaf {shape : S} {first opener : Piece} {more : List Piece} {body : List (Part S)}
    (hq : Fits rule layout l (.block shape first more opener body none)) :
    ∃ v f m, body = [.leaf v f m] := by
  cases hq with
  | @block _ _ _ _ _ _ _ _ opening close hhead hd hdel hopener hcloser hsingle hbody =>
    obtain rfl : close = none := by simpa [eq_comm] using hcloser
    obtain ⟨hone, hloose, hflat⟩ := h.single hdel
    obtain ⟨q, rfl⟩ := hsingle hone
    cases hbody q List.mem_cons_self with
    | token hp => simp [hloose] at hp
    | leaf => exact ⟨_, _, _, rfl⟩
    | block hhead' _ hdel' => simp [hflat _ _ hhead'] at hdel'

theorem ends_leaf {shape : S} {first : Piece} {more : List Piece} (hk : At k l)
    (hq : Fits rule layout l (.leaf shape first more)) (hs : Spaced (flatten (first :: more)))
    (hts : ∀ t ∈ flatten (first :: more), t ∈ ts) :
    Ends ts closers trails k (.node (build shape ((first :: more).map (·.token)))
      ⟨first.token.start, lastStop 0 (first :: more)⟩ []) := by
  cases hq with
  | @leaf _ _ _ _ e tail hhead hend hd =>
    refine ⟨fun hne => ?_, fun htrails => ?_⟩
    · obtain ⟨p, hp, rfl⟩ := h.leaf hk hhead hend hne
      obtain ⟨init, q, hps, hkind⟩ := hd.exists_last
      have hmem : q ∈ first :: more := by simp [hps]
      refine ⟨q.token, hts _ (Piece.token_mem_flatten hmem), ⟨p, hp, hkind⟩,
        hs.start_le_start hmem, ?_, nofun⟩
      rw [hps]
      exact lastStop_concat 0 init q
    · rw [(h.trails hk hhead htrails).1] at hend
      cases hend

theorem isComment_of_mem_commentNode {cs : List Token} {o : Outline K} (ho : o ∈ commentNode cs) :
    Vocabulary.isComment o.kind = true := by
  obtain ⟨range, rfl⟩ := mem_commentNode ho
  exact h.isComment_comment

theorem isComment_of_mem_commentForest {ps : List Piece} {o : Outline K}
    (ho : o ∈ commentForest ps) : Vocabulary.isComment o.kind = true := by
  obtain ⟨range, rfl⟩ := mem_commentForest ho
  exact h.isComment_comment

theorem filter_value {v : S} {us : List Token} {range : Range} {cs : List Token} {ps : List Piece} :
    (commentNode cs ++ .node (build v us) range [] :: commentForest ps : List (Outline K)).filter
        (fun c => !Vocabulary.isComment c.kind) = [.node (build v us) range []] ∧
      (commentNode cs ++ .node (build v us) range [] :: commentForest ps : List (Outline K)).filter
        (fun c => Vocabulary.isComment c.kind) = commentNode cs ++ commentForest ps := by
  have hbuild : Vocabulary.isComment (Outline.node (build v us) range []).kind = false :=
    h.isComment_build v us
  have hcs (o : Outline K) (ho : o ∈ commentNode cs) := h.isComment_of_mem_commentNode ho
  have hps (o : Outline K) (ho : o ∈ commentForest ps) := h.isComment_of_mem_commentForest ho
  constructor
  · rw [List.filter_append, List.filter_cons, if_pos (by simp [hbuild]),
      List.filter_eq_nil_iff.2 (by simpa using hcs), List.filter_eq_nil_iff.2 (by simpa using hps)]
    rfl
  · rw [List.filter_append, List.filter_cons, if_neg (by simp [hbuild]),
      List.filter_eq_self.2 hcs, List.filter_eq_self.2 hps]

theorem ends_block {shape : S} {first opener : Piece} {more : List Piece} {body : List (Part S)}
    {closer : Option Piece} {o : Outline K} (hk : At k l)
    (hq : Fits rule layout l (.block shape first more opener body closer))
    (hs : Spaced (flatten (Part.block shape first more opener body closer).pieces))
    (hts : ∀ t ∈ flatten (Part.block shape first more opener body closer).pieces, t ∈ ts)
    (ho : o ∈ (Part.block shape first more opener body closer).own build)
    (hspans : ∀ c ∈ o.children, c.Spans (opener.comments ++ flatten (Part.listPieces body))) :
    Ends ts closers trails k o := by
  have hq' := hq
  obtain rfl := List.mem_singleton.1 ho
  rw [Part.pieces] at hs hts
  cases hq with
  | @block _ _ _ _ _ _ _ _ opening close hhead hd hdel hopener hcloser hsingle hbody =>
    refine ⟨fun hne => ?_, fun htrails => ?_⟩
    · cases closer with
      | none =>
        obtain rfl : close = none := by simpa [eq_comm] using hcloser
        exact absurd (h.unclosed hk hhead hdel) hne
      | some q =>
        obtain ⟨p, rfl, hp⟩ : ∃ p, close = some p ∧ q.kind = .punct p := by
          cases close with
          | none => cases hcloser
          | some p => exact ⟨p, rfl, Option.some.inj hcloser⟩
        have hmem : q ∈ first :: (more ++ opener :: Part.listPieces body ++ [q]) := by simp
        refine ⟨q.token, hts _ (Piece.token_mem_flatten hmem), ⟨p, h.block hk hhead hdel, hp⟩,
          hs.start_le_start hmem, rfl, fun c hc => ?_⟩
        obtain ⟨t, ht, u, hu, hr, -⟩ := hspans c hc
        rw [hr]
        rw [Piece.flatten_append] at hs
        refine hs.stop_le_start (t := u) ?_ List.mem_cons_self
        rw [Piece.flatten_append]
        exact List.mem_append_right _ (List.mem_cons_of_mem _ hu)
    · obtain rfl := (h.trails hk hhead htrails).2 _ _ hdel
      obtain rfl : closer = none := by simpa using hcloser
      obtain ⟨v, f, m, rfl⟩ := h.exists_leaf hq'
      rw [Part.listPieces_leaf, Option.toList_none, List.append_nil, Piece.flatten_append] at hs
      have hinner : Spaced (opener.comments ++ flatten (f :: m)) := hs.right.tail
      refine ⟨.node (build v ((f :: m).map (·.token))) ⟨f.token.start, lastStop 0 (f :: m)⟩ [],
        ?_, ?_⟩
      · simp only [Outline.children, Part.listForest_leaf]
        exact h.filter_value.1
      · simp only [Outline.children, Outline.range, Part.listForest_leaf, Part.listPieces_leaf,
          h.filter_value.2]
        exact value_stop hinner rfl

theorem specifies : Specifies rule layout build ts At (Ends ts closers trails) where
  isComment_build := h.isComment_build
  isComment_comment := h.isComment_comment
  inside := h.inside
  unclosed := h.exists_leaf
  comment k range := by
    constructor
    · exact fun hne => absurd (h.closers_comment k) hne
    · intro htrails
      simp [Outline.kind, h.trails_comment] at htrails
  own {k l q o} hk hq hs hts ho hspans := by
    cases q with
    | token p => cases ho
    | leaf shape first more =>
      obtain rfl := List.mem_singleton.1 ho
      exact h.ends_leaf hk hq hs hts.subset
    | block shape first more opener body closer => exact h.ends_block hk hq hs hts.subset ho hspans

end Closes

theorem spaced_tokens (language : Language) (text : String) : Spaced (language.tokens text) :=
  ⟨ordered_tokens language text, fun t ht => (tokens_foundIn language text t ht).start_lt_stop⟩

theorem stop_le_utf8ByteSize {language : Language} {text : String} {t : Token}
    (ht : t ∈ language.tokens text) : t.stop ≤ text.utf8ByteSize :=
  String.Pos.Raw.le_iff.1 (tokens_foundIn language text t ht).isValid_stop.le_rawEndPos

variable [Vocabulary K] {g : Grammar G S K} {goal : G} {rule : N → Phrase N S}
  {lang : G → Phrase N S} {follow : G → List (Symbol G S) → Prop} {blind : G → List Piece → Prop}
  {layout : Layout N S L} {place : L} {At : K → L → Prop} {closers : K → K → List Punct}
  {trails : K → K → Bool} {language : Language} {text : String} {tree : Tree K}

theorem Reads.exists_tidy (h : Reads g goal rule lang follow blind layout place)
    {P : K → Outline K → Prop}
    (hspec : Specifies rule layout (fun shape => g.build shape text) (language.tokens text) At P)
    (hroot : At Vocabulary.root place) (hp : g.parse goal text (language.tokens text) = .ok tree) :
    ∃ lead parts, language.tokens text = lead ++ flatten (Part.listPieces parts) ∧
      (∀ t ∈ lead, t.isComment = true) ∧ (∀ q ∈ parts, Fits rule layout place q) ∧
      Made g text lead parts tree ∧
      Outline.Tidy (language.tokens text) P (.node Vocabulary.root ⟨0, text.utf8ByteSize⟩
        (commentNode lead ++ Part.listForest (fun shape => g.build shape text) parts)) := by
  have hs := spaced_tokens language text
  have hbound := fun t (ht : t ∈ language.tokens text) => stop_le_utf8ByteSize ht
  obtain ⟨lead, ps, htokens, hlead⟩ := Piece.exists_flatten (language.tokens text)
  rw [htokens] at hp hs
  obtain ⟨parts, rfl, -, hfits, hmade⟩ := h.parse_sound hlead hs.ordered hp
  have hleft : ∀ t ∈ lead, t ∈ language.tokens text :=
    fun t ht => htokens ▸ List.mem_append_left _ ht
  have hright : flatten (Part.listPieces parts) <:+: language.tokens text :=
    htokens ▸ (List.suffix_append _ _).isInfix
  have horderly : Orderly (language.tokens text) P
      Vocabulary.root (lead ++ flatten (Part.listPieces parts))
      (commentNode lead ++ Part.listForest (fun shape => g.build shape text) parts) :=
    .append (.commentNode hspec.comment hs.left hleft)
      (Specifies.orderly_listForest (fun q hq => hspec.orderly (hfits q hq) hroot) hs.right hright) hs
  refine ⟨lead, parts, htokens, hlead, hfits, hmade, fun c hc => ?_, horderly.before, horderly.neat⟩
  obtain ⟨t, ht, u, hu, hr, -⟩ := horderly.spans c hc
  rw [hr]
  exact ⟨Nat.zero_le _, hbound u (htokens ▸ hu)⟩

theorem Reads.nested (h : Reads g goal rule lang follow blind layout place)
    (hcloses : Closes layout (fun shape => g.build shape text) At closers trails)
    (hroot : At Vocabulary.root place) (hp : g.parse goal text (language.tokens text) = .ok tree) :
    tree.Nested text (language.tokens text) closers trails := by
  obtain ⟨lead, parts, -, -, -, hmade, htidy⟩ := h.exists_tidy hcloses.specifies hroot hp
  exact hmade.linked.nested hmade.outline htidy

end ProtoSyntax
