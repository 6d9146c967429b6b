import ProtoSyntax.Proofs.Parsing.Enclosing
import ProtoSyntax.Proofs.Parsing.Joined

/-!
# Tokens below nodes

In a place where every node ends with a token of its own, the nodes in a row hold all tokens of theirs
and no others. So a token there is in exactly one node, or it is one of those that stand between nodes.
-/

namespace ProtoSyntax
open Piece (flatten)
open Outline (Tidy)

variable {G N S K L : Type}

def Token.IsIn (t : Token) (r : Range) : Prop := r.start ≤ t.start ∧ t.stop ≤ r.stop

def Matches (pairs : List (Punct × Punct)) (opener closer : Token) : Prop :=
  ∃ d ∈ pairs, opener.kind = .punct d.1 ∧ closer.kind = .punct d.2

/-- The token lies in exactly one of some nodes, or it is a separator outside of all. -/
def Outline.Covers (separators : List Punct) (os : List (Outline K)) (t : Token) : Prop :=
  (∃ before o after, os = before ++ o :: after ∧ t.IsIn o.range ∧
    ∀ o' ∈ before ++ after, ¬ t.IsIn o'.range) ∨
  t.isOneOf separators = true ∧ ∀ o ∈ os, ¬ t.IsIn o.range

/-- A place where nodes end with tokens of their own and only separators stand between them. -/
structure Layout.Separated (layout : Layout N S L) (separators : List Punct) (l : L) : Prop where
  closed : ∀ {shape e opening}, layout.head l shape = some e → (opening, none) ∉ layout.delimiters shape
  loose : ∀ {kind}, layout.loose l kind = true → ∃ p ∈ separators, kind = .punct p

theorem Layout.Separated.isClosed {rule : N → Phrase N S} {layout : Layout N S L}
    {separators : List Punct} {l : L} (h : layout.Separated separators l) {q : Part S}
    (hq : Fits rule layout l q) : q.isClosed = true := by
  cases hq with
  | token | leaf => rfl
  | @block _ _ _ _ _ _ _ closer _ close hhead hd hdel hopener hcloser =>
    cases close with
    | none => exact absurd hdel (h.closed hhead)
    | some p =>
      obtain ⟨c, rfl, -⟩ := Option.map_eq_some_iff.1 hcloser
      rfl

theorem Spaced.stop_le_lastStop {p : Piece} {ps : List Piece} (hs : Spaced (flatten ps)) (hp : p ∈ ps)
    (before : Nat) : p.token.stop ≤ lastStop before ps := by
  induction ps generalizing before with
  | nil => cases hp
  | cons q ps ih =>
    rw [lastStop_cons]
    rcases List.mem_cons.1 hp with rfl | hp
    · cases ps with
      | nil => exact Nat.le_refl _
      | cons r ps =>
        obtain ⟨u, hu, he⟩ := lastStop_mem p.token.stop r ps
        have := hs.stop_le_start_cons (List.mem_append_right p.comments hu)
        have := u.start_le_stop
        rw [he]
        omega
    · exact ih hs.tail.right hp _

namespace Part

variable [Vocabulary K] {build : S → List Token → K} {q : Part S} {o : Outline K}

theorem range_own (hclosed : q.isClosed = true) (ho : o ∈ q.own build) :
    ∃ p ps, q.pieces = p :: ps ∧ o.range = ⟨p.token.start, lastStop 0 (p :: ps)⟩ := by
  cases q with
  | token p => cases ho
  | leaf shape first more =>
    obtain rfl := List.mem_singleton.1 ho
    exact ⟨first, more, rfl, rfl⟩
  | block shape first more opener body closer =>
    obtain rfl := List.mem_singleton.1 ho
    cases closer with
    | none => cases hclosed
    | some c =>
      refine ⟨first, more ++ opener :: listPieces body ++ [c], rfl, ?_⟩
      rw [← List.cons_append, lastStop_concat]
      rfl

theorem range_own_concat {first p : Piece} {xs : List Piece} (hclosed : q.isClosed = true)
    (hq : q.pieces = first :: (xs ++ [p])) (ho : o ∈ q.own build) :
    o.range = ⟨first.token.start, p.token.stop⟩ := by
  obtain ⟨first', ps, hpieces, hr⟩ := range_own hclosed ho
  obtain ⟨rfl, rfl⟩ := List.cons.inj (hpieces.symm.trans hq)
  rw [hr, ← List.cons_append, lastStop_concat]

theorem spans_own (hs : Spaced (flatten q.pieces)) (hclosed : q.isClosed = true)
    (ho : o ∈ q.own build) : o.Spans (flatten q.pieces) := by
  obtain ⟨p, ps, hpieces, hr⟩ := range_own hclosed ho
  rw [hpieces] at hs ⊢
  obtain ⟨u, hu, he⟩ := lastStop_mem 0 p ps
  refine ⟨p.token, List.mem_cons_self, u, hu, he ▸ hr, ?_⟩
  have := hs.nonempty p.token List.mem_cons_self
  have := hs.stop_le_lastStop (List.mem_cons_self (a := p) (l := ps)) 0
  omega

theorem isIn_own (hs : Spaced (flatten q.pieces)) (hclosed : q.isClosed = true)
    (ho : o ∈ q.own build) {p : Piece} (hp : p ∈ q.pieces) : p.token.IsIn o.range := by
  obtain ⟨first, ps, hpieces, hr⟩ := range_own hclosed ho
  rw [hpieces] at hs hp
  rw [hr]
  exact ⟨hs.start_le_start hp, hs.stop_le_lastStop hp 0⟩

theorem spans_flatMap_own {parts : List (Part S)} (hs : Spaced (flatten (listPieces parts)))
    (hclosed : ∀ q ∈ parts, q.isClosed = true) (ho : o ∈ parts.flatMap (own build)) :
    o.Spans (flatten (listPieces parts)) := by
  induction parts with
  | nil => cases ho
  | cons q parts ih =>
    obtain ⟨hq, hparts⟩ := List.forall_mem_cons.1 hclosed
    rw [listPieces, Piece.flatten_append] at hs ⊢
    rw [List.flatMap_cons] at ho
    rcases List.mem_append.1 ho with ho | ho
    · exact (spans_own hs.left hq ho).mono (by simp +contextual)
    · exact (ih hs.right hparts ho).mono (by simp +contextual)

end Part

theorem Outline.Spans.not_isIn {o : Outline K} {ts us : List Token} {t : Token} (h : o.Spans ts)
    (hs : Spaced (ts ++ us) ∨ Spaced (us ++ ts)) (ht : t ∈ us) : ¬ t.IsIn o.range := by
  obtain ⟨v, hv, w, hw, hr, -⟩ := h
  rw [hr]
  rintro ⟨hstart, hstop⟩
  simp only at hstart hstop
  rcases hs with hs | hs
  · have := hs.stop_le_start hw ht
    have := hs.right.nonempty t ht
    omega
  · have := hs.stop_le_start ht hv
    have := hs.left.nonempty t ht
    omega

theorem Layout.Separated.covers [Vocabulary K] {rule : N → Phrase N S} {layout : Layout N S L}
    {separators : List Punct} {l : L} (h : layout.Separated separators l) {build : S → List Token → K}
    {parts : List (Part S)} (hfits : ∀ q ∈ parts, Fits rule layout l q)
    (hs : Spaced (flatten (Part.listPieces parts))) {p : Piece} (hp : p ∈ Part.listPieces parts) :
    Outline.Covers separators (parts.flatMap (Part.own build)) p.token := by
  induction parts with
  | nil => cases hp
  | cons q parts ih =>
    obtain ⟨hq, hparts⟩ := List.forall_mem_cons.1 hfits
    rw [Part.listPieces, Piece.flatten_append] at hs
    rw [List.flatMap_cons]
    rcases List.mem_append.1 hp with hp | hp
    · have hlater : ∀ o ∈ parts.flatMap (Part.own build), ¬ p.token.IsIn o.range := fun o ho =>
        (Part.spans_flatMap_own hs.right (fun q hq => h.isClosed (hparts q hq)) ho).not_isIn (.inr hs)
          (Piece.token_mem_flatten hp)
      cases q with
      | token p' =>
        obtain rfl := List.mem_singleton.1 hp
        cases hq with
        | token hloose =>
          obtain ⟨c, hc, hkind⟩ := h.loose hloose
          exact .inr ⟨Token.isOneOf_iff.2 ⟨c, hc, hkind⟩, hlater⟩
      | leaf | block =>
        refine .inl ⟨[], _, _, rfl, ?_, hlater⟩
        exact Part.isIn_own hs.left (h.isClosed hq) List.mem_cons_self hp
    · have hearlier : ∀ o ∈ q.own build, ¬ p.token.IsIn o.range := fun o ho =>
        (Part.spans_own hs.left (h.isClosed hq) ho).not_isIn (.inl hs) (Piece.token_mem_flatten hp)
      rcases ih hparts hs.right hp with ⟨before, o, after, he, ho, hothers⟩ | ⟨hseparator, hnone⟩
      · refine .inl ⟨q.own build ++ before, o, after, by rw [he, List.append_assoc], ho, fun o' ho' => ?_⟩
        rw [List.append_assoc] at ho'
        exact (List.mem_append.1 ho').elim (hearlier o') (hothers o')
      · exact .inr ⟨hseparator, fun o ho => (List.mem_append.1 ho).elim (hearlier o) (hnone o)⟩

namespace Tree

variable [Vocabulary K]

def Covers (t : Tree K) (separators : List Punct) (id : Nat) (u : Token) : Prop :=
  (∃! c, c ∈ t.declarations id ∧ u.IsIn (t.range c)) ∨
    u.isOneOf separators = true ∧ ∀ c ∈ t.declarations id, ¬ u.IsIn (t.range c)

/-- No token is dropped at the root or between the delimiters of a block, the first of which is the
first opening one in the range of the block and the second one its last token. -/
structure DropsNothing (tokens : List Token) (opening : K → List Punct) (pairs : List (Punct × Punct))
    (bodiless : K → Bool) (separators : List Punct) (t : Tree K) : Prop where
  root : ∀ u ∈ tokens, u.isComment = false → t.Covers separators root u
  block : ∀ id n, t.node? id = some n → opening n.kind ≠ [] →
    (∃ opener closer, (tokensIn tokens (t.range id)).find? (·.isOneOf (opening n.kind)) = some opener ∧
      (tokensIn tokens (t.range id)).getLast? = some closer ∧ Matches pairs opener closer ∧
      ∀ u ∈ tokens, u.isComment = false → opener.stop ≤ u.start → u.stop ≤ closer.start →
        t.Covers separators id u) ∨
    bodiless n.kind = true ∧ ∀ u ∈ tokensIn tokens (t.range id), u.isOneOf (opening n.kind) = false

variable {t : Tree K} {separators : List Punct} {id : Nat} {u : Token}

omit [Vocabulary K] in
theorem Shows.covers {ids : List Nat} {os : List (Outline K)} (h : t.Shows ids os)
    (hos : Outline.Covers separators os u) :
    (∃! c, c ∈ ids ∧ u.IsIn (t.range c)) ∨
      u.isOneOf separators = true ∧ ∀ c ∈ ids, ¬ u.IsIn (t.range c) := by
  have hnone {ids : List Nat} {os : List (Outline K)} (h : t.Shows ids os)
      (hos : ∀ o ∈ os, ¬ u.IsIn o.range) : ∀ c ∈ ids, ¬ u.IsIn (t.range c) := by
    intro c hc
    obtain ⟨o, ho, he⟩ := h.exists_outline hc
    rw [range_of_outlineAt? he]
    exact hos o ho
  rcases hos with ⟨before, o, after, rfl, ho, hothers⟩ | ⟨hseparator, hos⟩
  · have hbefore := List.forall₂_take_append ids before (o :: after) h
    have hrest := List.forall₂_drop_append ids before (o :: after) h
    rw [← List.take_append_drop before.length ids]
    generalize ids.take before.length = ids₁ at hbefore ⊢
    generalize ids.drop before.length = ids₂ at hrest ⊢
    cases hrest with
    | @cons c _ ids₂ _ hc hafter =>
      refine .inl ⟨c, ⟨by simp, by rwa [range_of_outlineAt? hc]⟩, fun d ⟨hd, hin⟩ => ?_⟩
      rcases List.mem_append.1 hd with hd | hd
      · exact absurd hin (hnone hbefore (fun o' ho' => hothers o' (List.mem_append_left _ ho')) d hd)
      · rcases List.mem_cons.1 hd with rfl | hd
        · rfl
        · exact absurd hin (hnone hafter (fun o' ho' => hothers o' (List.mem_append_right _ ho')) d hd)
  · exact .inr ⟨hseparator, hnone h hos⟩

theorem Linked.covers (ht : t.Linked) {o : Outline K} (ho : t.outlineAt? id = some o)
    (hos : Outline.Covers separators (o.children.filter fun c => !Vocabulary.isComment c.kind) u) :
    t.Covers separators id u :=
  (ht.shows_declarations ho).covers hos

end Tree

namespace Outline

variable [Vocabulary K]

def DropsNothing (tokens : List Token) (opening : K → List Punct) (pairs : List (Punct × Punct))
    (bodiless : K → Bool) (separators : List Punct) (o : Outline K) : Prop :=
  opening o.kind ≠ [] →
    (∃ opener inner closer pre post,
      Between tokens (opening o.kind) o.range opener inner closer pre post ∧
      Matches pairs opener closer ∧
      ∀ u ∈ inner, u.isComment = false →
        Covers separators (o.children.filter fun c => !Vocabulary.isComment c.kind) u) ∨
    bodiless o.kind = true ∧ ∀ t ∈ tokensIn tokens o.range, t.isOneOf (opening o.kind) = false

end Outline

structure Tight [Vocabulary K] (layout : Layout N S L) (build : S → List Token → K)
    (opening : K → List Punct) (pairs : List (Punct × Punct)) (separators : List Punct) : Prop where
  inside : ∀ {shape us}, opening (build shape us) ≠ [] → layout.Separated separators (layout.inside shape)
  pairs : ∀ {shape us p close}, opening (build shape us) ≠ [] → (p, some close) ∈ layout.delimiters shape →
    (p, close) ∈ pairs

section

variable [Vocabulary K] {rule : N → Phrase N S} {layout : Layout N S L} {build : S → List Token → K}
  {At : K → L → Prop} {closers : K → K → List Punct} {trails : K → K → Bool}
  {opening : K → List Punct} {pairs : List (Punct × Punct)} {bodiless : K → Bool}
  {separators : List Punct} {ts : List Token} {l : L}

theorem Layout.Separated.covers_below (h : layout.Separated separators l)
    (hcloses : Closes layout build At closers trails) {parts : List (Part S)} {lead : List Token}
    {u : Token} (hfits : ∀ q ∈ parts, Fits rule layout l q)
    (hs : Spaced (flatten (Part.listPieces parts))) (hlead : ∀ t ∈ lead, t.isComment = true)
    (hu : u ∈ lead ++ flatten (Part.listPieces parts)) (hcomment : u.isComment = false) :
    Outline.Covers separators ((commentNode lead ++ Part.listForest build parts).filter
      fun c => !Vocabulary.isComment c.kind) u := by
  have hmem : u ∈ (lead ++ flatten (Part.listPieces parts)).filter (!·.isComment) :=
    List.mem_filter.2 ⟨hu, by simp [hcomment]⟩
  rw [Piece.filter_append_flatten hlead] at hmem
  obtain ⟨p, hp, rfl⟩ := List.mem_map.1 hmem
  rw [List.filter_append, Part.filter_listForest hcloses.isComment_comment hcloses.isComment_build,
    List.filter_eq_nil_iff.2 fun c hc => by simp [hcloses.isComment_of_mem_commentNode hc],
    List.nil_append]
  exact h.covers hfits hs hp

theorem Tight.dropsNothing_block (h : Tight layout build opening pairs separators)
    (hopens : Opens rule layout build opening bodiless) (hcloses : Closes layout build At closers trails)
    (hs : Spaced ts) {shape : S} {first opener : Piece} {more : List Piece} {body : List (Part S)}
    {closer : Option Piece} {o : Outline K}
    (hq : Fits rule layout l (.block shape first more opener body closer))
    (hts : flatten (Part.block shape first more opener body closer).pieces <:+: ts)
    (ho : o ∈ (Part.block shape first more opener body closer).own build) :
    o.DropsNothing ts opening pairs bodiless separators := by
  intro hne
  obtain ⟨pre, post, hts⟩ := hts
  obtain ⟨c, rfl, hbetween⟩ := hopens.between_block hs hq hts.symm ho hne
  obtain rfl := List.mem_singleton.1 ho
  have hne : opening (build shape ((first :: more).map (·.token))) ≠ [] := hne
  cases hq with
  | @block _ _ _ _ _ _ _ _ p close hhead hd hdel hopener hcloser hsingle hbody =>
    obtain ⟨close, rfl⟩ : ∃ close', close = some close' := by
      cases close with
      | none => cases hcloser
      | some close => exact ⟨close, rfl⟩
    refine .inl ⟨_, _, _, _, _, hbetween, ⟨(p, close), h.pairs hne hdel, hopener, Option.some.inj hcloser⟩,
      fun u hu hcomment => ?_⟩
    have hinner : Spaced (flatten (Part.listPieces body)) := by
      refine hs.sublist (.trans (List.sublist_append_right opener.comments _) ?_)
      rw [hbetween.tokens_eq]
      exact .trans (.cons _ (List.sublist_append_left _ _)) (List.sublist_append_right _ _)
    exact (h.inside hne).covers_below hcloses hbody hinner opener.comments_isComment hu hcomment

theorem Tight.specifies (h : Tight layout build opening pairs separators)
    (hopens : Opens rule layout build opening bodiless) (hcloses : Closes layout build At closers trails)
    (hs : Spaced ts) :
    Specifies rule layout build ts At fun _ =>
      Outline.DropsNothing ts opening pairs bodiless separators where
  isComment_build := hcloses.isComment_build
  isComment_comment := hcloses.isComment_comment
  inside := hcloses.inside
  unclosed := hcloses.exists_leaf
  comment _ _ hne := absurd hopens.comment hne
  own {k l q o} _ hq _ hts ho _ := by
    cases q with
    | token p => cases ho
    | leaf shape first more =>
      obtain rfl := List.mem_singleton.1 ho
      exact fun hne => .inr (hopens.bodiless_leaf hs hq hts hne)
    | block shape first more opener body closer =>
      exact h.dropsNothing_block hopens hcloses hs hq hts ho

end

namespace Tree

variable [Vocabulary K] {t : Tree K} {tokens : List Token} {opening : K → List Punct}
  {pairs : List (Punct × Punct)} {bodiless : K → Bool} {separators : List Punct} {top : Outline K}

theorem Linked.dropsNothing (ht : t.Linked) (hs : Spaced tokens) (htop : t.outline? = some top)
    (hroot : opening top.kind = [])
    (hcovers : ∀ u ∈ tokens, u.isComment = false →
      Outline.Covers separators (top.children.filter fun c => !Vocabulary.isComment c.kind) u)
    (htidy : Tidy tokens (fun _ => Outline.DropsNothing tokens opening pairs bodiless separators) top) :
    t.DropsNothing tokens opening pairs bodiless separators where
  root u hu hcomment := ht.covers htop (hcovers u hu hcomment)
  block id n hn hne := by
    obtain ⟨m, o, ho, hkind, hneat⟩ :=
      ht.exists_neat_of_kind_ne htop htidy hn fun he => hne (he ▸ hroot)
    rw [hkind] at hne ⊢
    rw [range_of_outlineAt? ho]
    refine (hneat.holds hne).imp_left fun ⟨opener, inner, closer, pre, post, hbetween, hpair, hinner⟩ =>
      ⟨opener, closer, hbetween.find?_tokensIn hs, hbetween.getLast?_tokensIn hs, hpair,
        fun u hu hcomment hstart hstop => ht.covers ho (hinner u ?_ hcomment)⟩
    exact hbetween.mem_inner hs hu hstart hstop

end Tree

theorem Reads.dropsNothing [Vocabulary K] {g : Grammar G S K} {goal : G} {rule : N → Phrase N S}
    {lang : G → Phrase N S} {follow : G → List (Symbol G S) → Prop} {blind : G → List Piece → Prop}
    {layout : Layout N S L} {place : L} {At : K → L → Prop} {closers : K → K → List Punct}
    {trails : K → K → Bool} {opening : K → List Punct} {pairs : List (Punct × Punct)}
    {bodiless : K → Bool} {separators : List Punct} {language : Language} {text : String}
    {tree : Tree K} (h : Reads g goal rule lang follow blind layout place)
    (hcloses : Closes layout (fun shape => g.build shape text) At closers trails)
    (hopens : Opens rule layout (fun shape => g.build shape text) opening bodiless)
    (htight : Tight layout (fun shape => g.build shape text) opening pairs separators)
    (hplace : layout.Separated separators place) (hroot : At Vocabulary.root place)
    (hp : g.parse goal text (language.tokens text) = .ok tree) :
    tree.DropsNothing (language.tokens text) opening pairs bodiless separators := by
  have hs := spaced_tokens language text
  obtain ⟨lead, parts, htokens, hlead, hfits, hmade, htidy⟩ :=
    h.exists_tidy (htight.specifies hopens hcloses hs) hroot hp
  refine hmade.linked.dropsNothing hs hmade.outline hopens.root (fun u hu hcomment => ?_) htidy
  rw [htokens] at hu hs
  have hcovers := hplace.covers_below hcloses hfits hs.right hlead hu hcomment
  exact hcovers

end ProtoSyntax
