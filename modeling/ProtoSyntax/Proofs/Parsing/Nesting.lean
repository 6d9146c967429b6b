import ProtoSyntax.Proofs.Parsing.Assembly
import ProtoSyntax.Proofs.Parsing.Layout

/-!
# Nested ranges

The nodes of parts reach from the start of a token to the end of one, lie within their parents and
come one after the other. The only overlap is that of a comment with the node it interrupts.
-/

namespace ProtoSyntax
open Piece (flatten)

variable {N S K L : Type}

structure Spaced (ts : List Token) : Prop where
  ordered : Ordered ts
  nonempty : ∀ t ∈ ts, t.start < t.stop

namespace Spaced

variable {t u : Token} {ts us : List Token}

theorem left (h : Spaced (ts ++ us)) : Spaced ts :=
  ⟨h.ordered.of_append_left, fun t ht => h.nonempty t (List.mem_append_left _ ht)⟩

theorem right (h : Spaced (ts ++ us)) : Spaced us :=
  ⟨h.ordered.of_append_right, fun t ht => h.nonempty t (List.mem_append_right _ ht)⟩

theorem sublist (h : Spaced us) (hsub : ts.Sublist us) : Spaced ts :=
  ⟨List.Pairwise.sublist hsub h.ordered, fun t ht => h.nonempty t (hsub.subset ht)⟩

theorem tail (h : Spaced (t :: ts)) : Spaced ts := h.sublist (List.sublist_cons_self t ts)

theorem stop_le_start (h : Spaced (ts ++ us)) (ht : t ∈ ts) (hu : u ∈ us) : t.stop ≤ u.start :=
  (List.pairwise_append.1 h.ordered).2.2 t ht u hu

theorem stop_le_start_cons (h : Spaced (t :: us)) (hu : u ∈ us) : t.stop ≤ u.start :=
  (List.pairwise_cons.1 h.ordered).1 u hu

end Spaced

theorem lastStop_mem (before : Nat) (p : Piece) (ps : List Piece) :
    ∃ t ∈ flatten (p :: ps), lastStop before (p :: ps) = t.stop := by
  obtain ⟨q, hq, he⟩ := lastStop_eq_stop before p ps
  exact ⟨q.token, Piece.token_mem_flatten hq, he⟩

namespace Range

def IsWithin (r s : Range) : Prop := s.start ≤ r.start ∧ r.stop ≤ s.stop

end Range

namespace Outline

def Spans (ts : List Token) (o : Outline K) : Prop :=
  ∃ t ∈ ts, ∃ u ∈ ts, o.range = ⟨t.start, u.stop⟩ ∧ t.start < u.stop

variable {o o' : Outline K} {ts us : List Token}

theorem Spans.mono (h : o.Spans ts) (hts : ∀ t ∈ ts, t ∈ us) : o.Spans us := by
  obtain ⟨t, ht, u, hu, hr⟩ := h
  exact ⟨t, hts t ht, u, hts u hu, hr⟩

theorem exists_max_lastStop {os : List (Outline K)} {v : Token} (h : ∀ o ∈ os, o.Spans ts)
    (hv : v ∈ ts) : ∃ u ∈ ts, max (lastStop os) v.stop = u.stop := by
  cases hlast : os.getLast? with
  | none => exact ⟨v, hv, by simp [lastStop, hlast]⟩
  | some o =>
    obtain ⟨_, -, u, hu, hr, -⟩ := h o (List.mem_of_getLast? hlast)
    rcases Nat.le_total (lastStop os) v.stop with hle | hle
    · exact ⟨v, hv, Nat.max_eq_right hle⟩
    · refine ⟨u, hu, ?_⟩
      rw [Nat.max_eq_left hle]
      simp [lastStop, hlast, hr]

theorem Spans.stop_le_start (h : o.Spans ts) (h' : o'.Spans us) (hs : Spaced (ts ++ us)) :
    o.range.stop ≤ o'.range.start := by
  obtain ⟨_, _, u, hu, hr, -⟩ := h
  obtain ⟨t, ht, _, _, hr', -⟩ := h'
  rw [hr, hr']
  exact hs.stop_le_start hu ht

theorem Spans.start_lt_stop (h : o.Spans ts) : o.range.start < o.range.stop := by
  obtain ⟨t, -, u, -, hr, hlt⟩ := h
  rwa [hr]

variable [Vocabulary K]

def IsComment (o : Outline K) : Prop := Vocabulary.isComment o.kind = true

/-- A later sibling begins later; and it comes after an earlier one, unless it is a comment within
that. Such a comment was met before the node was opened. -/
structure Before (o o' : Outline K) : Prop where
  start_lt : o.range.start < o'.range.start
  apart : o.range.stop ≤ o'.range.start ∨
    o'.IsComment ∧ ¬ o.IsComment ∧ o'.range.IsWithin o.range
  clear : o'.range.start < o.range.stop → ∀ c ∈ o.children, o'.range.stop ≤ c.range.start

theorem Spans.before (h : o.Spans ts) (h' : o'.Spans us) (hs : Spaced (ts ++ us)) :
    Before o o' := by
  have := h.start_lt_stop
  have := h.stop_le_start h' hs
  exact ⟨by omega, .inl this, by omega⟩

/-- A node whose range and whose siblings' ranges below each other are in order; `P` says more of
it, given the kind of its parent. -/
inductive Neat (ts : List Token) (P : K → Outline K → Prop) : K → Outline K → Prop where
  | node {parent kind : K} {range : Range} {cs : List (Outline K)} :
      Spans ts (.node kind range cs) → P parent (.node kind range cs) →
      (∀ c ∈ cs, c.range.IsWithin range) → cs.Pairwise Before → (∀ c ∈ cs, Neat ts P kind c) →
      Neat ts P parent (.node kind range cs)

end Outline

open Outline (Before Neat)

section comments

variable [Vocabulary K]

theorem mem_commentNode {cs : List Token} {o : Outline K} (ho : o ∈ commentNode cs) :
    ∃ range, o = .node Vocabulary.comment range [] := by
  cases cs with
  | nil => cases ho
  | cons c cs => exact ⟨_, List.mem_singleton.1 ho⟩

theorem spans_commentNode {cs : List Token} (hs : Spaced cs) {o : Outline K}
    (ho : o ∈ commentNode cs) : o.Spans cs := by
  cases cs with
  | nil => cases ho
  | cons c cs =>
    obtain rfl := List.mem_singleton.1 ho
    have hlast : cs.getLastD c ∈ c :: cs := List.getLastD_mem_cons
    refine ⟨c, List.mem_cons_self, _, hlast, rfl, ?_⟩
    rcases List.mem_cons.1 hlast with h | h
    · rw [h]
      exact hs.nonempty c List.mem_cons_self
    · have := hs.nonempty c List.mem_cons_self
      have := hs.stop_le_start_cons h
      have := (cs.getLastD c).start_le_stop
      omega

theorem pairwise_commentNode (cs : List Token) :
    (commentNode cs : List (Outline K)).Pairwise Before := by
  cases cs with
  | nil => exact .nil
  | cons c cs => exact List.pairwise_singleton _ _

theorem spans_commentForest {ps : List Piece} (hs : Spaced (flatten ps)) {o : Outline K}
    (ho : o ∈ commentForest ps) : o.Spans (flatten ps) := by
  induction ps with
  | nil => cases ho
  | cons p ps ih =>
    rcases List.mem_append.1 ho with ho | ho
    · exact (spans_commentNode hs.tail.left ho).mono (by simp +contextual)
    · exact (ih hs.tail.right ho).mono (by simp +contextual)

theorem stop_le_start_of_mem_commentForest {p : Piece} {ps : List Piece}
    (hs : Spaced (flatten (p :: ps))) {o : Outline K} (ho : o ∈ commentForest (p :: ps)) :
    p.token.stop ≤ o.range.start := by
  have hspans : o.Spans (p.comments ++ flatten ps) := by
    rcases List.mem_append.1 ho with ho | ho
    · exact (spans_commentNode hs.tail.left ho).mono (by simp +contextual)
    · exact (spans_commentForest hs.tail.right ho).mono (by simp +contextual)
  obtain ⟨t, ht, u, hu, hr, -⟩ := hspans
  rw [hr]
  exact hs.stop_le_start_cons ht

theorem pairwise_commentForest {ps : List Piece} (hs : Spaced (flatten ps)) :
    (commentForest ps : List (Outline K)).Pairwise Before := by
  induction ps with
  | nil => exact .nil
  | cons p ps ih =>
    refine List.pairwise_append.2 ⟨pairwise_commentNode _, ih hs.tail.right, fun o ho o' ho' => ?_⟩
    exact (spans_commentNode hs.tail.left ho).before (spans_commentForest hs.tail.right ho') hs.tail

theorem mem_commentForest {ps : List Piece} {o : Outline K} (ho : o ∈ commentForest ps) :
    ∃ range, o = .node Vocabulary.comment range [] := by
  obtain ⟨p, -, ho⟩ := List.mem_flatMap.1 ho
  exact mem_commentNode ho

theorem commentForest_lastStop {ps : List Piece} (hs : Spaced (flatten ps)) (before : Nat)
    {o : Outline K} (ho : o ∈ commentForest ps) :
    o.range.stop ≤ lastStop before ps ∨ lastStop before ps ≤ o.range.start := by
  induction ps generalizing before with
  | nil => cases ho
  | cons p ps ih =>
    rw [lastStop_cons]
    rcases List.mem_append.1 ho with ho | ho
    · have hspans := spans_commentNode hs.tail.left ho
      obtain ⟨t, ht, u, hu, hr, -⟩ := hspans
      rw [hr]
      cases ps with
      | nil => exact .inr (hs.stop_le_start_cons (List.mem_append_left _ ht))
      | cons q qs =>
        obtain ⟨v, hv, he⟩ := lastStop_mem p.token.stop q qs
        have := hs.tail.stop_le_start hu hv
        have := v.start_le_stop
        exact .inl (by simp only [he]; omega)
    · exact ih hs.tail.right _ ho

end comments

structure Orderly [Vocabulary K] (ts : List Token) (P : K → Outline K → Prop) (parent : K)
    (us : List Token) (os : List (Outline K)) : Prop where
  spans : ∀ o ∈ os, o.Spans us
  before : os.Pairwise Before
  neat : ∀ o ∈ os, Neat ts P parent o

namespace Orderly

variable [Vocabulary K] {ts us vs : List Token} {P : K → Outline K → Prop} {parent : K}
  {o : Outline K} {os os' : List (Outline K)}

theorem nil : Orderly ts P parent us [] := ⟨by simp, .nil, by simp⟩

theorem mono (h : Orderly ts P parent us os) (hu : ∀ t ∈ us, t ∈ vs) : Orderly ts P parent vs os :=
  ⟨fun o ho => (h.spans o ho).mono hu, h.before, h.neat⟩

theorem append (h : Orderly ts P parent us os) (h' : Orderly ts P parent vs os')
    (hs : Spaced (us ++ vs)) : Orderly ts P parent (us ++ vs) (os ++ os') where
  spans o ho := by
    rcases List.mem_append.1 ho with ho | ho
    · exact (h.spans o ho).mono (by simp +contextual)
    · exact (h'.spans o ho).mono (by simp +contextual)
  before := List.pairwise_append.2
    ⟨h.before, h'.before, fun o ho o' ho' => (h.spans o ho).before (h'.spans o' ho') hs⟩
  neat o ho := (List.mem_append.1 ho).elim (h.neat o) (h'.neat o)

theorem cons (h : Orderly ts P parent us os) (ho : o.Spans us) (hn : Neat ts P parent o)
    (hb : ∀ o' ∈ os, Before o o') : Orderly ts P parent us (o :: os) where
  spans o' ho' := (List.mem_cons.1 ho').elim (fun he => he ▸ ho) (h.spans o')
  before := .cons hb h.before
  neat o' ho' := (List.mem_cons.1 ho').elim (fun he => he ▸ hn) (h.neat o')

section

variable (hP : ∀ k range, P k (.node Vocabulary.comment range []))

include hP

theorem comment_neat {range : Range} (h : Outline.Spans ts (.node (Vocabulary.comment : K) range [])) :
    Neat ts P parent (.node Vocabulary.comment range []) :=
  .node h (hP _ _) (by simp) .nil (by simp)

theorem commentNode {cs : List Token} (hs : Spaced cs) (hts : ∀ t ∈ cs, t ∈ ts) :
    Orderly ts P parent cs (ProtoSyntax.commentNode cs) where
  spans _ ho := spans_commentNode hs ho
  before := pairwise_commentNode cs
  neat o ho := by
    have hspans := (spans_commentNode hs ho).mono hts
    obtain ⟨range, rfl⟩ := mem_commentNode ho
    exact comment_neat hP hspans

theorem commentForest {ps : List Piece} (hs : Spaced (flatten ps)) (hts : ∀ t ∈ flatten ps, t ∈ ts) :
    Orderly ts P parent (flatten ps) (ProtoSyntax.commentForest ps) where
  spans _ ho := spans_commentForest hs ho
  before := pairwise_commentForest hs
  neat o ho := by
    have hspans := (spans_commentForest hs ho).mono hts
    obtain ⟨range, rfl⟩ := mem_commentForest ho
    exact comment_neat hP hspans

end

end Orderly

/-- What is asked of the nodes that parts make, so that something holds of each of them. -/
structure Specifies [Vocabulary K] (rule : N → Phrase N S) (layout : Layout N S L)
    (build : S → List Token → K) (ts : List Token) (At : K → L → Prop)
    (P : K → Outline K → Prop) : Prop where
  isComment_build : ∀ shape us, Vocabulary.isComment (build shape us) = false
  isComment_comment : Vocabulary.isComment (Vocabulary.comment : K) = true
  inside : ∀ {shape us}, layout.delimiters shape ≠ [] → At (build shape us) (layout.inside shape)
  unclosed : ∀ {l shape first more opener body},
    Fits rule layout l (.block shape first more opener body none) → ∃ v f m, body = [.leaf v f m]
  comment : ∀ k range, P k (.node Vocabulary.comment range [])
  own : ∀ {k l q o}, At k l → Fits rule layout l q → Spaced (flatten q.pieces) →
    flatten q.pieces <:+: ts → o ∈ q.own build → (∀ c ∈ o.children, c.Spans q.inner) →
    P k o

namespace Specifies

variable [Vocabulary K] {rule : N → Phrase N S} {layout : Layout N S L}
  {build : S → List Token → K} {ts : List Token} {At : K → L → Prop} {P : K → Outline K → Prop}
  {l : L} {k : K}

theorem orderly_listForest {parts : List (Part S)}
    (hparts : ∀ q ∈ parts, Spaced (flatten q.pieces) → flatten q.pieces <:+: ts →
      Orderly ts P k (flatten q.pieces) (q.forest build))
    (hs : Spaced (flatten (Part.listPieces parts)))
    (hts : flatten (Part.listPieces parts) <:+: ts) :
    Orderly ts P k (flatten (Part.listPieces parts)) (Part.listForest build parts) := by
  induction parts with
  | nil => exact .nil
  | cons q parts ih =>
    rw [Part.listPieces, Piece.flatten_append] at hs hts ⊢
    refine .append ?_ ?_ hs
    · exact hparts q List.mem_cons_self hs.left ((List.prefix_append _ _).isInfix.trans hts)
    · exact ih (fun r hr => hparts r (List.mem_cons_of_mem _ hr)) hs.right
        ((List.suffix_append _ _).isInfix.trans hts)

variable (h : Specifies rule layout build ts At P)

include h

/-- A node comes before the comments that interrupt it and those after it. -/
theorem node_before_comment {shape : S} {us : List Token} {first : Token} {stop : Nat}
    {cs : List (Outline K)} {o : Outline K} {ps : List Piece} (ho : o ∈ commentForest ps)
    (hfirst : first.start < first.stop) (hstart : first.stop ≤ o.range.start)
    (hstop : (o.range.stop ≤ stop ∧ ∀ c ∈ cs, o.range.stop ≤ c.range.start) ∨ stop ≤ o.range.start) :
    Before (.node (build shape us) ⟨first.start, stop⟩ cs) o := by
  obtain ⟨range, rfl⟩ := mem_commentForest ho
  refine ⟨Nat.lt_of_lt_of_le hfirst hstart, ?_, fun hlt => ?_⟩
  · rcases hstop with ⟨hstop, -⟩ | hstop
    · refine .inr ⟨h.isComment_comment, ?_, Nat.le_trans (Nat.le_of_lt hfirst) hstart, hstop⟩
      simp [Outline.IsComment, Outline.kind, h.isComment_build]
    · exact .inl hstop
  · rcases hstop with ⟨-, hbelow⟩ | hstop
    · exact hbelow
    · exact absurd hlt (Nat.not_lt.2 hstop)

theorem orderly_leaf {shape : S} {first : Piece} {more : List Piece} (hk : At k l)
    (hq : Fits rule layout l (.leaf shape first more)) (hs : Spaced (flatten (first :: more)))
    (hts : flatten (first :: more) <:+: ts) :
    Orderly ts P k (flatten (first :: more)) (Part.forest build (.leaf shape first more)) := by
  have hcomments : Orderly ts P k _ (commentForest (first :: more)) :=
    .commentForest h.comment hs hts.subset
  obtain ⟨u, hu, he⟩ := lastStop_mem 0 first more
  have hspans : Outline.Spans (flatten (first :: more)) (.node
      (build shape ((first :: more).map (·.token))) ⟨first.token.start, lastStop 0 (first :: more)⟩
      []) := by
    refine ⟨first.token, List.mem_cons_self, u, hu, by rw [he]; rfl, ?_⟩
    have := hs.nonempty first.token List.mem_cons_self
    rcases List.mem_cons.1 hu with rfl | hu
    · exact this
    · have := hs.stop_le_start_cons hu
      have := u.start_le_stop
      omega
  refine .cons hcomments hspans ?_ fun o ho => ?_
  · exact .node (hspans.mono hts.subset) (h.own hk hq hs hts List.mem_cons_self nofun) (by simp)
      .nil (by simp)
  · exact h.node_before_comment ho (hs.nonempty _ List.mem_cons_self)
      (stop_le_start_of_mem_commentForest hs ho)
      ((commentForest_lastStop hs 0 ho).imp_left fun hstop => ⟨hstop, nofun⟩)

section block

variable {first opener : Piece} {more ps : List Piece} {closer : Option Piece} {below : List (Outline K)}

omit h in
theorem block_stop (hs : Spaced (flatten (first :: more ++ opener :: ps ++ closer.toList)))
    (hbelow : ∀ o ∈ below, o.Spans (opener.comments ++ flatten ps))
    (hopen : closer = none → ∀ o ∈ below,
      o.range.stop ≤ max (Outline.lastStop below) (lastStop 0 (opener :: ps))) :
    ∃ u ∈ flatten (opener :: ps ++ closer.toList),
      lastStop (max (Outline.lastStop below) (lastStop 0 (opener :: ps))) closer.toList = u.stop ∧
      opener.token.stop ≤ u.stop ∧ (∀ o ∈ below, o.range.stop ≤ u.stop) ∧
      ∀ o ∈ (commentForest closer.toList : List (Outline K)), u.stop ≤ o.range.start := by
  rw [List.append_assoc, Piece.flatten_append] at hs
  have hs' := hs.right
  rw [Piece.flatten_append] at hs'
  cases closer with
  | some q =>
    have hq := q.token.start_le_stop
    refine ⟨q.token, Piece.token_mem_flatten (by simp), rfl, ?_, fun o ho => ?_, fun o ho => ?_⟩
    · have := hs'.stop_le_start List.mem_cons_self List.mem_cons_self
      omega
    · obtain ⟨t, ht, v, hv, hr, -⟩ := hbelow o ho
      have := hs'.stop_le_start (List.mem_cons_of_mem _ hv) List.mem_cons_self
      simp only [hr]
      omega
    · exact stop_le_start_of_mem_commentForest hs'.right ho
  | none =>
    obtain ⟨v, hv, he⟩ := lastStop_mem 0 opener ps
    have hopener : opener.token.stop ≤ v.stop := by
      rcases List.mem_cons.1 hv with rfl | hv
      · exact Nat.le_refl _
      · have := hs'.left.stop_le_start_cons hv
        have := v.start_le_stop
        omega
    obtain ⟨u, hu, hmax⟩ : ∃ u ∈ flatten (opener :: ps), max (Outline.lastStop below) v.stop = u.stop :=
      Outline.exists_max_lastStop
        (fun o ho => (hbelow o ho).mono fun _ => List.mem_cons_of_mem _) hv
    rw [he] at hopen ⊢
    refine ⟨u, by simpa using hu, hmax, ?_, fun o ho => ?_, by simp⟩
    · have := Nat.le_max_right (Outline.lastStop below) v.stop
      omega
    · exact hmax ▸ hopen rfl o ho

theorem stop_le_lastStop {o : Outline K} (hs : Spaced (flatten ps)) (ho : o ∈ commentForest ps) :
    o.range.stop ≤ Outline.lastStop (commentForest ps : List (Outline K)) := by
  obtain ⟨last, hlast⟩ := Option.isSome_iff_exists.1 (List.getLast?_isSome.2 (List.ne_nil_of_mem ho))
  obtain ⟨os, hos⟩ := List.getLast?_eq_some_iff.1 hlast
  rw [Outline.lastStop, hlast]
  show o.range.stop ≤ last.range.stop
  have hpairs := pairwise_commentForest (K := K) hs
  have hmem := ho
  rw [hos] at hpairs hmem
  rcases List.mem_append.1 hmem with ho' | ho'
  · have hlt := (spans_commentForest hs (List.mem_of_getLast? hlast)).start_lt_stop
    rcases ((List.pairwise_append.1 hpairs).2.2 o ho' last (by simp)).apart with hle | ⟨-, hc, -⟩
    · omega
    · obtain ⟨range, rfl⟩ := mem_commentForest ho
      exact absurd h.isComment_comment hc
  · obtain rfl := List.mem_singleton.1 ho'
    exact Nat.le_refl _

theorem stop_le_max {f : Piece} {m : List Piece} {o node : Outline K} (before : Nat)
    (hs : Spaced (opener.comments ++ flatten (f :: m)))
    (hnode : node.range.stop = lastStop before (f :: m))
    (ho : o ∈ commentNode opener.comments ++ node :: commentForest (f :: m)) :
    o.range.stop ≤ max (Outline.lastStop (commentNode opener.comments ++ node :: commentForest (f :: m)))
      (lastStop 0 (opener :: f :: m)) := by
  rw [lastStop_cons, lastStop_cons_congr _ before]
  rcases List.mem_append.1 ho with ho | ho
  · obtain ⟨t, ht, u, hu, hr, -⟩ := spans_commentNode hs.left ho
    obtain ⟨v, hv, he⟩ := lastStop_mem before f m
    have := hs.stop_le_start hu hv
    have := v.start_le_stop
    simp only [hr, he]
    omega
  · rcases List.mem_cons.1 ho with rfl | ho
    · exact hnode ▸ Nat.le_max_right _ _
    · refine Nat.le_trans ?_ (Nat.le_max_left _ _)
      have hlast : Outline.lastStop
          (commentNode opener.comments ++ node :: commentForest (f :: m)) =
            Outline.lastStop (commentForest (f :: m) : List (Outline K)) := by
        obtain ⟨last, hlast⟩ := Option.isSome_iff_exists.1
          (List.getLast?_isSome.2 (List.ne_nil_of_mem ho))
        simp only [Outline.lastStop, List.getLast?_append, List.getLast?_cons, hlast]
        rfl
      rw [hlast]
      exact h.stop_le_lastStop hs.right ho

theorem orderly_below {body : List (Part S)}
    (hbody : ∀ q ∈ body, Spaced (flatten q.pieces) → flatten q.pieces <:+: ts →
      Orderly ts P k (flatten q.pieces) (q.forest build))
    (hs : Spaced (opener.comments ++ flatten (Part.listPieces body)))
    (hts : opener.comments ++ flatten (Part.listPieces body) <:+: ts) :
    Orderly ts P k (opener.comments ++ flatten (Part.listPieces body))
      (commentNode opener.comments ++ Part.listForest build body) := by
  have hcomments : ∀ t ∈ opener.comments, t ∈ ts :=
    fun t ht => hts.subset (List.mem_append_left _ ht)
  exact .append (.commentNode h.comment hs.left hcomments)
    (orderly_listForest hbody hs.right ((List.suffix_append _ _).isInfix.trans hts)) hs

theorem stop_le_of_unclosed {shape : S} {body : List (Part S)}
    (hq : Fits rule layout l (.block shape first more opener body none))
    (hs : Spaced (opener.comments ++ flatten (Part.listPieces body))) :
    ∀ o ∈ commentNode opener.comments ++ Part.listForest build body, o.range.stop ≤
      max (Outline.lastStop (commentNode opener.comments ++ Part.listForest build body))
        (lastStop 0 (opener :: Part.listPieces body)) := by
  obtain ⟨v, f, m, rfl⟩ := h.unclosed hq
  rw [Part.listPieces_leaf] at hs ⊢
  rw [Part.listForest_leaf]
  exact fun o ho => h.stop_le_max 0 hs rfl ho

theorem node_before_head {shape : S} {us : List Token} {stop : Nat} {o : Outline K}
    (hs : Spaced (flatten (first :: more) ++ (opener.token :: (opener.comments ++ flatten ps))))
    (hbelow : ∀ c ∈ below, c.Spans (opener.comments ++ flatten ps)) (hstop : opener.token.stop ≤ stop)
    (ho : o ∈ commentForest (first :: more)) :
    Before (.node (build shape us) ⟨first.token.start, stop⟩ below) o := by
  have hopener := opener.token.start_le_stop
  have hbefore : o.range.stop ≤ opener.token.start := by
    obtain ⟨t, ht, v, hv, hr, -⟩ := spans_commentForest hs.left ho
    rw [hr]
    exact hs.stop_le_start hv List.mem_cons_self
  refine h.node_before_comment ho (hs.nonempty _ (List.mem_append_left _ List.mem_cons_self))
    (stop_le_start_of_mem_commentForest hs.left ho) (.inl ⟨by omega, fun c hc => ?_⟩)
  obtain ⟨t, ht, v, hv, hr, -⟩ := hbelow c hc
  have := hs.right.stop_le_start_cons ht
  rw [hr]
  simp only
  omega

theorem orderly_block {shape : S} {body : List (Part S)} (hk : At k l)
    (hq : Fits rule layout l (.block shape first more opener body closer))
    (hbody : ∀ {k}, At k (layout.inside shape) → ∀ q ∈ body, Spaced (flatten q.pieces) →
      flatten q.pieces <:+: ts → Orderly ts P k (flatten q.pieces) (q.forest build))
    (hs : Spaced (flatten (Part.block shape first more opener body closer).pieces))
    (hts : flatten (Part.block shape first more opener body closer).pieces <:+: ts) :
    Orderly ts P k (flatten (Part.block shape first more opener body closer).pieces)
      (Part.forest build (.block shape first more opener body closer)) := by
  rw [Part.pieces] at hs hts ⊢
  have hmiddle : Spaced (flatten (first :: more) ++
      (opener.token :: (opener.comments ++ flatten (Part.listPieces body)))) := by
    rw [Piece.flatten_append] at hs
    have := hs.left
    rwa [Piece.flatten_append] at this
  have hinside : Spaced (opener.comments ++ flatten (Part.listPieces body)) := hmiddle.right.tail
  have hdel : layout.delimiters shape ≠ [] := by
    cases hq with
    | block _ _ hdel => exact List.ne_nil_of_mem hdel
  set below := commentNode opener.comments ++ Part.listForest build body
  have hbelow : Orderly ts P (build shape ((first :: more).map (·.token)))
      (opener.comments ++ flatten (Part.listPieces body)) below := by
    refine h.orderly_below (hbody (h.inside hdel)) hinside (List.IsInfix.trans ?_ hts)
    exact ⟨flatten (first :: more) ++ [opener.token], flatten closer.toList, by simp⟩
  obtain ⟨u, hu, he, hopener, hstop, hafter⟩ := block_stop hs hbelow.spans fun hnone =>
    h.stop_le_of_unclosed (hnone ▸ hq) hinside
  have hfirst := hs.nonempty first.token List.mem_cons_self
  have hfirstOpener : first.token.stop ≤ opener.token.start :=
    hmiddle.stop_le_start List.mem_cons_self List.mem_cons_self
  have hopenerStop := opener.token.start_le_stop
  have hspans : Outline.Spans (flatten (first :: more ++ opener :: Part.listPieces body ++ closer.toList))
      (.node (build shape ((first :: more).map (·.token))) ⟨first.token.start, u.stop⟩ below) := by
    refine ⟨first.token, List.mem_cons_self, u, ?_, rfl, by omega⟩
    rw [List.append_assoc, Piece.flatten_append]
    exact List.mem_append_right _ hu
  have hown : P k (.node (build shape ((first :: more).map (·.token)))
      ⟨first.token.start, u.stop⟩ below) :=
    h.own hk hq hs hts (by rw [Part.own, ← he]; exact List.mem_cons_self) hbelow.spans
  have hsub : (flatten (first :: more ++ closer.toList)).Sublist
      (flatten (first :: more ++ opener :: Part.listPieces body ++ closer.toList)) := by
    simp only [Piece.flatten_append]
    exact (List.sublist_append_left _ _).append (List.Sublist.refl _)
  have hforest : Part.forest build (.block shape first more opener body closer) =
      .node (build shape ((first :: more).map (·.token))) ⟨first.token.start, u.stop⟩ below ::
        commentForest (first :: more ++ closer.toList) := by
    rw [Part.forest, Part.own, ← he]
    rfl
  rw [hforest]
  refine .cons ((Orderly.commentForest h.comment (hs.sublist hsub) fun t ht =>
    hts.subset (hsub.subset ht)).mono fun t ht => hsub.subset ht) hspans ?_ fun o ho => ?_
  · refine .node (hspans.mono hts.subset) hown (fun c hc => ?_) hbelow.before hbelow.neat
    obtain ⟨t, ht, v, hv, hr, -⟩ := hbelow.spans c hc
    refine ⟨?_, hstop c hc⟩
    have := hmiddle.right.stop_le_start_cons ht
    rw [hr]
    simp only
    omega
  · rw [commentForest_append] at ho
    rcases List.mem_append.1 ho with ho | ho
    · exact h.node_before_head hmiddle hbelow.spans hopener ho
    · have := hafter o ho
      exact h.node_before_comment ho hfirst (by omega) (.inr this)

end block

theorem orderly {q : Part S} (hq : Fits rule layout l q) (hk : At k l)
    (hs : Spaced (flatten q.pieces)) (hts : flatten q.pieces <:+: ts) :
    Orderly ts P k (flatten q.pieces) (q.forest build) := by
  induction hq generalizing k with
  | @token l p hp =>
    have hcomments : Orderly ts P k (flatten [p]) (commentForest [p]) :=
      .commentForest h.comment hs hts.subset
    exact hcomments
  | leaf hhead hend hd => exact h.orderly_leaf hk (.leaf hhead hend hd) hs hts
  | block hhead hd hdel hopener hcloser hsingle hbody ih =>
    exact h.orderly_block hk (.block hhead hd hdel hopener hcloser hsingle hbody)
      (fun hk q hq => ih q hq hk) hs hts

end Specifies
end ProtoSyntax
