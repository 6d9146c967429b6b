import ProtoSyntax.Proofs.Parsing.Runs
import ProtoSyntax.Proofs.Tree.Nested
import ProtoSyntax.Proofs.Tree.Walk

/-!
# The comments of a tree

Each run of comments of the text has one node, and a node that has delimiters has below it the
comments between these and no others.
-/

namespace ProtoSyntax
open Token (span)
open Outline (Tidy)

variable {K : Type}

namespace Token

def isOneOf (ps : List Punct) (t : Token) : Bool := ps.any fun p => t.kind = .punct p

theorem isOneOf_iff {ps : List Punct} {t : Token} :
    t.isOneOf ps = true ↔ ∃ p ∈ ps, t.kind = .punct p := by
  simp [isOneOf]

theorem isComment_of_isOneOf {ps : List Punct} {t : Token} (h : t.isOneOf ps = true) :
    t.isComment = false := by
  obtain ⟨p, -, hp⟩ := isOneOf_iff.1 h
  rw [isComment, hp]
  rfl

end Token

def tokensIn (tokens : List Token) (r : Range) : List Token :=
  tokens.filter fun t => r.start ≤ t.start ∧ t.stop ≤ r.stop

theorem mem_tokensIn {tokens : List Token} {r : Range} {t : Token} :
    t ∈ tokensIn tokens r ↔ t ∈ tokens ∧ r.start ≤ t.start ∧ t.stop ≤ r.stop := by
  simp [tokensIn]

structure Around (tokens : List Token) (opener : Token) (inner : List Token) (closer : Token)
    (pre post : List Token) : Prop where
  tokens_eq : tokens = pre ++ opener :: (inner ++ closer :: post)
  opener_isComment : opener.isComment = false
  closer_isComment : closer.isComment = false

namespace Around

variable {tokens pre inner post : List Token} {opener closer : Token} {r : Range}
  (h : Around tokens opener inner closer pre post)

include h

theorem commentRuns_eq : commentRuns tokens = commentRuns pre ++ (commentRuns inner ++ commentRuns post) := by
  rw [h.tokens_eq, commentRuns_append_cons h.opener_isComment,
    commentRuns_append_cons h.closer_isComment]

theorem mem_commentRuns_inner (hs : Spaced tokens) {run : List Token} (hrun : run ∈ commentRuns tokens) :
    run ∈ commentRuns inner ↔ opener.stop ≤ (span run).start ∧ (span run).stop ≤ closer.start := by
  obtain ⟨t, ht, u, hu, he⟩ := exists_span_eq (ne_nil_of_mem_commentRuns hrun)
  have hsub (us : List Token) (h : run ∈ commentRuns us) : t ∈ us ∧ u ∈ us :=
    ⟨subset_of_mem_commentRuns h ht, subset_of_mem_commentRuns h hu⟩
  have hopener := opener.start_le_stop
  have hcloser := closer.start_le_stop
  rw [h.tokens_eq] at hs
  rw [he]
  constructor
  · intro hinner
    obtain ⟨ht, hu⟩ := hsub inner hinner
    exact ⟨hs.right.stop_le_start_cons (List.mem_append_left _ ht),
      hs.right.tail.stop_le_start hu List.mem_cons_self⟩
  · rintro ⟨hstart, hstop⟩
    rw [h.commentRuns_eq, List.mem_append, List.mem_append] at hrun
    rcases hrun with hpre | hinner | hpost
    · have := hs.nonempty t (List.mem_append_left _ (hsub pre hpre).1)
      have := hs.stop_le_start (hsub pre hpre).1 List.mem_cons_self
      simp only at hstart
      omega
    · exact hinner
    · have := hs.right.tail.right.nonempty u (List.mem_cons_of_mem _ (hsub post hpost).2)
      have := hs.right.tail.right.stop_le_start_cons (hsub post hpost).2
      simp only at hstop
      omega

theorem mem_inner (hs : Spaced tokens) {u : Token} (hu : u ∈ tokens) (hstart : opener.stop ≤ u.start)
    (hstop : u.stop ≤ closer.start) : u ∈ inner := by
  have hopener := opener.start_le_stop
  have hcloser := closer.start_le_stop
  have hlt := hs.nonempty u hu
  rw [h.tokens_eq] at hs hu
  rcases List.mem_append.1 hu with hu | hu
  · have := hs.stop_le_start hu List.mem_cons_self
    omega
  · obtain rfl | hu := List.mem_cons.1 hu
    · omega
    · rcases List.mem_append.1 hu with hu | hu
      · exact hu
      · obtain rfl | hu := List.mem_cons.1 hu
        · omega
        · have := hs.right.tail.right.stop_le_start_cons hu
          omega

theorem tokensIn_eq (hs : Spaced tokens) {r : Range} (hstart : r.start ≤ opener.start)
    (hstop : r.stop = closer.stop) :
    tokensIn tokens r = tokensIn pre r ++ opener :: (inner ++ [closer]) := by
  have hopener := opener.start_le_stop
  have hcloser := closer.start_le_stop
  rw [h.tokens_eq] at hs ⊢
  have hfirst : opener.stop ≤ closer.start :=
    hs.right.stop_le_start_cons (List.mem_append_right _ List.mem_cons_self)
  have hinner : inner.filter (fun t => r.start ≤ t.start ∧ t.stop ≤ r.stop) = inner := by
    refine List.filter_eq_self.2 fun t ht => ?_
    have := hs.right.stop_le_start_cons (List.mem_append_left _ ht)
    have := hs.right.tail.stop_le_start ht List.mem_cons_self
    simp only [decide_eq_true_eq]
    omega
  have hpost : post.filter (fun t => r.start ≤ t.start ∧ t.stop ≤ r.stop) = [] := by
    refine List.filter_eq_nil_iff.2 fun t ht => ?_
    have := hs.right.tail.right.nonempty t (List.mem_cons_of_mem _ ht)
    have := hs.right.tail.right.stop_le_start_cons ht
    simp only [decide_eq_true_eq]
    omega
  rw [tokensIn, List.filter_append, List.filter_cons, if_pos (by simp; omega), List.filter_append,
    hinner, List.filter_cons, if_pos (by simp; omega), hpost]
  rfl

end Around

/-- A range that holds two tokens of a text: the first one of some characters in it, and its last. -/
structure Between (tokens : List Token) (opening : List Punct) (r : Range) (opener : Token)
    (inner : List Token) (closer : Token) (pre post : List Token) : Prop
    extends Around tokens opener inner closer pre post where
  isOneOf : opener.isOneOf opening = true
  start_le : r.start ≤ opener.start
  stop_eq : r.stop = closer.stop
  head : ∀ t ∈ tokensIn pre r, t.isOneOf opening = false

namespace Between

variable {tokens pre inner post : List Token} {opener closer : Token} {r : Range} {opening : List Punct}
  (h : Between tokens opening r opener inner closer pre post) (hs : Spaced tokens)

include h hs

theorem find?_tokensIn : (tokensIn tokens r).find? (·.isOneOf opening) = some opener := by
  rw [h.tokensIn_eq hs h.start_le h.stop_eq, List.find?_append,
    List.find?_eq_none.2 (by simpa using h.head), Option.none_or, List.find?_cons_of_pos h.isOneOf]

theorem getLast?_tokensIn : (tokensIn tokens r).getLast? = some closer := by
  rw [h.tokensIn_eq hs h.start_le h.stop_eq, List.getLast?_append, List.getLast?_cons,
    List.getLast?_concat]
  rfl

end Between

namespace Outline

variable [Vocabulary K]

def Delimited (tokens : List Token) (opening : List Punct) (o : Outline K) : Prop :=
  ∃ opener inner closer pre post, Around tokens opener inner closer pre post ∧
    opener.isOneOf opening = true ∧ o.range.start ≤ opener.start ∧ o.range.stop = closer.stop ∧
    (∀ t ∈ tokensIn pre o.range, t.isOneOf opening = false) ∧
    o.comments.Perm ((commentRuns inner).map span)

def Encloses (tokens : List Token) (opening : K → List Punct) (bodiless : K → Bool) (o : Outline K) :
    Prop :=
  opening o.kind ≠ [] → o.Delimited tokens (opening o.kind) ∨
    bodiless o.kind = true ∧ ∀ t ∈ tokensIn tokens o.range, t.isOneOf (opening o.kind) = false

end Outline

namespace Tree

variable [Vocabulary K] {t : Tree K} {tokens : List Token} {id : Nat} {o : Outline K}

/-- The comments below the node are those between its opening delimiter, which is the first such
token in it, and its closing delimiter, which is its last token. -/
def Encloses (t : Tree K) (tokens : List Token) (opening : List Punct) (id : Nat) : Prop :=
  ∃ opener closer, (tokensIn tokens (t.range id)).find? (·.isOneOf opening) = some opener ∧
    (tokensIn tokens (t.range id)).getLast? = some closer ∧
    ∀ i < t.size, t.isCommentAt i = true →
      (i ∈ t.descendants id ↔ opener.stop ≤ (t.range i).start ∧ (t.range i).stop ≤ closer.start)

/-- The comments of a tree are the runs of comments of the text, each in the blocks that are around
it. `opening` tells which characters open a kind of block, and `bodiless` which blocks may lack
their body. -/
structure CommentsPlaced (tokens : List Token) (opening : K → List Punct) (bodiless : K → Bool)
    (t : Tree K) : Prop where
  run_of_node : ∀ i < t.size, t.isCommentAt i = true →
    ∃! run, MaximalRun tokens run ∧ t.range i = span run
  node_of_run : ∀ run, MaximalRun tokens run →
    ∃! i, i < t.size ∧ t.isCommentAt i = true ∧ t.range i = span run
  enclosed : ∀ id n, t.node? id = some n → opening n.kind ≠ [] →
    t.Encloses tokens (opening n.kind) id ∨
      bodiless n.kind = true ∧ ∀ u ∈ tokensIn tokens (t.range id), u.isOneOf (opening n.kind) = false

theorem Shows.comments_eq {ids : List Nat} {os : List (Outline K)} (h : t.Shows ids os)
    (ih : ∀ i ∈ ids, ∀ o, t.outlineAt? i = some o →
      ((t.descendants i).filter t.isCommentAt).map t.range = o.comments) :
    ((ids.flatMap t.descendants).filter t.isCommentAt).map t.range = Outline.forestComments os := by
  induction h with
  | nil => rfl
  | @cons i o ids os ho _ ihs =>
    rw [List.flatMap_cons, List.filter_append, List.map_append, Outline.forestComments,
      ih i List.mem_cons_self o ho, ihs fun j hj => ih j (List.mem_cons_of_mem _ hj)]

theorem Linked.comments_eq (ht : t.Linked) (h : t.outlineAt? id = some o) :
    ((t.descendants id).filter t.isCommentAt).map t.range = o.comments := by
  induction id using ht.induction generalizing o with
  | h id ih =>
    obtain ⟨n, hn, -, -, hshows⟩ := ht.shows_children h
    have hbelow := hshows.comments_eq fun i hi o ho => ih i (children_of_node? hn ▸ hi) ho
    have hr := range_of_outlineAt? h
    have hc := isCommentAt_of_outlineAt? h
    cases o with
    | node kind range os =>
      have hc : t.isCommentAt id = Vocabulary.isComment kind := hc
      have hr : t.range id = range := hr
      rw [ht.descendants_eq, children_of_node? hn, Outline.comments]
      by_cases hkind : Vocabulary.isComment kind = true
      · rw [if_pos hkind, List.filter_cons_of_pos (hc.trans hkind), List.map_cons, hr, hbelow]
        rfl
      · rw [if_neg hkind, List.filter_cons_of_neg (by rwa [hc]), hbelow]
        rfl

theorem Linked.mem_comments (ht : t.Linked) (h : t.outlineAt? id = some o) {r : Range} :
    r ∈ o.comments ↔ ∃ i ∈ t.descendants id, t.isCommentAt i = true ∧ t.range i = r := by
  simp [← ht.comments_eq h, and_assoc]

section

variable {opening : K → List Punct} {bodiless : K → Bool} {top : Outline K} (ht : t.Linked)
  (hs : Spaced tokens) (htop : t.outline? = some top)
  (hcomments : top.comments.Perm ((commentRuns tokens).map span))

include ht hs htop hcomments

theorem Linked.comment_unique {i j : Nat} (hi : i < t.size) (hci : t.isCommentAt i = true)
    (hj : j < t.size) (hcj : t.isCommentAt j = true) (he : t.range i = t.range j) : i = j := by
  have hnodup : (((t.descendants root).filter t.isCommentAt).map t.range).Nodup := by
    rw [ht.comments_eq htop]
    exact hcomments.nodup_iff.2 hs.nodup_commentRuns
  exact List.inj_on_of_nodup_map hnodup
    (List.mem_filter.2 ⟨ht.mem_descendants_root hi, hci⟩)
    (List.mem_filter.2 ⟨ht.mem_descendants_root hj, hcj⟩) he

omit hs in
theorem Linked.exists_run {i : Nat} (hi : i < t.size) (hc : t.isCommentAt i = true) :
    ∃ run ∈ commentRuns tokens, t.range i = span run := by
  have hmem := (ht.mem_comments htop).2 ⟨i, ht.mem_descendants_root hi, hc, rfl⟩
  obtain ⟨run, hrun, he⟩ := List.mem_map.1 (hcomments.mem_iff.1 hmem)
  exact ⟨run, hrun, he.symm⟩

theorem Linked.encloses {opening : List Punct} (ho : t.outlineAt? id = some o) (hid : id < t.size)
    (h : o.Delimited tokens opening) : t.Encloses tokens opening id := by
  obtain ⟨opener, inner, closer, pre, post, haround, hopener, hstart, hstop, hpre, hperm⟩ := h
  have hbetween : Between tokens opening o.range opener inner closer pre post :=
    ⟨haround, hopener, hstart, hstop, hpre⟩
  rw [Encloses, range_of_outlineAt? ho]
  refine ⟨opener, closer, hbetween.find?_tokensIn hs, hbetween.getLast?_tokensIn hs,
    fun i hi hc => ?_⟩
  · -- A comment is as good as its run, and below the node are the nodes of the runs in between.
    obtain ⟨run, hrun, he⟩ := ht.exists_run htop hcomments hi hc
    rw [he, ← haround.mem_commentRuns_inner hs hrun]
    constructor
    · intro hbelow
      have hmem := (ht.mem_comments ho).2 ⟨i, hbelow, hc, he⟩
      obtain ⟨run', hrun', he'⟩ := List.mem_map.1 (hperm.mem_iff.1 hmem)
      have hinner : run' ∈ commentRuns tokens := by
        rw [haround.commentRuns_eq]
        exact List.mem_append_right _ (List.mem_append_left _ hrun')
      rwa [← List.inj_on_of_nodup_map hs.nodup_commentRuns hinner hrun he']
    · intro hinner
      obtain ⟨j, hj, hcj, hej⟩ :=
        (ht.mem_comments ho).1 (hperm.mem_iff.2 (List.mem_map_of_mem hinner))
      rwa [ht.comment_unique hs htop hcomments hi hc (ht.lt_size_of_mem_descendants hid hj) hcj
        (he.trans hej.symm)]

theorem Linked.commentsPlaced (hroot : opening top.kind = [])
    (htidy : Tidy tokens (fun _ => Outline.Encloses tokens opening bodiless) top) :
    t.CommentsPlaced tokens opening bodiless where
  run_of_node i hi hc := by
    obtain ⟨run, hrun, he⟩ := ht.exists_run htop hcomments hi hc
    exact ⟨run, ⟨mem_commentRuns_iff.1 hrun, he⟩, fun run' ⟨hrun', he'⟩ =>
      List.inj_on_of_nodup_map hs.nodup_commentRuns (mem_commentRuns_iff.2 hrun') hrun
        (he'.symm.trans he)⟩
  node_of_run run hrun := by
    obtain ⟨i, hi, hc, he⟩ := (ht.mem_comments htop).1
      (hcomments.mem_iff.2 (List.mem_map_of_mem (mem_commentRuns_iff.2 hrun)))
    have hlt := ht.lt_size_of_mem_descendants ht.nonempty hi
    exact ⟨i, ⟨hlt, hc, he⟩, fun j ⟨hj, hcj, hej⟩ =>
      ht.comment_unique hs htop hcomments hj hcj hlt hc (hej.trans he.symm)⟩
  enclosed id n hn hne := by
    obtain ⟨m, o, ho, hkind, hneat⟩ :=
      ht.exists_neat_of_kind_ne htop htidy hn fun he => hne (he ▸ hroot)
    rw [hkind] at hne ⊢
    rw [range_of_outlineAt? ho]
    exact (hneat.holds hne).imp_left (ht.encloses hs htop hcomments ho (lt_size_of_node? hn))

end

end Tree
end ProtoSyntax
