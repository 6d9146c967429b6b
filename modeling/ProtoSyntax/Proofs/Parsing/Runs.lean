import Mathlib.Data.List.Nodup
import ProtoSyntax.Proofs.Parsing.Nesting

/-!
# Runs of comments

The comments of a text in runs, each as long as it can be. A forest has a node for each run among
the tokens of its parts.
-/

namespace ProtoSyntax
open Piece (flatten)

variable {S K : Type}

namespace Token

def span : List Token → Range
  | [] => ⟨0, 0⟩
  | t :: ts => ⟨t.start, (ts.getLastD t).stop⟩

end Token

open Token (span)

/-- What is left of a list of tokens when it is split at all but the comments. -/
def commentRuns (ts : List Token) : List (List Token) :=
  (ts.splitOnP (!·.isComment)).filter (!·.isEmpty)

theorem commentRuns_append_cons {t : Token} (ht : t.isComment = false) (ts us : List Token) :
    commentRuns (ts ++ t :: us) = commentRuns ts ++ commentRuns us := by
  rw [commentRuns, List.splitOnP_append_cons _ _ (by simp [ht]), List.filter_append]
  rfl

theorem splitOnP_append_flatten {lead : List Token} (hlead : ∀ t ∈ lead, t.isComment = true)
    (ps : List Piece) :
    (lead ++ flatten ps).splitOnP (!·.isComment) = lead :: ps.map (·.comments) := by
  induction ps generalizing lead with
  | nil =>
    rw [Piece.flatten_nil, List.append_nil]
    exact List.splitOnP_eq_singleton (by simpa using hlead)
  | cons p ps ih =>
    rw [Piece.flatten_cons, List.splitOnP_append_cons_of_forall_mem (by simpa using hlead) _
      (by simp [p.token_isComment]), ih p.comments_isComment, List.map_cons]

def pieceRuns (ps : List Piece) : List (List Token) := (ps.map (·.comments)).filter (!·.isEmpty)

theorem pieceRuns_cons (p : Piece) (ps : List Piece) :
    pieceRuns (p :: ps) = [p.comments].filter (!·.isEmpty) ++ pieceRuns ps := by
  rw [pieceRuns, List.map_cons, ← List.singleton_append, List.filter_append]
  rfl

theorem pieceRuns_append (ps qs : List Piece) : pieceRuns (ps ++ qs) = pieceRuns ps ++ pieceRuns qs := by
  rw [pieceRuns, List.map_append, List.filter_append]
  rfl

theorem commentRuns_append_flatten {lead : List Token} (hlead : ∀ t ∈ lead, t.isComment = true)
    (ps : List Piece) :
    commentRuns (lead ++ flatten ps) = [lead].filter (!·.isEmpty) ++ pieceRuns ps := by
  rw [commentRuns, splitOnP_append_flatten hlead, ← List.singleton_append, List.filter_append]
  rfl

theorem commentRuns_of_forall {lead : List Token} (hlead : ∀ t ∈ lead, t.isComment = true) :
    commentRuns lead = [lead].filter (!·.isEmpty) := by
  rw [commentRuns, List.splitOnP_eq_singleton (by simpa using hlead)]

/-- Comments in a row in a text, as many as there are. -/
def MaximalRun (ts run : List Token) : Prop :=
  ∃ pre post, ts = pre ++ run ++ post ∧ run ≠ [] ∧ (∀ t ∈ run, t.isComment = true) ∧
    (∀ t ∈ pre.getLast?, t.isComment = false) ∧ ∀ t ∈ post.head?, t.isComment = false

theorem commentRuns_eq_singleton {run : List Token} (hne : run ≠ [])
    (hrun : ∀ t ∈ run, t.isComment = true) : commentRuns run = [run] := by
  rw [commentRuns_of_forall hrun]
  simp [hne]

theorem maximalRun_of_mem_commentRuns {ts run : List Token} (h : run ∈ commentRuns ts) :
    MaximalRun ts run := by
  obtain ⟨lead, ps, rfl, hlead⟩ := Piece.exists_flatten ts
  induction ps generalizing lead with
  | nil =>
    rw [Piece.flatten_nil, List.append_nil, commentRuns_of_forall hlead, List.mem_filter] at h
    obtain rfl := List.mem_singleton.1 h.1
    exact ⟨[], [], by simp, by simpa using h.2, hlead, by simp, by simp⟩
  | cons p ps ih =>
    rw [Piece.flatten_cons, commentRuns_append_cons p.token_isComment, List.mem_append] at h
    rcases h with h | h
    · rw [commentRuns_of_forall hlead, List.mem_filter] at h
      obtain rfl := List.mem_singleton.1 h.1
      exact ⟨[], _, rfl, by simpa using h.2, hlead, by simp, by simp [p.token_isComment]⟩
    · obtain ⟨pre, post, he, hne, hrun, hpre, hpost⟩ := ih _ p.comments_isComment h
      refine ⟨lead ++ p.token :: pre, post, by simp [he], hne, hrun, ?_, hpost⟩
      rw [List.getLast?_append, List.getLast?_cons]
      cases hlast : pre.getLast? with
      | none => simp [p.token_isComment]
      | some t => simpa using hpre t hlast

theorem mem_commentRuns_iff {ts run : List Token} : run ∈ commentRuns ts ↔ MaximalRun ts run := by
  refine ⟨maximalRun_of_mem_commentRuns, fun ⟨pre, post, he, hne, hrun, hpre, hpost⟩ => ?_⟩
  have hmem : run ∈ commentRuns (run ++ post) := by
    cases post with
    | nil => simp [commentRuns_eq_singleton hne hrun]
    | cons t post =>
      rw [commentRuns_append_cons (hpost t rfl), commentRuns_eq_singleton hne hrun]
      exact List.mem_append_left _ List.mem_cons_self
  rw [he, List.append_assoc]
  rcases List.eq_nil_or_concat pre with rfl | ⟨pre, t, rfl⟩
  · exact hmem
  · have ht : t.isComment = false := hpre t (by simp)
    rw [List.concat_append, commentRuns_append_cons ht]
    exact List.mem_append_right _ hmem

theorem ne_nil_of_mem_commentRuns {ts run : List Token} (h : run ∈ commentRuns ts) : run ≠ [] := by
  obtain ⟨_, _, -, hne, -⟩ := mem_commentRuns_iff.1 h
  exact hne

theorem subset_of_mem_commentRuns {ts run : List Token} (h : run ∈ commentRuns ts) : run ⊆ ts := by
  obtain ⟨pre, post, rfl, -⟩ := mem_commentRuns_iff.1 h
  exact fun t ht => List.mem_append_left _ (List.mem_append_right _ ht)

theorem exists_span_eq {run : List Token} (h : run ≠ []) :
    ∃ t ∈ run, ∃ u ∈ run, span run = ⟨t.start, u.stop⟩ := by
  cases run with
  | nil => exact absurd rfl h
  | cons t ts => exact ⟨t, List.mem_cons_self, _, List.getLastD_mem_cons, rfl⟩

theorem Spaced.pairwise_commentRuns {ts : List Token} (h : Spaced ts) :
    (commentRuns ts).Pairwise fun run run' => (span run).start < (span run').start := by
  obtain ⟨lead, ps, rfl, hlead⟩ := Piece.exists_flatten ts
  induction ps generalizing lead with
  | nil =>
    rw [Piece.flatten_nil, List.append_nil, commentRuns_of_forall hlead]
    exact (List.pairwise_singleton _ _).filter _
  | cons p ps ih =>
    rw [Piece.flatten_cons, commentRuns_append_cons p.token_isComment]
    refine List.pairwise_append.2 ⟨?_, ih _ p.comments_isComment h.right.tail,
      fun run hrun run' hrun' => ?_⟩
    · rw [commentRuns_of_forall hlead]
      exact (List.pairwise_singleton _ _).filter _
    · obtain ⟨t, ht, u, -, he⟩ := exists_span_eq (ne_nil_of_mem_commentRuns hrun)
      obtain ⟨t', ht', u', -, he'⟩ := exists_span_eq (ne_nil_of_mem_commentRuns hrun')
      have hmem := subset_of_mem_commentRuns hrun ht
      have hmem' := subset_of_mem_commentRuns hrun' ht'
      have := h.nonempty t (List.mem_append_left _ hmem)
      have := h.stop_le_start hmem (List.mem_cons_of_mem _ hmem')
      rw [he, he']
      simp only
      omega

theorem Spaced.nodup_commentRuns {ts : List Token} (h : Spaced ts) :
    ((commentRuns ts).map span).Nodup := by
  refine List.pairwise_map.2 (h.pairwise_commentRuns.imp fun hlt he => ?_)
  rw [he] at hlt
  exact Nat.lt_irrefl _ hlt

namespace Outline

variable [Vocabulary K]

mutual

def comments : Outline K → List Range
  | .node kind range children =>
    if Vocabulary.isComment kind then range :: forestComments children else forestComments children

def forestComments : List (Outline K) → List Range
  | [] => []
  | o :: os => o.comments ++ forestComments os

end

theorem forestComments_append (os os' : List (Outline K)) :
    forestComments (os ++ os') = forestComments os ++ forestComments os' := by
  induction os with
  | nil => rfl
  | cons o os ih => rw [List.cons_append, forestComments, forestComments, ih, List.append_assoc]

end Outline

open Outline (forestComments)

section

variable [Vocabulary K]

theorem forestComments_commentNode (hc : Vocabulary.isComment (Vocabulary.comment : K) = true)
    (cs : List Token) :
    forestComments (commentNode cs : List (Outline K)) = ([cs].filter (!·.isEmpty)).map span := by
  cases cs with
  | nil => rfl
  | cons c cs =>
    rw [commentNode, forestComments, Outline.comments, if_pos hc]
    rfl

theorem forestComments_commentForest (hc : Vocabulary.isComment (Vocabulary.comment : K) = true)
    (ps : List Piece) :
    forestComments (commentForest ps : List (Outline K)) = (pieceRuns ps).map span := by
  induction ps with
  | nil => rfl
  | cons p ps ih =>
    rw [commentForest_cons, Outline.forestComments_append, forestComments_commentNode hc, ih,
      pieceRuns_cons, List.map_append]

namespace Part

variable {build : S → List Token → K}

mutual

theorem comments_forest_perm (hc : Vocabulary.isComment (Vocabulary.comment : K) = true)
    (hb : ∀ shape us, Vocabulary.isComment (build shape us) = false) (q : Part S) :
    (forestComments (q.forest build)).Perm ((pieceRuns q.pieces).map span) := by
  match q with
  | .token p =>
    rw [forest, own, List.nil_append, around, forestComments_commentForest hc]
    exact .refl _
  | .leaf shape first more =>
    rw [forest, own, Outline.forestComments_append, around, forestComments_commentForest hc,
      forestComments, Outline.comments, if_neg (by simp [hb])]
    exact .refl _
  | .block shape first more opener body closer =>
    have hbelow := (comments_below_perm hc hb opener.comments body).append_right
      ((pieceRuns (first :: more ++ closer.toList)).map span)
    rw [forest, own, Outline.forestComments_append, around, forestComments_commentForest hc,
      forestComments, Outline.comments, if_neg (by simp [hb]), forestComments, List.append_nil]
    -- The comments in the head come after the node, but before those inside of it in the text.
    refine hbelow.trans ?_
    rw [← pieceRuns_cons, pieces, pieceRuns_append, pieceRuns_append, pieceRuns_append,
      List.map_append, List.map_append, List.map_append, ← List.append_assoc]
    exact List.perm_append_comm.append_right _

theorem comments_below_perm (hc : Vocabulary.isComment (Vocabulary.comment : K) = true)
    (hb : ∀ shape us, Vocabulary.isComment (build shape us) = false) (lead : List Token)
    (body : List (Part S)) :
    (forestComments (commentNode lead ++ listForest build body)).Perm
      (([lead].filter (!·.isEmpty) ++ pieceRuns (listPieces body)).map span) := by
  rw [Outline.forestComments_append, forestComments_commentNode hc, List.map_append]
  exact (comments_listForest_perm hc hb body).append_left _

theorem comments_listForest_perm (hc : Vocabulary.isComment (Vocabulary.comment : K) = true)
    (hb : ∀ shape us, Vocabulary.isComment (build shape us) = false) (parts : List (Part S)) :
    (forestComments (listForest build parts)).Perm ((pieceRuns (listPieces parts)).map span) := by
  match parts with
  | [] => exact .refl _
  | q :: parts =>
    have hq := comments_forest_perm hc hb q
    rw [forest] at hq
    rw [listForest, listPieces, Outline.forestComments_append, pieceRuns_append, List.map_append]
    exact hq.append (comments_listForest_perm hc hb parts)

end

theorem comments_lead_perm (hc : Vocabulary.isComment (Vocabulary.comment : K) = true)
    (hb : ∀ shape us, Vocabulary.isComment (build shape us) = false) {lead : List Token}
    (hlead : ∀ t ∈ lead, t.isComment = true) (parts : List (Part S)) :
    (forestComments (commentNode lead ++ listForest build parts)).Perm
      ((commentRuns (lead ++ flatten (listPieces parts))).map span) := by
  rw [commentRuns_append_flatten hlead]
  exact comments_below_perm hc hb lead parts

end Part

end

end ProtoSyntax
