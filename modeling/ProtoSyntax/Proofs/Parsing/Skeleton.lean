import ProtoSyntax.Proofs.Parsing.Bare
import ProtoSyntax.Proofs.Parsing.Reading

/-!
# Trees without their comments

The nodes of a derivation are those of its leaves and blocks, nested as these are. They are all that
is left of a tree once comments are left out and ranges are forgotten.
-/

namespace ProtoSyntax

variable {S K : Type}

namespace Outline

variable [Vocabulary K] (f : K → K)

mutual

/-- A node without ranges and comments; of the kinds, only what `f` leaves is kept. -/
def bare : Outline K → Outline K
  | .node kind _ children => .node (f kind) ⟨0, 0⟩ (bareForest children)

def bareForest : List (Outline K) → List (Outline K)
  | [] => []
  | o :: os => if Vocabulary.isComment o.kind then bareForest os else o.bare :: bareForest os

end

theorem bareForest_append (os os' : List (Outline K)) :
    bareForest f (os ++ os') = bareForest f os ++ bareForest f os' := by
  induction os with
  | nil => rfl
  | cons o os ih =>
    rw [List.cons_append, bareForest, bareForest, ih]
    split <;> rfl

variable {f}

theorem bareForest_commentNode (hc : Vocabulary.isComment (Vocabulary.comment : K) = true)
    (cs : List Token) : bareForest f (commentNode cs) = [] := by
  cases cs with
  | nil => rfl
  | cons c cs => exact if_pos hc

theorem bareForest_commentForest (hc : Vocabulary.isComment (Vocabulary.comment : K) = true)
    (ps : List Piece) : bareForest f (commentForest ps) = [] := by
  induction ps with
  | nil => rfl
  | cons p ps ih =>
    rw [commentForest_cons, bareForest_append, bareForest_commentNode hc, ih, List.append_nil]

end Outline

namespace Part

variable (build : S → List Token → K)

mutual

def skeleton : Part S → List (Outline K)
  | .token _ => []
  | .leaf shape first more => [.node (build shape ((first :: more).map (·.token))) ⟨0, 0⟩ []]
  | .block shape first more _ body _ =>
    [.node (build shape ((first :: more).map (·.token))) ⟨0, 0⟩ (listSkeleton body)]

def listSkeleton : List (Part S) → List (Outline K)
  | [] => []
  | q :: qs => q.skeleton ++ listSkeleton qs

end

variable {build}

theorem listSkeleton_append (qs rs : List (Part S)) :
    listSkeleton build (qs ++ rs) = listSkeleton build qs ++ listSkeleton build rs := by
  induction qs with
  | nil => rfl
  | cons q qs ih => simp [listSkeleton, ih]

theorem listSkeleton_map_token (ps : List Piece) : listSkeleton build (ps.map .token) = [] := by
  induction ps with
  | nil => rfl
  | cons p ps ih => simp [listSkeleton, skeleton, ih]

mutual

theorem skeleton_congr (q q' : Part S) (hb : q.bare = q'.bare)
    (hp : q.pieces.map (·.token) = q'.pieces.map (·.token)) :
    q.skeleton build = q'.skeleton build := by
  match q with
  | .token p =>
    cases q' with
    | token p' => rfl
    | leaf | block => cases hb
  | .leaf shape first more =>
    cases q' with
    | leaf shape' first' more' =>
      obtain ⟨rfl, -, -⟩ := leaf.inj hb
      rw [pieces, pieces] at hp
      rw [skeleton, skeleton, hp]
    | token | block => cases hb
  | .block shape first more opener body closer =>
    cases q' with
    | block shape' first' more' opener' body' closer' =>
      obtain ⟨rfl, -, hmore, -, hbody, hcloser⟩ := block.inj hb
      have hclosers : closer.toList.length = closer'.toList.length := by
        have := congrArg Option.isSome hcloser
        cases closer <;> cases closer' <;> simp at this ⊢
      have hlength := congrArg List.length hmore
      rw [List.length_map, List.length_map] at hlength
      simp only [pieces, List.map_append, List.map_cons] at hp
      obtain ⟨hp, -⟩ := List.append_inj' hp (by simpa using hclosers)
      obtain ⟨hhead, hp⟩ := List.append_inj hp (by simpa using hlength)
      obtain ⟨-, hp⟩ := List.cons.inj hp
      rw [skeleton, skeleton, List.map_cons, List.map_cons, hhead,
        listSkeleton_congr body body' hbody hp]
    | token | leaf => cases hb

theorem listSkeleton_congr (qs qs' : List (Part S)) (hb : listBare qs = listBare qs')
    (hp : (listPieces qs).map (·.token) = (listPieces qs').map (·.token)) :
    listSkeleton build qs = listSkeleton build qs' := by
  match qs with
  | [] =>
    cases qs' with
    | nil => rfl
    | cons q' qs' => cases hb
  | q :: qs =>
    cases qs' with
    | nil => cases hb
    | cons q' qs' =>
      obtain ⟨hq, hqs⟩ := List.cons.inj hb
      have hlength := congrArg List.length (pieces_bare_eq hq)
      rw [List.length_map, List.length_map] at hlength
      simp only [listPieces, List.map_append] at hp
      obtain ⟨hp, hps⟩ := List.append_inj hp (by simpa using hlength)
      rw [listSkeleton, listSkeleton, skeleton_congr q q' hq hp, listSkeleton_congr qs qs' hqs hps]

end

variable [Vocabulary K] {f : K → K}

mutual

theorem bareForest_own (hc : Vocabulary.isComment (Vocabulary.comment : K) = true)
    (hb : ∀ shape us, Vocabulary.isComment (build shape us) = false) (q : Part S) :
    Outline.bareForest f (q.own build) = q.skeleton fun shape us => f (build shape us) := by
  match q with
  | .token p => rfl
  | .leaf shape first more =>
    rw [own, skeleton, Outline.bareForest, Outline.kind, if_neg (by simp [hb])]
    rfl
  | .block shape first more opener body closer =>
    rw [own, skeleton, Outline.bareForest, Outline.kind, if_neg (by simp [hb]), Outline.bare,
      Outline.bareForest_append, Outline.bareForest_commentNode hc, bareForest_listForest hc hb body]
    rfl

theorem bareForest_listForest (hc : Vocabulary.isComment (Vocabulary.comment : K) = true)
    (hb : ∀ shape us, Vocabulary.isComment (build shape us) = false) (parts : List (Part S)) :
    Outline.bareForest f (listForest build parts) =
      listSkeleton (fun shape us => f (build shape us)) parts := by
  match parts with
  | [] => rfl
  | q :: parts =>
    rw [listForest, listSkeleton, Outline.bareForest_append, Outline.bareForest_append,
      Outline.bareForest_commentForest hc, List.append_nil, bareForest_own hc hb q,
      bareForest_listForest hc hb parts]

end

end Part

theorem Reads.Made.outline_bare {G : Type} [Vocabulary K] {f : K → K} {g : Grammar G S K} {text : String}
    {lead : List Token} {parts : List (Part S)} {tree : Tree K} (h : Made g text lead parts tree)
    (hc : Vocabulary.isComment (Vocabulary.comment : K) = true)
    (hb : ∀ shape us, Vocabulary.isComment (g.build shape text us) = false) :
    tree.outline?.map (Outline.bare f) = some (.node (f Vocabulary.root) ⟨0, 0⟩
      (Part.listSkeleton (fun shape us => f (g.build shape text us)) parts)) := by
  rw [h.outline, Option.map_some, Outline.bare, Outline.bareForest_append,
    Outline.bareForest_commentNode hc, Part.bareForest_listForest hc hb]
  rfl

end ProtoSyntax
