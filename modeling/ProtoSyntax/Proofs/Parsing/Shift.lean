import ProtoSyntax.Proofs.JoinedTokens
import ProtoSyntax.Proofs.Parsing.Assembly
import ProtoSyntax.Proofs.Parsing.Bare

/-!
# Parts further on in a text

Parts with the same tokens further on in a text make the same nodes there. The comments after the
last token of a part are outside of its node, if the part is closed, so that it does not matter
which they are.
-/

namespace ProtoSyntax
open Piece (flatten)

variable {S K : Type}

namespace Range

def shift (n : Nat) (r : Range) : Range := ⟨n + r.start, n + r.stop⟩

end Range

namespace Outline

mutual

def shift (n : Nat) : Outline K → Outline K
  | .node kind range children => .node kind (range.shift n) (shiftForest n children)

def shiftForest (n : Nat) : List (Outline K) → List (Outline K)
  | [] => []
  | o :: os => o.shift n :: shiftForest n os

end

theorem shiftForest_eq_map (n : Nat) (os : List (Outline K)) :
    shiftForest n os = os.map (·.shift n) := by
  induction os with
  | nil => rfl
  | cons o os ih => rw [shiftForest, ih, List.map_cons]

theorem range_shift (n : Nat) (o : Outline K) : (o.shift n).range = o.range.shift n := by
  cases o
  rfl

mutual

theorem shift_zero (o : Outline K) : o.shift 0 = o := by
  match o with
  | .node kind range children =>
    rw [shift, shiftForest_zero children, Range.shift, Nat.zero_add, Nat.zero_add]

theorem shiftForest_zero (os : List (Outline K)) : shiftForest 0 os = os := by
  match os with
  | [] => rfl
  | o :: os => rw [shiftForest, shift_zero o, shiftForest_zero os]

end

end Outline

namespace Token

theorem shift_zero (t : Token) : t.shift 0 = t := by
  rw [shift, Nat.zero_add]

theorem bare_shift (n : Nat) (t : Token) : (t.shift n).bare = t.bare := rfl

theorem stop_shift (n : Nat) (t : Token) : (t.shift n).stop = n + t.stop := Nat.add_assoc _ _ _

theorem getLastD_map_shift (n : Nat) (t : Token) (ts : List Token) :
    (ts.map (·.shift n)).getLastD (t.shift n) = (ts.getLastD t).shift n := by
  rw [List.getLastD_eq_getLast?, List.getLastD_eq_getLast?, List.getLast?_map]
  cases ts.getLast? <;> rfl

theorem isComment_map_shift {cs : List Token} (n : Nat) (h : ∀ t ∈ cs, t.isComment = true) :
    ∀ t ∈ cs.map (·.shift n), t.isComment = true := by
  intro t ht
  obtain ⟨u, hu, rfl⟩ := List.mem_map.1 ht
  exact h u hu

end Token

namespace Piece

def shift (n : Nat) (p : Piece) : Piece where
  token := p.token.shift n
  comments := p.comments.map (·.shift n)
  token_isComment := p.token_isComment
  comments_isComment := Token.isComment_map_shift n p.comments_isComment

theorem flatten_map_shift (n : Nat) (ps : List Piece) :
    flatten (ps.map (·.shift n)) = (flatten ps).map (·.shift n) := by
  induction ps with
  | nil => rfl
  | cons p ps ih =>
    rw [List.map_cons, flatten_cons, flatten_cons, List.map_cons, List.map_append, ih]
    rfl

theorem map_token_map_shift (n : Nat) (ps : List Piece) :
    (ps.map (·.shift n)).map (·.token) = (ps.map (·.token)).map (·.shift n) := by
  rw [List.map_map, List.map_map]
  rfl

theorem shift_zero (p : Piece) : p.shift 0 = p := by
  cases p with
  | mk token comments h h' =>
    simp only [shift, Token.shift_zero, List.map_id']

theorem map_shift_zero (ps : List Piece) : ps.map (·.shift 0) = ps := by
  simp only [shift_zero, List.map_id']

end Piece

theorem commentNode_map_shift [Vocabulary K] (n : Nat) (cs : List Token) :
    (commentNode (cs.map (·.shift n)) : List (Outline K)) = (commentNode cs).map (·.shift n) := by
  cases cs with
  | nil => rfl
  | cons c cs =>
    rw [List.map_cons, commentNode, Token.getLastD_map_shift, Token.stop_shift]
    rfl

theorem commentForest_map_shift [Vocabulary K] (n : Nat) (ps : List Piece) :
    (commentForest (ps.map (·.shift n)) : List (Outline K)) = (commentForest ps).map (·.shift n) := by
  induction ps with
  | nil => rfl
  | cons p ps ih =>
    rw [List.map_cons, commentForest_cons, commentForest_cons, ih, List.map_append,
      ← commentNode_map_shift]
    rfl

theorem lastStop_shift {n : Nat} {ps ps' : List Piece}
    (h : ps'.map (·.token) = (ps.map (·.token)).map (·.shift n)) (before : Nat) :
    lastStop (n + before) ps' = n + lastStop before ps := by
  have hlast := congrArg List.getLast? h
  rw [List.getLast?_map, List.getLast?_map, List.getLast?_map] at hlast
  unfold lastStop
  cases hp : ps.getLast? with
  | none =>
    rw [hp] at hlast
    rw [Option.map_eq_none_iff.1 hlast]
    rfl
  | some p =>
    rw [hp] at hlast
    obtain ⟨p', hp', htoken⟩ := Option.map_eq_some_iff.1 hlast
    have htoken : p'.token = p.token.shift n := htoken
    rw [hp']
    show p'.token.stop = n + p.token.stop
    rw [htoken, Token.stop_shift]

namespace Part

def isClosed : Part S → Bool
  | .block _ _ _ _ _ closer => closer.isSome
  | _ => true

theorem pieces_ne_nil (q : Part S) : q.pieces ≠ [] := by
  cases q <;> simp [pieces]

theorem listPieces_bare_eq {qs qs' : List (Part S)} (h : listBare qs' = listBare qs) :
    (listPieces qs').map (·.bare) = (listPieces qs).map (·.bare) := by
  have hsignals := congrArg Signal.pieces (congrArg signals h)
  simp only [signals_listBare, Signal.pieces_map_bare, pieces_signals] at hsignals
  exact hsignals

theorem listBare_eq_map (qs : List (Part S)) : listBare qs = qs.map bare := by
  induction qs with
  | nil => rfl
  | cons q qs ih => rw [listBare, ih, List.map_cons]

end Part

/-- Two ways to tell the kind of a node that give the same answers for some tokens of one text and
these tokens further on in another. -/
def Agrees (n : Nat) (build build' : S → List Token → K) (ts : List Token) : Prop :=
  ∀ shape us, us.Sublist ts → build' shape (us.map (·.shift n)) = build shape us

theorem Agrees.mono {n : Nat} {build build' : S → List Token → K} {ts us : List Token}
    (h : Agrees n build build' ts) (hs : us.Sublist ts) : Agrees n build build' us :=
  fun shape vs hvs => h shape vs (hvs.trans hs)

namespace Part

variable [Vocabulary K] {n : Nat} {build build' : S → List Token → K}

theorem own_leaf_shift {shape : S} {first first' : Piece} {more more' : List Piece}
    (ht : (first' :: more').map (·.token) = ((first :: more).map (·.token)).map (·.shift n))
    (ha : Agrees n build build' ((first :: more).map (·.token))) :
    own build' (.leaf shape first' more') = (own build (.leaf shape first more)).map (·.shift n) := by
  have hfirst : first'.token = first.token.shift n := (List.cons.inj ht).1
  have hstop := lastStop_shift ht 0
  rw [lastStop_cons_congr (n + 0) 0] at hstop
  rw [own, own, ht, ha shape _ (List.Sublist.refl _), hfirst, hstop]
  rfl

theorem own_block_shift {shape : S} {first first' opener opener' : Piece} {more more' : List Piece}
    {body body' : List (Part S)} {closer closer' : Option Piece}
    (hhead : (first' :: more').map (·.token) = ((first :: more).map (·.token)).map (·.shift n))
    (hopener : opener' = opener.shift n) (hbody : listPieces body' = (listPieces body).map (·.shift n))
    (hcloser : closer'.toList.map (·.token) = (closer.toList.map (·.token)).map (·.shift n))
    (hforest : listForest build' body' = (listForest build body).map (·.shift n))
    (ha : Agrees n build build' ((first :: more).map (·.token))) :
    own build' (.block shape first' more' opener' body' closer') =
      (own build (.block shape first more opener body closer)).map (·.shift n) := by
  have hfirst : first'.token = first.token.shift n := (List.cons.inj hhead).1
  have hbelow : (commentNode opener'.comments ++ listForest build' body' : List (Outline K)) =
      (commentNode opener.comments ++ listForest build body).map (Outline.shift n) := by
    rw [hopener, hforest, List.map_append, ← commentNode_map_shift]
    rfl
  rw [own, own, hbelow]
  generalize commentNode opener.comments ++ listForest build body = below
  have hstops : lastStop 0 (opener' :: listPieces body') =
      n + lastStop 0 (opener :: listPieces body) := by
    rw [lastStop_cons_congr 0 (n + 0)]
    refine lastStop_shift ?_ 0
    rw [hopener, hbody, ← Piece.map_token_map_shift]
    rfl
  have hmax : max (Outline.lastStop (below.map (Outline.shift n)))
      (n + lastStop 0 (opener :: listPieces body)) =
      n + max (Outline.lastStop below) (lastStop 0 (opener :: listPieces body)) := by
    rw [Outline.lastStop, Outline.lastStop, List.getLast?_map]
    cases below.getLast? with
    | none => simp
    | some o =>
      show max (o.shift n).range.stop _ = n + max o.range.stop _
      rw [Outline.range_shift]
      exact Nat.add_max_add_left _ _ _
  rw [hhead, ha shape _ (List.Sublist.refl _), hfirst, hstops, hmax, lastStop_shift hcloser]
  rw [List.map_singleton, Outline.shift, Outline.shiftForest_eq_map]
  rfl

theorem front_shift {first first' opener opener' : Piece} {more more' ps ps' : List Piece}
    (hmore : more'.map (·.bare) = more.map (·.bare))
    (h : first' :: more' ++ opener' :: ps' = (first :: more ++ opener :: ps).map (·.shift n)) :
    first' :: more' = (first :: more).map (·.shift n) ∧ opener' = opener.shift n ∧
      ps' = ps.map (·.shift n) := by
  have hlength := congrArg List.length hmore
  rw [List.length_map, List.length_map] at hlength
  rw [List.map_append] at h
  obtain ⟨hhead, hrest⟩ := List.append_inj h (by simp [hlength])
  exact ⟨hhead, List.cons.inj hrest⟩

theorem length_toList_eq {closer closer' : Option Piece}
    (h : closer'.map (·.bare) = closer.map (·.bare)) :
    closer'.toList.length = closer.toList.length := by
  have := congrArg Option.isSome h
  cases closer <;> cases closer' <;> simp at this ⊢

theorem length_pieces_eq {q q' : Part S} (h : q'.bare = q.bare) :
    q'.pieces.length = q.pieces.length := by
  have := congrArg List.length (pieces_bare_eq h)
  rwa [List.length_map, List.length_map] at this

theorem block_pieces_shift {shape : S} {first first' opener opener' : Piece} {more more' : List Piece}
    {body body' : List (Part S)} {closer closer' : Option Piece}
    (hb : bare (.block shape first' more' opener' body' closer') =
      bare (.block shape first more opener body closer))
    (hp : pieces (.block shape first' more' opener' body' closer') =
      (pieces (.block shape first more opener body closer)).map (·.shift n)) :
    (first' :: more' = (first :: more).map (·.shift n) ∧ opener' = opener.shift n ∧
      listPieces body' = (listPieces body).map (·.shift n)) ∧
      closer'.toList = closer.toList.map (·.shift n) := by
  obtain ⟨-, -, hmore, -, -, hcloser⟩ := block.inj hb
  rw [pieces, pieces, List.map_append] at hp
  obtain ⟨hfront, hend⟩ := List.append_inj' hp (by rw [List.length_map, length_toList_eq hcloser])
  exact ⟨front_shift hmore hfront, hend⟩

theorem around_shift {q q' : Part S} (hb : q'.bare = q.bare)
    (hp : q'.pieces = q.pieces.map (·.shift n)) : q'.around = q.around.map (·.shift n) := by
  cases q with
  | token | leaf => cases q' <;> first | exact hp | cases hb
  | block shape first more opener body closer =>
    cases q' with
    | block shape' first' more' opener' body' closer' =>
      obtain ⟨rfl, -⟩ := block.inj hb
      obtain ⟨⟨hhead, -, -⟩, hend⟩ := block_pieces_shift hb hp
      rw [around, around, List.map_append, ← hhead, ← hend]
    | token | leaf => cases hb

mutual

theorem own_shift (q q' : Part S) (hb : q'.bare = q.bare) (hp : q'.pieces = q.pieces.map (·.shift n))
    (ha : Agrees n build build' (q.pieces.map (·.token))) :
    q'.own build' = (q.own build).map (·.shift n) := by
  match q with
  | .token p =>
    cases q' with
    | token p' => rfl
    | leaf | block => cases hb
  | .leaf shape first more =>
    cases q' with
    | leaf shape' first' more' =>
      obtain ⟨rfl, -, -⟩ := leaf.inj hb
      rw [pieces, pieces] at hp
      exact own_leaf_shift (by rw [hp, Piece.map_token_map_shift]) ha
    | token | block => cases hb
  | .block shape first more opener body closer =>
    cases q' with
    | block shape' first' more' opener' body' closer' =>
      obtain ⟨rfl, -, -, -, hbody, -⟩ := block.inj hb
      obtain ⟨⟨hhead, hopener, hps⟩, hend⟩ := block_pieces_shift hb hp
      simp only [pieces, List.map_append, List.map_cons] at ha
      refine own_block_shift ?_ hopener hps ?_ ?_ (ha.mono ?_)
      · rw [hhead, Piece.map_token_map_shift]
      · rw [hend, Piece.map_token_map_shift]
      · refine listForest_shift body body' hbody hps (ha.mono ?_)
        exact ((List.sublist_cons_self _ _).trans (List.sublist_append_right _ _)).trans
          (List.sublist_append_left _ _)
      · exact (List.sublist_append_left _ _).trans (List.sublist_append_left _ _)
    | token | leaf => cases hb

theorem listForest_shift (qs qs' : List (Part S)) (hb : listBare qs' = listBare qs)
    (hp : listPieces qs' = (listPieces qs).map (·.shift n))
    (ha : Agrees n build build' ((listPieces qs).map (·.token))) :
    listForest build' qs' = (listForest build qs).map (·.shift n) := by
  match qs with
  | [] =>
    cases qs' with
    | nil => rfl
    | cons q' qs' => cases hb
  | q :: qs =>
    cases qs' with
    | nil => cases hb
    | cons q' qs' =>
      obtain ⟨hq, hqs⟩ := List.cons.inj hb
      rw [listPieces, listPieces, List.map_append] at hp
      obtain ⟨hp, hps⟩ := List.append_inj hp (by rw [List.length_map, length_pieces_eq hq])
      rw [listPieces, List.map_append] at ha
      rw [listForest, listForest, around_shift hq hp, commentForest_map_shift,
        own_shift q q' hq hp (ha.mono (List.sublist_append_left _ _)),
        listForest_shift qs qs' hqs hps (ha.mono (List.sublist_append_right _ _)),
        List.map_append, List.map_append]

end

/-- The comments after the last token of a closed part have no influence on its node. -/
theorem own_shift_of_isClosed {q q' : Part S} (hclosed : q.isClosed = true) (hb : q'.bare = q.bare)
    (hp : q'.pieces.dropLast = q.pieces.dropLast.map (·.shift n))
    (ht : q'.pieces.map (·.token) = (q.pieces.map (·.token)).map (·.shift n))
    (ha : Agrees n build build' (q.pieces.map (·.token))) :
    q'.own build' = (q.own build).map (·.shift n) := by
  cases q with
  | token p =>
    cases q' with
    | token p' => rfl
    | leaf | block => cases hb
  | leaf shape first more =>
    cases q' with
    | leaf shape' first' more' =>
      obtain ⟨rfl, -, -⟩ := leaf.inj hb
      exact own_leaf_shift ht ha
    | token | block => cases hb
  | block shape first more opener body closer =>
    cases q' with
    | block shape' first' more' opener' body' closer' =>
      obtain ⟨rfl, -, hmore, -, hbody, hcloser⟩ := block.inj hb
      cases closer with
      | none => cases hclosed
      | some c =>
        cases closer' with
        | none => cases hcloser
        | some c' =>
          simp only [pieces, Option.toList_some, List.dropLast_concat] at hp
          obtain ⟨hhead, hopener, hps⟩ := front_shift hmore hp
          simp only [pieces, Option.toList_some, List.map_append] at ht ha
          obtain ⟨-, hc⟩ := List.append_inj' ht rfl
          simp only [List.map_cons] at ha
          refine own_block_shift ?_ hopener hps hc ?_ (ha.mono ?_)
          · rw [hhead, Piece.map_token_map_shift]
          · refine listForest_shift body body' hbody hps (ha.mono ?_)
            exact ((List.sublist_cons_self _ _).trans (List.sublist_append_right _ _)).trans
              (List.sublist_append_left _ _)
          · exact (List.sublist_append_left _ _).trans (List.sublist_append_left _ _)
    | token | leaf => cases hb

theorem flatMap_own_shift {qs qs' : List (Part S)} (hclosed : ∀ q ∈ qs, q.isClosed = true)
    (hb : listBare qs' = listBare qs)
    (hp : (listPieces qs').dropLast = (listPieces qs).dropLast.map (·.shift n))
    (ht : (listPieces qs').map (·.token) = ((listPieces qs).map (·.token)).map (·.shift n))
    (ha : Agrees n build build' ((listPieces qs).map (·.token))) :
    qs'.flatMap (own build') = (qs.flatMap (own build)).map (·.shift n) := by
  induction qs generalizing qs' with
  | nil =>
    cases qs' with
    | nil => rfl
    | cons q' qs' => cases hb
  | cons q qs ih =>
    cases qs' with
    | nil => cases hb
    | cons q' qs' =>
      obtain ⟨hq, hqs⟩ := List.cons.inj hb
      obtain ⟨hone, hmore⟩ := List.forall_mem_cons.1 hclosed
      rw [listPieces, List.map_append] at ha
      have hq' := ha.mono (List.sublist_append_left _ _)
      rw [List.flatMap_cons, List.flatMap_cons, List.map_append]
      -- Only the last part may be followed by other comments than before.
      cases qs with
      | nil =>
        obtain rfl := List.map_eq_nil_iff.1 ((listBare_eq_map qs').symm.trans hqs)
        simp only [listPieces, List.append_nil] at hp ht
        rw [own_shift_of_isClosed hone hq hp ht hq']
        rfl
      | cons r rs =>
        have hne : listPieces (r :: rs) ≠ [] := by simp [listPieces, pieces_ne_nil]
        have hne' : listPieces qs' ≠ [] := by
          cases qs' with
          | nil => cases hqs
          | cons r' rs' => simp [listPieces, pieces_ne_nil]
        rw [listPieces, listPieces, List.dropLast_append_of_ne_nil hne',
          List.dropLast_append_of_ne_nil hne, List.map_append] at hp
        obtain ⟨hp, hps⟩ := List.append_inj hp (by rw [List.length_map, length_pieces_eq hq])
        rw [listPieces, listPieces, List.map_append, List.map_append, List.map_append] at ht
        obtain ⟨-, hts⟩ := List.append_inj ht (by simp only [List.length_map, length_pieces_eq hq])
        rw [own_shift q q' hq hp hq', ih hmore hqs hps hts (ha.mono (List.sublist_append_right _ _))]

end Part
end ProtoSyntax
