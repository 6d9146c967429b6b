import ProtoSyntax.Proofs.Parsing.Parts

/-!
# Bare tokens and pieces

What is left of a token without its place, and of a piece without its place and its comments: a kind
and a text. Derivations see no more than that, so pieces can be exchanged for others that are bare
alike, in a derivation and in the parts that it is cut into.
-/

namespace ProtoSyntax

variable {N S : Type}

namespace Token

def bare (t : Token) : Token := ⟨t.kind, 0, t.text⟩

@[simp] theorem kind_bare (t : Token) : t.bare.kind = t.kind := rfl

@[simp] theorem text_bare (t : Token) : t.bare.text = t.text := rfl

section

variable {t u : Token} (h : t.bare = u.bare)

include h

theorem kind_eq_of_bare_eq : t.kind = u.kind := by
  rw [← kind_bare t, h, kind_bare]

theorem text_eq_of_bare_eq : t.text = u.text := by
  rw [← text_bare t, h, text_bare]

theorem isComment_eq_of_bare_eq : t.isComment = u.isComment :=
  congrArg TokenKind.isComment (kind_eq_of_bare_eq h)

end

end Token

namespace Piece

def bare (p : Piece) : Piece where
  token := ⟨p.token.kind, 0, p.token.text⟩
  comments := []
  token_isComment := p.token_isComment
  comments_isComment := by simp

theorem kind_eq_of_bare_eq {p q : Piece} (h : p.bare = q.bare) : p.kind = q.kind :=
  congrArg (·.token.kind) h

theorem text_eq_of_bare_eq {p q : Piece} (h : p.bare = q.bare) : p.token.text = q.token.text :=
  congrArg (·.token.text) h

theorem bare_congr {p q : Piece} (h : p.token = q.token) : p.bare = q.bare := by
  simp only [bare, h]

theorem map_bare_congr {ps qs : List Piece} (h : ps.map (·.token) = qs.map (·.token)) :
    ps.map (·.bare) = qs.map (·.bare) := by
  induction ps generalizing qs with
  | nil =>
    obtain rfl := List.map_eq_nil_iff.1 h.symm
    rfl
  | cons p ps ih =>
    obtain ⟨q, qs, rfl, hq, hqs⟩ := List.map_eq_cons_iff.1 h.symm
    rw [List.map_cons, List.map_cons, ih hqs.symm, bare_congr hq]

end Piece

def Signal.bare : Signal S → Signal S
  | .token p => .token p.bare
  | .mark m => .mark m

namespace Signal

@[simp] theorem bare_bare (s : Signal S) : s.bare.bare = s.bare := by cases s <;> rfl

theorem pieces_map_bare (ss : List (Signal S)) :
    pieces (ss.map bare) = (pieces ss).map Piece.bare := by
  induction ss with
  | nil => rfl
  | cons s ss ih => cases s <;> simp [pieces, bare, ih]

theorem eq_of_bare_eq {ss ts : List (Signal S)} (hb : ss.map bare = ts.map bare)
    (hp : pieces ss = pieces ts) : ss = ts := by
  induction ss generalizing ts with
  | nil => exact (List.map_eq_nil_iff.1 hb.symm).symm
  | cons s ss ih =>
    obtain ⟨t, ts, rfl, ht, hts⟩ := List.map_eq_cons_iff.1 hb.symm
    cases s with
    | token p =>
      cases t with
      | token q =>
        obtain ⟨rfl, hpieces⟩ := List.cons.inj hp
        rw [ih hts.symm hpieces]
      | mark n => cases ht
    | mark m =>
      cases t with
      | token q => cases ht
      | mark n =>
        obtain rfl := Signal.mark.inj ht
        rw [ih hts.symm hp]

end Signal

/-- Derivations do not see places and comments. -/
theorem Derives.congr_bare {rule : N → Phrase N S} {e : Phrase N S} {ss ts : List (Signal S)}
    (h : Derives rule e ss) (hb : ss.map Signal.bare = ts.map Signal.bare) : Derives rule e ts := by
  induction h generalizing ts with
  | nil =>
    obtain rfl := List.map_eq_nil_iff.1 hb.symm
    exact .nil
  | @token accepts p e ss hp _ ih =>
    rw [List.map_cons, eq_comm, List.map_eq_cons_iff] at hb
    obtain ⟨t, ts, rfl, ht, hts⟩ := hb
    cases t with
    | mark m => cases ht
    | token q =>
      have hpq := Signal.token.inj ht
      refine .token ?_ (ih hts.symm)
      rw [Piece.kind_eq_of_bare_eq hpq, Piece.text_eq_of_bare_eq hpq]
      exact hp
  | mark m _ ih =>
    rw [List.map_cons, eq_comm, List.map_eq_cons_iff] at hb
    obtain ⟨t, ts, rfl, ht, hts⟩ := hb
    cases t with
    | token q => cases ht
    | mark n =>
      obtain rfl := Signal.mark.inj ht
      exact .mark _ (ih hts.symm)
  | alt ha _ ih => exact .alt ha (ih hb)
  | stop _ ih => exact .stop (ih hb)
  | more _ ih => exact .more (ih hb)
  | ref _ ih => exact .ref (ih hb)

namespace Part

mutual

def bare : Part S → Part S
  | .token p => .token p.bare
  | .leaf shape first more => .leaf shape first.bare (more.map (·.bare))
  | .block shape first more opener body closer =>
    .block shape first.bare (more.map (·.bare)) opener.bare (listBare body) (closer.map (·.bare))

def listBare : List (Part S) → List (Part S)
  | [] => []
  | q :: qs => q.bare :: listBare qs

end

theorem map_signals_ending (closer : Option Piece) :
    (ending closer : Move S).signals.map Signal.bare =
      (ending (closer.map (·.bare)) : Move S).signals := by
  cases closer <;> rfl

mutual

theorem signals_bare (q : Part S) : signals [q.bare] = (signals [q]).map Signal.bare := by
  match q with
  | .token p => rfl
  | .leaf shape first more => simp [bare, signals_leaf, Signal.bare]
  | .block shape first more opener body closer =>
    simp [bare, signals_block, Signal.bare, signals_listBare body, map_signals_ending]

theorem signals_listBare (parts : List (Part S)) :
    signals (listBare parts) = (signals parts).map Signal.bare := by
  match parts with
  | [] => rfl
  | q :: parts =>
    rw [← List.singleton_append, signals_append, List.map_append, ← signals_bare q,
      ← signals_listBare parts, ← signals_append]
    rfl

end

theorem pieces_bare_eq {q q' : Part S} (h : q.bare = q'.bare) :
    q.pieces.map (·.bare) = q'.pieces.map (·.bare) := by
  have hsignals := congrArg Signal.pieces (congrArg (fun q => signals [q]) h)
  simp only [signals_bare, Signal.pieces_map_bare, pieces_signals, listPieces, List.append_nil]
    at hsignals
  exact hsignals

theorem exists_closer {closer : Option Piece} {qs : List Piece}
    (h : qs.map (·.bare) = closer.toList.map (·.bare)) :
    ∃ closer' : Option Piece, closer'.map (·.bare) = closer.map (·.bare) ∧ closer'.toList = qs := by
  cases closer with
  | none =>
    obtain rfl := List.map_eq_nil_iff.1 h
    exact ⟨none, rfl, rfl⟩
  | some q =>
    obtain ⟨r, qs, rfl, hr, hqs⟩ := List.map_eq_cons_iff.1 h
    obtain rfl := List.map_eq_nil_iff.1 hqs
    exact ⟨some r, congrArg some hr, rfl⟩

mutual

theorem exists_bare_eq (q : Part S) (qs : List Piece)
    (h : qs.map (·.bare) = q.pieces.map (·.bare)) :
    ∃ q', bare q' = q.bare ∧ q'.pieces = qs := by
  match q with
  | .token p =>
    obtain ⟨r, qs, rfl, hr, hqs⟩ := List.map_eq_cons_iff.1 h
    obtain rfl := List.map_eq_nil_iff.1 hqs
    exact ⟨.token r, by simp [bare, hr], rfl⟩
  | .leaf shape first more =>
    obtain ⟨r, qs, rfl, hr, hqs⟩ := List.map_eq_cons_iff.1 h
    exact ⟨.leaf shape r qs, by simp [bare, hr, hqs], rfl⟩
  | .block shape first more opener body closer =>
    simp only [pieces, List.map_append, List.map_cons] at h
    obtain ⟨us, vs, rfl, hus, hvs⟩ := List.map_eq_append_iff.1 h
    obtain ⟨ws, ys, rfl, hws, hys⟩ := List.map_eq_append_iff.1 hus
    obtain ⟨r, xs, rfl, hr, hxs⟩ := List.map_eq_cons_iff.1 hws
    obtain ⟨o, zs, rfl, ho, hzs⟩ := List.map_eq_cons_iff.1 hys
    obtain ⟨body', hbody, rfl⟩ := exists_listBare_eq body zs hzs
    obtain ⟨closer', hcloser, rfl⟩ := exists_closer hvs
    refine ⟨.block shape r xs o body' closer', ?_, by simp [pieces]⟩
    simp [bare, hr, hxs, ho, hbody, hcloser]

theorem exists_listBare_eq (parts : List (Part S)) (qs : List Piece)
    (h : qs.map (·.bare) = (listPieces parts).map (·.bare)) :
    ∃ parts', listBare parts' = listBare parts ∧ listPieces parts' = qs := by
  match parts with
  | [] =>
    obtain rfl := List.map_eq_nil_iff.1 h
    exact ⟨[], rfl, rfl⟩
  | q :: parts =>
    rw [listPieces, List.map_append] at h
    obtain ⟨xs, ys, rfl, hxs, hys⟩ := List.map_eq_append_iff.1 h
    obtain ⟨q', hq, rfl⟩ := exists_bare_eq q xs hxs
    obtain ⟨parts', hparts, rfl⟩ := exists_listBare_eq parts ys hys
    exact ⟨q' :: parts', by simp [listBare, hq, hparts], rfl⟩

end

theorem derives_congr_bare {rule : N → Phrase N S} {e : Phrase N S} {parts parts' : List (Part S)}
    (h : Derives rule e (signals parts)) (hb : listBare parts = listBare parts') :
    Derives rule e (signals parts') := by
  refine h.congr_bare ?_
  rw [← signals_listBare, ← signals_listBare, hb]

end Part
end ProtoSyntax
