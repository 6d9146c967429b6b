import ProtoSyntax.Proofs.Parsing.Exchange
import ProtoSyntax.Proofs.Parsing.Shift
import ProtoSyntax.Proofs.Tree.Nested

/-!
# Trees of joined texts

A goal that derives a row of declarations derives two rows in a row. So the declarations of two texts
of tokens, one after the other, are those of the first and those of the second further on. Comments
of both that meet become one node.
-/

namespace ProtoSyntax
open Ebnf (star)
open Piece (flatten)

variable {G N S K L : Type}

namespace Derives

variable {rule : N → Phrase N S} {a : Phrase N S} {ss ts : List (Signal S)}

theorem star_append (hs : Derives rule [.star a] ss) (ht : Derives rule [.star a] ts) :
    Derives rule [.star a] (ss ++ ts) := by
  obtain ⟨x, xs, rfl, hx, hxs⟩ := star_inv (b := []) hs
  cases hx
  clear hs
  induction xs with
  | nil => exact ht
  | cons x xs ih =>
    obtain ⟨hx, hxs⟩ := List.forall_mem_cons.1 hxs
    rw [List.nil_append, List.flatten_cons, List.append_assoc]
    exact .more (hx.append (ih hxs))

end Derives

theorem Piece.exists_flatten_append {lead more : List Token} (hlead : ∀ t ∈ lead, t.isComment = true)
    (hmore : ∀ t ∈ more, t.isComment = true) (ps : List Piece) :
    ∃ lead' ps', lead ++ flatten ps ++ more = lead' ++ flatten ps' ∧
      (∀ t ∈ lead', t.isComment = true) ∧ ps'.dropLast = ps.dropLast ∧
      ps'.map (·.token) = ps.map (·.token) := by
  rcases List.eq_nil_or_concat ps with rfl | ⟨ps, p, rfl⟩
  · refine ⟨lead ++ more, [], by simp, fun t ht => ?_, rfl, rfl⟩
    exact (List.mem_append.1 ht).elim (hlead t) (hmore t)
  · let p' : Piece := ⟨p.token, p.comments ++ more, p.token_isComment, fun t ht =>
      (List.mem_append.1 ht).elim (p.comments_isComment t) (hmore t)⟩
    refine ⟨lead, ps ++ [p'], ?_, hlead, ?_, ?_⟩
    · simp [p']
    · rw [List.concat_eq_append, List.dropLast_concat, List.dropLast_concat]
    · simp [p']

theorem Piece.exists_flatten_joined {lead lead' : List Token} (hlead : ∀ t ∈ lead, t.isComment = true)
    (hlead' : ∀ t ∈ lead', t.isComment = true) (ps qs : List Piece) (n : Nat) :
    ∃ lead'' ps', lead ++ flatten ps ++ (lead' ++ flatten qs).map (·.shift n) =
        lead'' ++ flatten (ps' ++ qs.map (·.shift n)) ∧
      (∀ t ∈ lead'', t.isComment = true) ∧ ps'.dropLast = ps.dropLast ∧
      ps'.map (·.token) = ps.map (·.token) := by
  obtain ⟨lead'', ps', he, hlead'', hlast, htokens⟩ :=
    exists_flatten_append hlead (Token.isComment_map_shift n hlead') ps
  refine ⟨lead'', ps', ?_, hlead'', hlast, htokens⟩
  rw [List.map_append, ← flatten_map_shift, ← List.append_assoc, he, flatten_append, List.append_assoc]

theorem Piece.map_bare_map_shift (n : Nat) (ps : List Piece) :
    (ps.map (·.shift n)).map (·.bare) = ps.map (·.bare) := by
  rw [List.map_map]
  rfl

namespace Part

variable [Vocabulary K] {build : S → List Token → K}

theorem filter_commentForest (hc : Vocabulary.isComment (Vocabulary.comment : K) = true)
    (ps : List Piece) :
    (commentForest ps : List (Outline K)).filter (fun o => !Vocabulary.isComment o.kind) = [] := by
  refine List.filter_eq_nil_iff.2 fun o ho => ?_
  obtain ⟨p, -, hp⟩ := List.mem_flatMap.1 ho
  cases hcs : p.comments with
  | nil =>
    rw [hcs] at hp
    cases hp
  | cons c cs =>
    rw [hcs] at hp
    obtain rfl := List.mem_singleton.1 hp
    simp [Outline.kind, hc]

theorem filter_own (hb : ∀ shape us, Vocabulary.isComment (build shape us) = false) (q : Part S) :
    (q.own build).filter (fun o => !Vocabulary.isComment o.kind) = q.own build := by
  refine List.filter_eq_self.2 fun o ho => ?_
  cases q with
  | token p => cases ho
  | leaf | block =>
    obtain rfl := List.mem_singleton.1 ho
    simp [Outline.kind, hb]

theorem filter_listForest (hc : Vocabulary.isComment (Vocabulary.comment : K) = true)
    (hb : ∀ shape us, Vocabulary.isComment (build shape us) = false) (parts : List (Part S)) :
    (listForest build parts).filter (fun o => !Vocabulary.isComment o.kind) =
      parts.flatMap (own build) := by
  induction parts with
  | nil => rfl
  | cons q parts ih =>
    rw [listForest, List.filter_append, List.filter_append, filter_commentForest hc, List.append_nil,
      filter_own hb, ih, List.flatMap_cons]

end Part

def Tree.Declares [Vocabulary K] (t : Tree K) (os : List (Outline K)) : Prop :=
  t.Shows (t.declarations root) os

theorem Tree.Declares.exists_of_singleton [Vocabulary K] {t : Tree K} {o : Outline K} (h : t.Declares [o]) :
    ∃ id, t.declarations root = [id] ∧ t.outlineAt? id = some o := by
  rw [Declares] at h
  generalize t.declarations root = ids at h ⊢
  cases h with
  | cons ho hnil =>
    cases hnil
    exact ⟨_, rfl, ho⟩

namespace Reads

theorem Made.declares [Vocabulary K] {g : Grammar G S K} {text : String} {lead : List Token}
    {parts : List (Part S)} {tree : Tree K} (h : Made g text lead parts tree)
    (hc : Vocabulary.isComment (Vocabulary.comment : K) = true)
    (hb : ∀ shape us, Vocabulary.isComment (g.build shape text us) = false) :
    tree.Declares (parts.flatMap (Part.own fun shape => g.build shape text)) := by
  obtain ⟨n, hn, -, -, hshows⟩ := h.linked.shows_children h.outline
  rw [Tree.Declares, Tree.declarations, Tree.children_of_node? hn, ← Part.filter_listForest hc hb]
  have hfilter := hshows.filter (!·)
  have hlead : (commentNode lead : List (Outline K)).filter
      (fun o => !Vocabulary.isComment o.kind) = [] := by
    cases lead with
    | nil => rfl
    | cons c cs => simp [commentNode, Outline.kind, hc]
  rwa [Outline.children, List.filter_append, hlead, List.nil_append] at hfilter

variable {g : Grammar G S K} {goal : G} {rule : N → Phrase N S} {lang : G → Phrase N S}
  {follow : G → List (Symbol G S) → Prop} {blind : G → List Piece → Prop}
  {layout : Layout N S L} {place : L} {a : Phrase N S} [Vocabulary K]
  {text more whole : String} {xs ys : List Token} {n : Nat} {t u w : Tree K}
  (h : Reads g goal rule lang follow blind layout place) (hstar : lang goal = [.star a])
  (hx : Ordered xs) (hy : Ordered ys) (hxy : Ordered (xs ++ ys.map (·.shift n)))
  (ht : g.parse goal text xs = .ok t) (hu : g.parse goal more ys = .ok u)

include h hstar hx hy ht hu

theorem exists_parts_joined (n : Nat) : ∃ lead parts lead' parts' lead'' qs,
    (xs = lead ++ flatten (Part.listPieces parts) ∧ ∀ s ∈ lead, s.isComment = true) ∧
    (ys = lead' ++ flatten (Part.listPieces parts') ∧ ∀ s ∈ lead', s.isComment = true) ∧
    (Made g text lead parts t ∧ Made g more lead' parts' u) ∧
    Derives rule (lang goal) (Part.signals (parts ++ parts')) ∧
    (∀ q ∈ parts ++ parts', Fits rule layout place q) ∧
    (xs ++ ys.map (·.shift n) = lead'' ++ flatten (qs ++ (Part.listPieces parts').map (·.shift n)) ∧
      ∀ s ∈ lead'', s.isComment = true) ∧
    qs.dropLast = (Part.listPieces parts).dropLast ∧
    qs.map (·.token) = (Part.listPieces parts).map (·.token) := by
  obtain ⟨lead, ps, rfl, hlead⟩ := Piece.exists_flatten xs
  obtain ⟨lead', ps', rfl, hlead'⟩ := Piece.exists_flatten ys
  obtain ⟨parts, rfl, hd, hfits, hmade⟩ := h.parse_sound hlead hx ht
  obtain ⟨parts', rfl, hd', hfits', hmade'⟩ := h.parse_sound hlead' hy hu
  obtain ⟨lead'', qs, he, hlead'', hlast, htokens⟩ := Piece.exists_flatten_joined hlead hlead'
    (Part.listPieces parts) (Part.listPieces parts') n
  refine ⟨lead, parts, lead', parts', lead'', qs, ⟨rfl, hlead⟩, ⟨rfl, hlead'⟩, ⟨hmade, hmade'⟩, ?_,
    fun q hq => (List.mem_append.1 hq).elim (hfits q) (hfits' q), ⟨he, hlead''⟩, hlast, htokens⟩
  rw [hstar] at hd hd' ⊢
  rw [Part.signals_append]
  exact hd.star_append hd'

omit [Vocabulary K] h hstar hx hy ht hu in
theorem map_bare_joined {parts parts' : List (Part S)} {qs : List Piece}
    (htokens : qs.map (·.token) = (Part.listPieces parts).map (·.token)) :
    (qs ++ (Part.listPieces parts').map (·.shift n)).map (·.bare) =
      (Part.listPieces (parts ++ parts')).map (·.bare) := by
  rw [Part.listPieces_append, List.map_append, List.map_append, Piece.map_bare_congr htokens,
    Piece.map_bare_map_shift]

include hxy

/-- Tokens after those of a text are read with them, if they are read alone and no comment hides
anything. -/
theorem exists_joined (hclear : ∀ g ps, ¬ blind g ps) :
    ∃ w, g.parse goal whole (xs ++ ys.map (·.shift n)) = .ok w := by
  obtain ⟨lead, parts, lead', parts', lead'', qs, -, -, -, hd, -, ⟨he, hlead''⟩, -, htokens⟩ :=
    h.exists_parts_joined hstar hx hy ht hu n
  rw [he] at hxy ⊢
  exact h.exists_tree hd hlead'' hxy (map_bare_joined htokens) fun g qs _ => hclear g qs

theorem declares_joined (hblind : ∀ g ps, (∀ p ∈ ps, p.comments = []) → ¬ blind g ps)
    (hclosed : ∀ q, Fits rule layout place q → q.isClosed = true)
    (hc : Vocabulary.isComment (Vocabulary.comment : K) = true)
    (hb : ∀ shape text us, Vocabulary.isComment (g.build shape text us) = false)
    (ha : Agrees 0 (fun shape => g.build shape text) (fun shape => g.build shape whole) xs)
    (ha' : Agrees n (fun shape => g.build shape more) (fun shape => g.build shape whole) ys)
    (hw : g.parse goal whole (xs ++ ys.map (·.shift n)) = .ok w) :
    ∃ os os', t.Declares os ∧ u.Declares os' ∧ w.Declares (os ++ os'.map (Outline.shift n)) := by
  obtain ⟨lead, parts, lead', parts', lead'', qs, ⟨rfl, hlead⟩, ⟨rfl, hlead'⟩, ⟨hmade, hmade'⟩, hd,
    hfits, ⟨he, hlead''⟩, hlast, htokens⟩ := h.exists_parts_joined hstar hx hy ht hu n
  rw [he] at hxy hw
  obtain ⟨rs, hbare, hpieces, hmade''⟩ :=
    h.exists_made hblind hd hlead'' hxy (map_bare_joined htokens) hw
  rw [Part.listBare_eq_map, Part.listBare_eq_map, List.map_append] at hbare
  obtain ⟨qs', rs', rfl, hqs, hrs⟩ := List.map_eq_append_iff.1 hbare
  rw [← Part.listBare_eq_map, ← Part.listBare_eq_map] at hqs hrs
  -- Where the parts of the second text begin is told by the number of pieces in those of the first.
  have hlength := congrArg List.length (Part.listPieces_bare_eq hqs)
  have hlength' := congrArg List.length htokens
  simp only [List.length_map] at hlength hlength'
  rw [Part.listPieces_append] at hpieces
  obtain ⟨rfl, hrest⟩ := List.append_inj hpieces (hlength.trans hlength'.symm)
  have hclosed' (q : Part S) (hq : q ∈ parts ++ parts') := hclosed q (hfits q hq)
  have hsublist {cs : List Token} (hcs : ∀ t ∈ cs, t.isComment = true) (ps : List Piece) :
      (ps.map (·.token)).Sublist (cs ++ flatten ps) :=
    Piece.filter_append_flatten hcs ps ▸ List.filter_sublist
  have hown := Part.flatMap_own_shift (fun q hq => hclosed' q (List.mem_append_left _ hq)) hqs
    (by rw [hlast, Piece.map_shift_zero]) (by simp only [htokens, Token.shift_zero, List.map_id'])
    (ha.mono (hsublist hlead _))
  have hown' := Part.flatMap_own_shift (fun q hq => hclosed' q (List.mem_append_right _ hq)) hrs
    (by rw [hrest, List.map_dropLast]) (by rw [hrest, Piece.map_token_map_shift])
    (ha'.mono (hsublist hlead' _))
  refine ⟨_, _, hmade.declares hc (hb · _), hmade'.declares hc (hb · _), ?_⟩
  have := hmade''.declares hc (hb · _)
  rw [List.flatMap_append, hown, hown'] at this
  simpa only [Outline.shift_zero, List.map_id'] using this

end Reads
end ProtoSyntax
