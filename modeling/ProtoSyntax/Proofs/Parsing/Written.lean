import ProtoSyntax.Proofs.Parsing.Coverage
import ProtoSyntax.Proofs.Parsing.Descent

/-!
# What nodes are written with

Without its comments, the range of a node holds the tokens of its part. So what the grammar reads off the
tokens of a part can be told of the tokens in the range of a node, and this of every tree that is read.
-/

namespace ProtoSyntax
open Piece (flatten)

variable {G N S K L : Type}

def writtenIn (tokens : List Token) (r : Range) : List Token :=
  (tokensIn tokens r).filter (!·.isComment)

/-- The tokens up to the first one of some characters, and those after it. -/
def CutAt (ps : List Punct) (us front back : List Token) : Prop :=
  ∃ t, us = front ++ t :: back ∧ t.isOneOf ps = true ∧ ∀ u ∈ front, u.isOneOf ps = false

theorem CutAt.of_ne {p : Punct} {front : List Token} {t : Token} (h : ∀ u ∈ front, u.kind ≠ .punct p)
    (ht : t.kind = .punct p) (back : List Token) : CutAt [p] (front ++ t :: back) front back :=
  ⟨t, rfl, by simp [Token.isOneOf, ht], fun u hu => by simp [Token.isOneOf, h u hu]⟩

namespace Generates

variable {rule : N → Phrase N S} {a b e : Phrase N S} {us : List Token}

theorem of_derives {ps : List Piece} (h : Derives rule e (ps.map .token)) :
    Generates rule e (ps.map (·.token)) := ⟨_, h, by rw [Part.pieces_map_token]⟩

theorem nil_inv (h : Generates rule ([] : Phrase N S) us) : us = [] := by
  obtain ⟨ss, hd, rfl⟩ := h
  cases hd
  rfl

theorem token_inv {accepts : TokenKind → String → Bool} (h : Generates rule (.token accepts :: e) us) :
    ∃ t ts, us = t :: ts ∧ accepts t.kind t.text = true ∧ Generates rule e ts := by
  obtain ⟨ss, hd, rfl⟩ := h
  cases hd with
  | token hp hd => exact ⟨_, _, rfl, hp, _, hd, rfl⟩

theorem single_inv {accepts : TokenKind → String → Bool} (h : Generates rule [.token accepts] us) :
    ∃ t, us = [t] ∧ accepts t.kind t.text = true := by
  obtain ⟨t, ts, rfl, ht, hts⟩ := h.token_inv
  exact ⟨t, by rw [hts.nil_inv], ht⟩

theorem kind_inv {kind : TokenKind} (h : Generates rule (.kind kind :: e) us) :
    ∃ t ts, us = t :: ts ∧ t.kind = kind ∧ Generates rule e ts := by
  obtain ⟨t, ts, rfl, ht, hts⟩ := h.token_inv
  exact ⟨t, ts, rfl, of_decide_eq_true ht, hts⟩

theorem single_kind_inv {kind : TokenKind} (h : Generates rule [.kind kind] us) :
    ∃ t, us = [t] ∧ t.kind = kind := by
  obtain ⟨t, rfl, ht⟩ := h.single_inv
  exact ⟨t, rfl, of_decide_eq_true ht⟩

theorem append_inv (h : Generates rule (a ++ b) us) :
    ∃ xs ys, us = xs ++ ys ∧ Generates rule a xs ∧ Generates rule b ys := by
  obtain ⟨ss, hd, rfl⟩ := h
  obtain ⟨x, y, rfl, hx, hy⟩ := hd.split
  exact ⟨_, _, by rw [Signal.pieces_append, List.map_append], ⟨x, hx, rfl⟩, ⟨y, hy, rfl⟩⟩

theorem alt_inv {choices : List (Phrase N S)} (h : Generates rule [.alt choices] us) :
    ∃ a ∈ choices, Generates rule a us := by
  obtain ⟨ss, hd, rfl⟩ := h
  cases hd with
  | alt ha hd => exact ⟨_, ha, _, by simpa using hd, rfl⟩

theorem either_inv (h : Generates rule [.alt [a, b]] us) : Generates rule a us ∨ Generates rule b us := by
  obtain ⟨c, hc, hgenerates⟩ := h.alt_inv
  rcases List.mem_pair.1 hc with rfl | rfl
  · exact .inl hgenerates
  · exact .inr hgenerates

theorem opt_inv (h : Generates rule [.opt a] us) : us = [] ∨ Generates rule a us :=
  (either_inv h).imp_left nil_inv

theorem star_inv (h : Generates rule [.star a] us) :
    ∃ xs, us = List.flatten xs ∧ ∀ x ∈ xs, Generates rule a x := by
  obtain ⟨ss, hd, rfl⟩ := h
  obtain ⟨_, xs, rfl, hnil, hxs⟩ := Derives.star_inv (b := []) hd
  cases hnil
  refine ⟨xs.map fun ss => (Signal.pieces ss).map (·.token), ?_, ?_⟩
  · rw [List.nil_append, Signal.pieces_flatten, List.map_flatMap, List.flatMap_def]
  · simpa using fun ss hss => ⟨ss, hxs ss hss, rfl⟩

theorem star_cases (h : Generates rule [.star a] us) :
    us = [] ∨ ∃ xs ys, us = xs ++ ys ∧ Generates rule a xs ∧ Generates rule [.star a] ys := by
  obtain ⟨ss, hd, rfl⟩ := h
  cases hd with
  | stop hd =>
    cases hd
    exact .inl rfl
  | more hd =>
    obtain ⟨x, y, rfl, hx, hy⟩ := hd.split
    exact .inr ⟨_, _, by rw [Signal.pieces_append, List.map_append], ⟨x, hx, rfl⟩, ⟨y, hy, rfl⟩⟩

theorem ne_punct {barred : List Punct} {c : Punct} (h : Generates rule e us) (hlacks : Lacks rule barred e)
    (hc : c ∈ barred) : ∀ u ∈ us, u.kind ≠ .punct c := by
  obtain ⟨ss, hd, rfl⟩ := h
  intro u hu
  obtain ⟨p, hp, rfl⟩ := List.mem_map.1 hu
  exact hlacks ss hd p hp c hc

end Generates

theorem tokensIn_append (us vs : List Token) (r : Range) :
    tokensIn (us ++ vs) r = tokensIn us r ++ tokensIn vs r := List.filter_append _ _

theorem writtenIn_append {pre us post : List Token} {t : Token} {r : Range} {stop : Nat}
    (hs : Spaced (pre ++ (us ++ post))) (ht : us.head? = some t) (hr : r = ⟨t.start, stop⟩)
    (hreach : ∀ u ∈ us, u.isComment = false → u.stop ≤ stop)
    (hstop : ∃ u ∈ us, stop = u.stop) :
    writtenIn (pre ++ (us ++ post)) r = us.filter (!·.isComment) := by
  subst hr
  obtain ⟨v, hv, rfl⟩ := hstop
  have hmem := List.mem_of_mem_head? ht
  have hpre : tokensIn pre ⟨t.start, v.stop⟩ = [] := by
    refine List.filter_eq_nil_iff.2 fun u hu => ?_
    have := hs.stop_le_start hu (List.mem_append_left post hmem)
    have := hs.left.nonempty u hu
    simp only [decide_eq_true_eq]
    omega
  have hpost : tokensIn post ⟨t.start, v.stop⟩ = [] := by
    refine List.filter_eq_nil_iff.2 fun u hu => ?_
    have := hs.right.stop_le_start hv hu
    have := hs.right.right.nonempty u hu
    simp only [decide_eq_true_eq]
    omega
  have hinside : (tokensIn us ⟨t.start, v.stop⟩).filter (!·.isComment) = us.filter (!·.isComment) := by
    rw [tokensIn, List.filter_filter]
    refine List.filter_congr fun u hu => ?_
    have hstart : t.start ≤ u.start := by
      cases us with
      | nil => cases hu
      | cons w us =>
        obtain rfl := Option.some.inj ht
        rcases List.mem_cons.1 hu with rfl | hu
        · exact Nat.le_refl _
        · have := hs.right.left.stop_le_start_cons hu
          have := w.start_le_stop
          omega
    by_cases hcomment : u.isComment = true
    · simp [hcomment]
    · have := hreach u hu (Bool.eq_false_of_not_eq_true hcomment)
      simp [hcomment, hstart, this]
  rw [writtenIn, tokensIn_append, tokensIn_append, hpre, hpost, List.nil_append, List.append_nil, hinside]

namespace Part

variable [Vocabulary K] {build : S → List Token → K} {q : Part S} {o : Outline K}

theorem range_own_le (hs : Spaced (flatten q.pieces)) (ho : o ∈ q.own build)
    (hspans : ∀ c ∈ o.children, c.Spans q.inner) :
    ∃ p ps, q.pieces = p :: ps ∧ o.range.start = p.token.start ∧
      (∀ r ∈ q.pieces, r.token.stop ≤ o.range.stop) ∧ ∃ u ∈ flatten q.pieces, o.range.stop = u.stop := by
  by_cases hclosed : q.isClosed = true
  · obtain ⟨p, ps, hpieces, hr⟩ := range_own hclosed ho
    rw [hpieces] at hs ⊢
    obtain ⟨u, hu, he⟩ := lastStop_mem 0 p ps
    rw [hr]
    exact ⟨p, ps, rfl, rfl, fun r hmem => hs.stop_le_lastStop hmem 0, u, hu, he⟩
  · -- Without a closing token the node ends where its children do, if that is further on.
    cases q with
    | token | leaf => exact absurd rfl hclosed
    | block shape first more opener body closer =>
      cases closer with
      | some c => exact absurd rfl hclosed
      | none =>
        obtain rfl := List.mem_singleton.1 ho
        rw [pieces, Option.toList_none, List.append_nil] at hs ⊢
        have hlast : lastStop 0 (opener :: listPieces body) =
            lastStop 0 (first :: more ++ opener :: listPieces body) := by
          rw [lastStop_append]
          exact lastStop_cons_congr _ _ _ _
        refine ⟨first, _, rfl, rfl, fun r hr => ?_, ?_⟩
        · refine Nat.le_trans (hlast ▸ hs.stop_le_lastStop hr 0) ?_
          exact Nat.le_max_right _ _
        · have hsub : flatten (opener :: listPieces body) ⊆
              flatten (first :: more ++ opener :: listPieces body) := by
            rw [Piece.flatten_append]
            exact List.subset_append_right _ _
          obtain ⟨v, hv, he⟩ := lastStop_mem 0 opener (listPieces body)
          obtain ⟨u, hu, hmax⟩ := Outline.exists_max_lastStop
            (fun c hc => (hspans c hc).mono fun _ => List.mem_cons_of_mem _) hv
          exact ⟨u, hsub hu, (congrArg (max _) he).trans hmax⟩

theorem writtenIn_own {ts : List Token} (hts : Spaced ts) (hwithin : flatten q.pieces <:+: ts)
    (ho : o ∈ q.own build) (hspans : ∀ c ∈ o.children, c.Spans q.inner) :
    writtenIn ts o.range = q.pieces.map (·.token) := by
  obtain ⟨pre, post, rfl⟩ := hwithin
  rw [List.append_assoc] at hts ⊢
  obtain ⟨p, ps, hpieces, hstart, hreach, hstop⟩ := range_own_le hts.right.left ho hspans
  rw [← Piece.filter_flatten]
  refine writtenIn_append (t := p.token) hts (by simp [hpieces]) ?_
    (fun u hu hcomment => ?_) hstop
  · rw [← hstart]
  · have hmem : u ∈ (flatten q.pieces).filter (!·.isComment) :=
      List.mem_filter.2 ⟨hu, by simp [hcomment]⟩
    rw [Piece.filter_flatten] at hmem
    obtain ⟨r, hr, rfl⟩ := List.mem_map.1 hmem
    exact hreach r hr

end Part

/-- What is asked of a layout so that something can be told of every node made of some tokens, from the
kind of its parent and the tokens it is written with. -/
structure Tells [Vocabulary K] (rule : N → Phrase N S) (layout : Layout N S L)
    (build : S → List Token → K) (ts : List Token) (At : K → L → Prop)
    (Says : K → List Token → K → Prop) : Prop where
  comment : ∀ k us, Says k us Vocabulary.comment
  leaf : ∀ {k l shape first more}, At k l → Fits rule layout l (.leaf shape first more) →
    (first :: more).map (·.token) ⊆ ts →
    Says k ((first :: more).map (·.token)) (build shape ((first :: more).map (·.token)))
  block : ∀ {k l shape first more opener body closer}, At k l →
    Fits rule layout l (.block shape first more opener body closer) →
    (first :: more).map (·.token) ⊆ ts → ∀ rest,
    Says k ((first :: more).map (·.token) ++ opener.token :: rest)
      (build shape ((first :: more).map (·.token)))

namespace Tells

variable [Vocabulary K] {rule : N → Phrase N S} {layout : Layout N S L} {build : S → List Token → K}
  {At : K → L → Prop} {Says : K → List Token → K → Prop} {closers : K → K → List Punct}
  {trails : K → K → Bool} {ts : List Token}

theorem specifies (h : Tells rule layout build ts At Says) (hcloses : Closes layout build At closers trails)
    (hs : Spaced ts) :
    Specifies rule layout build ts At fun k o => Says k (writtenIn ts o.range) o.kind where
  isComment_build := hcloses.isComment_build
  isComment_comment := hcloses.isComment_comment
  inside := hcloses.inside
  unclosed := hcloses.exists_leaf
  comment k range := h.comment k _
  own {k l q o} hk hq _ hts ho hspans := by
    rw [Part.writtenIn_own hs hts ho hspans]
    cases q with
    | token p => cases ho
    | leaf shape first more =>
      obtain rfl := List.mem_singleton.1 ho
      exact h.leaf hk hq (List.Subset.trans (Piece.map_token_subset_flatten _) hts.subset)
    | block shape first more opener body closer =>
      obtain rfl := List.mem_singleton.1 ho
      have hhead : (first :: more).map (·.token) ⊆ ts := by
        refine List.Subset.trans (Piece.map_token_subset_flatten _) (List.Subset.trans ?_ hts.subset)
        rw [Part.pieces, List.append_assoc, Piece.flatten_append]
        exact List.subset_append_left _ _
      have hsays := h.block hk hq hhead ((Part.listPieces body ++ closer.toList).map (·.token))
      simpa [Part.pieces, Outline.kind] using hsays

end Tells

def Tree.Tells (tokens : List Token) (Says : K → List Token → K → Prop) (t : Tree K) : Prop :=
  ∀ id n, 0 < id → t.node? id = some n → ∃ p m, t.parent? id = some p ∧ t.node? p = some m ∧
    Says m.kind (writtenIn tokens n.range) n.kind

theorem Reads.tells [Vocabulary K] {g : Grammar G S K} {goal : G} {rule : N → Phrase N S}
    {lang : G → Phrase N S} {follow : G → List (Symbol G S) → Prop} {blind : G → List Piece → Prop}
    {layout : Layout N S L} {place : L} {At : K → L → Prop} {closers : K → K → List Punct}
    {trails : K → K → Bool} {Says : K → List Token → K → Prop} {language : Language} {text : String}
    {tree : Tree K} (h : Reads g goal rule lang follow blind layout place)
    (hcloses : Closes layout (fun shape => g.build shape text) At closers trails)
    (htells : ProtoSyntax.Tells rule layout (fun shape => g.build shape text) (language.tokens text) At Says)
    (hroot : At Vocabulary.root place) (hp : g.parse goal text (language.tokens text) = .ok tree) :
    tree.Tells (language.tokens text) Says := by
  obtain ⟨lead, parts, -, -, -, hmade, htidy⟩ :=
    h.exists_tidy (htells.specifies hcloses (spaced_tokens language text)) hroot hp
  intro id n hpos hn
  obtain ⟨p, m, n', o, hparent, hm, hn', ho, hkind, hneat⟩ :=
    hmade.linked.exists_neat hmade.outline htidy hpos (Tree.lt_size_of_node? hn)
  obtain rfl := Option.some.inj (hn'.symm.trans hn)
  refine ⟨p, m, hparent, hm, ?_⟩
  obtain ⟨n'', hn'', -, hrange, -⟩ := hmade.linked.shows_children ho
  obtain rfl := Option.some.inj (hn''.symm.trans hn)
  rw [hkind, hrange]
  exact hneat.holds

section node

variable [Vocabulary K] {g : Grammar G S K} {goal : G} {rule : N → Phrase N S} {lang : G → Phrase N S}
  {follow : G → List (Symbol G S) → Prop} {blind : G → List Piece → Prop} {layout : Layout N S L}
  {place : L} {language : Language} {text : String} {tree : Tree K} {id : Nat} {n : Node K}

theorem Reads.exists_part (h : Reads g goal rule lang follow blind layout place)
    (hp : g.parse goal text (language.tokens text) = .ok tree) (hn : tree.node? id = some n)
    (hroot : n.kind ≠ Vocabulary.root) (hcomment : n.kind ≠ Vocabulary.comment) :
    ∃ l q o lead after, language.tokens text = lead ++ flatten (q.pieces ++ after) ∧
      Fits rule layout l q ∧ o ∈ q.own (fun shape => g.build shape text) ∧ n.kind = o.kind ∧
      n.range = o.range := by
  obtain ⟨lead, ps, htokens, hlead⟩ := Piece.exists_flatten (language.tokens text)
  have ho := ordered_tokens language text
  rw [htokens] at hp ho
  obtain ⟨parts, rfl, -, hfits, hmade⟩ := h.parse_sound hlead ho hp
  obtain ⟨o, ho⟩ := Tree.exists_outlineAt? (Tree.lt_size_of_node? hn)
  obtain ⟨n', hn', hkind, hrange, -⟩ := hmade.linked.shows_children ho
  obtain rfl := Option.some.inj (hn'.symm.trans hn)
  have hpos : 0 < id := by
    refine Nat.pos_of_ne_zero ?_
    rintro rfl
    obtain rfl := Option.some.inj (ho.symm.trans hmade.outline)
    exact hroot hkind
  rcases hmade.linked.exists_inside hmade.outline hpos ho with ⟨range, rfl⟩ | ⟨q, hq, hown⟩
  · exact absurd hkind hcomment
  obtain ⟨l, hfit⟩ := hq.exists_fits hfits
  obtain ⟨before, after, hpieces⟩ := hq.pieces_infix
  exact ⟨l, q, o, lead ++ flatten before, after, by simp [htokens, ← hpieces], hfit, hown, hkind, hrange⟩

theorem Reads.exists_leaf (h : Reads g goal rule lang follow blind layout place)
    (hp : g.parse goal text (language.tokens text) = .ok tree) (hn : tree.node? id = some n)
    (hroot : n.kind ≠ Vocabulary.root) (hcomment : n.kind ≠ Vocabulary.comment)
    (hleaf : ∀ shape us, g.build shape text us = n.kind → layout.delimiters shape = []) :
    ∃ l shape first more lead after,
      language.tokens text = lead ++ flatten (first :: more ++ after) ∧
      Fits rule layout l (.leaf shape first more) ∧
      g.build shape text ((first :: more).map (·.token)) = n.kind ∧
      n.range = ⟨first.token.start, lastStop 0 (first :: more)⟩ ∧
      writtenIn (language.tokens text) n.range = (first :: more).map (·.token) := by
  obtain ⟨l, q, o, lead, after, htokens, hfit, hown, hkind, hrange⟩ := h.exists_part hp hn hroot hcomment
  cases q with
  | token p => cases hown
  | block shape first more opener body closer =>
    obtain rfl := List.mem_singleton.1 hown
    cases hfit with
    | block _ _ hdel =>
      rw [hleaf shape _ hkind.symm] at hdel
      cases hdel
  | leaf shape first more =>
    have hwithin : flatten (Part.leaf shape first more).pieces <:+: language.tokens text :=
      ⟨lead, flatten after, by rw [htokens, Piece.flatten_append, List.append_assoc]⟩
    have hwritten := Part.writtenIn_own (spaced_tokens language text) hwithin hown (fun c hc => by
      obtain rfl := List.mem_singleton.1 hown
      cases hc)
    obtain rfl := List.mem_singleton.1 hown
    exact ⟨l, shape, first, more, lead, after, htokens, hfit, hkind.symm, hrange, hrange ▸ hwritten⟩

end node

end ProtoSyntax
