import ProtoSyntax.Proofs.Parsing.Bare
import ProtoSyntax.Proofs.Parsing.Reading

/-!
# Texts that differ in their comments

What a goal is blind for is hidden behind a comment. So a text without comments is derived in one
way only, and this way is the same for all texts with the same tokens, whatever comments stand
between these.
-/

namespace ProtoSyntax.Reads
open Piece (flatten)

variable {G N S K L : Type} {g : Grammar G S K} {goal : G} {rule : N → Phrase N S}
  {lang : G → Phrase N S} {follow : G → List (Symbol G S) → Prop} {blind : G → List Piece → Prop}
  {layout : Layout N S L} {place : L} (h : Reads g goal rule lang follow blind layout place)
  (hblind : ∀ g ps, (∀ p ∈ ps, p.comments = []) → ¬ blind g ps)

include h hblind

theorem exists_pursuit_bare {ss : List (Signal S)} (hd : Derives rule (lang goal) ss) :
    ∃ ms, Pursuit g.react [.goal goal] ((Signal.pieces ss).map Piece.bare) ms [] ∧
      ms.flatMap Move.signals = ss.map Signal.bare := by
  have hbare : Derives rule (lang goal) (ss.map Signal.bare) := hd.congr_bare (by simp)
  rw [← Signal.pieces_map_bare]
  refine (Guided.foresight h.guided).pursuit [.goal goal] _ (by simpa [Symbol.phrase] using hbare)
    ⟨h.follow, trivial⟩ fun g' l ts hreaches _ _ => hblind g' _ fun p hp => ?_
  have hmem := hreaches.suffix.mem hp
  rw [Signal.pieces_map_bare] at hmem
  obtain ⟨q, -, rfl⟩ := List.mem_map.1 hmem
  rfl

theorem unambiguous {ss ts : List (Signal S)} (hs : Derives rule (lang goal) ss)
    (ht : Derives rule (lang goal) ts) (hp : Signal.pieces ss = Signal.pieces ts) : ss = ts := by
  obtain ⟨ms, hms, hss⟩ := h.exists_pursuit_bare hblind hs
  obtain ⟨ns, hns, hts⟩ := h.exists_pursuit_bare hblind ht
  rw [← hp] at hns
  obtain ⟨rfl, -⟩ := hms.unique hns
  exact Signal.eq_of_bare_eq (hss.symm.trans hts) hp

variable [Vocabulary K] {parts : List (Part S)} {text : String} {lead : List Token}
  {ps : List Piece}

theorem exists_made {tree : Tree K} (hd : Derives rule (lang goal) (Part.signals parts))
    (hlead : ∀ t ∈ lead, t.isComment = true) (ho : Ordered (lead ++ flatten ps))
    (hb : ps.map (·.bare) = (Part.listPieces parts).map (·.bare))
    (hp : g.parse goal text (lead ++ flatten ps) = .ok tree) :
    ∃ parts', Part.listBare parts' = Part.listBare parts ∧ Part.listPieces parts' = ps ∧
      Made g text lead parts' tree := by
  obtain ⟨parts', hbare, rfl⟩ := Part.exists_listBare_eq parts ps hb
  have hd' := Part.derives_congr_bare hd hbare.symm
  obtain ⟨ms, rest, hpursuit⟩ := g.exists_pursuit_of_parse hlead ho hp
  obtain rfl := h.recurs.rest_eq_nil (k := []) hpursuit
  have hms := hpursuit.derives (Guided.sound h.guided)
  simp only [stackPhrase_cons, Symbol.phrase, stackPhrase_nil, List.append_nil] at hms
  have hpieces : Signal.pieces (Part.signals parts') = Signal.pieces (ms.flatMap Move.signals) := by
    rw [Part.pieces_signals, ← hpursuit.pieces_eq, List.append_nil]
  obtain rfl : Part.listMoves parts' = ms :=
    Move.flatMap_signals_injective (h.unambiguous hblind hd' hms hpieces)
  obtain ⟨tree', hok, hlinked, houtline⟩ := g.parse_of_pursuit hlead ho hpursuit
  obtain rfl : tree' = tree := Except.ok.inj (hok.symm.trans hp)
  exact ⟨parts', hbare, rfl, hlinked, houtline⟩

omit hblind in
/-- A text with the tokens of a derivation is read, if no comment hides anything. -/
theorem exists_tree (hd : Derives rule (lang goal) (Part.signals parts))
    (hlead : ∀ t ∈ lead, t.isComment = true) (ho : Ordered (lead ++ flatten ps))
    (hb : ps.map (·.bare) = (Part.listPieces parts).map (·.bare))
    (hclear : ∀ g' qs, qs <:+ ps → ¬ blind g' qs) :
    ∃ tree, g.parse goal text (lead ++ flatten ps) = .ok tree := by
  obtain ⟨parts', hbare, rfl⟩ := Part.exists_listBare_eq parts ps hb
  have hd' := Part.derives_congr_bare hd hbare.symm
  obtain ⟨tree, hok, -⟩ := h.parse_complete hlead ho hd' fun g' l ts hreaches _ _ =>
    hclear g' _ hreaches.suffix
  exact ⟨tree, hok⟩

end ProtoSyntax.Reads
