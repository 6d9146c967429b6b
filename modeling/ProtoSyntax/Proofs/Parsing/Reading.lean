import ProtoSyntax.Proofs.Parsing.Assembly
import ProtoSyntax.Proofs.Parsing.Guidance
import ProtoSyntax.Proofs.Parsing.Layout
import ProtoSyntax.Proofs.Tiling

/-!
# Reading whole texts

A grammar with a goal that reads up to the end of a text. A parse succeeds exactly on the texts
derived from the expression of this goal, comments being in nobody's way, and the tree is the one
of the parts that the derivation is cut into.
-/

namespace ProtoSyntax
open Piece (flatten)

variable {G N S K L : Type}

theorem ordered_tokens (language : Language) (text : String) : Ordered (language.tokens text) :=
  (tokens_cuts language text).pairwise

/-- A goal that is content with nothing only at the end, and else comes back after each turn. -/
structure Recurs (react : Prediction G S) (goal : G) : Prop where
  skip : ∀ t ts, react goal (t :: ts) ≠ .skip
  take : ∀ {t ts role next}, react goal (t :: ts) = .take role next → ∃ n, next = n ++ [.goal goal]

theorem Recurs.rest_eq_nil {react : Prediction G S} {goal : G} (h : Recurs react goal)
    {k : List (Symbol G S)} {ps rest : List Piece} {ms : List (Move S)}
    (hp : Pursuit react (k ++ [.goal goal]) ps ms rest) : rest = [] := by
  generalize hk : k ++ [.goal goal] = symbols at hp
  induction hp generalizing k with
  | done => simp at hk
  | complete _ _ ih | finish _ ih | token _ _ ih =>
    cases k with
    | nil => simp at hk
    | cons s k => exact ih (List.cons.inj hk).2
  | @skip _ _ ps _ _ hr hp ih =>
    cases k with
    | nil =>
      obtain ⟨hg, rfl⟩ := List.cons.inj hk
      obtain rfl := Symbol.goal.inj hg
      cases hp
      cases ps with
      | nil => rfl
      | cons p ps => exact absurd hr (h.skip _ _)
    | cons s k => exact ih (List.cons.inj hk).2
  | @take _ symbols next _ _ _ _ _ hr _ ih =>
    cases k with
    | nil =>
      obtain ⟨hg, rfl⟩ := List.cons.inj hk
      obtain rfl := Symbol.goal.inj hg
      obtain ⟨n, rfl⟩ := h.take hr
      exact ih (k := n) (by simp)
    | cons s k =>
      obtain ⟨-, rfl⟩ := List.cons.inj hk
      exact ih (k := next ++ k) (by simp)

/-- All that is known about a grammar: the expressions of its goals, and how the expression of the
goal that reads whole texts is cut into parts. -/
structure Reads (g : Grammar G S K) (goal : G) (rule : N → Phrase N S) (lang : G → Phrase N S)
    (follow : G → List (Symbol G S) → Prop) (blind : G → List Piece → Prop)
    (layout : Layout N S L) (place : L) : Prop where
  recurs : Recurs g.react goal
  guided : ∀ goal, Guided rule lang g.react follow blind goal
  follow : follow goal []
  exists_parts : ∀ {ss}, Derives rule (lang goal) ss →
    ∃ parts, Part.signals parts = ss ∧ ∀ q ∈ parts, Fits rule layout place q

namespace Reads

variable {g : Grammar G S K} {goal : G} {rule : N → Phrase N S} {lang : G → Phrase N S}
  {follow : G → List (Symbol G S) → Prop} {blind : G → List Piece → Prop}
  {layout : Layout N S L} {place : L} {text : String} {lead : List Token} {ps : List Piece}

structure Made [Vocabulary K] (g : Grammar G S K) (text : String) (lead : List Token)
    (parts : List (Part S)) (tree : Tree K) : Prop where
  linked : tree.Linked
  outline : tree.outline? = some (.node Vocabulary.root ⟨0, text.utf8ByteSize⟩
    (commentNode lead ++ Part.listForest (fun shape => g.build shape text) parts))

variable [Vocabulary K]

theorem exists_pursuit (h : Reads g goal rule lang follow blind layout place) {tree : Tree K}
    (hlead : ∀ t ∈ lead, t.isComment = true) (ho : Ordered (lead ++ flatten ps))
    (hp : g.parse goal text (lead ++ flatten ps) = .ok tree) :
    ∃ parts, Part.listPieces parts = ps ∧
      Pursuit g.react [.goal goal] ps (Part.listMoves parts) [] ∧
      (∀ q ∈ parts, Fits rule layout place q) ∧ Made g text lead parts tree := by
  obtain ⟨ms, rest, hpursuit⟩ := g.exists_pursuit_of_parse hlead ho hp
  obtain rfl := h.recurs.rest_eq_nil (k := []) hpursuit
  have hd := hpursuit.derives (Guided.sound h.guided)
  simp only [stackPhrase_cons, Symbol.phrase, stackPhrase_nil, List.append_nil] at hd
  obtain ⟨parts, hparts, hfits⟩ := h.exists_parts hd
  obtain rfl : Part.listMoves parts = ms := Move.flatMap_signals_injective hparts
  obtain ⟨tree', hok, hlinked, houtline⟩ := g.parse_of_pursuit hlead ho hpursuit
  obtain rfl : tree' = tree := Except.ok.inj (hok.symm.trans hp)
  refine ⟨parts, ?_, hpursuit, hfits, hlinked, houtline⟩
  rw [← Part.pieces_signals, ← hpursuit.pieces_eq, List.append_nil, Part.signals]

theorem parse_sound (h : Reads g goal rule lang follow blind layout place) {tree : Tree K}
    (hlead : ∀ t ∈ lead, t.isComment = true) (ho : Ordered (lead ++ flatten ps))
    (hp : g.parse goal text (lead ++ flatten ps) = .ok tree) :
    ∃ parts, Part.listPieces parts = ps ∧ Derives rule (lang goal) (Part.signals parts) ∧
      (∀ q ∈ parts, Fits rule layout place q) ∧ Made g text lead parts tree := by
  obtain ⟨parts, hparts, hpursuit, hfits, hmade⟩ := h.exists_pursuit hlead ho hp
  have hd := hpursuit.derives (Guided.sound h.guided)
  simp only [stackPhrase_cons, Symbol.phrase, stackPhrase_nil, List.append_nil] at hd
  exact ⟨parts, hparts, hd, hfits, hmade⟩

theorem parse_complete (h : Reads g goal rule lang follow blind layout place)
    {parts : List (Part S)} (hlead : ∀ t ∈ lead, t.isComment = true)
    (ho : Ordered (lead ++ flatten (Part.listPieces parts)))
    (hd : Derives rule (lang goal) (Part.signals parts))
    (hb : ∀ g' l ts, Reaches g.react [.goal goal] (Part.listPieces parts) (.goal g' :: l)
      (Signal.pieces ts) → Derives rule (stackPhrase lang (.goal g' :: l)) ts → follow g' l →
      ¬ blind g' (Signal.pieces ts)) :
    ∃ tree, g.parse goal text (lead ++ flatten (Part.listPieces parts)) = .ok tree ∧
      Made g text lead parts tree := by
  rw [← Part.pieces_signals] at ho hb ⊢
  obtain ⟨ms, hpursuit, hms⟩ := (Guided.foresight h.guided).pursuit [.goal goal] (Part.signals parts)
    (by simpa [Symbol.phrase] using hd) ⟨h.follow, trivial⟩ hb
  obtain rfl : ms = Part.listMoves parts := Move.flatMap_signals_injective hms
  obtain ⟨tree, hok, hlinked, houtline⟩ := g.parse_of_pursuit hlead ho hpursuit
  exact ⟨tree, hok, hlinked, houtline⟩

end Reads
end ProtoSyntax
