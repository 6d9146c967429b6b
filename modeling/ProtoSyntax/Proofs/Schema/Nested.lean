import ProtoSyntax.Proofs.Parsing.CutShort
import ProtoSyntax.Proofs.Parsing.Descent
import ProtoSyntax.Proofs.Schema.Acceptance
import ProtoSyntax.Proofs.Turns

/-!
# Messages and enums at any depth

Messages and enums are read inside of messages in the same way as at the top of a file, and they stand
nowhere else. So each of them, at any depth, is read in a turn of the goal that reads whole files.
-/

namespace ProtoSyntax.Schema
open Piece (flatten)

theorem loops_declarations : Loops rule phrase react .declarations := by
  refine .of_predicts declaration_starts (fun _ => yields_declaration)
    (fun _ _ => recurs_declarations.skip _ _) (fun hr => ?_) (fun hr => ?_)
  · obtain ⟨m, ⟨-, -, rfl⟩ | ⟨hrole, -⟩, rfl⟩ := react_declarations_eq_take.1 hr
    · rfl
    · cases hrole
  · obtain ⟨m, ⟨-, hrole, -⟩ | hm, rfl⟩ := react_declarations_eq_take.1 hr
    · cases hrole
    · exact ⟨m, rfl, .inr hm⟩

theorem loops_messageBody : Loops rule phrase react .messageBody := by
  refine .of_predicts (member_starts messageMembers_starts) (fun _ => yields_messageMember)
    (fun _ _ => reactInBody_ne_skip) (fun {p ps next} hr => ?_) (fun {p ps next} hr => ?_)
  · rcases reactInBody_eq_take.1 hr with ⟨-, hrole, -⟩ | ⟨-, -, rfl⟩ | ⟨-, hrole, -⟩ | ⟨-, hrole, -⟩
    · cases hrole
    · rfl
    · cases hrole
    · cases hrole
  · rcases reactInBody_eq_take.1 hr with ⟨-, hrole, -⟩ | ⟨-, hrole, -⟩ | ⟨hk, -, rfl⟩ |
      ⟨hk, -, m, hm, rfl⟩
    · cases hrole
    · cases hrole
    · exact ⟨optionStatement, rfl, .inr (.inl ⟨hk, rfl, rfl⟩)⟩
    · refine ⟨m, rfl, .inr (.inr ?_)⟩
      exact (start_of_afterMessageMemberStart? hk hm).imp_left fun h => ⟨rfl, h⟩

theorem exists_pursuit_body {first opener : Piece} {more : List Piece} {body : List (Part Shape)}
    {closer : Option Piece} {goal : Goal} {rest : List Piece}
    (h : (Part.block .message first more opener body closer).ReadBy react goal messageBlock rest) :
    ∃ ps, Pursuit react [.goal .messageBody] ps (Part.listMoves body ++ [Part.ending closer]) rest := by
  obtain ⟨p, ps, ms, -, hmoves, -, hp⟩ := h
  simp only [Part.moves, List.cons_append, List.append_assoc, List.cons.injEq] at hmoves
  obtain ⟨-, rfl⟩ := hmoves
  generalize hms : Part.plain more ++ _ = ms at hp
  generalize ps ++ rest = qs at hp
  cases hp with
  | token _ hp =>
    cases hp with
    | @token _ opener' _ _ _ _ _ _ hp =>
      obtain ⟨-, -, hms⟩ := @Part.plain_append_inj _ more [_] _ _ _ _ (by simp) (by simp) hms
      exact ⟨_, hms ▸ hp⟩

inductive Hosts : Goal → Place → Prop where
  | declarations : Hosts .declarations .file
  | messageBody : Hosts .messageBody .message

theorem Hosts.loops {goal : Goal} {place : Place} (h : Hosts goal place) :
    Loops rule phrase react goal := by
  cases h with
  | declarations => exact loops_declarations
  | messageBody => exact loops_messageBody

theorem not_hosts_inside {shape : Shape} (h : shape ≠ .message) (goal : Goal) :
    ¬ Hosts goal (layout.inside shape) := by
  generalize hinside : layout.inside shape = place
  rintro (_ | _) <;> cases shape <;> contradiction

/-- The shapes of nodes that may stand in a file and in a message, with the keyword and what is pursued
after it. Options are not among these, as they may stand in other places too. -/
inductive Nestable : Shape → Keyword → Symbols → Prop where
  | message : Nestable .message .message messageBlock
  | enum : Nestable .enum .enum enumBlock

namespace Nestable

variable {shape : Shape} {w : Keyword} {m k : Symbols} {goal goal' : Goal} {place place' : Place}
  {q : Part Shape} {parts : List (Part Shape)} {ps rest : List Piece} {ms : List (Move Shape)}
  (h : Nestable shape w m)

include h

theorem react_eq (hg : Hosts goal place) {t : Token} (ht : t.kind = .keyword w) (ts : List Token) :
    react goal (t :: ts) = .take .begins (m ++ [.goal goal]) := by
  cases h <;> cases hg <;>
    simp [react, ht, afterDeclarationStart?, reactInBody, afterMessageMemberStart?]

theorem head_eq (hg : Hosts goal place) : layout.head place shape = some [.keyword w, .word] := by
  cases h <;> cases hg <;> rfl

theorem exists_hosts {e : Expr} (he : layout.head place shape = some e) : ∃ goal, Hosts goal place := by
  cases place with
  | file => exact ⟨_, .declarations⟩
  | message => exact ⟨_, .messageBody⟩
  | _ => cases h <;> cases he

theorem kind_first (hg : Hosts goal place) (hq : Fits rule layout place q) (hs : q.shape? = some shape)
    {p : Piece} (hpieces : q.pieces = p :: ps) : p.kind = .keyword w := by
  cases hq with
  | token => cases hs
  | leaf _ hend _ =>
    obtain rfl := Option.some.inj hs
    cases h <;> cases hend
  | block hhead hd =>
    obtain rfl := Option.some.inj hs
    obtain rfl := Option.some.inj (hhead.symm.trans (h.head_eq hg))
    obtain ⟨rfl, -⟩ := List.cons.inj hpieces
    cases hd with
    | token hp => exact of_decide_eq_true hp

theorem readBy (hg : Hosts goal place) (hg' : Hosts goal' place') (hq : Fits rule layout place q)
    (hs : q.shape? = some shape) {n : Symbols} (hr : q.ReadBy react goal n rest) :
    q.ReadBy react goal' m rest := by
  obtain ⟨p, ps, ms, hpieces, hmoves, hreact, hp⟩ := hr
  have hkind : p.token.kind = .keyword w := h.kind_first hg hq hs hpieces
  obtain rfl : n = m := by
    have := hreact.symm.trans (h.react_eq hg hkind _)
    exact List.append_cancel_right (Reaction.take.inj this).2
  exact ⟨p, ps, ms, hpieces, hmoves, h.react_eq hg' hkind _, hp⟩

theorem not_inside (hgoal : ∀ goal, ¬ Hosts goal place) (hfits : ∀ q ∈ parts, Fits rule layout place q)
    (hq : Part.Inside q parts) : q.shape? ≠ some shape := by
  induction hq generalizing place with
  | here hmem =>
    intro hs
    obtain ⟨e, he⟩ := (hfits _ hmem).exists_head hs
    obtain ⟨goal, hg⟩ := h.exists_hosts he
    exact hgoal goal hg
  | @deeper _ _ shape' _ _ _ _ hmem _ ih =>
    cases hfits _ hmem with
    | block hhead _ _ _ _ _ hbody =>
      refine ih (not_hosts_inside ?_) hbody
      rintro rfl
      obtain ⟨goal, hg⟩ := Nestable.message.exists_hosts hhead
      exact hgoal goal hg

/-- In whichever message it stands, it is read as a declaration of a file is. -/
theorem exists_readBy (hg : Hosts goal place) (hfits : ∀ q ∈ parts, Fits rule layout place q)
    (hp : Pursuit react (.goal goal :: k) ps (Part.listMoves parts ++ ms) rest)
    (hq : Part.Inside q parts) (hs : q.shape? = some shape) :
    Fits rule layout .file q ∧ ∃ rest, q.ReadBy react .declarations m rest := by
  induction hq generalizing goal place k ps ms rest with
  | here hmem =>
    rcases hg.loops.exists_readBy (Guided.sound guided) hp hmem with ⟨p, rfl⟩ | ⟨n, rest, hr⟩
    · cases hs
    · have hhead := (h.head_eq .declarations).trans (h.head_eq hg).symm
      exact ⟨(hfits _ hmem).congr_head hs hhead, rest, h.readBy hg .declarations (hfits _ hmem) hs hr⟩
  | @deeper _ _ shape' _ _ _ _ hmem hin ih =>
    cases hfits _ hmem with
    | block hhead hd hdel hopener hcloser hone hbody =>
      by_cases hmessage : shape' = .message
      · -- Inside of a message the goal that reads its members takes over.
        subst hmessage
        rcases hg.loops.exists_readBy (Guided.sound guided) hp hmem with ⟨p, hb⟩ | ⟨n, mid, hr⟩
        · cases hb
        · have hr := Nestable.message.readBy hg hg (hfits _ hmem) rfl hr
          obtain ⟨ps, hp⟩ := exists_pursuit_body hr
          exact ih .messageBody hbody hp
      · exact absurd hs (h.not_inside (not_hosts_inside hmessage) hbody hin)

end Nestable

structure IsDeclaration (parts : List (Part Shape)) (q : Part Shape) : Prop where
  inside : Part.Inside q parts
  fits : Fits rule layout .file q
  readBy : ∃ n rest, q.ReadBy react .declarations n rest

namespace IsDeclaration

variable {parts : List (Part Shape)} {q : Part Shape} {ps rest : List Piece}
  (hp : Pursuit react [.goal .declarations] ps (Part.listMoves parts) rest)
  (hfits : ∀ q ∈ parts, Fits rule layout .file q)

include hp hfits

theorem of_mem (hq : q ∈ parts) (hnode : ∀ p, q ≠ .token p) : IsDeclaration parts q := by
  rw [← List.append_nil (Part.listMoves parts)] at hp
  rcases loops_declarations.exists_readBy (Guided.sound guided) hp hq with ⟨p, hp⟩ | hr
  · exact absurd hp (hnode p)
  · exact ⟨.here hq, hfits q hq, hr⟩

theorem of_nestable {shape : Shape} {w : Keyword} {m : Symbols} (h : Nestable shape w m)
    (hq : Part.Inside q parts) (hs : q.shape? = some shape) : IsDeclaration parts q := by
  rw [← List.append_nil (Part.listMoves parts)] at hp
  obtain ⟨hfits, hr⟩ := h.exists_readBy .declarations hfits hp hq hs
  exact ⟨hq, hfits, m, hr⟩

end IsDeclaration
end ProtoSyntax.Schema
