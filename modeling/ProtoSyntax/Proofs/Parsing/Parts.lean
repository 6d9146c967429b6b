import ProtoSyntax.Proofs.Parsing.Pursuit
import ProtoSyntax.Tree.Outline

/-!
# Parts of a text

The marks of a derivation are brackets, so its signals are those of a list of parts: tokens, leaves
and blocks. `forest` tells which nodes a part makes: its own, if it is a leaf or block, and one for
each run of comments, which belongs to the block that is open where it begins. A comment met before
a block opens, or within a leaf, comes after the node.
-/

namespace ProtoSyntax

variable {S K : Type}

inductive Part (S : Type) where
  | token (p : Piece)
  | leaf (shape : S) (first : Piece) (more : List Piece)
  | block (shape : S) (first : Piece) (more : List Piece) (opener : Piece) (body : List (Part S))
      (closer : Option Piece)

def lastStop (before : Nat) (ps : List Piece) : Nat := (ps.getLast?.map (·.token.stop)).getD before

theorem lastStop_cons (before : Nat) (p : Piece) (ps : List Piece) :
    lastStop before (p :: ps) = lastStop p.token.stop ps := by
  simp only [lastStop, List.getLast?_cons]
  cases ps.getLast? <;> simp

theorem lastStop_append (before : Nat) (ps qs : List Piece) :
    lastStop before (ps ++ qs) = lastStop (lastStop before ps) qs := by
  induction ps generalizing before with
  | nil => rfl
  | cons p ps ih => rw [List.cons_append, lastStop_cons, lastStop_cons, ih]

namespace Outline

def kind : Outline K → K
  | .node kind _ _ => kind

def range : Outline K → Range
  | .node _ range _ => range

def children : Outline K → List (Outline K)
  | .node _ _ children => children

def lastStop (os : List (Outline K)) : Nat := (os.getLast?.map (·.range.stop)).getD 0

end Outline

def commentNode [Vocabulary K] : List Token → List (Outline K)
  | [] => []
  | c :: cs => [.node Vocabulary.comment ⟨c.start, (cs.getLastD c).stop⟩ []]

def commentForest [Vocabulary K] (ps : List Piece) : List (Outline K) :=
  ps.flatMap fun p => commentNode p.comments

section

variable [Vocabulary K]

@[simp] theorem commentForest_nil : (commentForest [] : List (Outline K)) = [] := rfl

@[simp] theorem commentForest_cons (p : Piece) (ps : List Piece) :
    (commentForest (p :: ps) : List (Outline K)) = commentNode p.comments ++ commentForest ps := rfl

@[simp] theorem commentForest_append (ps qs : List Piece) :
    (commentForest (ps ++ qs) : List (Outline K)) = commentForest ps ++ commentForest qs :=
  List.flatMap_append

end

namespace Part

def plain (ps : List Piece) : List (Move S) := ps.map fun p => .take p .plain

def ending : Option Piece → Move S
  | some q => .take q .closes
  | none => .finish

mutual

def moves : Part S → List (Move S)
  | .token p => plain [p]
  | .leaf shape first more => .take first .begins :: plain more ++ [.complete shape]
  | .block shape first more opener body closer =>
    .take first .begins :: plain more ++ .take opener (.opens shape) :: listMoves body ++
      [ending closer]

def listMoves : List (Part S) → List (Move S)
  | [] => []
  | q :: qs => q.moves ++ listMoves qs

end

mutual

def pieces : Part S → List Piece
  | .token p => [p]
  | .leaf _ first more => first :: more
  | .block _ first more opener body closer =>
    first :: more ++ opener :: listPieces body ++ closer.toList

def listPieces : List (Part S) → List Piece
  | [] => []
  | q :: qs => q.pieces ++ listPieces qs

end

def signals (parts : List (Part S)) : List (Signal S) := (listMoves parts).flatMap Move.signals

theorem listMoves_append (qs rs : List (Part S)) :
    listMoves (qs ++ rs) = listMoves qs ++ listMoves rs := by
  induction qs with
  | nil => rfl
  | cons q qs ih => simp [listMoves, ih]

@[simp] theorem signals_nil : signals ([] : List (Part S)) = [] := rfl

@[simp] theorem signals_append (qs rs : List (Part S)) :
    signals (qs ++ rs) = signals qs ++ signals rs := by
  simp [signals, listMoves_append]

theorem listPieces_append (qs rs : List (Part S)) :
    listPieces (qs ++ rs) = listPieces qs ++ listPieces rs := by
  induction qs with
  | nil => rfl
  | cons q qs ih => simp [listPieces, ih]

theorem listPieces_leaf (shape : S) (first : Piece) (more : List Piece) :
    listPieces [.leaf shape first more] = first :: more := by
  simp [listPieces, pieces]

theorem listPieces_map_token (ps : List Piece) :
    listPieces (ps.map .token : List (Part S)) = ps := by
  induction ps with
  | nil => rfl
  | cons p ps ih => simp [listPieces, pieces, ih]

theorem flatMap_signals_plain (ps : List Piece) :
    (plain ps : List (Move S)).flatMap Move.signals = ps.map .token := by
  induction ps with
  | nil => rfl
  | cons p ps ih => simpa [plain, Move.signals, Role.marks] using ih

theorem signals_token (p : Piece) : signals ([.token p] : List (Part S)) = [.token p] := rfl

theorem signals_map_token (ps : List Piece) :
    signals (ps.map .token : List (Part S)) = ps.map .token := by
  induction ps with
  | nil => rfl
  | cons p ps ih =>
    rw [List.map_cons, ← List.singleton_append, signals_append, ih]
    rfl

theorem signals_leaf (shape : S) (first : Piece) (more : List Piece) :
    signals [.leaf shape first more] =
      .mark .begins :: (first :: more).map .token ++ [.mark (.completes shape)] := by
  simp [signals, listMoves, moves, flatMap_signals_plain, Move.signals, Role.marks]

theorem signals_block (shape : S) (first : Piece) (more : List Piece) (opener : Piece)
    (body : List (Part S)) (closer : Option Piece) :
    signals [.block shape first more opener body closer] =
      .mark .begins :: (first :: more).map .token ++ .mark (.opens shape) :: .token opener ::
        signals body ++ (ending closer).signals := by
  simp [signals, listMoves, moves, flatMap_signals_plain, Move.signals, Role.marks]

theorem pieces_map_token (ps : List Piece) :
    Signal.pieces (ps.map Signal.token : List (Signal S)) = ps := by
  induction ps with
  | nil => rfl
  | cons p ps ih => simpa [Signal.pieces] using ih

mutual

theorem pieces_moves (q : Part S) : Signal.pieces (q.moves.flatMap Move.signals) = q.pieces := by
  match q with
  | .token p => rfl
  | .leaf shape first more =>
    simp [moves, pieces, flatMap_signals_plain, pieces_map_token, Move.signals, Role.marks, Signal.pieces]
  | .block shape first more opener body closer =>
    have := pieces_signals body
    rw [signals] at this
    cases closer <;>
      simp [moves, pieces, flatMap_signals_plain, pieces_map_token, this, Move.signals, Role.marks, Signal.pieces,
        ending]

theorem pieces_signals (parts : List (Part S)) :
    Signal.pieces (signals parts) = listPieces parts := by
  match parts with
  | [] => rfl
  | q :: parts =>
    have := pieces_signals parts
    rw [signals] at this
    simp [signals, listMoves, listPieces, pieces_moves q, this]

end

/-- The pieces whose comments are not inside the node. -/
def around : Part S → List Piece
  | .token p => [p]
  | .leaf _ first more => first :: more
  | .block _ first more _ _ closer => first :: more ++ closer.toList

def inner : Part S → List Token
  | .token _ | .leaf _ _ _ => []
  | .block _ _ _ opener body _ => opener.comments ++ Piece.flatten (listPieces body)

section

variable [Vocabulary K] (build : S → List Token → K)

mutual

def own : Part S → List (Outline K)
  | .token _ => []
  | .leaf shape first more =>
    [.node (build shape ((first :: more).map (·.token)))
      ⟨first.token.start, lastStop 0 (first :: more)⟩ []]
  | .block shape first more opener body closer =>
    let below := commentNode opener.comments ++ listForest body
    [.node (build shape ((first :: more).map (·.token)))
      ⟨first.token.start,
        lastStop (max (Outline.lastStop below) (lastStop 0 (opener :: listPieces body)))
          closer.toList⟩ below]

def listForest : List (Part S) → List (Outline K)
  | [] => []
  | q :: qs => q.own ++ commentForest q.around ++ listForest qs

end

def forest (q : Part S) : List (Outline K) := q.own build ++ commentForest q.around

theorem listForest_leaf (shape : S) (first : Piece) (more : List Piece) :
    listForest build [.leaf shape first more] =
      .node (build shape ((first :: more).map (·.token)))
        ⟨first.token.start, lastStop 0 (first :: more)⟩ [] :: commentForest (first :: more) := by
  simp [listForest, own, around]

end

end Part
end ProtoSyntax
