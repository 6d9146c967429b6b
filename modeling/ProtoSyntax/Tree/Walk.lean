import ProtoSyntax.Tree.Basic

/-!
# Walks through a tree

Upwards to the root, downwards in pre-order, and down to the smallest node around an offset.
A child is younger than its parent, so each walk follows a link only in that direction.
-/

namespace ProtoSyntax.Tree

variable {K : Type}

def ancestors (t : Tree K) (id : Nat) : List Nat :=
  match t.parent? id with
  | some p => if p < id then id :: t.ancestors p else [id]
  | none => [id]
termination_by id

/-- A node and all below it, a parent before its children and these in their order. -/
def descendants (t : Tree K) (id : Nat) : List Nat :=
  id :: (t.children id).flatMap fun c =>
    if id < c ∧ c < t.size then t.descendants c else []
termination_by t.size - id

/-- The first of the nodes whose range is shortest. -/
def shortest? (t : Tree K) : List Nat → Option Nat
  | [] => none
  | c :: cs =>
    match t.shortest? cs with
    | some d => if (t.range d).length < (t.range c).length then some d else some c
    | none => some c

def narrow (t : Tree K) (offset : Nat) (id : Nat) : Nat :=
  match t.shortest? ((t.children id).filter fun c => (t.range c).contains offset) with
  | some c => if id < c ∧ c < t.size then t.narrow offset c else id
  | none => id
termination_by t.size - id

def nodeAtOffset (t : Tree K) (offset : Nat) : Nat := t.narrow offset root

def declarations [Vocabulary K] (t : Tree K) (id : Nat) : List Nat :=
  (t.children id).filter fun c => !((t.node? c).any fun n => Vocabulary.isComment n.kind)

end ProtoSyntax.Tree
