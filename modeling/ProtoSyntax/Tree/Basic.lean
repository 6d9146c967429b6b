import ProtoSyntax.Json

/-!
# Trees of ranged nodes

A tree is an array of nodes, named by their index, the root first. Each node has a kind, a range of
byte offsets, a parent and an ordered list of children. Nodes are only ever added, so a
child is younger than its parent. The operations that can be misused give nothing then: there is
no node to insert under, no such place among the children, or a range would end before it starts.
-/

namespace ProtoSyntax

/-- What a tree asks of the kinds of its nodes: the two that every tree uses, and how each is
named and written. -/
class Vocabulary (K : Type) where
  root : K
  comment : K
  isComment : K → Bool
  label : K → String
  payload : K → String
  name? : K → Option String
  members : K → List (String × Json)

structure Range where
  start : Nat
  stop : Nat
deriving DecidableEq, Repr

namespace Range

def length (r : Range) : Nat := r.stop - r.start

def contains (r : Range) (offset : Nat) : Bool := r.start ≤ offset && offset < r.stop

end Range

structure Node (K : Type) where
  kind : K
  range : Range
  parent : Option Nat
  children : List Nat
deriving DecidableEq

structure Tree (K : Type) where
  nodes : Array (Node K)
deriving DecidableEq

namespace Tree

variable {K : Type}

def root : Nat := 0

def ofLength [Vocabulary K] (length : Nat) : Tree K :=
  ⟨#[⟨Vocabulary.root, ⟨0, length⟩, none, []⟩]⟩

def size (t : Tree K) : Nat := t.nodes.size

def node? (t : Tree K) (id : Nat) : Option (Node K) := t.nodes[id]?

def children (t : Tree K) (id : Nat) : List Nat := ((t.node? id).map (·.children)).getD []

def parent? (t : Tree K) (id : Nat) : Option Nat := (t.node? id).bind (·.parent)

def range (t : Tree K) (id : Nat) : Range := ((t.node? id).map (·.range)).getD ⟨0, 0⟩

def lastChild? (t : Tree K) (id : Nat) : Option Nat := (t.children id).getLast?

def insertChild? (t : Tree K) (parent : Nat) (place : Nat) (kind : K) (range : Range) :
    Option (Nat × Tree K) :=
  if parent < t.size ∧ place ≤ (t.children parent).length ∧ range.start ≤ range.stop then
    let id := t.size
    let linked := t.nodes.modify parent fun n => { n with children := n.children.insertIdx place id }
    some (id, ⟨linked.push ⟨kind, range, some parent, []⟩⟩)
  else none

def pushChild? (t : Tree K) (parent : Nat) (kind : K) (range : Range) :
    Option (Nat × Tree K) :=
  t.insertChild? parent (t.children parent).length kind range

def setStop? (t : Tree K) (id : Nat) (stop : Nat) : Option (Tree K) :=
  if id < t.size ∧ (t.range id).start ≤ stop then
    some ⟨t.nodes.modify id fun n => { n with range := { n.range with stop } }⟩
  else none

end Tree
end ProtoSyntax
