import ProtoSyntax.Parsing.Prediction
import ProtoSyntax.Parsing.State

/-!
# Assembling trees

A trace is played on the state of a parse, act by act, which builds the tree. Between beginning a node
and opening or completing it, the tokens taken are kept: the kind of the node is read off them.
Nodes are begun, opened and closed like brackets; anything else is misuse.
-/

namespace ProtoSyntax

structure Grammar (G S K : Type) where
  react : Prediction G S
  /-- The kind of a node of a shape, from the whole text and the tokens taken since it began. -/
  build : S → String → List Token → K

/-- A node begun, with the tokens taken since, last first. -/
structure Pending where
  marker : Marker
  taken : List Token

namespace Pending

def tokens (p : Pending) : List Token := p.taken.reverse

def push (p : Pending) (t : Token) : Pending := { p with taken := t :: p.taken }

end Pending

namespace Grammar

variable {G S K : Type} (g : Grammar G S K)

def begun (pending : Option Pending) : ParseM K Pending := fun s =>
  match pending with
  | some p => if p.marker.parent = s.container then .ok p s else ParseM.misuse s
  | none => ParseM.misuse s

def nested : ParseM K Unit := fun s =>
  if 1 < s.containers.length then .ok () s else ParseM.misuse s

variable [Vocabulary K]

def takeToken (t : Token) (role : Role S) (pending : Option Pending) :
    ParseM K (Option Pending) := do
  match role with
  | .plain =>
    ParseM.advance
    return pending.map (·.push t)
  | .begins =>
    let s ← get
    ParseM.advance
    return some ⟨s.marker, [t]⟩
  | .opens shape =>
    let p ← begun pending
    let s ← get
    let _ ← ParseM.openNode p.marker (g.build shape s.text p.tokens)
    ParseM.advance
    return none
  | .closes =>
    nested
    let _ ← ParseM.close t.kind
    return none

def perform (act : Act S) (pending : Option Pending) : ParseM K (Option Pending) := do
  match act with
  | .take t role => g.takeToken t role pending
  | .complete shape =>
    let p ← begun pending
    let s ← get
    let _ ← ParseM.complete p.marker (g.build shape s.text p.tokens)
    return none
  | .finish =>
    nested
    let _ ← ParseM.finish
    return pending

def play : List (Act S) → Option Pending → ParseM K (Option Pending)
  | [], pending => pure pending
  | act :: acts, pending => do
    let pending ← g.perform act pending
    play acts pending

def read (symbols : List (Symbol G S)) : ParseM K (List Token) := do
  let s ← get
  let trace := g.react.run symbols s.stream.rest []
  let _ ← g.play trace.acts none
  match trace.refusal with
  | some refusal => ParseM.refuse refusal
  | none => return trace.taken

def settled : ParseM K Unit := fun s =>
  if s.containers = [Tree.root] then .ok () s else ParseM.misuse s

def parse (goal : G) (text : String) (tokens : List Token) : Except Failure (Tree K) :=
  match State.ofTokens text tokens with
  | .error e _ => .error e
  | .ok _ s =>
    match (g.read [.goal goal] *> settled).run s with
    | .error e _ => .error e
    | .ok _ s => .ok s.tree

end Grammar
end ProtoSyntax
