import ProtoSyntax.Parsing.Error

/-!
# The state of a parse

A place among the tokens, the tree built so far and the containers that are open in it. The
innermost open container, or the root if none is open, receives new nodes. The current token is
never a comment: each run of comments is taken up as one node as soon as it is reached.

A marker remembers where a node begins before its kind is known, and which place among its
siblings it will have, so that comments met in between come after it.
-/

namespace ProtoSyntax

/-- A refused text, or an operation that a tree cannot carry out. -/
inductive Failure where
  | refused (error : ParseError)
  | misuse
deriving DecidableEq

structure Marker where
  start : Nat
  parent : Nat
  place : Nat
deriving DecidableEq

structure State (K : Type) where
  text : String
  stream : TokenStream
  tree : Tree K
  /-- Innermost first. -/
  containers : List Nat
  /-- The end of the last token passed that is no comment. -/
  prevStop : Nat

namespace State

variable {K : Type}

def container (s : State K) : Nat := s.containers.headD Tree.root

def current (s : State K) : Option Token := s.stream.current

def currentKind (s : State K) : Option TokenKind := s.current.map (·.kind)

def isAt (s : State K) (kind : TokenKind) : Bool := s.currentKind = some kind

/-- The kind of a token further on; here comments count. -/
def kindAhead (s : State K) (k : Nat) : Option TokenKind := (s.stream.lookAhead k).map (·.kind)

def refuse (s : State K) (refusal : Refusal) : ParseError :=
  .ofRefusal s.text s.current refusal

def marker (s : State K) : Marker :=
  { start := (s.current.map (·.start)).getD s.text.utf8ByteSize
    parent := s.container
    place := (s.tree.children s.container).length }

def lastChildStop (s : State K) : Nat :=
  ((s.tree.lastChild? s.container).map fun c => (s.tree.range c).stop).getD 0

end State

/-- Steps of a parse. One that fails leaves the state as it was when the failure arose. -/
abbrev ParseM (K α : Type) := EStateM Failure (State K) α

namespace ParseM

variable {K : Type}

def refuse {α : Type} (refusal : Refusal) : ParseM K α := fun s =>
  .error (.refused (s.refuse refusal)) s

def misuse {α : Type} : ParseM K α := fun s => .error .misuse s

def demand (accepts : TokenKind → Bool) (what : String) : ParseM K Token := fun s =>
  match s.current with
  | some t => if accepts t.kind then .ok t s else refuse (.expected what) s
  | none => refuse (.expected what) s

def complete (m : Marker) (kind : K) : ParseM K Nat := fun s =>
  match s.tree.insertChild? m.parent m.place kind ⟨m.start, max s.prevStop m.start⟩ with
  | some (id, tree) => .ok id { s with tree }
  | none => misuse s

def openNode (m : Marker) (kind : K) : ParseM K Nat := fun s =>
  match s.tree.insertChild? m.parent m.place kind ⟨m.start, m.start⟩ with
  | some (id, tree) => .ok id { s with tree, containers := id :: s.containers }
  | none => misuse s

def endContainer (stop : Nat) : ParseM K Nat := fun s =>
  match s.tree.setStop? s.container stop with
  | some tree => .ok s.container { s with tree, containers := s.containers.tail }
  | none => misuse s

variable [Vocabulary K]

/-- Takes up the run of comments at the current place as one node of the open container. -/
def absorbComments : ParseM K Unit := fun s =>
  match s.stream.rest.takeWhile (·.isComment) with
  | [] => .ok () s
  | first :: more =>
    let range : Range := ⟨first.start, (more.getLastD first).stop⟩
    match s.tree.pushChild? s.container Vocabulary.comment range with
    | some (_, tree) => .ok () { s with tree, stream := s.stream.drop (more.length + 1) }
    | none => misuse s

def advance : ParseM K Unit := fun s =>
  match s.stream.rest with
  | [] => refuse .exhausted s
  | t :: _ => absorbComments { s with stream := s.stream.drop 1, prevStop := t.stop }

def eat (kind : TokenKind) : ParseM K Bool := fun s =>
  if s.isAt kind then (advance *> pure true) s else .ok false s

def expectWhere (accepts : TokenKind → Bool) (what : String) : ParseM K Token := do
  let t ← demand accepts what
  advance
  return t

def expect (kind : TokenKind) : ParseM K Token :=
  expectWhere (· = kind) kind.describe

def expectText (kind : TokenKind) (what : String) : ParseM K String :=
  (·.text) <$> expectWhere (· = kind) what

def expectWord (what : String) : ParseM K String :=
  (·.text) <$> expectWhere (·.isWord) what

/-- Ends the innermost open container with its closing token, and only then passes this token,
so that the comments after it belong outside. -/
def close (kind : TokenKind) : ParseM K Nat := do
  let t ← demand (· = kind) kind.describe
  let id ← endContainer t.stop
  advance
  return id

/-- Ends the innermost open container without a closing token, where the last token passed or the
last child ends, whichever is further. -/
def finish : ParseM K Nat := fun s =>
  endContainer (max s.lastChildStop s.prevStop) s

end ParseM

def State.ofTokens {K : Type} [Vocabulary K] (text : String) (tokens : List Token) :
    EStateM.Result Failure (State K) Unit :=
  ParseM.absorbComments
    { text
      stream := .ofTokens tokens
      tree := .ofLength text.utf8ByteSize
      containers := [Tree.root]
      prevStop := 0 }

end ProtoSyntax
