import ProtoSyntax.Parsing.Prediction

/-!
# Readers

What a node says of itself is put together piece by piece from the tokens that it is written with,
comments left out.
-/

namespace ProtoSyntax

/-- Makes something of the first of some tokens, and leaves the others. -/
abbrev Reader (α : Type) := StateM (List Token) α

namespace Reader

def peek (k : Nat) : Reader (Option TokenKind) := fun ts => (kindAt ts k, ts)

def advance : Reader Unit := fun ts => ((), ts.drop 1)

def takeText : Reader String := fun
  | [] => ("", [])
  | t :: ts => (t.text, ts)

def eat (kind : TokenKind) : Reader Bool := fun ts =>
  if kindAt ts 0 = some kind then (true, ts.drop 1) else (false, ts)

/-- Goes on with a name: as long as there is a mark, what it adds to the name and the word after it. -/
def moreWords (mark? : Token → Option String) (name : String) : Reader String := fun
  | mark :: word :: ts =>
    match mark? mark with
    | some s => moreWords mark? (name ++ s ++ word.text) ts
    | none => (name, mark :: word :: ts)
  | ts => (name, ts)

end Reader
end ProtoSyntax
