import ProtoSyntax.Parsing.Reader

/-!
# Names in literals

The name of a field: a word, or in brackets the name of an extension or the address of a type.
-/

namespace ProtoSyntax.Literal
open Reader (peek advance takeText moreWords)

def extensionMark? (t : Token) : Option String :=
  if t.kind = .punct .dot ∨ t.kind = .punct .slash then some t.text else none

def readExtensionName : Reader String := do
  advance
  let word ← takeText
  let name ← moreWords extensionMark? ("[" ++ word)
  advance
  return name ++ "]"

def readFieldName : Reader String := do
  if (← peek 0) = some (.punct .leftBracket) then readExtensionName else takeText

end ProtoSyntax.Literal
