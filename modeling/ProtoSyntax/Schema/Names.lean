import ProtoSyntax.Parsing.Reader
import ProtoSyntax.Schema.Kind

/-!
# Names and types in schema files

The names of packages, options and types, and the types of fields and methods.
-/

namespace ProtoSyntax.Schema
open Reader (peek advance takeText eat moreWords)

def dot? (t : Token) : Option String := if t.kind = .punct .dot then some "." else none

def eatRoot : Bool → Reader Bool
  | true => eat (.punct .dot)
  | false => pure false

def readFullName (leadingDot : Bool) : Reader String := do
  let rooted ← eatRoot leadingDot
  let word ← takeText
  moreWords dot? ((if rooted then "." else "") ++ word)

def readTypeName : Reader String := do
  match ← peek 0 with
  | some (.primitive p) =>
    advance
    return p.spelling
  | _ => readFullName true

def readParenthesised : Reader String := do
  advance
  let name ← readFullName true
  advance
  return "(" ++ name ++ ")"

/-- The name of an option: a name in parentheses and what is selected from it, or a plain name. -/
def readOptionName : Reader String := do
  if (← peek 0) = some (.punct .leftParen) then
    let extension ← readParenthesised
    if ← eat (.punct .dot) then
      let path ← readFullName false
      return extension ++ "." ++ path
    else return extension
  else readFullName false

def readMapType : Reader (String × String) := do
  advance
  advance
  let key ← readTypeName
  advance
  let value ← readTypeName
  advance
  return (key, value)

def readFieldType : Reader (Option FieldModifier × String) := do
  if ← eat (.keyword .repeated) then
    let type ← readTypeName
    return (some .repeated, type)
  else if ← eat (.keyword .optional) then
    let type ← readTypeName
    return (some .optional, type)
  else if (← peek 0) = some (.keyword .map) ∧ (← peek 1) = some (.punct .leftAngle) then
    let (key, value) ← readMapType
    return (some (.map key value), "map<" ++ key ++ ", " ++ value ++ ">")
  else
    let type ← readTypeName
    return (none, type)

/-- Passes over the word for a stream. If nothing else is in the parentheses, the word is a type. -/
def eatStream : Reader Bool := do
  if (← peek 0) = some (.keyword .stream) ∧ (← peek 1) ≠ some (.punct .rightParen) then
    advance
    return true
  else return false

def readRpcType : Reader (Bool × String) := do
  advance
  let stream ← eatStream
  let type ← readTypeName
  advance
  return (stream, type)

end ProtoSyntax.Schema
