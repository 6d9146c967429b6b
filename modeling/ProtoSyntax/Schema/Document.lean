import ProtoSyntax.Literal.Text
import ProtoSyntax.Parsing.Assembly
import ProtoSyntax.Schema.Grammar
import ProtoSyntax.Schema.Names
import ProtoSyntax.Tokens

/-!
# Schema documents

The kind of each node as it is read off the tokens taken since the node began, and the tree of a
schema file.
-/

namespace ProtoSyntax.Schema
open Reader (advance takeText eat)

def cut (p : Punct) (tokens : List Token) : List Token × List Token :=
  let isCut (t : Token) : Bool := t.kind = .punct p
  (tokens.takeWhile (!isCut ·), (tokens.dropWhile (!isCut ·)).drop 1)

def commaRuns : List Token → List (List Token)
  | [] => [[]]
  | t :: ts =>
    match commaRuns ts with
    | [] => [[t]]
    | run :: runs =>
      if t.kind = .punct .comma then [] :: run :: runs else (t :: run) :: runs

def entryOf : List Token → ReservedEntry
  | [t] => if t.kind = .string then .name (unquote t.text) else .range t.text none
  | tokens =>
    .range (Token.concat (tokens.take 1)) (some (Token.concat (tokens.drop 2)))

def readVersion : Reader Kind := do
  advance
  let literal ← takeText
  return .version (unquote literal)

def eatImportModifier : Reader (Option ImportModifier) := do
  if ← eat (.keyword .publicWord) then return some .publicImport
  else if ← eat (.keyword .weak) then return some .weak
  else return none

def readImport : Reader Kind := do
  let modifier ← eatImportModifier
  let path ← takeText
  return .importFile path modifier

def readField : Reader Kind := do
  let (modifier, type) ← readFieldType
  let name ← takeText
  advance
  let number ← takeText
  return .field name number type modifier

def readEnumValue : Reader Kind := do
  let name ← takeText
  advance
  let number ← takeText
  return .enumValue name number

def readRpc : Reader Kind := do
  let name ← takeText
  let (requestStream, request) ← readRpcType
  advance
  let (responseStream, response) ← readRpcType
  return .rpc name request requestStream response responseStream

/-- The kind of a node of a shape, from the tokens with which it is written: those of a block or an
option up to its opening, all those of a leaf. -/
def build (shape : Shape) (text : String) (tokens : List Token) : Kind :=
  let afterKeyword := tokens.drop 1
  match shape with
  | .version => (readVersion afterKeyword).1
  | .importFile => (readImport afterKeyword).1
  | .package => .package (readFullName false afterKeyword).1
  | .option => .option (readOptionName afterKeyword).1
  | .bracketOption => .option (readOptionName tokens).1
  | .optionValue => .optionValue (Token.valueText text tokens)
  | .message => .message (takeText afterKeyword).1
  | .oneof => .oneof (takeText afterKeyword).1
  | .field => (readField tokens).1
  | .reserved => .reserved ((commaRuns (cut .semicolon afterKeyword).1).map entryOf)
  | .enum => .enum (takeText afterKeyword).1
  | .enumValue => (readEnumValue tokens).1
  | .service => .service (takeText afterKeyword).1
  | .rpc => (readRpc afterKeyword).1

def grammar : Grammar Goal Shape Kind := ⟨react, build⟩

def parse (text : String) : Except Failure (Tree Kind) :=
  grammar.parse .declarations text (Language.schema.tokens text)

end ProtoSyntax.Schema
