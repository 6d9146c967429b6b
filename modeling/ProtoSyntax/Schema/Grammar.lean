import ProtoSyntax.Literal.Grammar
import ProtoSyntax.Schema.Kind

/-!
# The grammar of schema files

The declarations of a file, of messages, oneofs, enums, services and methods, and the options in them.
Reserved words may stand for names. A block is opened with its brace and closed with the brace
that matches; a leaf is completed after its last token.
-/

namespace ProtoSyntax.Schema

inductive Shape where
  | version | importFile | package
  | option
  | bracketOption
  | optionValue
  | message | oneof | field | reserved | enum | enumValue | service | rpc
deriving DecidableEq, Repr

inductive Goal where
  | literal (goal : Literal.Goal)
  | declarations
  | version
  | importPath
  | name (what : String)
  | rootedName (what : String)
  | moreName (what : String)
  | typeName
  | optionName (role : Role Shape)
  | moreOptionName
  | optionValue
  | moreOptions
  | declarationEnd (shape : Shape)
  | messageBody | oneofBody | enumBody | serviceBody | rpcBody
  | reservedEntries
  | moreReservedNames
  | moreReservedRanges
  | rangeRest
  | rangeEnd
  | rpcType
  | rpcEnd
  | optionalSemicolon
deriving DecidableEq, Repr

abbrev Symbols := List (Symbol Goal Shape)

open Literal (word integer string keyword punct)

def semicolonCloses : Symbol Goal Shape := .token (.punct .semicolon) .closes

def optionTail (shape : Shape) : Symbols :=
  [.token (.punct .eq) (.opens shape), .goal .optionValue]

def optionStatement : Symbols :=
  .goal (.optionName .plain) :: optionTail .option ++ [semicolonCloses]

def bracketOption : Symbols :=
  .goal (.optionName .begins) :: optionTail .bracketOption ++ [.finish, .goal .moreOptions]

def block (what : String) (shape : Shape) (body : Goal) : Symbols :=
  [word what, .token (.punct .leftBrace) (.opens shape), .goal body]

def messageBlock : Symbols := block "message name" .message .messageBody

def oneofBlock : Symbols := block "oneof name" .oneof .oneofBody

def enumBlock : Symbols := block "enum name" .enum .enumBody

def serviceBlock : Symbols := block "service name" .service .serviceBody

def reservedStatement : Symbols :=
  [.goal .reservedEntries, punct .semicolon, .complete .reserved]

def mapType : Symbols :=
  [punct .leftAngle, .goal .typeName, punct .comma, .goal .typeName, punct .rightAngle]

def fieldTail : Symbols :=
  [word "field name", punct .eq, integer "field number", .goal (.declarationEnd .field)]

def enumValueTail : Symbols :=
  [punct .eq, integer "enum value number", .goal (.declarationEnd .enumValue)]

def parenthesisedType : Symbols := [punct .leftParen, .goal .rpcType, punct .rightParen]

def rpcDeclaration : Symbols :=
  word "rpc name" :: parenthesisedType ++ keyword .returns :: parenthesisedType ++ [.goal .rpcEnd]

def afterTypeStart? (kind : TokenKind) : Option Symbols :=
  match kind with
  | .primitive _ => some []
  | .punct .dot => some [.goal (.name "type name")]
  | _ => if kind.isWord then some [.goal (.moreName "type name")] else none

/-- What comes after the first token of a field. A map is told from a type of that name by the
angle right after the word. -/
def afterFieldStart? (ahead : List Token) : Option Symbols :=
  match kindAt ahead 0 with
  | some (.keyword .repeated) | some (.keyword .optional) => some (.goal .typeName :: fieldTail)
  | some kind =>
    if kind = .keyword .map ∧ kindAt ahead 1 = some (.punct .leftAngle) then
      some (mapType ++ fieldTail)
    else (afterTypeStart? kind).map (· ++ fieldTail)
  | none => none

def afterOptionNameStart? (kind : TokenKind) : Option Symbols :=
  if kind = .punct .leftParen then
    some [.goal (.rootedName "option name"), punct .rightParen, .goal .moreOptionName]
  else if kind.isWord then some [.goal (.moreName "option name")]
  else none

def afterDeclarationStart? : TokenKind → Option Symbols
  | .keyword .syntaxWord =>
    some [punct .eq, .goal .version, punct .semicolon, .complete .version]
  | .keyword .importWord => some [.goal .importPath, punct .semicolon, .complete .importFile]
  | .keyword .package =>
    some [.goal (.name "package name"), punct .semicolon, .complete .package]
  | .keyword .option => some optionStatement
  | .keyword .message => some messageBlock
  | .keyword .enum => some enumBlock
  | .keyword .service => some serviceBlock
  | _ => none

def afterMessageMemberStart? (ahead : List Token) : Option Symbols :=
  match kindAt ahead 0 with
  | some (.keyword .message) => some messageBlock
  | some (.keyword .enum) => some enumBlock
  | some (.keyword .oneof) => some oneofBlock
  | some (.keyword .reserved) => some reservedStatement
  | _ => afterFieldStart? ahead

def afterEnumMemberStart? (kind : TokenKind) : Option Symbols :=
  if kind = .keyword .reserved then some reservedStatement
  else if kind.isWord then some enumValueTail
  else none

def afterServiceMemberStart? (kind : TokenKind) : Option Symbols :=
  if kind = .keyword .rpc then some rpcDeclaration else none

/-- What every body has: its closing brace, stray semicolons and option statements. Other members
are begun if there is something to pursue after their first token. -/
def reactInBody (body : Goal) (what : String) (member? : Option Symbols) :
    Option TokenKind → Reaction Goal Shape
  | some (.punct .rightBrace) => .take .closes []
  | some (.punct .semicolon) => .take .plain [.goal body]
  | some (.keyword .option) => .take .begins (optionStatement ++ [.goal body])
  | _ => .takeOrRefuse .begins what (member?.map (· ++ [.goal body]))

def isVersionLiteral (text : String) : Bool := text = "\"proto3\"" || text = "'proto3'"

def reactToVersion : Option Token → Reaction Goal Shape
  | some t =>
    if t.kind = .string then
      if isVersionLiteral t.text then .take .plain [] else .reject .wrongVersion
    else .reject (.expected "string literal")
  | none => .reject (.expected "string literal")

def isRangeEnd (t : Token) : Bool :=
  t.kind.isInteger || (t.kind = .identifier && t.text = "max")

def react (goal : Goal) (ahead : List Token) : Reaction Goal Shape :=
  let next := kindAt ahead 0
  match goal with
  | .literal g => Literal.react .literal g ahead
  | .declarations =>
    match next with
    | none => .skip
    | some (.punct .semicolon) => .take .plain [.goal .declarations]
    | some kind =>
      .takeOrRefuse .begins "top-level declaration"
        ((afterDeclarationStart? kind).map (· ++ [.goal .declarations]))
  | .version => reactToVersion ahead.head?
  | .importPath =>
    .takeOrRefuse .plain "import path" <|
      match next with
      | some (.keyword .publicWord) | some (.keyword .weak) => some [string "import path"]
      | some .string => some []
      | _ => none
  | .name what =>
    .takeOrRefuse .plain what (if next.any (·.isWord) then some [.goal (.moreName what)] else none)
  | .rootedName what =>
    .takeOrRefuse .plain what <|
      if next = some (.punct .dot) then some [.goal (.name what)]
      else if next.any (·.isWord) then some [.goal (.moreName what)]
      else none
  | .moreName what =>
    .takeOrSkip (if next = some (.punct .dot) then some [word what, .goal (.moreName what)] else none)
  | .typeName => .takeOrRefuse .plain "type name" (next.bind afterTypeStart?)
  | .optionName role => .takeOrRefuse role "option name" (next.bind afterOptionNameStart?)
  | .moreOptionName =>
    .takeOrSkip (if next = some (.punct .dot) then some [.goal (.name "option name")] else none)
  | .optionValue =>
    .takeOrRefuse .begins "option value" <|
      (next.bind fun kind =>
        (Literal.afterMessageStart? .literal kind).or (Literal.afterScalarStart? .literal kind)).map
          (· ++ [.complete .optionValue])
  | .moreOptions => .takeOrSkip (if next = some (.punct .comma) then some bracketOption else none)
  | .declarationEnd shape =>
    if next = some (.punct .leftBracket) then
      .take (.opens shape) (bracketOption ++ [punct .rightBracket, semicolonCloses])
    else
      .takeOrRefuse .plain Punct.semicolon.quoted
        (if next = some (.punct .semicolon) then some [.complete shape] else none)
  | .messageBody =>
    reactInBody .messageBody "message body declaration" (afterMessageMemberStart? ahead) next
  | .oneofBody => reactInBody .oneofBody "oneof field" (afterFieldStart? ahead) next
  | .enumBody => reactInBody .enumBody "enum value" (next.bind afterEnumMemberStart?) next
  | .serviceBody =>
    reactInBody .serviceBody "'rpc' or 'option'" (next.bind afterServiceMemberStart?) next
  | .rpcBody => reactInBody .rpcBody "'option' or '\x7d'" none next
  | .reservedEntries =>
    .takeOrRefuse .plain "reserved field number" <|
      if next = some .string then some [.goal .moreReservedNames]
      else if next.any (·.isInteger) then some [.goal .rangeRest, .goal .moreReservedRanges]
      else none
  | .moreReservedNames =>
    .takeOrSkip (if next = some (.punct .comma) then
      some [string "reserved name", .goal .moreReservedNames] else none)
  | .moreReservedRanges =>
    .takeOrSkip (if next = some (.punct .comma) then
      some [integer "reserved field number", .goal .rangeRest, .goal .moreReservedRanges] else none)
  | .rangeRest => .takeOrSkip (if next = some (.keyword .to) then some [.goal .rangeEnd] else none)
  | .rangeEnd =>
    .takeOrRefuse .plain "range end" (if ahead.head?.any isRangeEnd then some [] else none)
  | .rpcType =>
    if next = some (.keyword .stream) ∧ kindAt ahead 1 ≠ some (.punct .rightParen) then
      .take .plain [.goal .typeName]
    else .takeOrRefuse .plain "type name" (next.bind afterTypeStart?)
  | .rpcEnd =>
    if next = some (.punct .leftBrace) then
      .take (.opens .rpc) [.goal .rpcBody, .goal .optionalSemicolon]
    else
      .takeOrRefuse .plain Punct.semicolon.quoted
        (if next = some (.punct .semicolon) then some [.complete .rpc] else none)
  | .optionalSemicolon =>
    .takeOrSkip (if next = some (.punct .semicolon) then some [] else none)

end ProtoSyntax.Schema
