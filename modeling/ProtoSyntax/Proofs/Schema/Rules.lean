import ProtoSyntax.Proofs.Literal.Rules
import ProtoSyntax.Schema.Grammar

/-!
# Schema files in EBNF

The declarations of a file with the nodes that they make, and for each goal the expression that it
pursues.
-/

namespace ProtoSyntax.Schema
open Ebnf (opt star alt sepBy leaf)

inductive Nonterminal where
  | literal (n : Literal.Nonterminal)
  | message
deriving DecidableEq, Repr

abbrev Expr := Phrase Nonterminal Shape

def semicolon : Ebnf Nonterminal Shape := .punct .semicolon

def dotted : Expr := sepBy [.word] [.punct .dot]

def rooted : Expr := opt [.punct .dot] :: dotted

def isPrimitive : TokenKind → Bool
  | .primitive _ => true
  | _ => false

def typeExcept (excluded : List Keyword) : Expr :=
  [alt [[.token fun kind _ => isPrimitive kind],
    .punct .dot :: dotted,
    [.token fun kind _ => kind.isWord && !isPrimitive kind && kind ∉ excluded.map .keyword,
      star [.punct .dot, .word]]]]

def type : Expr := typeExcept []

def optionName : Expr :=
  [alt [dotted,
    .punct .leftParen :: rooted ++ [.punct .rightParen, opt (.punct .dot :: dotted)]]]

def optionValue : Expr :=
  leaf .optionValue
    [alt [Literal.stringRun, Literal.scalar, Literal.message .literal]]

def option : Expr :=
  Ebnf.block .option (.keyword .option :: optionName) (.punct .eq) optionValue semicolon

def optionInBrackets : Expr :=
  .mark .begins :: optionName ++ [.mark (.opens .bracketOption), .punct .eq] ++ optionValue ++
    [.mark .finishes]

def ending (shape : Shape) : Expr :=
  [alt [[semicolon, .mark (.completes shape)],
    .mark (.opens shape) :: .punct .leftBracket :: sepBy optionInBrackets [.punct .comma] ++
      [.punct .rightBracket, .mark .closes, semicolon]]]

def numberedField : Expr := .word :: .punct .eq :: .integer :: ending .field

def labelledField : Expr :=
  [alt [[.keyword .repeated], [.keyword .optional]]] ++ type ++ numberedField

def mapField : Expr :=
  .keyword .map :: .punct .leftAngle :: type ++ .punct .comma :: type ++ .punct .rightAngle ::
    numberedField

def field (excluded : List Keyword) : Expr :=
  [.mark .begins, alt [labelledField, mapField, typeExcept excluded ++ numberedField]]

def rangeEnd : Ebnf Nonterminal Shape :=
  .token fun kind text => kind.isInteger || (kind = .identifier && text = "max")

def range : Expr := [.integer, opt [.keyword .to, rangeEnd]]

def reservedEntries : Expr := [alt [sepBy [.string] [.punct .comma], sepBy range [.punct .comma]]]

def reserved : Expr :=
  leaf .reserved (.keyword .reserved :: reservedEntries ++ [semicolon])

def body (members : List Expr) : Expr :=
  [star [alt ([semicolon] :: option :: members)], .mark .closes, .punct .rightBrace]

def blockOf (shape : Shape) (keyword : Keyword) (members : List Expr) : Expr :=
  .mark .begins :: .keyword keyword :: .word :: .mark (.opens shape) :: .punct .leftBrace ::
    body members

def oneofMembers : List Expr := [field [.repeated, .optional, .option]]

def oneof : Expr := blockOf .oneof .oneof oneofMembers

def enumValue : Expr :=
  .mark .begins ::
    .token (fun kind _ => kind.isWord && kind ≠ .keyword .option && kind ≠ .keyword .reserved) ::
    .punct .eq :: .integer :: ending .enumValue

def enumMembers : List Expr := [reserved, enumValue]

def enum : Expr := blockOf .enum .enum enumMembers

def messageMembers : List Expr :=
  [[.ref .message], enum, oneof, reserved,
    field [.repeated, .optional, .option, .message, .enum, .oneof, .reserved]]

def message : Expr := blockOf .message .message messageMembers

def rpcType : Expr := [alt [.keyword .stream :: type, type]]

def rpcEnding : Expr :=
  [alt [[semicolon, .mark (.completes .rpc)],
    .mark (.opens .rpc) :: .punct .leftBrace :: body [] ++ [opt [semicolon]]]]

def rpc : Expr :=
  .mark .begins :: .keyword .rpc :: .word :: .punct .leftParen :: rpcType ++ .punct .rightParen ::
    .keyword .returns :: .punct .leftParen :: rpcType ++ .punct .rightParen :: rpcEnding

def service : Expr := blockOf .service .service [rpc]

def versionLiteral : Ebnf Nonterminal Shape :=
  .token fun kind text => kind = .string && isVersionLiteral text

def version : Expr :=
  leaf .version [.keyword .syntaxWord, .punct .eq, versionLiteral, semicolon]

def importPath : Expr := [opt [alt [[.keyword .publicWord], [.keyword .weak]]], .string]

def importFile : Expr := leaf .importFile (.keyword .importWord :: importPath ++ [semicolon])

def package : Expr := leaf .package (.keyword .package :: dotted ++ [semicolon])

def document : Expr :=
  [star [alt [[semicolon], version, importFile, package, option, [.ref .message], enum, service]]]

def rule : Nonterminal → Expr
  | .literal n => Literal.rule .literal n
  | .message => message

def phrase : Goal → Expr
  | .literal g => Literal.phrase .literal g
  | .declarations => document
  | .version => [versionLiteral]
  | .importPath => importPath
  | .name _ => dotted
  | .rootedName _ => rooted
  | .moreName _ => [star [.punct .dot, .word]]
  | .typeName => type
  | .optionName role => role.marks.map .mark ++ optionName
  | .moreOptionName => [opt (.punct .dot :: dotted)]
  | .optionValue => optionValue
  | .moreOptions => [star (.punct .comma :: optionInBrackets)]
  | .declarationEnd shape => ending shape
  | .messageBody => body messageMembers
  | .oneofBody => body oneofMembers
  | .enumBody => body enumMembers
  | .serviceBody => body [rpc]
  | .rpcBody => body []
  | .reservedEntries => reservedEntries
  | .moreReservedNames => [star [.punct .comma, .string]]
  | .moreReservedRanges => [star (.punct .comma :: range)]
  | .rangeRest => [opt [.keyword .to, rangeEnd]]
  | .rangeEnd => [rangeEnd]
  | .rpcType => rpcType
  | .rpcEnd => rpcEnding
  | .optionalSemicolon => [opt [semicolon]]

/-- The kinds of token that a goal claims for itself where it could also end. -/
def claims : Goal → TokenKind → Prop
  | .literal g => g.claims
  | .name _ | .rootedName _ | .moreName _ | .typeName | .optionName _ | .moreOptionName =>
    fun k => k = .punct .dot
  | .optionValue => fun k => k = .string
  | .moreOptions => fun k => k = .string ∨ k = .punct .comma
  | .moreReservedNames => fun k => k = .punct .comma
  | .reservedEntries | .moreReservedRanges => fun k => k = .punct .comma ∨ k = .keyword .to
  | .rangeRest => fun k => k = .keyword .to
  | _ => fun _ => False

/-- What may be pursued after a goal. A semicolon after a method is taken as the method's, or else
as a stray one of the service. -/
def follow (g : Goal) (k : Symbols) : Prop :=
  Clear rule (claims g) (stackPhrase phrase k) ∧
    match g with
    | .literal g => g.IsClosable
    | .declarations => k = []
    | .rpcType =>
      ∃ s l, k = Literal.punct .rightParen :: s :: l ∧
        (s = Literal.keyword .returns ∨ s = .goal .rpcEnd)
    | .rpcEnd | .optionalSemicolon => ∃ l, k = .goal .serviceBody :: l
    | _ => True

def Parted (k l : TokenKind) (ps : List Piece) : Prop :=
  ∃ p q rest, ps = p :: q :: rest ∧ p.kind = k ∧ q.kind = l ∧ p.comments ≠ []

/-- Where a goal has to look at the second token ahead and a comment is in its way. -/
def blind : Goal → List Piece → Prop
  | .messageBody | .oneofBody => Parted (.keyword .map) (.punct .leftAngle)
  | .rpcType => Parted (.keyword .stream) (.punct .rightParen)
  | _ => fun _ => False

end ProtoSyntax.Schema
