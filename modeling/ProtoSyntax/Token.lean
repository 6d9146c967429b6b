import ProtoSyntax.Numeral

/-!
# Tokens

What a text is cut into: numbers, strings, words, comments, punctuation and characters that
fit nowhere. A token carries its text and the byte offset at which it starts.
-/

namespace ProtoSyntax

inductive Keyword where
  | syntaxWord | importWord | publicWord | weak | package | option
  | message | enum | service | rpc | returns | oneof
  | repeated | map | optional | reserved | to | stream
deriving DecidableEq, Repr

namespace Keyword

def all : List Keyword :=
  [.syntaxWord, .importWord, .publicWord, .weak, .package, .option,
   .message, .enum, .service, .rpc, .returns, .oneof,
   .repeated, .map, .optional, .reserved, .to, .stream]

def spelling : Keyword → String
  | .syntaxWord => "syntax"
  | .importWord => "import"
  | .publicWord => "public"
  | .weak => "weak"
  | .package => "package"
  | .option => "option"
  | .message => "message"
  | .enum => "enum"
  | .service => "service"
  | .rpc => "rpc"
  | .returns => "returns"
  | .oneof => "oneof"
  | .repeated => "repeated"
  | .map => "map"
  | .optional => "optional"
  | .reserved => "reserved"
  | .to => "to"
  | .stream => "stream"

def ofText? (text : String) : Option Keyword := all.find? (·.spelling = text)

def label (k : Keyword) : String := k.spelling.capitalize

end Keyword

inductive Primitive where
  | double | float | int32 | int64 | uint32 | uint64 | sint32 | sint64
  | fixed32 | fixed64 | sfixed32 | sfixed64 | bool | string | bytes
deriving DecidableEq, Repr

namespace Primitive

def all : List Primitive :=
  [.double, .float, .int32, .int64, .uint32, .uint64, .sint32, .sint64,
   .fixed32, .fixed64, .sfixed32, .sfixed64, .bool, .string, .bytes]

def spelling : Primitive → String
  | .double => "double"
  | .float => "float"
  | .int32 => "int32"
  | .int64 => "int64"
  | .uint32 => "uint32"
  | .uint64 => "uint64"
  | .sint32 => "sint32"
  | .sint64 => "sint64"
  | .fixed32 => "fixed32"
  | .fixed64 => "fixed64"
  | .sfixed32 => "sfixed32"
  | .sfixed64 => "sfixed64"
  | .bool => "bool"
  | .string => "string"
  | .bytes => "bytes"

def ofText? (text : String) : Option Primitive := all.find? (·.spelling = text)

def label (p : Primitive) : String := p.spelling.capitalize

end Primitive

inductive Punct where
  | leftParen | rightParen | leftBrace | rightBrace | leftBracket | rightBracket
  | leftAngle | rightAngle | dot | comma | semicolon | colon | eq | slash
deriving DecidableEq, Repr

namespace Punct

def all : List Punct :=
  [.leftParen, .rightParen, .leftBrace, .rightBrace, .leftBracket, .rightBracket,
   .leftAngle, .rightAngle, .dot, .comma, .semicolon, .colon, .eq, .slash]

def char : Punct → Char
  | .leftParen => '('
  | .rightParen => ')'
  | .leftBrace => '\x7b'
  | .rightBrace => '\x7d'
  | .leftBracket => '['
  | .rightBracket => ']'
  | .leftAngle => '<'
  | .rightAngle => '>'
  | .dot => '.'
  | .comma => ','
  | .semicolon => ';'
  | .colon => ':'
  | .eq => '='
  | .slash => '/'

def label : Punct → String
  | .leftParen => "LeftParen"
  | .rightParen => "RightParen"
  | .leftBrace => "LeftBrace"
  | .rightBrace => "RightBrace"
  | .leftBracket => "LeftBracket"
  | .rightBracket => "RightBracket"
  | .leftAngle => "LeftAngle"
  | .rightAngle => "RightAngle"
  | .dot => "Dot"
  | .comma => "Comma"
  | .semicolon => "Semicolon"
  | .colon => "Colon"
  | .eq => "Eq"
  | .slash => "Slash"

def ofChar? (c : Char) : Option Punct := all.find? (·.char = c)

def quoted (p : Punct) : String := String.ofList ['\'', p.char, '\'']

end Punct

inductive TokenKind where
  | integer (radix : Radix)
  | float
  | boolean
  | string
  | comment (block : Bool)
  | keyword (k : Keyword)
  | primitive (p : Primitive)
  | identifier
  | punct (p : Punct)
  | invalid
deriving DecidableEq, Repr

namespace TokenKind

def isComment : TokenKind → Bool
  | .comment _ => true
  | _ => false

/-- Whether the token may stand for a name. Reserved words may. -/
def isWord : TokenKind → Bool
  | .identifier | .keyword _ | .primitive _ => true
  | _ => false

def isInteger : TokenKind → Bool
  | .integer _ => true
  | _ => false

def isScalar : TokenKind → Bool
  | .integer _ | .float | .boolean => true
  | k => k.isWord

def describe : TokenKind → String
  | .integer _ => "integer"
  | .float => "float"
  | .boolean => "boolean"
  | .string => "string literal"
  | .comment _ => "comment"
  | .keyword k => k.spelling
  | .primitive p => p.spelling
  | .identifier => "identifier"
  | .punct p => p.quoted
  | .invalid => "invalid character"

def label : TokenKind → String
  | .integer r => "Integer(" ++ toString r.base ++ ")"
  | .float => "Float"
  | .boolean => "Boolean"
  | .string => "String"
  | .comment true => "BlockComment"
  | .comment false => "LineComment"
  | .keyword k => "Keyword(" ++ k.spelling ++ ")"
  | .primitive p => "Primitive(" ++ p.spelling ++ ")"
  | .identifier => "Identifier"
  | .punct p => p.label
  | .invalid => "Invalid"

def all : List TokenKind :=
  Radix.all.map .integer ++
    [.float, .boolean, .string, .comment true, .comment false] ++
    Keyword.all.map .keyword ++ Primitive.all.map .primitive ++ [.identifier] ++
    Punct.all.map .punct ++ [.invalid]

def ofLabel? (text : String) : Option TokenKind := all.find? (·.label = text)

end TokenKind

structure Token where
  kind : TokenKind
  start : Nat
  text : String
deriving DecidableEq, Repr

namespace Token

def length (t : Token) : Nat := t.text.utf8ByteSize

def stop (t : Token) : Nat := t.start + t.length

def isComment (t : Token) : Bool := t.kind.isComment

end Token
end ProtoSyntax
