import ProtoSyntax.Lexeme.Single

/-!
# Lexemes of text-format data

Comments open with `#`, no word is reserved, and a number may end in `f`.
-/

namespace ProtoSyntax.TextFormat

def wordKind (text : String) : TokenKind := (commonWord? text).getD .identifier

def isPunct : Punct → Bool
  | .leftParen | .rightParen | .eq => false
  | _ => true

def takesFloatSuffix (k : TokenKind) : Bool := k = .float || k = .integer .decimal

def floatSuffix (kind : TokenKind) (c : ByteCursor) : TokenKind × ByteCursor :=
  if takesFloatSuffix kind && (c.current = 'f' || c.current = 'F') && !isWordPart (c.peek 1) then
    (.float, c.advance 1)
  else (kind, c)

def scan (c : ByteCursor) : TokenKind × ByteCursor :=
  if c.current = '#' then (.comment false, c.skipLine)
  else if isQuote c.current then (.string, c.skipString)
  else if c.startsNumber then
    let (kind, after) := c.number
    floatSuffix kind after
  else if isWordStart c.current then
    let (text, after) := c.word
    (wordKind text, after)
  else c.single isPunct

end ProtoSyntax.TextFormat
