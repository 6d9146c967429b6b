import ProtoSyntax.Lexeme.Single

/-!
# Lexemes of schema files

Comments open with `//` or `/*`, and the names of keywords and primitive types are reserved.
-/

namespace ProtoSyntax.Schema

def wordKind (text : String) : TokenKind :=
  match commonWord? text with
  | some k => k
  | none =>
    match Primitive.ofText? text with
    | some p => .primitive p
    | none =>
      match Keyword.ofText? text with
      | some k => .keyword k
      | none => .identifier

/-- Every punctuation character but the slash, which only opens comments. -/
def isPunct (p : Punct) : Bool := p != .slash

def scan (c : ByteCursor) : TokenKind × ByteCursor :=
  if c.current = '/' then
    if c.peek 1 = '/' then (.comment false, c.skipLine)
    else if c.peek 1 = '*' then (.comment true, c.skipBlockComment)
    else (.invalid, c.advance 1)
  else if isQuote c.current then (.string, c.skipString)
  else if c.startsNumber then c.number
  else if isWordStart c.current then
    let (text, after) := c.word
    (wordKind text, after)
  else c.single isPunct

end ProtoSyntax.Schema
