import ProtoSyntax.Lexeme.ByteCursor

/-!
# Words and characters with one meaning everywhere

What both languages read the same way: a few words, and punctuation where it is allowed.
-/

namespace ProtoSyntax

def ByteCursor.single (allowed : Punct → Bool) (c : ByteCursor) : TokenKind × ByteCursor :=
  match Punct.ofChar? c.current with
  | some p => if allowed p then (.punct p, c.advance 1) else (.invalid, c.advanceChar)
  | none => (.invalid, c.advanceChar)

def commonWord? (text : String) : Option TokenKind :=
  if text = "inf" ∨ text = "nan" then some .float
  else if text = "true" ∨ text = "false" then some .boolean
  else none

end ProtoSyntax
