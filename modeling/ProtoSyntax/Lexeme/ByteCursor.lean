import ProtoSyntax.Lexeme.Number

/-!
# A cursor over bytes

A position among the bytes of a text. Each byte is seen as the character of the same number, so
that scanning goes on from any byte, also from inside a longer character. Looking past either end
shows the character numbered zero, and no movement leaves the text. The loops end because each
step leaves fewer bytes to go.
-/

namespace ProtoSyntax

structure ByteCursor where
  bytes : List Char
  position : Nat

namespace ByteCursor

/-- The bytes of a text, each as the character of the same number. -/
def bytesOf (text : String) : List Char :=
  text.toUTF8.toList.map fun b => Char.ofNat b.toNat

def ofText (text : String) : ByteCursor := ⟨bytesOf text, 0⟩

def endOfText : Char := '\x00'

def rest (c : ByteCursor) : List Char := c.bytes.drop c.position

def atEnd (c : ByteCursor) : Bool := c.bytes.length ≤ c.position

def remaining (c : ByteCursor) : Nat := c.bytes.length - c.position

def peek (c : ByteCursor) (distance : Int) : Char :=
  let index := c.position + distance
  if index < 0 then endOfText else c.bytes[index.toNat]?.getD endOfText

def current (c : ByteCursor) : Char := c.peek 0

def isAt (c : ByteCursor) (x : Char) : Bool := !c.atEnd && c.current = x

def atWord (c : ByteCursor) (distance : Nat) (word : String) : Bool :=
  ProtoSyntax.atWord (bytesOf word) (c.bytes.drop (c.position + distance))

def advance (c : ByteCursor) (n : Nat) : ByteCursor :=
  { c with position := min (c.position + n) c.bytes.length }

theorem remaining_advance_le (c : ByteCursor) (n : Nat) : (c.advance n).remaining ≤ c.remaining := by
  simp only [remaining, advance]
  omega

theorem remaining_advance_lt {c : ByteCursor} (h : c.atEnd = false) {n : Nat} (hn : 0 < n) :
    (c.advance n).remaining < c.remaining := by
  simp only [atEnd, decide_eq_false_iff_not] at h
  simp only [remaining, advance]
  omega

def next (c : ByteCursor) : Bool × ByteCursor :=
  let c := c.advance 1
  (!c.atEnd, c)

/-- The number of bytes of the character that begins with a byte; one, if none does. -/
def width (lead : Char) : Nat :=
  if lead.toNat < 0xC0 then 1
  else if lead.toNat < 0xE0 then 2
  else if lead.toNat < 0xF0 then 3
  else 4

def advanceChar (c : ByteCursor) : ByteCursor :=
  c.advance (c.rest.head?.elim 1 width)

def advanceWhile (p : Char → Bool) (c : ByteCursor) : ByteCursor :=
  if _h : c.atEnd = false ∧ p c.current then (c.advance 1).advanceWhile p else c
termination_by c.remaining
decreasing_by exact remaining_advance_lt _h.1 Nat.one_pos

def atBlank (c : ByteCursor) : Bool := !c.atEnd && isBlank c.current

def atLineBreak (c : ByteCursor) : Bool := !c.atEnd && isLineBreak c.current

def skipBlanks (c : ByteCursor) : ByteCursor := c.advanceWhile isBlank

def skipLine (c : ByteCursor) : ByteCursor := c.advanceWhile (!isLineBreak ·)

/-- Goes on to the end of a string. A backslash takes the next byte with it, so an escaped quote
closes nothing. -/
def skipStringTail (quote : Char) (c : ByteCursor) : ByteCursor :=
  if _h : c.atEnd then c
  else if c.current = '\\' then (c.advance 2).skipStringTail quote
  else if c.current = quote then c.advance 1
  else (c.advance 1).skipStringTail quote
termination_by c.remaining
decreasing_by all_goals exact remaining_advance_lt (eq_false_of_ne_true _h) (by decide)

def skipString (c : ByteCursor) : ByteCursor := (c.advance 1).skipStringTail c.current

def skipBlockTail (c : ByteCursor) : ByteCursor :=
  if _h : c.atEnd then c
  else if c.current = '*' ∧ c.peek 1 = '/' then c.advance 2
  else (c.advance 1).skipBlockTail
termination_by c.remaining
decreasing_by exact remaining_advance_lt (eq_false_of_ne_true _h) Nat.one_pos

def skipBlockComment (c : ByteCursor) : ByteCursor := (c.advance 2).skipBlockTail

def startsNumber (c : ByteCursor) : Bool := ProtoSyntax.startsNumber c.rest

def number (c : ByteCursor) : TokenKind × ByteCursor :=
  let (kind, n) := ProtoSyntax.number c.rest
  (kind, c.advance n)

def word (c : ByteCursor) : String × ByteCursor :=
  let after := c.advanceWhile isWordPart
  (String.ofList ((c.bytes.take after.position).drop c.position), after)

end ByteCursor
end ProtoSyntax
