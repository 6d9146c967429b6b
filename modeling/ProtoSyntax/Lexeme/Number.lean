import ProtoSyntax.Lexeme.Character
import ProtoSyntax.Token

/-!
# Numbers

`startsNumber` tells whether a number begins here; `number` gives its kind and its length
in characters. The cases of `unsigned` are tried in order: `inf` and `nan`, hexadecimal,
octal, decimal, and floating point for the rest.
-/

namespace ProtoSyntax

def runLength (p : Char → Bool) (cs : List Char) : Nat := (cs.takeWhile p).length

/-- Whether the word stands here and no longer word begins with it. -/
def atWord (word cs : List Char) : Bool :=
  word.isPrefixOf cs && !((cs.drop word.length).head?.any isWordPart)

def atInfOrNan (cs : List Char) : Bool :=
  atWord ['i', 'n', 'f'] cs || atWord ['n', 'a', 'n'] cs

def signLength : List Char → Nat
  | c :: _ => if isSign c then 1 else 0
  | [] => 0

def startsUnsigned : List Char → Bool
  | '.' :: c :: _ => isDigit c
  | c :: _ => isDigit c
  | [] => false

def startsNumber : List Char → Bool
  | [] => false
  | c :: cs =>
    if isSign c then startsUnsigned cs || atInfOrNan cs
    else startsUnsigned (c :: cs)

def fractionLength : List Char → Nat
  | '.' :: cs => runLength isDigit cs + 1
  | _ => 0

/-- The length of an exponent, if it stands here. Its digits may be missing. -/
def exponentLength : List Char → Nat
  | [] => 0
  | c :: cs =>
    if c = 'e' || c = 'E' then
      let s := signLength cs
      1 + s + runLength isDigit (cs.drop s)
    else 0

def floatLength (cs : List Char) : Nat :=
  let d := runLength isDigit cs
  let f := d + fractionLength (cs.drop d)
  f + exponentLength (cs.drop f)

def startsHexadecimal : List Char → Bool
  | '0' :: x :: c :: _ => (x = 'x' || x = 'X') && isHexDigit c
  | _ => false

def startsOctal : List Char → Bool
  | '0' :: c :: _ => isOctalDigit c
  | _ => false

def continuesFloat (c : Char) : Bool := c = '.' || c = 'e' || c = 'E'

def startsDecimal (cs : List Char) : Bool :=
  let d := runLength isDigit cs
  0 < d && !((cs.drop d).head?.any continuesFloat)

def unsigned (cs : List Char) : TokenKind × Nat :=
  if atInfOrNan cs then (.float, 3)
  else if startsHexadecimal cs then (.integer .hexadecimal, 2 + runLength isHexDigit (cs.drop 2))
  else if startsOctal cs then (.integer .octal, 1 + runLength isOctalDigit (cs.drop 1))
  else if startsDecimal cs then (.integer .decimal, runLength isDigit cs)
  else (.float, floatLength cs)

def number (cs : List Char) : TokenKind × Nat :=
  let s := signLength cs
  let (kind, n) := unsigned (cs.drop s)
  (kind, s + n)

end ProtoSyntax
