/-!
# Character classes

The classes that scanning rests on. All of them hold ASCII characters only.
-/

namespace ProtoSyntax

def isBlank (c : Char) : Bool :=
  c = ' ' || c = '\t' || c = '\x0c' || c = '\n' || c = '\r'

def isLineBreak (c : Char) : Bool := c = '\n' || c = '\r'

def isDigit (c : Char) : Bool := '0' ≤ c && c ≤ '9'

def isOctalDigit (c : Char) : Bool := '0' ≤ c && c ≤ '7'

def isHexDigit (c : Char) : Bool :=
  isDigit c || ('a' ≤ c && c ≤ 'f') || ('A' ≤ c && c ≤ 'F')

def isLetter (c : Char) : Bool := ('a' ≤ c && c ≤ 'z') || ('A' ≤ c && c ≤ 'Z')

def isWordStart (c : Char) : Bool := isLetter c || c = '_'

def isWordPart (c : Char) : Bool := isLetter c || isDigit c || c = '_'

def isSign (c : Char) : Bool := c = '-' || c = '+'

def isQuote (c : Char) : Bool := c = '\'' || c = '"'

end ProtoSyntax
