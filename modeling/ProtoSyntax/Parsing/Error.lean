import ProtoSyntax.TokenStream
import ProtoSyntax.Tree.Basic

/-!
# Errors

Why a text is refused, and where. Lines and columns count from one; only a line feed ends a line,
and columns count bytes.
-/

namespace ProtoSyntax

inductive Refusal where
  | expected (what : String)
  | wrongVersion
  | exhausted
  | other (message : String)
deriving DecidableEq, Repr

def Refusal.message (found : Option Token) : Refusal → String
  | .expected what =>
    match found with
    | some t => "expected " ++ what ++ ", found '" ++ t.text ++ "'"
    | none => "expected " ++ what ++ ", found end of input"
  | .wrongVersion => "expected \"proto3\", found " ++ (found.map (·.text)).getD ""
  | .exhausted => "unexpected end of input"
  | .other message => message

/-- How many lines end before an offset, and how many bytes lie between the last of these ends
and the offset; `line` and `column` are those of the place where the characters begin. -/
def locateFrom (line column offset : Nat) : List Char → Nat × Nat
  | [] => (line, column + offset)
  | c :: cs =>
    if offset < c.utf8Size then (line, column + offset)
    else if c = '\n' then locateFrom (line + 1) 0 (offset - c.utf8Size) cs
    else locateFrom line (column + c.utf8Size) (offset - c.utf8Size) cs

structure ParseError where
  message : String
  range : Range
  line : Nat
  column : Nat
deriving DecidableEq, Repr

namespace ParseError

def locate (text message : String) (range : Range) : ParseError :=
  let (line, column) := locateFrom 0 0 range.start text.toList
  ⟨message, range, line + 1, column + 1⟩

def rangeAt (text : String) : Option Token → Range
  | some t => ⟨t.start, t.stop⟩
  | none => ⟨text.utf8ByteSize, text.utf8ByteSize⟩

def ofRefusal (text : String) (found : Option Token) (refusal : Refusal) : ParseError :=
  locate text (refusal.message found) (rangeAt text found)

def display (e : ParseError) : String :=
  e.message ++ " at " ++ toString e.line ++ ":" ++ toString e.column

end ParseError
end ProtoSyntax
