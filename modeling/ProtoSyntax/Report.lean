import ProtoSyntax.Parsing.Error

/-!
# Reports

An error shown with the line that it is in, marked below by a caret for each byte of its range. The
frame to the left is as wide as the line number. There is no line to show where the text ends
with a line break and the error is behind that.
-/

namespace ProtoSyntax.Report

structure Palette where
  alarm : String
  title : String
  frame : String
  reset : String

def plain : Palette := ⟨"", "", "", ""⟩

def coloured : Palette := ⟨"\x1b[1m\x1b[91m", "\x1b[1m", "\x1b[1m\x1b[94m", "\x1b[0m"⟩

def Palette.paint (p : Palette) (style : Palette → String) (text : String) : String :=
  style p ++ text ++ p.reset

def spaces (n : Nat) : String := String.ofList (List.replicate n ' ')

def lineAt (n : Nat) (text : List Char) : List Char :=
  match n with
  | 0 => text.takeWhile (· ≠ '\n')
  | n + 1 => lineAt n ((text.dropWhile (· ≠ '\n')).drop 1)

def origin (path : String) (line column : Nat) : String :=
  (if path = "" then "" else " " ++ path) ++ ":" ++ toString line ++ ":" ++ toString column

def heading (p : Palette) (message : String) : String :=
  p.paint (·.alarm) "error" ++ ": " ++ p.paint (·.title) message

def endsWithLineBreak (text : String) : Bool := text.toList.getLast? = some '\n'

def render (p : Palette) (path text : String) (e : ParseError) : String :=
  let bar := p.paint (·.frame) "|"
  let arrow := p.paint (·.frame) "-->"
  if e.range.start = text.utf8ByteSize ∧ endsWithLineBreak text then
    "\n".intercalate [heading p e.message, arrow ++ origin path 1 1, " " ++ bar, " " ++ bar]
  else
    let number := toString e.line
    let pad := spaces number.length
    let carets := String.ofList (List.replicate (max 1 e.range.length) '^')
    "\n".intercalate
      [heading p e.message,
       pad ++ arrow ++ origin path e.line e.column,
       pad ++ " " ++ bar,
       p.paint (·.frame) (number ++ " |") ++ " " ++ String.ofList (lineAt (e.line - 1) text.toList),
       pad ++ " " ++ bar ++ " " ++ spaces (e.column - 1) ++ p.paint (·.alarm) carets ++ " " ++
         p.paint (·.alarm) "here",
       pad ++ " " ++ bar]

end ProtoSyntax.Report
