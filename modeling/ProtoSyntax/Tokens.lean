import ProtoSyntax.Language
import ProtoSyntax.Lexeme.Progress

/-!
# Cutting a text into tokens

A cursor passes over blanks and then over one token, which takes the bytes from where it stood to
where it comes to stand, and so on to the end of the text.
-/

namespace ProtoSyntax

/-- A piece of a text: what it is, its first byte, and the byte after its last. -/
structure Span where
  kind : TokenKind
  start : Nat
  stop : Nat
deriving DecidableEq, Repr

def Span.token (text : String) (s : Span) : Token :=
  ⟨s.kind, s.start, String.Pos.Raw.extract text ⟨s.start⟩ ⟨s.stop⟩⟩

namespace Language

def scan : Language → ByteCursor → TokenKind × ByteCursor
  | .schema => Schema.scan
  | .textFormat => TextFormat.scan

theorem remaining_scan_lt (language : Language) {c : ByteCursor} (h : c.atEnd = false) :
    (language.scan c).2.remaining < c.remaining := by
  cases language with
  | schema => exact Schema.remaining_scan_lt h
  | textFormat => exact TextFormat.remaining_scan_lt h

def spans (language : Language) (c : ByteCursor) : List Span :=
  let start := c.skipBlanks
  if _h : start.atEnd then []
  else
    let found := language.scan start
    ⟨found.1, start.position, found.2.position⟩ :: language.spans found.2
termination_by c.remaining
decreasing_by
  exact Nat.lt_of_lt_of_le (remaining_scan_lt _ (eq_false_of_ne_true _h))
    (c.remaining_advanceWhile_le isBlank)

def tokens (language : Language) (text : String) : List Token :=
  (language.spans (.ofText text)).map (Span.token text)

end Language
end ProtoSyntax
