import ProtoSyntax.Token

/-!
# Texts of literals

The content of a string literal, the one literal that adjacent ones make together, and
the texts of runs of tokens.
-/

namespace ProtoSyntax

/-- Takes the quotes off a string literal. The last character is a closing quote only if no
backslash stands before it, or two do; else the literal is unclosed and keeps its end. -/
def unquoteChars : List Char → List Char
  | [] => []
  | quote :: inner =>
    if inner.getLast? = some quote then
      let stripped := inner.dropLast
      if stripped.getLast? ≠ some '\\' || ['\\', '\\'].isSuffixOf stripped then stripped
      else inner
    else inner

def unquote (literal : String) : String := String.ofList (unquoteChars literal.toList)

namespace Token

def concat (tokens : List Token) : String := String.join (tokens.map (·.text))

/-- Adjacent string literals as one, between quotes like the first literal's. -/
def joined : List Token → String
  | [] => ""
  | [t] => t.text
  | t :: ts =>
    let quote := String.singleton (t.text.toList.headD '"')
    quote ++ String.join ((t :: ts).map fun t => unquote t.text) ++ quote

def slice (text : String) : List Token → String
  | [] => ""
  | t :: ts => String.Pos.Raw.extract text ⟨t.start⟩ ⟨(ts.getLastD t).stop⟩

def valueText (text : String) : List Token → String
  | t :: u :: ts => if t.kind = .string then joined (t :: u :: ts) else slice text (t :: u :: ts)
  | ts => slice text ts

end Token
end ProtoSyntax
