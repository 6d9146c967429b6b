import ProtoSyntax.Literal.Names
import ProtoSyntax.Literal.Text
import ProtoSyntax.Parsing.Assembly
import ProtoSyntax.TextFormat.Grammar
import ProtoSyntax.Tokens

/-!
# Text-format documents

The kind of each node as it is read off the tokens taken since the node began, and the tree of a
text.
-/

namespace ProtoSyntax.TextFormat

def build (shape : Shape) (text : String) (tokens : List Token) : Kind :=
  match shape with
  | .message => .message (Literal.readFieldName tokens).1
  | .field =>
    let name := Literal.readFieldName tokens
    .field name.1 (Token.valueText text (name.2.drop 1))

def grammar : Grammar Goal Shape Kind := ⟨react, build⟩

def parse (text : String) : Except Failure (Tree Kind) :=
  grammar.parse .fields text (Language.textFormat.tokens text)

end ProtoSyntax.TextFormat
