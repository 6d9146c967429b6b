import ProtoSyntax.Schema.Document
import ProtoSyntax.TextFormat.Document
import ProtoSyntax.Tree.Outline

/-!
# Documents

The tree of a text in either language.
-/

namespace ProtoSyntax

inductive Document where
  | schema (tree : Tree Schema.Kind)
  | textFormat (tree : Tree TextFormat.Kind)

namespace Document

def parse (language : Language) (text : String) : Except Failure Document :=
  match language with
  | .schema => (Schema.parse text).map .schema
  | .textFormat => (TextFormat.parse text).map .textFormat

def text : Document → String
  | .schema t => t.text
  | .textFormat t => t.text

def jsonText : Document → String
  | .schema t => t.jsonText
  | .textFormat t => t.jsonText

end Document
end ProtoSyntax
