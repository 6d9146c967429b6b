import ProtoSyntax.Json
import ProtoSyntax.Text.Quoted
import ProtoSyntax.Token

/-!
# Token listings

Tokens as lines of text and as JSON.
-/

namespace ProtoSyntax

def TokenKind.json : TokenKind → Json
  | .integer r => .object [("Integer", .string r.label)]
  | .comment block => .object [("Comment", .object [("block", .bool block)])]
  | .keyword k => .object [("Keyword", .string k.label)]
  | .primitive p => .object [("Primitive", .string p.label)]
  | kind => .string kind.label

namespace Token

def line (t : Token) : String :=
  t.kind.label ++ "@" ++ toString t.start ++ ".." ++ toString t.stop ++ " " ++ Quoted.quote t.text

def listing (tokens : List Token) : String := String.join (tokens.map fun t => t.line ++ "\n")

def json (t : Token) : Json :=
  .object
    [("kind", t.kind.json), ("start", .number t.start), ("end", .number t.stop),
     ("text", .string t.text)]

def listingJson (tokens : List Token) : String := (Json.array (tokens.map json)).text

end Token
end ProtoSyntax
