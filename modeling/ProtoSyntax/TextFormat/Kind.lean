import ProtoSyntax.Tree.Basic

/-!
# Nodes of text-format data

A field holds its value as text; a message holds its fields as children.
-/

namespace ProtoSyntax.TextFormat

inductive Kind where
  | document
  | comment
  | field (name value : String)
  | message (name : String)
deriving DecidableEq, Repr

namespace Kind

def label : Kind → String
  | .document => "Document"
  | .comment => "Comment"
  | .field _ _ => "Field"
  | .message _ => "Message"

def name? : Kind → Option String
  | .field name _ | .message name => some name
  | .document | .comment => none

def payload : Kind → String
  | .document | .comment => ""
  | .field name value => " name=" ++ name ++ " value=" ++ value
  | .message name => " name=" ++ name

def members : Kind → List (String × Json)
  | .document | .comment => []
  | .field name value => [("name", .string name), ("value", .string value)]
  | .message name => [("name", .string name)]

instance : Vocabulary Kind where
  root := .document
  comment := .comment
  isComment k := k = .comment
  label := label
  payload := payload
  name? := name?
  members := members

end Kind
end ProtoSyntax.TextFormat
