import ProtoSyntax.Text.Quoted
import ProtoSyntax.Tree.Walk

/-!
# Nodes of schema files

What a schema file declares, each declaration with the texts that it was given.
-/

namespace ProtoSyntax.Schema

inductive ImportModifier where
  | publicImport
  | weak
deriving DecidableEq, Repr

inductive FieldModifier where
  | repeated
  | optional
  | map (key value : String)
deriving DecidableEq, Repr

/-- A field name without its quotes, or a range of field numbers whose end may be missing. -/
inductive ReservedEntry where
  | name (text : String)
  | range (start : String) (stop : Option String)
deriving DecidableEq, Repr

inductive Kind where
  | document
  | comment
  | version (text : String)
  | importFile (path : String) (modifier : Option ImportModifier)
  | package (name : String)
  | option (name : String)
  | optionValue (text : String)
  | message (name : String)
  | oneof (name : String)
  | field (name number type : String) (modifier : Option FieldModifier)
  | reserved (entries : List ReservedEntry)
  | enum (name : String)
  | enumValue (name number : String)
  | service (name : String)
  | rpc (name request : String) (requestStream : Bool) (response : String) (responseStream : Bool)
deriving DecidableEq, Repr

namespace Kind

def label : Kind → String
  | .document => "Document"
  | .comment => "Comment"
  | .version _ => "Syntax"
  | .importFile _ _ => "Import"
  | .package _ => "Package"
  | .option _ => "Option"
  | .optionValue _ => "OptionValue"
  | .message _ => "Message"
  | .oneof _ => "Oneof"
  | .field _ _ _ _ => "Field"
  | .reserved _ => "Reserved"
  | .enum _ => "Enum"
  | .enumValue _ _ => "EnumValue"
  | .service _ => "Service"
  | .rpc _ _ _ _ _ => "Rpc"

def name? : Kind → Option String
  | .package name | .option name | .message name | .oneof name | .field name _ _ _
  | .enum name | .enumValue name _ | .service name | .rpc name _ _ _ _ => some name
  | .document | .comment | .version _ | .importFile _ _ | .optionValue _ | .reserved _ => none

def entryText : ReservedEntry → String
  | .name text => Quoted.quote text
  | .range start none => start
  | .range start (some stop) => start ++ " to " ++ stop

def streamMark (stream : Bool) : String := if stream then "stream " else ""

def importSuffix : Option ImportModifier → String
  | some .publicImport => " public"
  | some .weak => " weak"
  | none => ""

def fieldSuffix : Option FieldModifier → String
  | some .repeated => " repeated"
  | some .optional => " optional"
  | some (.map _ _) | none => ""

def payload : Kind → String
  | .document | .comment => ""
  | .version text => " version=" ++ text
  | .importFile path modifier => " path=" ++ path ++ importSuffix modifier
  | .package name | .option name | .message name | .oneof name | .enum name | .service name =>
    " name=" ++ name
  | .optionValue text => " text=" ++ text
  | .field name number type modifier =>
    " name=" ++ name ++ " number=" ++ number ++ " type=" ++ type ++ fieldSuffix modifier
  | .reserved [] => ""
  | .reserved entries => " " ++ String.intercalate ", " (entries.map entryText)
  | .enumValue name number => " name=" ++ name ++ " number=" ++ number
  | .rpc name request requestStream response responseStream =>
    " name=" ++ name ++ " request=" ++ streamMark requestStream ++ request ++
      " response=" ++ streamMark responseStream ++ response

def importModifierJson : Option ImportModifier → Json
  | some .publicImport => .string "Public"
  | some .weak => .string "Weak"
  | none => .null

def fieldModifierJson : Option FieldModifier → Json
  | some .repeated => .string "Repeated"
  | some .optional => .string "Optional"
  | some (.map key value) =>
    .object [("Map", .object [("key", .string key), ("value", .string value)])]
  | none => .null

def entryJson : ReservedEntry → Json
  | .name text => .object [("Name", .string text)]
  | .range start stop =>
    .object [("Range", .object [("start", .string start), ("end", .ofOption stop)])]

def members : Kind → List (String × Json)
  | .document | .comment => []
  | .version text => [("version", .string text)]
  | .importFile path modifier =>
    [("path", .string path), ("modifier", importModifierJson modifier)]
  | .package name | .option name | .message name | .oneof name | .enum name | .service name =>
    [("name", .string name)]
  | .optionValue text => [("text", .string text)]
  | .field name number type modifier =>
    [("name", .string name), ("number", .string number), ("ty", .string type),
     ("modifier", fieldModifierJson modifier)]
  | .reserved entries => [("entries", .array (entries.map entryJson))]
  | .enumValue name number => [("name", .string name), ("number", .string number)]
  | .rpc name request requestStream response responseStream =>
    [("name", .string name), ("request", .string request), ("request_stream", .bool requestStream),
     ("response", .string response), ("response_stream", .bool responseStream)]

instance : Vocabulary Kind where
  root := .document
  comment := .comment
  isComment k := k = .comment
  label := label
  payload := payload
  name? := name?
  members := members

def isOption : Kind → Bool
  | .option _ => true
  | _ => false

def valueText? : Kind → Option String
  | .optionValue text => some text
  | _ => none

end Kind

def options (t : Tree Kind) (id : Nat) : List Nat :=
  (t.children id).filter fun c => (t.node? c).any fun n => n.kind.isOption

def optionValue? (t : Tree Kind) (id : Nat) : Option String :=
  (t.children id).findSome? fun c => (t.node? c).bind fun n => n.kind.valueText?

end ProtoSyntax.Schema
