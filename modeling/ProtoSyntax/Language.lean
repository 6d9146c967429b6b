/-!
# Languages

The two notations that can be read: schema files and text-format data. A path is guessed to
hold text-format data by the extension of its last component.
-/

namespace ProtoSyntax

inductive Language where
  | schema
  | textFormat
deriving DecidableEq, Repr

namespace Language

def label : Language → String
  | .schema => "Proto"
  | .textFormat => "Textproto"

def optionName : Language → String
  | .schema => "proto"
  | .textFormat => "textproto"

def ofOptionName? (text : String) : Option Language :=
  [Language.schema, .textFormat].find? (·.optionName = text)

def textFormatExtensions : List (List Char) :=
  ["textproto", "txtpb", "pbtxt", "prototxt"].map String.toList

def splitAt (sep : Char) : List Char → List (List Char)
  | [] => [[]]
  | c :: cs =>
    match splitAt sep cs with
    | [] => [[c]]
    | part :: parts => if c = sep then [] :: part :: parts else (c :: part) :: parts

/-- The last component of a path, if it is the name of a file: empty components and single
dots are passed over (a path may begin with one), and a parent mark is no name. -/
def fileName? (path : List Char) : Option (List Char) :=
  match (splitAt '/' path).filter (fun part => !part.isEmpty && part != ['.']) |>.getLast? with
  | some ['.', '.'] => none
  | name => name

def extension? (name : List Char) : Option (List Char) :=
  match (splitAt '.' name).reverse with
  | last :: before => if before.isEmpty || before = [[]] then none else some last
  | [] => none

def ofPath (path : String) : Language :=
  match (fileName? path.toList).bind extension? with
  | some e => if e ∈ textFormatExtensions then .textFormat else .schema
  | none => .schema

end Language
end ProtoSyntax
