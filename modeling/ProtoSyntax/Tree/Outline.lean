import ProtoSyntax.Tree.Basic

/-!
# Outlines

The tree below a node without the names of the nodes: kinds, ranges and nesting. A tree is shown as
its outline, as indented lines or as JSON.
-/

namespace ProtoSyntax

inductive Outline (K : Type) where
  | node (kind : K) (range : Range) (children : List (Outline K))

namespace Tree

variable {K : Type}

def outlineAt? (t : Tree K) (id : Nat) : Option (Outline K) :=
  (t.node? id).map fun n =>
    .node n.kind n.range <| n.children.filterMap fun c =>
      if id < c ∧ c < t.size then t.outlineAt? c else none
termination_by t.size - id

def outline? (t : Tree K) : Option (Outline K) := t.outlineAt? root

end Tree

namespace Outline

variable {K : Type} [Vocabulary K]

def line (depth : Nat) (kind : K) (range : Range) : String :=
  String.ofList (List.replicate (2 * depth) ' ') ++ Vocabulary.label kind ++ "@" ++
    toString range.start ++ ".." ++ toString range.stop ++ Vocabulary.payload kind

mutual

def lines (depth : Nat) : Outline K → List String
  | .node kind range children => line depth kind range :: forestLines (depth + 1) children

def forestLines (depth : Nat) : List (Outline K) → List String
  | [] => []
  | o :: os => o.lines depth ++ forestLines depth os

end

def text (o : Outline K) : String := String.join ((o.lines 0).map (· ++ "\n"))

mutual

def json : Outline K → Json
  | .node kind range children =>
    .object <|
      ("kind", .string (Vocabulary.label kind)) :: Vocabulary.members kind ++
        [("start", .number range.start), ("end", .number range.stop)] ++
        (match forestJson children with
          | [] => []
          | elements => [("children", .array elements)])

def forestJson : List (Outline K) → List Json
  | [] => []
  | o :: os => o.json :: forestJson os

end

end Outline

namespace Tree

variable {K : Type} [Vocabulary K]

def text (t : Tree K) : String := (t.outline?.map Outline.text).getD ""

def jsonText (t : Tree K) : String := (t.outline?.map fun o => o.json.text).getD ""

end Tree
end ProtoSyntax
