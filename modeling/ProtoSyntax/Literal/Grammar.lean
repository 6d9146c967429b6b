import ProtoSyntax.Parsing.Prediction

/-!
# The grammar of literals

Field names, values, lists and messages in text format, read for their extent only. Schema files use
it for the values of options, text-format data for lists and names. `embed` places the goals
among those of the grammar that uses it.
-/

namespace ProtoSyntax.Literal

inductive Goal where
  | moreStrings
  | moreExtension
  | fieldName
  | fields (closing : Punct)
  | fieldRest
  | message
  | value
  | items
  | moreItems
  | separator
deriving DecidableEq, Repr

def closing? : TokenKind → Option Punct
  | .punct .leftBrace => some .rightBrace
  | .punct .leftAngle => some .rightAngle
  | _ => none

section

variable {G S : Type}

def word (what : String) : Symbol G S := .token (.word what) .plain

def integer (what : String) : Symbol G S := .token (.integer what) .plain

def string (what : String) : Symbol G S := .token (.string what) .plain

def keyword (k : Keyword) : Symbol G S := .token (.keyword k) .plain

def punct (p : Punct) : Symbol G S := .token (.punct p) .plain

variable (embed : Goal → G)

def goal (g : Goal) : Symbol G S := .goal (embed g)

def strings : List (Symbol G S) := [string "string literal", goal embed .moreStrings]

def extension : List (Symbol G S) :=
  [word "extension name", goal embed .moreExtension, punct .rightBracket]

def list : List (Symbol G S) := [punct .leftBracket, goal embed .items]

def afterNameStart? (kind : TokenKind) : Option (List (Symbol G S)) :=
  if kind = .punct .leftBracket then some (extension embed)
  else if kind.isWord then some []
  else none

def afterMessageStart? (kind : TokenKind) : Option (List (Symbol G S)) :=
  (closing? kind).map fun p => [goal embed (.fields p)]

def afterScalarStart? (kind : TokenKind) : Option (List (Symbol G S)) :=
  if kind = .string then some [goal embed .moreStrings]
  else if kind.isScalar then some []
  else none

def afterValueStart? (kind : TokenKind) : Option (List (Symbol G S)) :=
  if kind = .punct .leftBracket then some [goal embed .items]
  else (afterMessageStart? embed kind).or (afterScalarStart? embed kind)

def fieldTail (closing : Punct) : List (Symbol G S) :=
  [goal embed .fieldRest, goal embed .separator, goal embed (.fields closing)]

def react (g : Goal) (ahead : List Token) : Reaction G S :=
  let next := kindAt ahead 0
  match g with
  | .moreStrings =>
    .takeOrSkip (if next = some .string then some [goal embed .moreStrings] else none)
  | .moreExtension =>
    .takeOrSkip (if next = some (.punct .dot) ∨ next = some (.punct .slash) then
      some [word "extension name", goal embed .moreExtension] else none)
  | .fieldName => .takeOrRefuse .plain "field name" (next.bind (afterNameStart? embed))
  | .fields closing =>
    match next with
    | some kind =>
      if kind = .punct closing then .take .plain []
      else .takeOrRefuse .plain "field name"
        ((afterNameStart? embed kind).map (· ++ fieldTail embed closing))
    | none => .reject (.expected closing.quoted)
  | .fieldRest =>
    if next = some (.punct .colon) then .take .plain [goal embed .value]
    else .takeOrRefuse .plain "':' or '\x7b'" (next.bind (afterMessageStart? embed))
  | .message =>
    .takeOrRefuse .plain Punct.leftBrace.quoted (next.bind (afterMessageStart? embed))
  | .value => .takeOrRefuse .plain "value" (next.bind (afterValueStart? embed))
  | .items =>
    if next = some (.punct .rightBracket) then .take .plain []
    else .takeOrRefuse .plain "value"
      ((next.bind (afterValueStart? embed)).map (· ++ [goal embed .moreItems, punct .rightBracket]))
  | .moreItems =>
    .takeOrSkip (if next = some (.punct .comma) then
      some [goal embed .value, goal embed .moreItems] else none)
  | .separator =>
    .takeOrSkip (if next = some (.punct .comma) ∨ next = some (.punct .semicolon) then
      some [] else none)

end
end ProtoSyntax.Literal
