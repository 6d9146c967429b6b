import ProtoSyntax.Literal.Grammar
import ProtoSyntax.TextFormat.Kind

/-!
# The grammar of text-format data

Fields with a scalar, strings or a list are leaves; fields with a message are blocks that hold its
fields. A colon is optional before a message, and so is a separator after a field.
-/

namespace ProtoSyntax.TextFormat

inductive Shape where
  | field
  | message
deriving DecidableEq, Repr

inductive Goal where
  | literal (goal : Literal.Goal)
  | fields
  | body (closing : Punct)
  | fieldRest
  | value
deriving DecidableEq, Repr

abbrev Symbols := List (Symbol Goal Shape)

def afterFieldStart? (after : Goal) (kind : TokenKind) : Option Symbols :=
  (Literal.afterNameStart? .literal kind).map
    (· ++ [.goal .fieldRest, .goal (.literal .separator), .goal after])

def openMessage? (kind : TokenKind) : Option (Reaction Goal Shape) :=
  (Literal.closing? kind).map fun p => .take (.opens .message) [.goal (.body p)]

def afterLeafStart? (kind : TokenKind) : Option Symbols :=
  (if kind = .punct .leftBracket then some [.goal (.literal .items)]
    else Literal.afterScalarStart? .literal kind).map (· ++ [.complete .field])

def react (goal : Goal) (ahead : List Token) : Reaction Goal Shape :=
  let next := kindAt ahead 0
  match goal with
  | .literal g => Literal.react .literal g ahead
  | .fields =>
    match next with
    | none => .skip
    | some kind => .takeOrRefuse .begins "field name" (afterFieldStart? .fields kind)
  | .body closing =>
    match next with
    | none => .reject (.expected closing.quoted)
    | some kind =>
      if kind = .punct closing then .take .closes []
      else .takeOrRefuse .begins "field name" (afterFieldStart? (.body closing) kind)
  | .fieldRest =>
    if next = some (.punct .colon) then .take .plain [.goal .value]
    else (next.bind openMessage?).getD (.reject (.expected "':' or '\x7b'"))
  | .value =>
    (next.bind openMessage?).getD (.takeOrRefuse .plain "value" (next.bind afterLeafStart?))

end ProtoSyntax.TextFormat
