/-!
# Written integers

An integer literal is an optional sign, a prefix that tells its radix, and digits.
`Radix.value?` reads one; the digits alone are read by `Radix.digits?`. Only magnitudes
below 2^64 have a value.
-/

namespace ProtoSyntax

inductive Radix where
  | octal
  | decimal
  | hexadecimal
deriving DecidableEq, Repr

namespace Radix

def base : Radix → Nat
  | .octal => 8
  | .decimal => 10
  | .hexadecimal => 16

def prefixLength : Radix → Nat
  | .octal => 1
  | .decimal => 0
  | .hexadecimal => 2

def label : Radix → String
  | .octal => "Octal"
  | .decimal => "Decimal"
  | .hexadecimal => "Hexadecimal"

def all : List Radix := [.octal, .decimal, .hexadecimal]

def digitValue? (c : Char) : Option Nat :=
  if '0' ≤ c ∧ c ≤ '9' then some (c.toNat - '0'.toNat)
  else if 'a' ≤ c ∧ c ≤ 'f' then some (c.toNat - 'a'.toNat + 10)
  else if 'A' ≤ c ∧ c ≤ 'F' then some (c.toNat - 'A'.toNat + 10)
  else none

def digit? (r : Radix) (c : Char) : Option Nat :=
  (digitValue? c).filter (· < r.base)

def digitsFrom? (r : Radix) (n : Nat) : List Char → Option Nat
  | [] => some n
  | c :: cs => (r.digit? c).bind fun d => r.digitsFrom? (n * r.base + d) cs

def digits? (r : Radix) : List Char → Option Nat
  | [] => none
  | ['+'] => none
  | '+' :: cs => r.digitsFrom? 0 cs
  | cs => r.digitsFrom? 0 cs

def magnitude? (r : Radix) (cs : List Char) : Option Nat :=
  (r.digits? (cs.drop r.prefixLength)).filter (· < Nat.pow 2 64)

/-- The value of an integer literal, if its magnitude is below 2^64. -/
def value? (r : Radix) (text : String) : Option Int :=
  match text.toList with
  | '-' :: cs => (r.magnitude? cs).map fun n => - (n : Int)
  | '+' :: cs => (r.magnitude? cs).map fun n => (n : Int)
  | cs => (r.magnitude? cs).map fun n => (n : Int)

end Radix
end ProtoSyntax
