import ProtoSyntax.Text.Unprintable

/-!
# Quoted text

Text between double quotes in which each character can be seen: quotes and backslashes are escaped,
and so are the characters that would not show, the rarer ones by their code point in braces.
-/

namespace ProtoSyntax.Quoted

def hexDigits (n : Nat) : List Char := Nat.toDigits 16 n

def codePoint (c : Char) : List Char :=
  ['\\', 'u', '\x7b'] ++ hexDigits c.toNat ++ ['\x7d']

def escape (c : Char) : List Char :=
  if c = '"' then ['\\', '"']
  else if c = '\\' then ['\\', '\\']
  else if c = '\x00' then ['\\', '0']
  else if c = '\t' then ['\\', 't']
  else if c = '\r' then ['\\', 'r']
  else if c = '\n' then ['\\', 'n']
  else if isGraphemeExtend c || isUnprintable c then codePoint c
  else [c]

def quote (text : String) : String :=
  String.ofList ('"' :: (text.toList.flatMap escape ++ ['"']))

end ProtoSyntax.Quoted
