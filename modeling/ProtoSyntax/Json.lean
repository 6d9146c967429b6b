/-!
# JSON text

JSON values, their objects in the order given, and the one way of writing them: an indentation of
two spaces for each level, an element or member on each line, and nothing inside empty
brackets. Only quotes, backslashes and control characters are escaped in strings.
-/

namespace ProtoSyntax

inductive Json where
  | null
  | bool (value : Bool)
  | number (value : Nat)
  | string (value : String)
  | array (elements : List Json)
  | object (members : List (String × Json))

namespace Json

def hexDigit (n : Nat) : Char :=
  if n < 10 then Char.ofNat ('0'.toNat + n) else Char.ofNat ('a'.toNat + (n - 10))

def escapeChar (c : Char) : List Char :=
  if c = '"' then ['\\', '"']
  else if c = '\\' then ['\\', '\\']
  else if c = '\x08' then ['\\', 'b']
  else if c = '\t' then ['\\', 't']
  else if c = '\n' then ['\\', 'n']
  else if c = '\x0c' then ['\\', 'f']
  else if c = '\r' then ['\\', 'r']
  else if c.toNat < 32 then
    ['\\', 'u', '0', '0', hexDigit (c.toNat / 16), hexDigit (c.toNat % 16)]
  else [c]

def quoted (text : String) : List Char :=
  '"' :: (text.toList.flatMap escapeChar ++ ['"'])

def newline (level : Nat) : List Char := '\n' :: List.replicate (2 * level) ' '

mutual

def write (level : Nat) : Json → List Char
  | .null => ['n', 'u', 'l', 'l']
  | .bool true => ['t', 'r', 'u', 'e']
  | .bool false => ['f', 'a', 'l', 's', 'e']
  | .number n => Nat.toDigits 10 n
  | .string s => quoted s
  | .array [] => ['[', ']']
  | .array (x :: xs) =>
    '[' :: (newline (level + 1) ++ write (level + 1) x ++ writeElements (level + 1) xs ++
      newline level ++ [']'])
  | .object [] => ['\x7b', '\x7d']
  | .object (m :: ms) =>
    '\x7b' :: (newline (level + 1) ++ writeMember (level + 1) m ++ writeMembers (level + 1) ms ++
      newline level ++ ['\x7d'])

def writeElements (level : Nat) : List Json → List Char
  | [] => []
  | x :: xs => ',' :: (newline level ++ write level x ++ writeElements level xs)

def writeMember (level : Nat) : String × Json → List Char
  | (key, value) => quoted key ++ [':', ' '] ++ write level value

def writeMembers (level : Nat) : List (String × Json) → List Char
  | [] => []
  | m :: ms => ',' :: (newline level ++ writeMember level m ++ writeMembers level ms)

end

def text (j : Json) : String := String.ofList (j.write 0)

def ofOption : Option String → Json
  | none => .null
  | some s => .string s

end Json
end ProtoSyntax
