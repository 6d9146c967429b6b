import ProtoSyntax.Token

/-!
# Token streams

A place in a list of tokens. It may lie just past the last token but no further.
-/

namespace ProtoSyntax

structure TokenStream where
  position : Nat
  rest : List Token
deriving DecidableEq

namespace TokenStream

def ofTokens (tokens : List Token) : TokenStream := ⟨0, tokens⟩

def atEnd (s : TokenStream) : Bool := s.rest.isEmpty

def tokenCount (s : TokenStream) : Nat := s.position + s.rest.length

def lookAhead (s : TokenStream) (k : Nat) : Option Token := s.rest[k]?

def lookAheadText (s : TokenStream) (k : Nat) : String := ((s.lookAhead k).map (·.text)).getD ""

def current (s : TokenStream) : Option Token := s.lookAhead 0

def next? (s : TokenStream) : Option TokenStream :=
  match s.rest with
  | [] => none
  | _ :: ts => some ⟨s.position + 1, ts⟩

def drop (s : TokenStream) (n : Nat) : TokenStream :=
  ⟨s.position + min n s.rest.length, s.rest.drop n⟩

def exhausted : String := "token stream exhausted"

end TokenStream
end ProtoSyntax
