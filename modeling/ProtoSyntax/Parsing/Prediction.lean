import ProtoSyntax.Parsing.Error

/-!
# Prediction

A grammar tells for each goal, from the tokens ahead, whether to refuse the text, to be content with
nothing, or to take the next token and pursue further symbols. `run` pursues a list of symbols
and leaves a trace: what was done to build a tree, the tokens not reached, and the refusal if
there was one. Comments are passed over after each token.
-/

namespace ProtoSyntax

/-- What taking a token does to the tree: nothing; it begins a node; it opens the node begun as a
container; or it closes the open container. -/
inductive Role (S : Type) where
  | plain
  | begins
  | opens (shape : S)
  | closes
deriving DecidableEq, Repr

inductive Terminal where
  | punct (p : Punct)
  | keyword (k : Keyword)
  | word (what : String)
  | integer (what : String)
  | string (what : String)
deriving DecidableEq, Repr

namespace Terminal

def accepts : Terminal → TokenKind → Bool
  | .punct p, kind => kind = .punct p
  | .keyword k, kind => kind = .keyword k
  | .word _, kind => kind.isWord
  | .integer _, kind => kind.isInteger
  | .string _, kind => kind = .string

def what : Terminal → String
  | .punct p => p.quoted
  | .keyword k => k.spelling
  | .word what | .integer what | .string what => what

end Terminal

inductive Symbol (G S : Type) where
  | goal (g : G)
  | token (t : Terminal) (role : Role S)
  | complete (shape : S)
  /-- The open container ends here, with no token of its own. -/
  | finish
deriving DecidableEq, Repr

inductive Reaction (G S : Type) where
  | reject (refusal : Refusal)
  | skip
  | take (role : Role S) (next : List (Symbol G S))

namespace Reaction

variable {G S : Type}

def takeOrRefuse (role : Role S) (what : String) : Option (List (Symbol G S)) → Reaction G S
  | some next => .take role next
  | none => .reject (.expected what)

def takeOrSkip : Option (List (Symbol G S)) → Reaction G S
  | some next => .take .plain next
  | none => .skip

end Reaction

/-- Tells how a goal reacts to the tokens ahead, comments included. The first is no comment. -/
abbrev Prediction (G S : Type) := G → List Token → Reaction G S

inductive Act (S : Type) where
  | take (token : Token) (role : Role S)
  | complete (shape : S)
  | finish
deriving DecidableEq, Repr

structure Trace (S : Type) where
  acts : List (Act S)
  rest : List Token
  refusal : Option Refusal

def dropComments (tokens : List Token) : List Token := tokens.dropWhile (·.isComment)

def kindAt (tokens : List Token) (k : Nat) : Option TokenKind := tokens[k]?.map (·.kind)

theorem length_dropComments_le (tokens : List Token) :
    (dropComments tokens).length ≤ tokens.length :=
  (List.dropWhile_suffix _).length_le

namespace Prediction

variable {G S : Type}

/-- Pursues symbols on the tokens ahead; `done` holds what was done before, last first. -/
def run (react : Prediction G S) (symbols : List (Symbol G S)) (ahead : List Token)
    (done : List (Act S)) : Trace S :=
  match symbols with
  | [] => ⟨done.reverse, ahead, none⟩
  | .complete shape :: symbols => react.run symbols ahead (.complete shape :: done)
  | .finish :: symbols => react.run symbols ahead (.finish :: done)
  | .token terminal role :: symbols =>
    match ahead with
    | [] => ⟨done.reverse, [], some (.expected terminal.what)⟩
    | t :: ts =>
      if terminal.accepts t.kind then
        react.run symbols (dropComments ts) (.take t role :: done)
      else ⟨done.reverse, t :: ts, some (.expected terminal.what)⟩
  | .goal g :: symbols =>
    match react g ahead with
    | .reject refusal => ⟨done.reverse, ahead, some refusal⟩
    | .skip => react.run symbols ahead done
    | .take role next =>
      match ahead with
      | [] => ⟨done.reverse, [], some .exhausted⟩
      | t :: ts => react.run (next ++ symbols) (dropComments ts) (.take t role :: done)
termination_by (ahead.length, symbols.length)
decreasing_by
  all_goals first
    | exact Prod.Lex.right _ (by simp)
    | exact Prod.Lex.left _ _ (by simpa using Nat.lt_succ_of_le (length_dropComments_le _))

end Prediction

namespace Trace

variable {S : Type}

def taken (trace : Trace S) : List Token :=
  trace.acts.filterMap fun
    | .take t _ => some t
    | _ => none

end Trace
end ProtoSyntax
