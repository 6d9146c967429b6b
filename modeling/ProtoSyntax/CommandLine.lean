import ProtoSyntax.Document
import ProtoSyntax.Report
import ProtoSyntax.TokenListing

/-!
# The command line

Three commands: `tokens` and `ast` print the tokens or the tree of a file, `check` reports the
first error in each of several files. Options may stand anywhere, `--lang` and `-v` also
before the command; after `--` everything is a path. Arguments that cannot be read end
with code 2, files that cannot be read or parsed with code 1.
-/

namespace ProtoSyntax.CommandLine

inductive OutputFormat where
  | tree
  | json
deriving DecidableEq, Repr

def OutputFormat.ofName? : String → Option OutputFormat
  | "tree" => some .tree
  | "json" => some .json
  | _ => none

inductive Command where
  | tokens (path : String) (json : Bool)
  | ast (path : String) (format : OutputFormat)
  | check (paths : List String)
deriving DecidableEq, Repr

structure Invocation where
  language : Option Language
  command : Command
deriving DecidableEq, Repr

inductive Flag where
  | verbose | lang | json | format
deriving DecidableEq, Repr

namespace Flag

def name : Flag → String
  | .verbose => "verbose"
  | .lang => "lang"
  | .json => "json"
  | .format => "format"

def takesValue : Flag → Bool
  | .lang | .format => true
  | .verbose | .json => false

end Flag

inductive Given where
  | flag (f : Flag)
  | setting (f : Flag) (value : String)
  | path (text : String)
deriving DecidableEq, Repr

inductive Argument where
  | separator
  | long (name : String) (value : Option String)
  | short (letters : List Char)
  | plain
deriving DecidableEq, Repr

def splitLong (text : List Char) : Argument :=
  match text.dropWhile (· ≠ '=') with
  | [] => .long (String.ofList text) none
  | _ :: value => .long (String.ofList (text.takeWhile (· ≠ '='))) (some (String.ofList value))

def Argument.ofText (text : String) : Argument :=
  match text.toList with
  | ['-', '-'] => .separator
  | '-' :: '-' :: name => splitLong name
  | '-' :: c :: letters => .short (c :: letters)
  | _ => .plain

def prepend (g : Given) : Option (List Given × List String) → Option (List Given × List String) :=
  Option.map fun (given, left) => (g :: given, left)

/-- Reads the arguments of a level on which some flags are allowed. What is no option is a path,
or ends the level if paths do not belong there. -/
def readArguments (allowed : List Flag) (paths : Bool) :
    List String → Option (List Given × List String)
  | [] => some ([], [])
  | argument :: rest =>
    match Argument.ofText argument with
    | .separator => if paths then some (rest.map .path, []) else none
    | .plain =>
      if paths then prepend (.path argument) (readArguments allowed paths rest)
      else some ([], argument :: rest)
    | .short letters =>
      if letters.all (· = 'v') then prepend (.flag .verbose) (readArguments allowed paths rest)
      else none
    | .long name value =>
      match allowed.find? (·.name = name), value, rest with
      | none, _, _ => none
      | some f, some v, rest =>
        if f.takesValue then prepend (.setting f v) (readArguments allowed paths rest) else none
      | some f, none, [] => if f.takesValue then none else some ([.flag f], [])
      | some f, none, v :: rest =>
        if f.takesValue then prepend (.setting f v) (readArguments allowed paths rest)
        else prepend (.flag f) (readArguments allowed paths (v :: rest))
termination_by arguments => arguments.length

def setting? {α : Type} (f : Flag) (ofName? : String → Option α) (given : List Given) :
    Option (Option α) :=
  match given.filterMap fun | .setting g v => if g = f then some v else none | _ => none with
  | [] => some none
  | [v] => (ofName? v).map some
  | _ => none

def flag? (f : Flag) (given : List Given) : Option Bool :=
  match given.count (.flag f) with
  | 0 => some false
  | 1 => some true
  | _ => none

def pathsOf (given : List Given) : List String :=
  given.filterMap fun
    | .path p => some p
    | _ => none

def commandFlags : String → Option (List Flag)
  | "tokens" => some [.verbose, .lang, .json]
  | "ast" => some [.verbose, .lang, .format]
  | "check" => some [.verbose, .lang]
  | _ => none

def command? (name : String) (given : List Given) : Option Command :=
  match name, pathsOf given with
  | "tokens", [path] => (flag? .json given).map (.tokens path ·)
  | "ast", [path] => (setting? .format OutputFormat.ofName? given).map fun format =>
    .ast path (format.getD .tree)
  | "check", path :: paths => some (.check (path :: paths))
  | _, _ => none

/-- Reads the arguments. The language given after the command goes before the one given in front
of it. -/
def parse? (arguments : List String) : Option Invocation := do
  let (outer, rest) ← readArguments [.verbose, .lang] false arguments
  let name :: rest := rest | none
  let allowed ← commandFlags name
  let (inner, _) ← readArguments allowed true rest
  let outerLanguage ← setting? .lang Language.ofOptionName? outer
  let innerLanguage ← setting? .lang Language.ofOptionName? inner
  let command ← command? name inner
  return ⟨innerLanguage.or outerLanguage, command⟩

inductive ReadError where
  | missing
  | notText
  | other (reason : String)
deriving DecidableEq, Repr

def ReadError.reason : ReadError → String
  | .missing => "No such file or directory (os error 2)"
  | .notText => "stream did not contain valid UTF-8"
  | .other reason => reason

structure Outcome where
  code : Nat
  out : String
  err : String
deriving DecidableEq, Repr

def usage : String :=
  "usage: [-v] [--lang proto|textproto] " ++
    "(tokens [--json] PATH | ast [--format tree|json] PATH | check PATH...)\n"

def unreadable (path : String) (e : ReadError) : String :=
  "Error: failed to read \x60" ++ path ++ "\x60\n\nCaused by:\n    " ++ e.reason ++ "\n"

def complaint (path text : String) : Except Failure Document → String
  | .ok _ => ""
  | .error (.refused e) => Report.render Report.coloured path text e ++ "\n"
  | .error .misuse => ""

section

variable (read : String → Except ReadError String) (language : Option Language)

def languageOf (path : String) : Language := language.getD (Language.ofPath path)

def withText (path : String) (f : String → Outcome) : Outcome :=
  match read path with
  | .ok text => f text
  | .error e => ⟨1, "", unreadable path e⟩

def printTokens (path : String) (json : Bool) : Outcome :=
  withText read path fun text =>
    let tokens := (languageOf language path).tokens text
    ⟨0, if json then Token.listingJson tokens ++ "\n" else Token.listing tokens, ""⟩

def printTree (path : String) (format : OutputFormat) : Outcome :=
  withText read path fun text =>
    match Document.parse (languageOf language path) text, format with
    | .ok document, .tree => ⟨0, document.text, ""⟩
    | .ok document, .json => ⟨0, document.jsonText ++ "\n", ""⟩
    | failed, _ => ⟨1, "", complaint path text failed⟩

def check : List String → Outcome
  | [] => ⟨0, "", ""⟩
  | path :: paths =>
    match read path with
    | .error e => ⟨1, "", unreadable path e⟩
    | .ok text =>
      let parsed := Document.parse (languageOf language path) text
      let after := check paths
      ⟨if parsed.isOk then after.code else 1, "", complaint path text parsed ++ after.err⟩

end

def Invocation.run (i : Invocation) (read : String → Except ReadError String) : Outcome :=
  match i.command with
  | .tokens path json => printTokens read i.language path json
  | .ast path format => printTree read i.language path format
  | .check paths => check read i.language paths

def Command.paths : Command → List String
  | .tokens path _ => [path]
  | .ast path _ => [path]
  | .check paths => paths

def run (arguments : List String) (read : String → Except ReadError String) : Outcome :=
  match parse? arguments with
  | some i => i.run read
  | none => ⟨2, "", usage⟩

end ProtoSyntax.CommandLine
