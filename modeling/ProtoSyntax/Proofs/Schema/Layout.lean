import ProtoSyntax.Proofs.Parsing.Layout
import ProtoSyntax.Proofs.Schema.Rules

/-!
# The layout of schema files

Where the nodes of a schema file stand and how they are written. Every derivation of a file is cut
into parts that fit there.
-/

namespace ProtoSyntax.Schema
open Ebnf (opt star alt sepBy)

inductive Place where
  | file | message | oneof | enum | service | rpc
  | brackets
  | value
deriving DecidableEq, Repr

def labelledType : Expr := [alt [[.keyword .repeated], [.keyword .optional]]] ++ type

def mapOfTypes : Expr :=
  .keyword .map :: .punct .leftAngle :: type ++ .punct .comma :: type ++ [.punct .rightAngle]

def fieldHead (excluded : List Keyword) : Expr :=
  [alt [labelledType, mapOfTypes, typeExcept excluded], .word, .punct .eq, .integer]

def enumValueHead : Expr :=
  [.token (fun kind _ => kind.isWord && kind ≠ .keyword .option && kind ≠ .keyword .reserved),
    .punct .eq, .integer]

def rpcHead : Expr :=
  .keyword .rpc :: .word :: .punct .leftParen :: rpcType ++ .punct .rightParen ::
    .keyword .returns :: .punct .leftParen :: rpcType ++ [.punct .rightParen]

/-- The tokens with which a node begins: all but the last of a leaf, those up to its opening of a
block. -/
def headAt : Place → Shape → Option Expr
  | .value, .optionValue =>
    some [alt [Literal.stringRun, Literal.scalar, Literal.message .literal]]
  | .value, _ => none
  | .brackets, .bracketOption => some optionName
  | .brackets, _ => none
  | _, .option => some (.keyword .option :: optionName)
  | .file, .version => some [.keyword .syntaxWord, .punct .eq, versionLiteral]
  | .file, .importFile => some (.keyword .importWord :: importPath)
  | .file, .package => some (.keyword .package :: dotted)
  | .file, .service => some [.keyword .service, .word]
  | .file, .message | .message, .message => some [.keyword .message, .word]
  | .file, .enum | .message, .enum => some [.keyword .enum, .word]
  | .message, .oneof => some [.keyword .oneof, .word]
  | .message, .reserved | .enum, .reserved => some (.keyword .reserved :: reservedEntries)
  | .message, .field =>
    some (fieldHead [.repeated, .optional, .option, .message, .enum, .oneof, .reserved])
  | .oneof, .field => some (fieldHead [.repeated, .optional, .option])
  | .enum, .enumValue => some enumValueHead
  | .service, .rpc => some rpcHead
  | _, _ => none

def layout : Layout Nonterminal Shape Place where
  loose
    | .brackets, kind => kind = .punct .comma || kind = .punct .rightBracket
    | .value, _ => false
    | _, kind => kind = .punct .semicolon
  head := headAt
  leafEnd
    | .optionValue => some []
    | .version | .importFile | .package | .reserved | .field | .enumValue | .rpc => some [semicolon]
    | _ => none
  delimiters
    | .option => [(.eq, some .semicolon)]
    | .bracketOption => [(.eq, none)]
    | .field | .enumValue => [(.leftBracket, some .semicolon)]
    | .message | .oneof | .enum | .service | .rpc => [(.leftBrace, some .rightBrace)]
    | _ => []
  inside
    | .message => .message
    | .oneof => .oneof
    | .enum => .enum
    | .service => .service
    | .rpc => .rpc
    | .field | .enumValue => .brackets
    | _ => .value
  single
    | .option | .bracketOption => true
    | _ => false

theorem lacks_dotted {barred : List Punct} (h : .dot ∉ barred) : Lacks rule barred dotted :=
  .word (.star (.punct h (.word .nil)) .nil)

theorem lacks_typeExcept {barred : List Punct} (h : .dot ∉ barred) (excluded : List Keyword) :
    Lacks rule barred (typeExcept excluded) := by
  refine .alt (fun a ha => ?_) .nil
  simp only [List.mem_cons, List.not_mem_nil, or_false] at ha
  rcases ha with rfl | rfl | rfl
  · exact .token (fun k _ hk c _ hc => by subst hc; cases hk) .nil
  · exact .punct h (lacks_dotted h)
  · refine .token (fun k _ hk c _ hc => ?_) (.star (.punct h (.word .nil)) .nil)
    subst hc
    cases hk

theorem lacks_rpcType {barred : List Punct} (h : .dot ∉ barred) : Lacks rule barred rpcType := by
  refine .alt (fun a ha => ?_) .nil
  simp only [List.mem_cons, List.not_mem_nil, or_false] at ha
  rcases ha with rfl | rfl
  · exact .keyword (lacks_typeExcept h [])
  · exact lacks_typeExcept h []

def isLiteral : Nonterminal → Bool
  | .literal _ => true
  | .message => false

theorem isPlainPhrase_rule (m : Nonterminal) (h : isLiteral m = true) :
    isPlainPhrase isLiteral (rule m) = true := by
  cases m with
  | message => cases h
  | literal m => cases m <;> rfl

abbrev YieldsIn (n : Nat) (one : Bool) (l : Place) (e : Expr) : Prop := Yields rule layout n one l e

variable {n : Nat} {one : Bool} {l : Place}

theorem yields_optionValue : YieldsIn n one .value optionValue :=
  .leaf isPlainPhrase_rule .optionValue rfl rfl rfl rfl rfl

theorem yields_option (h : l ≠ .brackets) (h' : l ≠ .value) : YieldsIn n one l option := by
  have hhead : layout.head l .option = some (.keyword .option :: optionName) := by
    cases l <;> first | rfl | contradiction
  exact (Yields.block isPlainPhrase_rule .option hhead rfl rfl (List.mem_singleton.2 rfl)
    (fun _ => Yields.closes_inv) yields_optionValue rfl).mono (Nat.le_succ n)

theorem yields_optionInBrackets : YieldsIn n one .brackets optionInBrackets :=
  (Yields.block isPlainPhrase_rule .bracketOption rfl rfl rfl (List.mem_singleton.2 rfl)
    (fun _ => Yields.finishes_inv) yields_optionValue
    (by simp [optionInBrackets])).mono (Nat.le_succ n)

theorem yields_inBrackets : YieldsIn n false .brackets
    (sepBy optionInBrackets [.punct .comma] ++ [.punct .rightBracket]) :=
  .append (.append yields_optionInBrackets
    (.star (.append (Yields.punct rfl) yields_optionInBrackets))) (Yields.punct rfl)

theorem yields_ending {shape : Shape} {e : Expr} (hs : shape = .field ∨ shape = .enumValue)
    (hhead : layout.head l shape = some e) (hplain : isPlainPhrase isLiteral e = true)
    (hsolid : isSolidPhrase e = true) :
    YieldsIn n one l (.mark .begins :: e ++ ending shape) := by
  have hend : layout.leafEnd shape = some [semicolon] := by rcases hs with rfl | rfl <;> rfl
  have hdel : (Punct.leftBracket, some Punct.semicolon) ∈ layout.delimiters shape := by
    rcases hs with rfl | rfl <;> exact List.mem_singleton.2 rfl
  have hbody : YieldsIn n (layout.single shape) (layout.inside shape)
      (sepBy optionInBrackets [.punct .comma] ++ [.punct .rightBracket]) := by
    rcases hs with rfl | rfl <;> exact yields_inBrackets
  refine .alt fun c hc => ?_
  rcases List.mem_cons.1 hc with rfl | hc
  · refine .leaf isPlainPhrase_rule shape hhead hend ?_ ?_ (by simp)
    · rw [isPlainPhrase_append, hplain]
      rfl
    · rw [isSolidPhrase_append, hsolid]
      rfl
  · obtain rfl := List.mem_singleton.1 hc
    exact (Yields.block isPlainPhrase_rule shape hhead hplain hsolid hdel (fun _ => Yields.closes_inv) hbody
      (by simp [semicolon])).mono (Nat.le_succ n)

theorem derives_field {excluded : List Keyword} {ss : List (Signal Shape)}
    (h : Derives rule (field excluded) ss) :
    Derives rule (.mark .begins :: fieldHead excluded ++ ending .field) ss := by
  cases h with
  | mark _ h =>
    refine .mark _ ?_
    cases h with
    | alt ha h =>
      simp only [List.mem_cons, List.not_mem_nil, or_false] at ha
      rcases ha with rfl | rfl | rfl
      · exact .alt (a := labelledType) (by simp) (by simpa [labelledField, numberedField, labelledType] using h)
      · exact .alt (a := mapOfTypes) (by simp) (by simpa [mapField, numberedField, mapOfTypes] using h)
      · exact .alt (a := typeExcept excluded) (by simp) (by simpa [numberedField] using h)

theorem yields_field {excluded : List Keyword}
    (hhead : layout.head l .field = some (fieldHead excluded)) : YieldsIn n one l (field excluded) :=
  fun ss hss hd => yields_ending (.inl rfl) hhead rfl rfl ss hss (derives_field hd)

theorem yields_enumValue : YieldsIn n one .enum enumValue := by
  show YieldsIn n one .enum (.mark .begins :: enumValueHead ++ ending .enumValue)
  exact yields_ending (.inr rfl) rfl rfl rfl

theorem yields_reserved (hhead : layout.head l .reserved = some (.keyword .reserved :: reservedEntries)) :
    YieldsIn n one l reserved :=
  .leaf isPlainPhrase_rule .reserved hhead rfl rfl rfl rfl

theorem yields_member {members : List Expr} (hb : l ≠ .brackets) (hv : l ≠ .value)
    (h : ∀ m ∈ members, YieldsIn n one l m) :
    YieldsIn n one l [alt ([semicolon] :: option :: members)] := by
  refine .alt (b := []) (e := []) fun c hc => ?_
  rw [List.nil_append, List.append_nil]
  rcases List.mem_cons.1 hc with rfl | hc
  · exact Yields.punct (by cases l <;> first | rfl | contradiction)
  · rcases List.mem_cons.1 hc with rfl | hc
    · exact yields_option hb hv
    · exact h c hc

theorem yields_blockOf {shape : Shape} {keyword : Keyword} {members : List Expr}
    (hhead : layout.head l shape = some [.keyword keyword, .word])
    (hdel : layout.delimiters shape = [(.leftBrace, some .rightBrace)])
    (hsingle : layout.single shape = false) (hb : layout.inside shape ≠ .brackets)
    (hv : layout.inside shape ≠ .value)
    (h : ∀ m ∈ members, YieldsIn n false (layout.inside shape) m) :
    YieldsIn (n + 1) one l (blockOf shape keyword members) :=
  .block isPlainPhrase_rule shape hhead rfl rfl (hdel ▸ List.mem_singleton.2 rfl)
    (fun _ => Yields.closes_inv) (hsingle ▸ (yields_member hb hv h).star) rfl

theorem yields_oneof : YieldsIn n one .message oneof := by
  refine (yields_blockOf rfl rfl rfl (by decide) (by decide) ?_).mono (Nat.le_succ n)
  intro m hm
  obtain rfl := List.mem_singleton.1 hm
  exact yields_field rfl

theorem yields_enum (hhead : layout.head l .enum = some [.keyword .enum, .word]) :
    YieldsIn n one l enum := by
  refine (yields_blockOf hhead rfl rfl (by decide) (by decide) ?_).mono (Nat.le_succ n)
  intro m hm
  simp only [enumMembers, List.mem_cons, List.not_mem_nil, or_false] at hm
  rcases hm with rfl | rfl
  · exact yields_reserved rfl
  · exact yields_enumValue

theorem yields_message (hl : l = .file ∨ l = .message) : YieldsIn n one l [.ref .message] := by
  have hhead : layout.head l .message = some [.keyword .message, .word] := by
    rcases hl with rfl | rfl <;> rfl
  refine .ref ?_
  induction n generalizing l one with
  | zero =>
    intro ss hss hd
    cases hd
    cases hss
  | succ n ih =>
    refine yields_blockOf hhead rfl rfl (by decide) (by decide) ?_
    intro m hm
    simp only [messageMembers, List.mem_cons, List.not_mem_nil, or_false] at hm
    rcases hm with rfl | rfl | rfl | rfl | rfl
    · exact .ref (ih (.inr rfl) rfl)
    · exact yields_enum rfl
    · exact yields_oneof
    · exact yields_reserved rfl
    · exact yields_field rfl

theorem yields_rpc : YieldsIn n false .service rpc := by
  have hrpc : rpc = .mark .begins :: rpcHead ++ rpcEnding := by simp [rpc, rpcHead]
  rw [hrpc]
  refine .alt fun c hc => ?_
  rcases List.mem_cons.1 hc with rfl | hc
  · exact .leaf isPlainPhrase_rule .rpc rfl rfl rfl rfl (by simp)
  · obtain rfl := List.mem_singleton.1 hc
    have hblock : YieldsIn n false .service (.mark .begins :: (rpcHead ++
        .mark (.opens .rpc) :: .punct .leftBrace :: body [])) :=
      (Yields.block isPlainPhrase_rule .rpc rfl rfl rfl (List.mem_singleton.2 rfl)
        (fun _ => Yields.closes_inv) (yields_member (by decide) (by decide) (by simp)).star rfl).mono
        (Nat.le_succ n)
    have hsemicolon : YieldsIn n false .service [opt [semicolon]] := by
      refine .alt (b := []) (e := []) fun c hc => ?_
      simp only [List.mem_cons, List.not_mem_nil, or_false] at hc
      rcases hc with rfl | rfl
      · exact .nil
      · exact Yields.punct rfl
    simpa using hblock.append hsemicolon

theorem yields_service : YieldsIn n one .file service := by
  refine (yields_blockOf rfl rfl rfl (by decide) (by decide) ?_).mono (Nat.le_succ n)
  intro m hm
  obtain rfl := List.mem_singleton.1 hm
  exact yields_rpc

theorem yields_messageMember :
    YieldsIn n one .message [alt ([semicolon] :: option :: messageMembers)] := by
  refine yields_member (by decide) (by decide) fun m hm => ?_
  simp only [messageMembers, List.mem_cons, List.not_mem_nil, or_false] at hm
  rcases hm with rfl | rfl | rfl | rfl | rfl
  · exact yields_message (.inr rfl)
  · exact yields_enum rfl
  · exact yields_oneof
  · exact yields_reserved rfl
  · exact yields_field rfl

theorem yields_declaration : YieldsIn n one .file [alt [[semicolon], version, importFile, package,
    option, [.ref .message], enum, service]] := by
  refine .alt (b := []) (e := []) fun c hc => ?_
  rw [List.nil_append, List.append_nil]
  simp only [List.mem_cons, List.not_mem_nil, or_false] at hc
  rcases hc with rfl | rfl | rfl | rfl | rfl | rfl | rfl | rfl
  · exact Yields.punct rfl
  · exact .leaf isPlainPhrase_rule .version rfl rfl rfl rfl rfl
  · exact .leaf isPlainPhrase_rule .importFile rfl rfl rfl rfl rfl
  · exact .leaf isPlainPhrase_rule .package rfl rfl rfl rfl rfl
  · exact yields_option (by decide) (by decide)
  · exact yields_message (.inl rfl)
  · exact yields_enum rfl
  · exact yields_service

theorem exists_parts {ss : List (Signal Shape)} (h : Derives rule document ss) :
    ∃ parts, Part.signals parts = ss ∧ ∀ q ∈ parts, Fits rule layout .file q := by
  obtain ⟨parts, hss, hfits, -⟩ := yields_declaration.star ss (Nat.le_refl _) h
  exact ⟨parts, hss, hfits⟩

end ProtoSyntax.Schema
