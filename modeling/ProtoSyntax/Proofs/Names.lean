import ProtoSyntax.Proofs.Schema.Names
import ProtoSyntax.Proofs.TextFormat.Denotation

/-!
# Names and types

The names and types in every tree that is read from a text are the texts of the tokens they are
written with, and comments and blanks between these tokens are left out.
-/

namespace ProtoSyntax

namespace TextFormat

/-- The name of a node is spelled by the tokens before its colon or its delimiter. -/
def Spelled (_parent : Kind) (us : List Token) : Kind → Prop
  | .field name _ | .message name => ∃ ts rest, CutAt [.colon, .leftBrace, .leftAngle] us ts rest ∧
      name = Token.concat ts
  | _ => True

theorem cutAt_name {name : List Token} {t : Token} (h : Generates rule Literal.fieldName name)
    (ht : t.isOneOf [.colon, .leftBrace, .leftAngle] = true) (rest : List Token) :
    CutAt [.colon, .leftBrace, .leftAngle] (name ++ t :: rest) name rest := by
  refine ⟨t, rfl, ht, fun u hu => Bool.eq_false_iff.2 fun hone => ?_⟩
  obtain ⟨p, hp, hk⟩ := Token.isOneOf_iff.1 hone
  exact h.ne_punct (lacks_fieldName (by decide)) hp u hu hk

theorem exists_field {l : Unit} {shape : Shape} {first : Piece} {more : List Piece}
    (hq : Fits rule layout l (.leaf shape first more)) :
    ∃ name colon value, (first :: more).map (·.token) = name ++ colon :: value ∧ shape = .field ∧
      Generates rule Literal.fieldName name ∧ colon.kind = .punct .colon ∧ Generates rule plainValue value := by
  cases hq with
  | leaf hhead hend hd =>
    cases shape with
    | message => cases hend
    | field =>
      obtain rfl := Option.some.inj hhead
      obtain rfl := Option.some.inj hend
      have hall : Generates rule (fieldHead ++ []) ((first :: more).map (·.token)) := .of_derives hd
      rw [List.append_nil] at hall
      obtain ⟨name, _, hus, hname, hrest⟩ := Generates.append_inv (a := Literal.fieldName) hall
      obtain ⟨colon, value, rfl, hcolon, hvalue⟩ := hrest.kind_inv
      exact ⟨name, colon, value, hus, rfl, hname, hcolon, hvalue⟩

theorem tells (text : String) :
    Tells rule layout (fun shape => build shape text) (Language.textFormat.tokens text) (fun _ _ => True)
      Spelled where
  comment _ _ := trivial
  leaf {k l shape first more} _ hq hts := by
    obtain ⟨name, colon, value, hus, rfl, hname, hcolon, -⟩ := exists_field hq
    rw [hus] at hts ⊢
    rw [build_field text hname fun t ht => isRegular_tokens (hts (List.mem_append_left _ ht))]
    exact ⟨name, value, cutAt_name hname (Token.isOneOf_iff.2 ⟨_, by simp, hcolon⟩) _, rfl⟩
  block {k l shape first more opener body closer} _ hq hts rest := by
    cases hq with
    | @block _ _ _ _ e _ _ _ opening _ hhead hd hdel hopener _ _ _ =>
      cases shape with
      | field => cases hdel
      | message =>
        obtain rfl := Option.some.inj hhead
        obtain ⟨name, colon, hus, hname, hcolon⟩ :=
          Generates.append_inv (a := Literal.fieldName) (.of_derives hd)
        have hopening : opening ∈ [Punct.colon, .leftBrace, .leftAngle] := by
          simp only [layout, List.mem_cons, Prod.mk.injEq, List.not_mem_nil, or_false] at hdel
          rcases hdel with ⟨rfl, -⟩ | ⟨rfl, -⟩ <;> simp
        rw [hus] at hts ⊢
        rw [build_message text hname (fun t ht => isRegular_tokens (hts (List.mem_append_left _ ht)))]
        rcases hcolon.opt_inv with rfl | hcolon
        · rw [List.append_nil]
          exact ⟨name, rest, cutAt_name hname (Token.isOneOf_iff.2 ⟨_, hopening, hopener⟩) _, rfl⟩
        · obtain ⟨t, rfl, ht⟩ := hcolon.single_kind_inv
          rw [List.append_assoc]
          have ht : t.isOneOf [.colon, .leftBrace, .leftAngle] = true :=
            Token.isOneOf_iff.2 ⟨_, List.mem_cons_self, ht⟩
          exact ⟨name, _, cutAt_name hname ht _, rfl⟩

end TextFormat

namespace Document

/-- The names and types of a document are spelled by tokens of its text. -/
def Spelled (text : String) : Document → Prop
  | .schema tree => tree.Tells (Language.schema.tokens text) Schema.Spelled
  | .textFormat tree => tree.Tells (Language.textFormat.tokens text) TextFormat.Spelled

theorem spelled_of_parse {language : Language} {text : String} {d : Document}
    (h : parse language text = .ok d) : d.Spelled text := by
  rcases parse_eq_ok h with ⟨tree, hp, -, rfl⟩ | ⟨tree, hp, -, rfl⟩
  · exact Schema.reads.tells (Schema.closes text) (Schema.tells text) rfl hp
  · exact TextFormat.reads.tells (TextFormat.closes text) (TextFormat.tells text) trivial hp

theorem spelled_with_comments_inside :
    ∃ d, parse .schema "service A{option(. b/*c*/.d).e=1;rpc F(stream/*g*/. H)returns(stream);}" = .ok d ∧
      d.Spelled "service A{option(. b/*c*/.d).e=1;rpc F(stream/*g*/. H)returns(stream);}" := by
  obtain ⟨d, hd⟩ : ∃ d, parse .schema
      "service A{option(. b/*c*/.d).e=1;rpc F(stream/*g*/. H)returns(stream);}" = .ok d :=
    exists_ok_of_isOk (by rw [parse, Schema.parse, tokens_eq]; cbv)
  exact ⟨d, hd, spelled_of_parse hd⟩

end Document
end ProtoSyntax
