import ProtoSyntax.Proofs.Comments
import ProtoSyntax.Proofs.Parsing.Written
import ProtoSyntax.Proofs.Schema.Payloads

/-!
# Names and types in schema files

A name or a type is the texts of the tokens that spell it, one after the other. Which tokens these are is
told by the punctuation around them, and what the grammar derives in between has none of it.
-/

namespace ProtoSyntax.Schema
open Ebnf (opt star alt sepBy)

/-- The names and types of a node are spelled by the tokens it is written with. -/
def Spelled (parent : Kind) (us : List Token) : Kind → Prop
  | .package name => ∃ word more ts, us = word :: more ∧ word.kind = .keyword .package ∧
      CutAt [.semicolon] more ts [] ∧ name = Token.concat ts
  | .option name => ∃ more ts rest,
      (if parent.hasBrackets then us = more
        else ∃ word, us = word :: more ∧ word.kind = .keyword .option) ∧
      CutAt [.eq] more ts rest ∧ name = Token.concat ts
  | .field name _ type modifier => ∃ ts t rest, CutAt [.eq] us (ts ++ [t]) rest ∧ name = t.text ∧
      SpellsType ts type modifier
  | .rpc name request requestStream response responseStream =>
    ∃ word t us₁ us₂ us₃ between rest requestTokens responseTokens, word.kind = .keyword .rpc ∧
      CutAt [.leftParen] us [word, t] us₁ ∧ CutAt [.rightParen] us₁ requestTokens us₂ ∧
      CutAt [.leftParen] us₂ between us₃ ∧ CutAt [.rightParen] us₃ responseTokens rest ∧
      name = t.text ∧ SpellsRpcType requestTokens request requestStream ∧
      SpellsRpcType responseTokens response responseStream
  | _ => True

variable {us : List Token} {text : String}

theorem lacks_fieldType (excluded : List Keyword) :
    Lacks rule [.eq] [alt [labelledType, mapOfTypes, typeExcept excluded]] := by
  have htype : Lacks rule [.eq] type := lacks_typeExcept (by decide) []
  refine .alt (fun a ha => ?_) .nil
  simp only [List.mem_cons, List.not_mem_nil, or_false] at ha
  rcases ha with rfl | rfl | rfl
  · refine .append (.alt (fun a ha => ?_) .nil) htype
    simp only [List.mem_cons, List.not_mem_nil, or_false] at ha
    rcases ha with rfl | rfl <;> exact .keyword .nil
  · exact .append (a := .keyword .map :: .punct .leftAngle :: type ++ .punct .comma :: type)
      (.append (.keyword (.punct (by decide) htype)) (.punct (by decide) htype))
      (.punct (by decide) .nil)
  · exact lacks_typeExcept (by decide) excluded

theorem lacks_optionName : Lacks rule [.eq] optionName := by
  have hdotted : Lacks rule [.eq] dotted := lacks_dotted (by decide)
  have hopt {e : Expr} (h : Lacks rule [.eq] e) : Lacks rule [.eq] [opt e] := by
    refine .alt (fun a ha => ?_) .nil
    simp only [List.mem_cons, List.not_mem_nil, or_false] at ha
    rcases ha with rfl | rfl
    · exact .nil
    · exact h
  refine .alt (fun a ha => ?_) .nil
  simp only [List.mem_cons, List.not_mem_nil, or_false] at ha
  rcases ha with rfl | rfl
  · exact hdotted
  · have hrooted : Lacks rule [.eq] rooted := (hopt (.punct (by decide) .nil)).append hdotted
    exact .punct (by decide) (hrooted.append (.punct (by decide) (hopt (.punct (by decide) hdotted))))

section regular

variable (parent : Kind) (hregular : ∀ t ∈ us, t.IsRegular)

include hregular

theorem spelled_readField {excluded : List Keyword} (hrepeated : .repeated ∈ excluded)
    (hoptional : .optional ∈ excluded) (h : Generates rule (fieldHead excluded) us) (more rest : List Token) :
    Spelled parent (us ++ rest) (readField (us ++ more)).1 := by
  obtain ⟨ts, name, sign, number, type, m, rfl, hts, hname, hsign, -, hspells, hread⟩ :=
    readField_append hrepeated hoptional h hregular more
  have hlacks : ∀ u ∈ ts ++ [name], u.kind ≠ .punct .eq := by
    intro u hu
    rcases List.mem_append.1 hu with hu | hu
    · exact hts.ne_punct (lacks_fieldType excluded) List.mem_cons_self u hu
    · obtain rfl := List.mem_singleton.1 hu
      exact ne_punct_of_isWord hname .eq
  have hassoc : ts ++ [name, sign, number] ++ rest = ts ++ [name] ++ sign :: (number :: rest) := by simp
  rw [hread, hassoc]
  exact ⟨ts, name, _, .of_ne hlacks hsign _, rfl, hspells⟩

theorem spelled_readRpc (h : Generates rule rpcHead us) (more rest : List Token) :
    Spelled parent (us ++ rest) (readRpc ((us ++ more).drop 1)).1 := by
  obtain ⟨word, name, opener, requestTokens, closer, returns, opener', responseTokens, closer', request,
    requestStream, response, responseStream, rfl, hword, hname, hopener, hrequest, hcloser, hreturns,
    hopener', hresponse, hcloser', hspells, hspells', hread⟩ := readRpc_append h hregular more
  have hparen := hrequest.ne_punct (lacks_rpcType (by decide)) (List.mem_singleton_self .rightParen)
  have hparen' := hresponse.ne_punct (lacks_rpcType (by decide)) (List.mem_singleton_self .rightParen)
  have hassoc : word :: name :: opener :: (requestTokens ++ closer :: returns :: opener' ::
      (responseTokens ++ [closer'])) ++ rest = [word, name] ++ opener :: (requestTokens ++ closer ::
        ([returns] ++ opener' :: (responseTokens ++ closer' :: rest))) := by simp
  rw [hread, hassoc]
  exact ⟨word, name, _, _, _, [returns], rest, requestTokens, responseTokens, hword,
    .of_ne (by simp [hword, ne_punct_of_isWord hname]) hopener _, .of_ne hparen hcloser _,
    .of_ne (by simp [hreturns]) hopener' _, .of_ne hparen' hcloser' _, rfl, hspells, hspells'⟩

theorem spelled_package {stop : Token} (h : Generates rule (.keyword .package :: dotted) us)
    (hstop : stop.kind = .punct .semicolon) :
    Spelled parent (us ++ [stop]) (build .package text (us ++ [stop])) := by
  obtain ⟨word, ts, rfl, hword, hts⟩ := h.kind_inv
  have hname := readFullName_dotted false hts (fun t ht => hregular t (List.mem_cons_of_mem _ ht))
    (endsName_cons (by decide) hstop [])
  refine ⟨word, ts ++ [stop], ts, rfl, hword,
    .of_ne (hts.ne_punct (lacks_dotted (by decide)) (List.mem_singleton_self .semicolon)) hstop _, ?_⟩
  exact congrArg Prod.fst hname

theorem spelled_option {opener : Token} (rest : List Token) (hparent : parent.hasBrackets = false)
    (h : Generates rule (.keyword .option :: optionName) us) (hopener : opener.kind = .punct .eq) :
    Spelled parent (us ++ opener :: rest) (build .option text us) := by
  obtain ⟨word, ts, rfl, hword, hts⟩ := h.kind_inv
  have hname := readOptionName_append hts (fun t ht => hregular t (List.mem_cons_of_mem _ ht)) endsName_nil
  rw [List.append_nil] at hname
  refine ⟨ts ++ opener :: rest, ts, rest, ?_,
    .of_ne (hts.ne_punct lacks_optionName List.mem_cons_self) hopener _, congrArg Prod.fst hname⟩
  rw [hparent]
  exact ⟨word, rfl, hword⟩

theorem spelled_bracketOption {opener : Token} (rest : List Token) (hparent : parent.hasBrackets = true)
    (h : Generates rule optionName us) (hopener : opener.kind = .punct .eq) :
    Spelled parent (us ++ opener :: rest) (build .bracketOption text us) := by
  have hname := readOptionName_append h hregular endsName_nil
  rw [List.append_nil] at hname
  refine ⟨us ++ opener :: rest, us, rest, ?_,
    .of_ne (h.ne_punct lacks_optionName List.mem_cons_self) hopener _, congrArg Prod.fst hname⟩
  rw [hparent]
  rfl

end regular

theorem tells (text : String) :
    Tells rule layout (fun shape => build shape text) (Language.schema.tokens text)
      (fun k l => k.place? = some l) Spelled where
  comment _ _ := trivial
  leaf {k l shape first more} hk hq hts := by
    cases hq with
    | @leaf _ _ _ _ e tail hhead hend hd =>
      obtain ⟨us, vs, hus, hfront, hback⟩ := (Generates.of_derives hd).append_inv
      rw [hus] at hts ⊢
      have hregular : ∀ t ∈ us, t.IsRegular := fun t ht => isRegular_tokens (hts (List.mem_append_left _ ht))
      cases shape with
      | field =>
        cases l <;> cases hhead <;>
          exact spelled_readField k hregular (by decide) (by decide) hfront vs vs
      | rpc =>
        obtain rfl := headAt_rpc_eq hhead
        exact spelled_readRpc k hregular hfront vs vs
      | package =>
        cases l <;> cases hhead
        obtain rfl := Option.some.inj hend
        obtain ⟨stop, rfl, hstop⟩ := hback.single_kind_inv
        exact spelled_package k hregular hfront hstop
      | option | bracketOption => cases hend
      | _ => trivial
  block {k l shape first more opener body closer} hk hq hts rest := by
    cases hq with
    | @block _ _ _ _ e _ _ _ _ _ hhead hd hdel hopener _ _ _ =>
      have hfront := Generates.of_derives hd
      have hregular : ∀ t ∈ (first :: more).map (·.token), t.IsRegular := fun t ht => isRegular_tokens (hts ht)
      cases shape with
      | field =>
        have hspelled (excluded : List Keyword) (hrepeated : .repeated ∈ excluded)
            (hoptional : .optional ∈ excluded)
            (he : Generates rule (fieldHead excluded) ((first :: more).map (·.token))) :=
          spelled_readField k hregular hrepeated hoptional he [] (opener.token :: rest)
        simp only [List.append_nil] at hspelled
        cases l <;> cases hhead <;> exact hspelled _ (by decide) (by decide) hfront
      | rpc =>
        obtain rfl := headAt_rpc_eq hhead
        have hspelled := spelled_readRpc k hregular hfront [] (opener.token :: rest)
        rwa [List.append_nil] at hspelled
      | option =>
        obtain ⟨rfl, -⟩ := Prod.mk.inj (List.mem_singleton.1 hdel)
        have hparent : k.hasBrackets = false := by
          rw [Bool.eq_false_iff, ne_eq, Kind.hasBrackets_iff, hk]
          exact fun hl => headAt_option_ne hhead (Option.some.inj hl)
        have he : e = .keyword .option :: optionName := by cases l <;> cases hhead <;> rfl
        subst he
        exact spelled_option k hregular rest hparent hfront hopener
      | bracketOption =>
        obtain ⟨rfl, -⟩ := Prod.mk.inj (List.mem_singleton.1 hdel)
        obtain rfl := headAt_bracketOption_eq hhead
        obtain rfl := Option.some.inj hhead
        exact spelled_bracketOption k hregular rest (Kind.hasBrackets_iff.2 hk) hfront hopener
      | package => cases hdel
      | _ => trivial

end ProtoSyntax.Schema
