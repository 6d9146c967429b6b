import ProtoSyntax.Proofs.Schema.Layout
import ProtoSyntax.Proofs.Schema.Readers

/-!
# Types of fields and methods

A type is the texts of its tokens, one after the other. The modifier of a field is told from its first
token, and a streamed type of a method from the word for that, if more tokens follow it.
-/

namespace ProtoSyntax.Schema
open Ebnf (opt star alt sepBy)

/-- The type of a field, its modifier aside, and the tokens before its name. -/
def SpellsType (ts : List Token) (type : String) : Option FieldModifier → Prop
  | none => (∀ t ∈ ts.head?, t.kind ≠ .keyword .repeated ∧ t.kind ≠ .keyword .optional) ∧
      type = Token.concat ts
  | some .repeated => ∃ label us, ts = label :: us ∧ label.kind = .keyword .repeated ∧
      type = Token.concat us
  | some .optional => ∃ label us, ts = label :: us ∧ label.kind = .keyword .optional ∧
      type = Token.concat us
  | some (.map key value) => ∃ word us ks vs rest, word.kind = .keyword .map ∧
      CutAt [.leftAngle] ts [word] us ∧ CutAt [.comma] us ks rest ∧ CutAt [.rightAngle] rest vs [] ∧
      key = Token.concat ks ∧ value = Token.concat vs

/-- A type and the tokens between its parentheses, with the word for a stream among them if there
is more than that. -/
def SpellsRpcType (ts : List Token) (type : String) (stream : Bool) : Prop :=
  (stream = true ↔ ∃ word more, ts = word :: more ∧ word.kind = .keyword .stream ∧ more ≠ []) ∧
    type = Token.concat (if stream then ts.drop 1 else ts)

variable {us : List Token}

theorem generates_typeExcept_inv {excluded : List Keyword} (h : Generates rule (typeExcept excluded) us) :
    ∃ t ts, us = t :: ts ∧ (∀ k ∈ excluded, t.kind ≠ .keyword k) ∧
      (t.kind = .punct .dot ∨ Generates rule [star [.punct .dot, .word]] ts) := by
  obtain ⟨a, ha, h⟩ := h.alt_inv
  simp only [List.mem_cons, List.not_mem_nil, or_false] at ha
  rcases ha with rfl | rfl | rfl
  · obtain ⟨t, rfl, ht⟩ := h.single_inv
    refine ⟨t, [], rfl, fun k _ hk => ?_, .inr ⟨[], .stop .nil, rfl⟩⟩
    rw [hk] at ht
    cases ht
  · obtain ⟨t, ts, rfl, ht, -⟩ := h.kind_inv
    refine ⟨t, ts, rfl, fun k _ hk => ?_, .inl ht⟩
    cases ht.symm.trans hk
  · obtain ⟨t, ts, rfl, ht, hts⟩ := h.token_inv
    refine ⟨t, ts, rfl, fun k hk he => ?_, .inr hts⟩
    rw [he] at ht
    simp only [Bool.and_eq_true, decide_eq_true_eq] at ht
    exact ht.2 (List.mem_map_of_mem hk)

section field

variable {name : Token}

theorem readFieldType_labelled (h : Generates rule labelledType us) (hregular : ∀ t ∈ us, t.IsRegular)
    (hname : name.kind.isWord = true) (rest : List Token) :
    ∃ m type, readFieldType (us ++ name :: rest) = ((m, type), name :: rest) ∧ SpellsType us type m := by
  obtain ⟨ls, ts, rfl, hls, hts⟩ := h.append_inv
  have htype := readTypeName_append hts (fun t ht => hregular t (List.mem_append_right ls ht))
    (endsName_word hname rest)
  rcases hls.either_inv with hls | hls <;> obtain ⟨label, rfl, hlabel⟩ := hls.single_kind_inv
  · exact ⟨some .repeated, Token.concat ts, by simp [readFieldType, hlabel, htype], label, ts, rfl, hlabel, rfl⟩
  · exact ⟨some .optional, Token.concat ts, by simp [readFieldType, hlabel, htype], label, ts, rfl, hlabel, rfl⟩

theorem readFieldType_mapOf (h : Generates rule mapOfTypes us) (hregular : ∀ t ∈ us, t.IsRegular)
    (rest : List Token) :
    ∃ m type, readFieldType (us ++ rest) = ((m, type), rest) ∧ SpellsType us type m := by
  obtain ⟨front, back, rfl, hfront, hback⟩ :=
    Generates.append_inv (a := .keyword .map :: .punct .leftAngle :: type ++ .punct .comma :: type) h
  obtain ⟨front, tail, rfl, hfront, htail⟩ :=
    Generates.append_inv (a := .keyword .map :: .punct .leftAngle :: type) hfront
  obtain ⟨word, _, rfl, hword, hfront⟩ := hfront.kind_inv
  obtain ⟨opener, ks, rfl, hopener, hks⟩ := hfront.kind_inv
  obtain ⟨comma, vs, rfl, hcomma, hvs⟩ := htail.kind_inv
  obtain ⟨closer, rfl, hcloser⟩ := hback.single_kind_inv
  have hnoComma := hks.ne_punct (lacks_typeExcept (by decide) []) (List.mem_singleton_self .comma)
  have hnoAngle := hvs.ne_punct (lacks_typeExcept (by decide) []) (List.mem_singleton_self .rightAngle)
  have hmap := readMapType_append word opener hks hcomma hvs hcloser
    (fun t ht => hregular t (by simp [ht])) (fun t ht => hregular t (by simp [ht])) rest
  simp only [List.cons_append, List.append_assoc, List.nil_append] at hmap ⊢
  have hangle : kindAt (word :: opener :: (ks ++ comma :: (vs ++ closer :: rest))) 1 =
      some (.punct .leftAngle) := congrArg some hopener
  refine ⟨some (.map (Token.concat ks) (Token.concat vs)),
    "map<" ++ Token.concat ks ++ ", " ++ Token.concat vs ++ ">", by simp [readFieldType, hword, hangle, hmap],
    word, ks ++ comma :: (vs ++ [closer]), ks, vs, vs ++ [closer], hword, ?_, .of_ne hnoComma hcomma _,
    .of_ne hnoAngle hcloser _, rfl, rfl⟩
  exact .of_ne (List.forall_mem_singleton.2 (by simp [hword])) hopener _

theorem readFieldType_plain {t : Token} {ts : List Token} (hrepeated : t.kind ≠ .keyword .repeated)
    (hoptional : t.kind ≠ .keyword .optional)
    (hmap : t.kind = .keyword .map → ∀ u ∈ ts.head?, u.kind ≠ .punct .leftAngle) :
    readFieldType (t :: ts) = ((none, (readTypeName (t :: ts)).1), (readTypeName (t :: ts)).2) := by
  have hmap : ¬ (t.kind = .keyword .map ∧ kindAt (t :: ts) 1 = some (.punct .leftAngle)) := by
    rintro ⟨hk, h⟩
    obtain ⟨u, hu, hangle⟩ := Option.map_eq_some_iff.1 h
    exact hmap hk u (List.head?_eq_getElem?.trans hu) hangle
  simp [readFieldType, hrepeated, hoptional, hmap]

theorem readFieldType_bare {excluded : List Keyword} (hrepeated : .repeated ∈ excluded)
    (hoptional : .optional ∈ excluded) (h : Generates rule (typeExcept excluded) us)
    (hregular : ∀ t ∈ us, t.IsRegular) (hname : name.kind.isWord = true) (rest : List Token) :
    ∃ m type, readFieldType (us ++ name :: rest) = ((m, type), name :: rest) ∧ SpellsType us type m := by
  have htype := readTypeName_append h hregular (endsName_word hname rest)
  obtain ⟨t, ts, rfl, hexcluded, hmore⟩ := generates_typeExcept_inv h
  have hrepeated := hexcluded _ hrepeated
  have hoptional := hexcluded _ hoptional
  have hmap : t.kind = .keyword .map → ∀ u ∈ (ts ++ name :: rest).head?, u.kind ≠ .punct .leftAngle := by
    intro hk u hu
    rcases (hmore.resolve_left (by simp [hk])).star_cases with rfl | ⟨xs, ys, rfl, hx, -⟩
    · obtain rfl := Option.some.inj hu
      exact ne_punct_of_isWord hname .leftAngle
    · obtain ⟨dot, _, rfl, hdot, -⟩ := hx.kind_inv
      obtain rfl := Option.some.inj hu
      simp [hdot]
  refine ⟨none, Token.concat (t :: ts), ?_, fun u hu => ?_, rfl⟩
  · rw [List.cons_append, readFieldType_plain hrepeated hoptional hmap, ← List.cons_append, htype]
  · obtain rfl := Option.some.inj hu
    exact ⟨hrepeated, hoptional⟩

theorem readFieldType_append {excluded : List Keyword} (hrepeated : .repeated ∈ excluded)
    (hoptional : .optional ∈ excluded)
    (h : Generates rule [alt [labelledType, mapOfTypes, typeExcept excluded]] us)
    (hregular : ∀ t ∈ us, t.IsRegular) (hname : name.kind.isWord = true) (rest : List Token) :
    ∃ m type, readFieldType (us ++ name :: rest) = ((m, type), name :: rest) ∧ SpellsType us type m := by
  obtain ⟨a, ha, h⟩ := h.alt_inv
  simp only [List.mem_cons, List.not_mem_nil, or_false] at ha
  rcases ha with rfl | rfl | rfl
  · exact readFieldType_labelled h hregular hname rest
  · exact readFieldType_mapOf h hregular (name :: rest)
  · exact readFieldType_bare hrepeated hoptional h hregular hname rest

theorem readField_append {excluded : List Keyword} (hrepeated : .repeated ∈ excluded)
    (hoptional : .optional ∈ excluded) (h : Generates rule (fieldHead excluded) us)
    (hregular : ∀ t ∈ us, t.IsRegular) (rest : List Token) :
    ∃ ts name sign number type m, us = ts ++ [name, sign, number] ∧
      Generates rule [alt [labelledType, mapOfTypes, typeExcept excluded]] ts ∧ name.kind.isWord = true ∧
      sign.kind = .punct .eq ∧ number.kind.isInteger = true ∧ SpellsType ts type m ∧
      readField (us ++ rest) = (.field name.text number.text type m, rest) := by
  obtain ⟨ts, tail, rfl, hts, htail⟩ :=
    Generates.append_inv (a := [alt [labelledType, mapOfTypes, typeExcept excluded]]) h
  obtain ⟨name, _, rfl, hname, htail⟩ := htail.token_inv
  obtain ⟨sign, _, rfl, hsign, htail⟩ := htail.kind_inv
  obtain ⟨number, rfl, hnumber⟩ := htail.single_inv
  obtain ⟨m, type, hread, hspells⟩ := readFieldType_append hrepeated hoptional hts
    (fun t ht => hregular t (List.mem_append_left _ ht)) hname (sign :: number :: rest)
  refine ⟨ts, name, sign, number, type, m, rfl, hts, hname, hsign, hnumber, hspells, ?_⟩
  simp [readField, hread]

theorem readFieldType_map {ts : List Token} {key value : String}
    (h : (readFieldType ts).1.1 = some (.map key value)) :
    (readFieldType ts).1.2 = "map<" ++ key ++ ", " ++ value ++ ">" := by
  simp only [readFieldType, Reader.bind_apply, Reader.ite_apply] at h ⊢
  split_ifs at h ⊢
  · cases h
  · cases h
  · obtain ⟨rfl, rfl⟩ := FieldModifier.map.inj (Option.some.inj h)
    rfl
  · cases h

theorem readField_map {ts : List Token} {name number type key value : String}
    (h : (readField ts).1 = .field name number type (some (.map key value))) :
    type = "map<" ++ key ++ ", " ++ value ++ ">" := by
  obtain ⟨-, -, rfl, hm⟩ := Kind.field.inj h
  exact readFieldType_map hm

end field

section rpc

variable {closer : Token}

theorem readRpcType_stream {word t : Token} {ts : List Token} (hword : word.kind = .keyword .stream)
    (ht : t.kind ≠ .punct .rightParen) {rest : List Token}
    (htype : readTypeName (t :: ts ++ closer :: rest) = (Token.concat (t :: ts), closer :: rest))
    (opener : Token) :
    readRpcType (opener :: word :: t :: ts ++ closer :: rest) = ((true, Token.concat (t :: ts)), rest) ∧
      SpellsRpcType (word :: t :: ts) (Token.concat (t :: ts)) true := by
  refine ⟨?_, iff_of_true rfl ⟨word, t :: ts, rfl, hword, nofun⟩, rfl⟩
  rw [List.cons_append] at htype
  simp [readRpcType, eatStream, hword, kindAt_cons_one, ht, htype]

theorem readRpcType_plain {t : Token} {ts : List Token} (ht : t.kind = .keyword .stream → ts = [])
    (hcloser : closer.kind = .punct .rightParen) {rest : List Token}
    (htype : readTypeName (t :: ts ++ closer :: rest) = (Token.concat (t :: ts), closer :: rest))
    (opener : Token) :
    readRpcType (opener :: t :: ts ++ closer :: rest) = ((false, Token.concat (t :: ts)), rest) ∧
      SpellsRpcType (t :: ts) (Token.concat (t :: ts)) false := by
  refine ⟨?_, iff_of_false Bool.false_ne_true ?_, rfl⟩
  · rw [List.cons_append] at htype
    by_cases hk : t.kind = .keyword .stream
    · obtain rfl := ht hk
      rw [List.nil_append] at htype
      simp [readRpcType, eatStream, hk, kindAt_cons_one, hcloser, htype]
    · simp [readRpcType, eatStream, hk, htype]
  · rintro ⟨word, more, he, hword, hmore⟩
    obtain ⟨rfl, rfl⟩ := List.cons.inj he
    exact hmore (ht hword)

theorem readRpcType_append (h : Generates rule rpcType us) (hregular : ∀ t ∈ us, t.IsRegular)
    (hcloser : closer.kind = .punct .rightParen) (opener : Token) (rest : List Token) :
    ∃ stream type, readRpcType (opener :: us ++ closer :: rest) = ((stream, type), rest) ∧
      SpellsRpcType us type stream := by
  have hends := endsName_cons (by decide) hcloser rest
  have hparen := h.ne_punct (lacks_rpcType (by decide)) (List.mem_singleton_self .rightParen)
  rcases h.either_inv with h | h
  · obtain ⟨word, ts, rfl, hword, hts⟩ := h.kind_inv
    have htype := readTypeName_append hts (fun t ht => hregular t (List.mem_cons_of_mem _ ht)) hends
    obtain ⟨t, ts, rfl, -⟩ := generates_typeExcept_inv hts
    exact ⟨_, _, readRpcType_stream hword (hparen t (by simp)) htype opener⟩
  · have htype := readTypeName_append h hregular hends
    obtain ⟨t, ts, rfl, -, hmore⟩ := generates_typeExcept_inv h
    by_cases hstream : t.kind = .keyword .stream → ts = []
    · exact ⟨_, _, readRpcType_plain hstream hcloser htype opener⟩
    -- The word for a stream could be the first of a type whose next word is behind a dot.
    obtain ⟨hk, hne⟩ := Classical.not_imp.1 hstream
    obtain ⟨xs, ys, rfl, hx, hys⟩ := (hmore.resolve_left (by simp [hk])).star_cases.resolve_left hne
    obtain ⟨dot, _, rfl, hdot, hx⟩ := hx.kind_inv
    obtain ⟨word, rfl, -⟩ := hx.single_inv
    have htype := readTypeName_dot hdot hys
      (fun t ht => hregular t (List.mem_cons_of_mem _ ht)) hends
    exact ⟨_, _, readRpcType_stream hk (hparen dot (by simp)) htype opener⟩

theorem readRpc_append (h : Generates rule rpcHead us) (hregular : ∀ t ∈ us, t.IsRegular) (rest : List Token) :
    ∃ word name opener requestTokens closer returns opener' responseTokens closer' request requestStream
      response responseStream,
      us = word :: name :: opener :: (requestTokens ++ closer :: returns :: opener' ::
        (responseTokens ++ [closer'])) ∧
      word.kind = .keyword .rpc ∧ name.kind.isWord = true ∧ opener.kind = .punct .leftParen ∧
      Generates rule rpcType requestTokens ∧ closer.kind = .punct .rightParen ∧
      returns.kind = .keyword .returns ∧ opener'.kind = .punct .leftParen ∧
      Generates rule rpcType responseTokens ∧ closer'.kind = .punct .rightParen ∧
      SpellsRpcType requestTokens request requestStream ∧
      SpellsRpcType responseTokens response responseStream ∧
      readRpc ((us ++ rest).drop 1) =
        (.rpc name.text request requestStream response responseStream, rest) := by
  obtain ⟨front, tail, rfl, hfront, htail⟩ := Generates.append_inv
    (a := .keyword .rpc :: .word :: .punct .leftParen :: rpcType)
    (b := .punct .rightParen :: .keyword .returns :: .punct .leftParen :: rpcType ++
      [.punct .rightParen]) (by simpa [rpcHead] using h)
  obtain ⟨word, _, rfl, hword, hfront⟩ := hfront.kind_inv
  obtain ⟨name, _, rfl, hname, hfront⟩ := hfront.token_inv
  obtain ⟨opener, requestTokens, rfl, hopener, hrequest⟩ := hfront.kind_inv
  obtain ⟨closer, _, rfl, hcloser, htail⟩ := htail.kind_inv
  obtain ⟨returns, _, rfl, hreturns, htail⟩ := htail.kind_inv
  obtain ⟨opener', _, rfl, hopener', htail⟩ := htail.kind_inv
  obtain ⟨responseTokens, _, rfl, hresponse, htail⟩ := Generates.append_inv (a := rpcType) htail
  obtain ⟨closer', rfl, hcloser'⟩ := htail.single_kind_inv
  obtain ⟨responseStream, response, hread', hspells'⟩ :=
    readRpcType_append hresponse (fun t ht => hregular t (by simp [ht])) hcloser' opener' rest
  obtain ⟨requestStream, request, hread, hspells⟩ :=
    readRpcType_append hrequest (fun t ht => hregular t (by simp [ht])) hcloser opener
      (returns :: (opener' :: responseTokens ++ closer' :: rest))
  refine ⟨word, name, opener, requestTokens, closer, returns, opener', responseTokens, closer', request,
    requestStream, response, responseStream, by simp, hword, hname, hopener, hrequest, hcloser, hreturns,
    hopener', hresponse, hcloser', hspells, hspells', ?_⟩
  simp only [List.cons_append] at hread hread'
  simp [readRpc, hread, hread']

end rpc

end ProtoSyntax.Schema
