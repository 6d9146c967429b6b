import ProtoSyntax.Proofs.LineFeeds
import ProtoSyntax.Proofs.Names
import ProtoSyntax.Proofs.Parsing.Ownership
import ProtoSyntax.Proofs.Tree.Lines

/-!
# Trees as text

A tree that is read from a text is shown as one piece for each node, in pre-order, that ends with a line
feed. Import paths, values of options and values of fields in text format are shown as they are written,
with their line feeds; nothing else that is shown of a node has any. So it is exactly where these have none
that every node has a line.
-/

namespace ProtoSyntax

variable {N S L K : Type}

section bars

variable (k : TokenKind)

mutual

def Ebnf.Bars : Ebnf N S → Prop
  | .token accepts => ∀ text, accepts k text = false
  | .mark _ => True
  | .alt choices => AllBar choices
  | .star a => PhraseBars a
  | .ref _ => False

def PhraseBars : List (Ebnf N S) → Prop
  | [] => True
  | i :: e => i.Bars ∧ PhraseBars e

def AllBar : List (List (Ebnf N S)) → Prop
  | [] => True
  | a :: choices => PhraseBars a ∧ AllBar choices

end

variable {k}

@[simp] theorem Ebnf.bars_word : (word : Ebnf N S).Bars k ↔ k.isWord = false := forall_const _

@[simp] theorem Ebnf.bars_integer : (integer : Ebnf N S).Bars k ↔ k.isInteger = false := forall_const _

@[simp] theorem Ebnf.bars_keyword {w : Keyword} : (keyword w : Ebnf N S).Bars k ↔ k ≠ .keyword w := by
  simp [keyword, kind, Bars]

@[simp] theorem Ebnf.bars_punct {p : Punct} : (punct p : Ebnf N S).Bars k ↔ k ≠ .punct p := by
  simp [punct, kind, Bars]

theorem phraseBars_append {a e : Phrase N S} : PhraseBars k (a ++ e) ↔ PhraseBars k a ∧ PhraseBars k e :=
  (Phrase.fold_append (fun _ _ _ => propext and_assoc) true_and (fun _ _ => rfl) a e).to_iff

theorem AllBar.phraseBars {a : Phrase N S} {choices : List (Phrase N S)} (h : AllBar k choices)
    (ha : a ∈ choices) : PhraseBars k a :=
  Phrase.of_choices (fun _ _ => id) h ha

theorem Derives.kind_ne {rule : N → Phrase N S} {e : Phrase N S} {ss : List (Signal S)}
    (h : Derives rule e ss) (he : PhraseBars k e) : ∀ p ∈ Signal.pieces ss, p.kind ≠ k := by
  induction h with
  | nil => simp [Signal.pieces]
  | @token accepts p _ _ hp _ ih =>
    refine List.forall_mem_cons.2 ⟨fun hk => ?_, ih he.2⟩
    rw [hk, he.1] at hp
    cases hp
  | mark _ _ ih => exact ih he.2
  | alt ha _ ih => exact ih (phraseBars_append.2 ⟨he.1.phraseBars ha, he.2⟩)
  | stop _ ih => exact ih he.2
  | more _ ih => exact ih (phraseBars_append.2 ⟨he.1, he⟩)
  | ref => exact he.1.elim

theorem Generates.kind_ne {rule : N → Phrase N S} {e : Phrase N S} {us : List Token}
    (h : Generates rule e us) (he : PhraseBars k e) : ∀ u ∈ us, u.kind ≠ k := by
  obtain ⟨ss, hd, rfl⟩ := h
  intro u hu
  obtain ⟨p, hp, rfl⟩ := List.mem_map.1 hu
  exact hd.kind_ne he p hp

end bars

/-- If only strings among the tokens of a node have line feeds, then its content has those of the texts
that are shown as they are written. -/
def ShownOnLine [Vocabulary K] (verbatim : K → String) (us : List Token) (kind : K) : Prop :=
  (∀ u ∈ us, u.kind ≠ .string → lineFeeds u.text = 0) →
    lineFeeds (Vocabulary.payload kind) = lineFeeds (verbatim kind)

namespace Schema

def Kind.verbatim : Kind → String
  | .importFile path _ => path
  | .optionValue text => text
  | _ => ""

theorem Kind.lineFeeds_label (kind : Kind) : lineFeeds (Vocabulary.label kind) = 0 := by
  cases kind <;> dsimp only [Vocabulary.label, label] <;> decide

section payload

variable {us : List Token} {l : Place} {shape : Shape}

theorem onLine_readFullName (leadingDot : Bool) : (readFullName leadingDot).OnLine (lineFeeds · = 0) := by
  have hroot : Reader.OnLine (eatRoot leadingDot) fun _ => True := by
    cases leadingDot
    · exact .pure trivial
    · exact .of_steady (.eat _)
  refine .bind hroot fun rooted _ => .bind .takeText fun word hword => .moreWords (fun t _ s hs => ?_) ?_
  · obtain ⟨-, hs⟩ := Option.ite_none_right_eq_some.1 hs
    obtain rfl := Option.some.inj hs
    decide
  · have hdot : lineFeeds (if rooted then "." else "") = 0 := by cases rooted <;> decide
    rw [lineFeeds_append, hdot, hword]

theorem onLine_readTypeName : readTypeName.OnLine (lineFeeds · = 0) := by
  refine .bind (.of_steady (.peek 0)) fun k _ => ?_
  split
  · next p => exact .bind (.of_steady .advance) fun _ _ => .pure (by cases p <;> decide)
  · exact onLine_readFullName true

theorem onLine_readParenthesised : readParenthesised.OnLine (lineFeeds · = 0) := by
  have hparens : lineFeeds "(" = 0 ∧ lineFeeds ")" = 0 := by decide
  refine .bind (.of_steady .advance) fun _ _ => .bind (onLine_readFullName true) fun name hname =>
    .bind (.of_steady .advance) fun _ _ => .pure ?_
  simp [hparens, hname]

theorem onLine_readOptionName : readOptionName.OnLine (lineFeeds · = 0) := by
  have hdot : lineFeeds "." = 0 := by decide
  refine .bind (.of_steady (.peek 0)) fun _ _ => .ite ?_ (onLine_readFullName false)
  refine .bind onLine_readParenthesised fun extension hextension => .bind (.of_steady (.eat _)) fun _ _ =>
    .ite (.bind (onLine_readFullName false) fun path hpath => .pure ?_) (.pure hextension)
  simp [hextension, hdot, hpath]

theorem onLine_readMapType : readMapType.OnLine fun types => lineFeeds types.1 = 0 ∧ lineFeeds types.2 = 0 :=
  .bind (.of_steady .advance) fun _ _ => .bind (.of_steady .advance) fun _ _ =>
    .bind onLine_readTypeName fun _ hkey => .bind (.of_steady .advance) fun _ _ =>
      .bind onLine_readTypeName fun _ hvalue => .bind (.of_steady .advance) fun _ _ => .pure ⟨hkey, hvalue⟩

theorem onLine_readFieldType : readFieldType.OnLine (lineFeeds ·.2 = 0) := by
  have hmap : lineFeeds "map<" = 0 ∧ lineFeeds ", " = 0 ∧ lineFeeds ">" = 0 := by decide
  have hplain (m : Option FieldModifier) :
      Reader.OnLine (do let type ← readTypeName; return (m, type)) (lineFeeds ·.2 = 0) :=
    .bind onLine_readTypeName fun _ htype => .pure htype
  refine .bind (.of_steady (.eat _)) fun _ _ => .ite (hplain _) <| .bind (.of_steady (.eat _)) fun _ _ =>
    .ite (hplain _) <| .bind (.of_steady (.peek 0)) fun _ _ => .bind (.of_steady (.peek 1)) fun _ _ =>
      .ite (.bind onLine_readMapType fun types htypes => .pure ?_) (hplain _)
  simp [hmap, htypes]

theorem onLine_readRpcType : readRpcType.OnLine (lineFeeds ·.2 = 0) :=
  .bind (.of_steady .advance) fun _ _ => .bind (.of_steady steady_eatStream) fun _ _ =>
    .bind onLine_readTypeName fun _ htype => .bind (.of_steady .advance) fun _ _ => .pure htype

theorem Kind.lineFeeds_field (name number type : String) (modifier : Option FieldModifier) :
    lineFeeds (Kind.field name number type modifier).payload =
      lineFeeds name + lineFeeds number + lineFeeds type := by
  have htexts : lineFeeds " name=" = 0 ∧ lineFeeds " number=" = 0 ∧ lineFeeds " type=" = 0 := by decide
  have hsuffix : lineFeeds (fieldSuffix modifier) = 0 := by
    rcases modifier with _ | m
    · rfl
    · cases m <;> rfl
  simp [payload, htexts, hsuffix]

theorem Kind.lineFeeds_enumValue (name number : String) :
    lineFeeds (Kind.enumValue name number).payload = lineFeeds name + lineFeeds number := by
  have htexts : lineFeeds " name=" = 0 ∧ lineFeeds " number=" = 0 := by decide
  simp [payload, htexts]

theorem Kind.lineFeeds_rpc (name request response : String) (requestStream responseStream : Bool) :
    lineFeeds (Kind.rpc name request requestStream response responseStream).payload =
      lineFeeds name + lineFeeds request + lineFeeds response := by
  have htexts : lineFeeds " name=" = 0 ∧ lineFeeds " request=" = 0 ∧ lineFeeds " response=" = 0 := by decide
  have hmark (stream : Bool) : lineFeeds (streamMark stream) = 0 := by cases stream <;> decide
  simp [payload, htexts, hmark]

theorem onLine_readField : readField.OnLine (lineFeeds ·.payload = 0) := by
  refine .bind onLine_readFieldType fun type htype => .bind .takeText fun name hname =>
    .bind (.of_steady .advance) fun _ _ => .bind .takeText fun number hnumber => .pure ?_
  rw [Kind.lineFeeds_field, hname, hnumber, htype]

theorem onLine_readEnumValue : readEnumValue.OnLine (lineFeeds ·.payload = 0) := by
  refine .bind .takeText fun name hname => .bind (.of_steady .advance) fun _ _ =>
    .bind .takeText fun number hnumber => .pure ?_
  rw [Kind.lineFeeds_enumValue, hname, hnumber]

theorem onLine_readRpc : readRpc.OnLine (lineFeeds ·.payload = 0) := by
  refine .bind .takeText fun name hname => .bind onLine_readRpcType fun request hrequest =>
    .bind (.of_steady .advance) fun _ _ => .bind onLine_readRpcType fun response hresponse => .pure ?_
  rw [Kind.lineFeeds_rpc, hname, hrequest, hresponse]

/-- The kinds of all nodes but four sorts are made of tokens alone. -/
def isSpelled : Shape → Bool
  | .version | .importFile | .optionValue | .reserved => false
  | _ => true

theorem lineFeeds_build (hshape : isSpelled shape = true) (text : String)
    (h : ∀ u ∈ us, lineFeeds u.text = 0) :
    lineFeeds (build shape text us).payload = lineFeeds (build shape text us).verbatim := by
  have hnamed {r : Reader String} (hr : r.OnLine (lineFeeds · = 0)) {ts : List Token} (hts : ts ⊆ us) :
      lineFeeds (" name=" ++ (r ts).1) = 0 := by
    have hname : lineFeeds " name=" = 0 := by decide
    rw [lineFeeds_append, hname, (hr ts fun t ht => h t (hts ht)).1]
  have hdrop := List.drop_subset 1 us
  cases shape with
  | version | importFile | optionValue | reserved => cases hshape
  | package => exact hnamed (onLine_readFullName false) hdrop
  | option => exact hnamed onLine_readOptionName hdrop
  | message | oneof | enum | service => exact hnamed .takeText hdrop
  | bracketOption => exact hnamed onLine_readOptionName (List.Subset.refl us)
  | field => exact (onLine_readField us h).1
  | enumValue => exact (onLine_readEnumValue us h).1
  | rpc => exact (onLine_readRpc _ fun u hu => h u (hdrop hu)).1

theorem bars_string_headAt {e : Expr} (h : headAt l shape = some e) (hshape : isSpelled shape = true) :
    PhraseBars .string e := by
  cases l <;> cases shape <;> cases h <;> cases hshape <;>
    simp [PhraseBars, Ebnf.Bars, AllBar, fieldHead, enumValueHead, rpcHead, optionName, dotted, rooted,
      labelledType, mapOfTypes, typeExcept, type, rpcType, Ebnf.opt, Ebnf.sepBy, isPrimitive,
      TokenKind.isWord, TokenKind.isInteger]

theorem bars_string_leafEnd {e : Expr} (h : layout.leafEnd shape = some e) : PhraseBars .string e := by
  cases shape <;> cases h <;> simp [PhraseBars, semicolon]

theorem lineFeeds_entryOf (h : ∀ u ∈ us, u.kind ≠ .string → lineFeeds u.text = 0)
    (hus : (∃ t, us = [t]) ∨ ∀ u ∈ us, u.kind ≠ .string) :
    lineFeeds (Kind.entryText (entryOf us)) = 0 := by
  unfold entryOf
  split
  · next t =>
    split
    · exact Quoted.lineFeeds_quote _
    · next hstring => exact h t List.mem_cons_self hstring
  · next hne =>
    have hplain := hus.resolve_left fun ⟨t, ht⟩ => hne t ht
    have hzero (u : Token) (hu : u ∈ us) : lineFeeds u.text = 0 := h u hu (hplain u hu)
    have hto : lineFeeds " to " = 0 := by decide
    simp [Kind.entryText, hto, lineFeeds_concat hzero (List.take_subset 1 us),
      lineFeeds_concat hzero (List.drop_subset 2 us)]

theorem Kind.lineFeeds_reserved {entries : List ReservedEntry}
    (h : ∀ e ∈ entries, lineFeeds (entryText e) = 0) : lineFeeds (Kind.reserved entries).payload = 0 := by
  cases entries with
  | nil => decide
  | cons e entries =>
    rw [payload, lineFeeds_append, lineFeeds_intercalate (by decide) (by simpa using h)]
    · decide
    · nofun

theorem lineFeeds_reserved {ss : List (Signal Shape)} {stop : Token} (text : String) (more : List Token)
    (hd : Derives rule (.keyword .reserved :: reservedEntries) ss) (hstop : stop.kind = .punct .semicolon)
    (h : ∀ u ∈ (Signal.pieces ss).map (·.token), u.kind ≠ .string → lineFeeds u.text = 0) :
    lineFeeds (build .reserved text ((Signal.pieces ss).map (·.token) ++ stop :: more)).payload = 0 := by
  cases hd with
  | @token _ keyword _ entries _ hd =>
    have hcut := cut_append more (ne_punct_of_lacks lacks_reservedEntries hd List.mem_cons_self) hstop
    show lineFeeds (Kind.payload (.reserved ((commaRuns
      (cut .semicolon ((Signal.pieces entries).map (·.token) ++ stop :: more)).1).map entryOf))) = 0
    rw [hcut]
    -- Both sorts of entries are read off the runs between commas, which are derived one by one.
    have hruns {a : Expr} (ha : Lacks rule [.comma] a)
        (hd : Derives rule (Ebnf.sepBy a [.punct .comma]) entries)
        (hrun : ∀ x, Derives rule a x → (∃ t, (Signal.pieces x).map (·.token) = [t]) ∨
          ∀ u ∈ (Signal.pieces x).map (·.token), u.kind ≠ .string) :
        lineFeeds (Kind.reserved
          ((commaRuns ((Signal.pieces entries).map (·.token))).map entryOf)).payload = 0 := by
      obtain ⟨xs, -, hxs, hcommas⟩ := commaRuns_sepBy ha hd
      refine Kind.lineFeeds_reserved fun e he => ?_
      rw [hcommas, List.map_map] at he
      obtain ⟨x, hx, rfl⟩ := List.mem_map.1 he
      refine lineFeeds_entryOf (fun u hu => h u ?_) (hrun x (hxs x hx).1)
      obtain ⟨p, hp, rfl⟩ := List.mem_map.1 hu
      exact List.mem_map.2 ⟨p, List.mem_cons_of_mem _ ((hxs x hx).2 hp), rfl⟩
    cases hd with
    | alt ha hd =>
      rw [List.append_nil] at hd
      simp only [List.mem_cons, List.not_mem_nil, or_false] at ha
      rcases ha with rfl | rfl
      · refine hruns lacks_string hd fun x hx => .inl ?_
        cases hx with
        | token _ hx =>
          cases hx
          exact ⟨_, rfl⟩
      · refine hruns lacks_range hd fun x hx => .inr ?_
        refine Generates.kind_ne ⟨x, hx, rfl⟩ ?_
        simp [range, rangeEnd, Ebnf.opt, PhraseBars, Ebnf.Bars, AllBar, TokenKind.isInteger]

end payload

theorem lineFeeds_importFile (text : String) (us : List Token) :
    lineFeeds (Vocabulary.payload (build .importFile text us)) =
      lineFeeds (Kind.verbatim (build .importFile text us)) := by
  have hsuffix (m : Option ImportModifier) : lineFeeds (Kind.importSuffix m) = 0 := by
    rcases m with _ | m
    · decide
    · cases m <;> decide
  have hpath : lineFeeds " path=" = 0 := by decide
  obtain ⟨path, modifier, hkind⟩ : ∃ path modifier, build .importFile text us = .importFile path modifier :=
    ⟨_, _, rfl⟩
  rw [hkind]
  show lineFeeds (" path=" ++ path ++ Kind.importSuffix modifier) = lineFeeds path
  simp [hsuffix, hpath]

theorem lineFeeds_optionValue (text : String) (us : List Token) :
    lineFeeds (Vocabulary.payload (build .optionValue text us)) =
      lineFeeds (Kind.verbatim (build .optionValue text us)) := by
  have htext : lineFeeds " text=" = 0 := by decide
  show lineFeeds (" text=" ++ Token.valueText text us) = lineFeeds (Token.valueText text us)
  simp [htext]

theorem lineFeeds_version {ss : List (Signal Shape)} (text : String) (more : List Token)
    (h : Derives rule [.keyword .syntaxWord, .punct .eq, versionLiteral] ss) :
    lineFeeds (Vocabulary.payload (build .version text ((Signal.pieces ss).map (·.token) ++ more))) = 0 := by
  have hsound : (build .version text ((Signal.pieces ss).map (·.token) ++ more)).IsSound :=
    isSound_version _ h
  obtain ⟨version, hkind⟩ : ∃ version, build .version text ((Signal.pieces ss).map (·.token) ++ more) =
      .version version := ⟨_, rfl⟩
  rw [hkind] at hsound ⊢
  obtain rfl : version = "proto3" := hsound
  decide

theorem shownOnLine_leaf {l : Place} {shape : Shape} {first : Piece} {more : List Piece} (text : String)
    (hq : Fits rule layout l (.leaf shape first more)) :
    ShownOnLine Kind.verbatim ((first :: more).map (·.token))
      (build shape text ((first :: more).map (·.token))) := by
  intro h
  cases hq with
  | @leaf _ _ _ _ e tail hhead hend hd =>
    by_cases hshape : isSpelled shape = true
    · have hbars := phraseBars_append.2 ⟨bars_string_headAt hhead hshape, bars_string_leafEnd hend⟩
      exact lineFeeds_build hshape text fun u hu => h u hu ((Generates.of_derives hd).kind_ne hbars u hu)
    · obtain ⟨x, y, hxy, hx, hy⟩ := hd.split
      obtain ⟨ps, qs, hps, rfl, rfl⟩ := List.map_eq_append_iff.1 hxy
      rw [hps, List.map_append] at h ⊢
      rw [← Part.pieces_map_token (S := Shape) ps] at h ⊢
      cases shape with
      | version =>
        obtain rfl : e = [.keyword .syntaxWord, .punct .eq, versionLiteral] := by cases l <;> cases hhead; rfl
        exact lineFeeds_version text _ hx
      | importFile => exact lineFeeds_importFile text _
      | optionValue => exact lineFeeds_optionValue text _
      | reserved =>
        obtain rfl : e = .keyword .reserved :: reservedEntries := by cases l <;> cases hhead <;> rfl
        obtain rfl := Option.some.inj hend
        cases qs with
        | nil => cases hy
        | cons q qs =>
          cases hy with
          | token hq hy =>
            exact lineFeeds_reserved text _ hx (of_decide_eq_true hq) fun u hu =>
              h u (List.mem_append_left _ hu)
      | _ => exact absurd rfl hshape

theorem rendered (text : String) :
    Tells rule layout (fun shape => build shape text) (Language.schema.tokens text)
      (fun k l => k.place? = some l) fun _ us kind => ShownOnLine Kind.verbatim us kind where
  comment _ _ _ := rfl
  leaf _ hq _ := shownOnLine_leaf text hq
  block {k l shape first more opener body closer} _ hq _ rest h := by
    cases hq with
    | @block _ _ _ _ e _ _ _ _ _ hhead hd hdel _ _ _ _ =>
      have hshape : isSpelled shape = true := by cases shape <;> first | rfl | cases hdel
      refine lineFeeds_build hshape text fun u hu => h u (List.mem_append_left _ hu) ?_
      exact (Generates.of_derives hd).kind_ne (bars_string_headAt hhead hshape) u hu

end Schema

namespace TextFormat

def Kind.verbatim : Kind → String
  | .field _ value => value
  | _ => ""

theorem Kind.lineFeeds_label (kind : Kind) : lineFeeds (Vocabulary.label kind) = 0 := by
  cases kind <;> dsimp only [Vocabulary.label, label] <;> decide

theorem bars_string_fieldName : PhraseBars .string (Literal.fieldName : Expr) := by
  simp [Literal.fieldName, Ebnf.sepBy, PhraseBars, Ebnf.Bars, AllBar, TokenKind.isWord]

theorem lineFeeds_name {name us : List Token} (hname : Generates rule Literal.fieldName name) (hsub : name ⊆ us)
    (h : ∀ u ∈ us, u.kind ≠ .string → lineFeeds u.text = 0) :
    lineFeeds (" name=" ++ Token.concat name) = 0 := by
  have htext : lineFeeds " name=" = 0 := by decide
  have hplain (u : Token) (hu : u ∈ name) : lineFeeds u.text = 0 :=
    h u (hsub hu) (hname.kind_ne bars_string_fieldName u hu)
  rw [lineFeeds_append, htext, lineFeeds_concat hplain (List.Subset.refl name)]

theorem rendered (text : String) :
    Tells rule layout (fun shape => build shape text) (Language.textFormat.tokens text) (fun _ _ => True)
      fun _ us kind => ShownOnLine Kind.verbatim us kind where
  comment _ _ _ := rfl
  leaf {k l shape first more} _ hq hts h := by
    obtain ⟨name, colon, value, hus, rfl, hname, -, -⟩ := exists_field hq
    have hvalue : lineFeeds " value=" = 0 := by decide
    rw [hus] at h hts ⊢
    rw [build_field text hname fun t ht => isRegular_tokens (hts (List.mem_append_left _ ht))]
    show lineFeeds (" name=" ++ _ ++ " value=" ++ _) = lineFeeds (Token.valueText text value)
    rw [lineFeeds_append, lineFeeds_append, lineFeeds_name hname (by simp) h, hvalue]
    omega
  block {k l shape first more opener body closer} _ hq hts rest h := by
    cases hq with
    | @block _ _ _ _ e _ _ _ opening _ hhead hd hdel hopener _ _ _ =>
      cases shape with
      | field => cases hdel
      | message =>
        obtain rfl := Option.some.inj hhead
        obtain ⟨name, colon, hus, hname, hcolon⟩ :=
          Generates.append_inv (a := Literal.fieldName) (.of_derives hd)
        rw [hus] at h hts ⊢
        rw [build_message text hname fun t ht => isRegular_tokens (hts (List.mem_append_left _ ht))]
        exact lineFeeds_name hname (by simp) h

end TextFormat

section tree

variable [Vocabulary K]

theorem Outline.lineFeeds_line {kind : K} (hlabel : lineFeeds (Vocabulary.label kind) = 0) (depth : Nat)
    (range : Range) : lineFeeds (line depth kind range) = lineFeeds (Vocabulary.payload kind) := by
  have hspaces (n : Nat) : lineFeeds (String.ofList (List.replicate n ' ')) = 0 := by
    simp [lineFeeds, List.count_replicate]
  have htexts : lineFeeds "@" = 0 ∧ lineFeeds ".." = 0 := by decide
  simp [line, hspaces, hlabel, htexts, lineFeeds_repr]

/-- A tree is shown as a piece of text for each node, in pre-order, which ends with a line feed and has no
other but those of what is shown as it is written. -/
structure Tree.Rendered (verbatim : K → String) (t : Tree K) : Prop where
  length : (t.descendants root).length = t.size
  text : t.text = String.join ((t.descendants root).map fun id => t.line id ++ "\n")
  feeds : ∀ id n, t.node? id = some n → lineFeeds (t.line id) = lineFeeds (verbatim n.kind)
  one_each : lineFeeds t.text = t.size ↔
    ∀ id n, t.node? id = some n → lineFeeds (verbatim n.kind) = 0

theorem Tree.Owned.lineFeeds_text {t : Tree K} (ht : t.Owned) :
    lineFeeds t.text = ((t.descendants root).map fun id => lineFeeds (t.line id)).sum + t.size := by
  rw [ht.text_eq, lineFeeds_join, List.map_map, ← ht.length_descendants]
  generalize t.descendants root = ids
  induction ids with
  | nil => rfl
  | cons id ids ih =>
    have hfeed : lineFeeds "\n" = 1 := by decide
    simp only [List.map_cons, List.sum_cons, ih, Function.comp_apply, lineFeeds_append, hfeed, List.length_cons]
    omega

theorem Tree.Owned.rendered {verbatim : K → String} {t : Tree K} (ht : t.Owned)
    (hfeeds : ∀ id n, t.node? id = some n → lineFeeds (t.line id) = lineFeeds (verbatim n.kind)) :
    t.Rendered verbatim where
  length := ht.length_descendants
  text := ht.text_eq
  feeds := hfeeds
  one_each := by
    rw [ht.lineFeeds_text, Nat.add_eq_right, List.sum_eq_zero_iff]
    simp only [List.mem_map, forall_exists_index, and_imp, forall_apply_eq_imp_iff₂]
    refine ⟨fun h id n hn => ?_, fun h id hid => ?_⟩
    · rw [← hfeeds id n hn]
      exact h id (ht.linked.mem_descendants_root (lt_size_of_node? hn))
    · obtain ⟨n, hn⟩ := exists_node? (ht.linked.lt_size_of_mem_descendants ht.linked.nonempty hid)
      rw [hfeeds id n hn]
      exact h id n hn

theorem Reads.rendered {G : Type} {g : Grammar G S K} {goal : G} {rule : N → Phrase N S}
    {lang : G → Phrase N S} {follow : G → List (Symbol G S) → Prop} {blind : G → List Piece → Prop}
    {layout : Layout N S L} {place : L} {At : K → L → Prop} {closers : K → K → List Punct}
    {trails : K → K → Bool} {verbatim : K → String} {language : Language} {text : String} {tree : Tree K}
    (h : Reads g goal rule lang follow blind layout place)
    (hcloses : Closes layout (fun shape => g.build shape text) At closers trails)
    (htells : Tells rule layout (fun shape => g.build shape text) (language.tokens text) At
      fun _ us kind => ShownOnLine verbatim us kind)
    (hroot : At Vocabulary.root place)
    (hrootFeeds : lineFeeds (Vocabulary.payload (Vocabulary.root : K)) = lineFeeds (verbatim Vocabulary.root))
    (hlabel : ∀ kind : K, lineFeeds (Vocabulary.label kind) = 0)
    (hp : g.parse goal text (language.tokens text) = .ok tree) : tree.Rendered verbatim := by
  refine (Grammar.owned_of_parse hp).rendered fun id n hn => ?_
  rw [Tree.line, hn, Option.map_some, Option.getD_some, Outline.lineFeeds_line (hlabel n.kind)]
  rcases Nat.eq_zero_or_pos id with rfl | hpos
  · obtain ⟨_, _, -, -, -, hmade, -⟩ :=
      h.exists_tidy (htells.specifies hcloses (spaced_tokens language text)) hroot hp
    obtain ⟨n', hn', hkind, -⟩ := hmade.linked.shows_children hmade.outline
    obtain rfl := Option.some.inj (hn'.symm.trans hn)
    rw [hkind]
    exact hrootFeeds
  · obtain ⟨_, _, -, -, hshown⟩ := h.tells hcloses htells hroot hp id n hpos hn
    refine hshown fun u hu hstring => ?_
    obtain ⟨hin, hcomment⟩ := List.mem_filter.1 hu
    exact tokens_lineFeeds (List.mem_of_mem_filter hin) hstring (by simpa using hcomment)

end tree

namespace Document

def size : Document → Nat
  | .schema tree => tree.size
  | .textFormat tree => tree.size

def Rendered : Document → Prop
  | .schema tree => tree.Rendered Schema.Kind.verbatim
  | .textFormat tree => tree.Rendered TextFormat.Kind.verbatim

theorem rendered_of_parse {language : Language} {text : String} {d : Document}
    (h : parse language text = .ok d) : d.Rendered := by
  rcases parse_eq_ok h with ⟨tree, hp, -, rfl⟩ | ⟨tree, hp, -, rfl⟩
  · exact Schema.reads.rendered (Schema.closes text) (Schema.rendered text) rfl rfl
      Schema.Kind.lineFeeds_label hp
  · exact TextFormat.reads.rendered (TextFormat.closes text) (TextFormat.rendered text) trivial rfl
      TextFormat.Kind.lineFeeds_label hp

theorem rendered_reserved_line_feed :
    ∃ d, parse .schema "message A\x7breserved \"b\nc\";oneof d\x7bE f=1;\x7d\x7d" = .ok d ∧ d.Rendered := by
  obtain ⟨d, hd⟩ : ∃ d, parse .schema "message A\x7breserved \"b\nc\";oneof d\x7bE f=1;\x7d\x7d" = .ok d :=
    exists_ok_of_isOk (by rw [parse, Schema.parse, tokens_eq]; cbv)
  exact ⟨d, hd, rendered_of_parse hd⟩

/-- The path of an import takes up two lines. -/
theorem rendered_import_line_feed :
    ∃ d, parse .schema "import \"a\nb\";" = .ok d ∧ d.size = 2 ∧
      d.text = "Document@0..13\n  Import@0..13 path=\"a\nb\"\n" ∧ lineFeeds d.text = 3 := by
  obtain ⟨d, hd⟩ : ∃ d, d = Document.schema ⟨#[⟨.document, ⟨0, 13⟩, none, [1]⟩,
    ⟨.importFile "\"a\nb\"" none, ⟨0, 13⟩, some 0, []⟩]⟩ := ⟨_, rfl⟩
  have htext : d.text = "Document@0..13\n  Import@0..13 path=\"a\nb\"\n" := by
    rw [hd]
    cbv
  refine ⟨d, ?_, hd ▸ rfl, htext, htext ▸ by decide⟩
  rw [hd]
  cbv

end Document
end ProtoSyntax
