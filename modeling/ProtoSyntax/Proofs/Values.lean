import ProtoSyntax.Proofs.Names
import ProtoSyntax.Proofs.Schema.Values

/-!
# Stored values

The values that are stored with the nodes of a tree as text are pieces of the text, and each of them is
read by itself as it was read there. Only of several strings another one is made.
-/

namespace ProtoSyntax
open Piece (flatten)
open String (utf8Len)

namespace TextFormat

theorem isValue_of_generates {us : List Token} (h : Generates rule plainValue us) : IsValue us := by
  obtain ⟨a, ha, h⟩ := h.alt_inv
  simp only [List.mem_cons, List.not_mem_nil, or_false] at ha
  rcases ha with rfl | rfl | rfl
  · exact h.isValue_stringRun
  · exact h.isValue_scalar
  · exact Generates.isValue_between (e := [.opt (Literal.values Nonterminal.literal)]) h

def isColon (t : Token) : Bool := t.kind = .punct .colon

theorem not_isColon_of_mem {name : List Token} (h : Generates rule Literal.fieldName name) :
    ∀ t ∈ name, (!isColon t) = true := by
  intro t ht
  simpa [isColon] using h.ne_punct (lacks_fieldName (by decide)) (List.mem_singleton_self .colon) t ht

def valueTokens (us : List Token) : List Token := (us.dropWhile (!isColon ·)).drop 1

theorem valueTokens_append {name value : List Token} {colon : Token}
    (h : Generates rule Literal.fieldName name) (hcolon : colon.kind = .punct .colon) :
    valueTokens (name ++ colon :: value) = value := by
  rw [valueTokens, List.dropWhile_append_of_pos (not_isColon_of_mem h),
    List.dropWhile_cons_of_neg (by simp [isColon, hcolon])]
  rfl

section node

variable {text name value : String} {tree : Tree Kind} {id : Nat} {n : Node Kind}

theorem exists_value_of_node (h : parse text = .ok tree) (hn : tree.node? id = some n)
    (hkind : n.kind = .field name value) :
    ∃ lead vs after, Language.textFormat.tokens text = lead ++ flatten (vs ++ after) ∧
      Generates rule plainValue (vs.map (·.token)) ∧ Token.valueText text (vs.map (·.token)) = value ∧
      valueTokens (writtenIn (Language.textFormat.tokens text) n.range) = vs.map (·.token) ∧
      lastStop 0 vs = n.range.stop := by
  obtain ⟨l, shape, first, more, lead, after, htokens, hfit, hbuild, hrange, hwritten⟩ :=
    reads.exists_leaf h hn (by rw [hkind]; exact Kind.noConfusion)
      (by rw [hkind]; exact Kind.noConfusion) fun shape us hbuild => by
        cases shape with
        | field => rfl
        | message => cases hbuild.trans hkind
  obtain ⟨us, colon, vs, hus, rfl, hname, hcolon, hvalue⟩ := exists_field hfit
  rw [hus] at hwritten hbuild
  obtain ⟨xs, ys, hpieces, rfl, hys⟩ := List.map_eq_append_iff.1 hus
  obtain ⟨c, vs, rfl, rfl, rfl⟩ := List.map_eq_cons_iff.1 hys
  refine ⟨lead ++ flatten xs ++ c.token :: c.comments, vs, after, ?_, hvalue, ?_, ?_, ?_⟩
  · rw [htokens, hpieces]
    simp
  · have hregular : ∀ t ∈ xs.map (·.token), t.IsRegular := by
      intro t ht
      have hwritten : t ∈ writtenIn (Language.textFormat.tokens text) n.range :=
        hwritten ▸ List.mem_append_left _ ht
      exact isRegular_tokens (List.mem_of_mem_filter (List.mem_of_mem_filter hwritten))
    have hfield := (build_field text hname hregular).symm.trans (hbuild.trans hkind)
    exact (Kind.field.inj hfield).2
  · rw [hwritten, valueTokens_append hname hcolon]
  · rw [hrange, hpieces, lastStop_append, lastStop_cons]
    cases vs with
    | nil => cases isValue_of_generates hvalue with
      | strings hstrings => exact absurd hstrings.1 (by simp)
    | cons v vs => rw [lastStop_cons, lastStop_cons]

end node

theorem lexeme_name (more : List Char) :
    Language.textFormat.lexeme 'x' ([] ++ ':' :: more) = (.identifier, 0) := by
  have hkind : wordKind (String.ofList ['x']) = .identifier := by decide
  exact congrArg (Prod.mk · 0) hkind

theorem lexeme_colon (more : List Char) :
    Language.textFormat.lexeme ':' ([] ++ ' ' :: more) = (.punct .colon, 0) := rfl

theorem tokens_field (value : String) : Language.textFormat.tokens ("x: " ++ value) =
    ⟨.identifier, 0, "x"⟩ :: ⟨.punct .colon, 1, ":"⟩ ::
      (Language.textFormat.tokens value).map (·.shift 3) := by
  have hcuts := (tokens_cuts .textFormat value).shift 3
  have hcolon :=
    @Cuts.token Language.textFormat.lexeme 1 ':' [] (' ' :: value.toList) _ rfl rfl (.blank rfl hcuts)
  have hall := @Cuts.token Language.textFormat.lexeme 0 'x' [] (':' :: ' ' :: value.toList) _ rfl rfl hcolon
  rw [lexeme_name, lexeme_colon] at hall
  have htext := tokens_cuts .textFormat ("x: " ++ value)
  rw [String.toList_append] at htext
  exact htext.unique hall

theorem exists_field_alone {value : String} {ps : List Piece} (hw : Whole .textFormat value ps)
    (hd : Derives rule plainValue (ps.map .token)) :
    ∃ alone field m, parse ("x: " ++ value) = .ok alone ∧ alone.declarations Tree.root = [field] ∧
      alone.node? field = some m ∧ m.kind = .field "x" value := by
  let name : Piece := .ofToken ⟨.identifier, 0, "x"⟩ rfl
  let colon : Piece := .ofToken ⟨.punct .colon, 1, ":"⟩ rfl
  let parts : List (Part Shape) := [.leaf .field name (colon :: ps.map (·.shift 3))]
  have hname : Derives rule Literal.fieldName [.token name] :=
    .alt List.mem_cons_self (.token rfl .nil)
  have hvalue : Derives rule plainValue ((ps.map (·.shift 3)).map .token) :=
    hd.congr_pieces (Piece.map_bare_map_shift 3 ps).symm
  have hfield : Derives rule document (Part.signals parts) := by
    have hseparator : Derives rule Literal.separator [] := .alt List.mem_cons_self .nil
    have hall := (hname.append (@derives_leafRest colon _ rfl hvalue)).append hseparator
    rw [Part.signals_leaf]
    simpa using document_cons (.mark .begins hall) (.stop .nil)
  have htokens :
      Language.textFormat.tokens ("x: " ++ value) = [] ++ flatten (Part.listPieces parts) := by
    rw [tokens_field, hw.tokens, ← Piece.flatten_map_shift, Part.listPieces_leaf]
    rfl
  obtain ⟨alone, halone, hmade⟩ := reads.parse_complete Token.isComment_of_mem_nil
    (htokens ▸ ordered_tokens .textFormat ("x: " ++ value)) hfield fun _ _ _ _ _ _ => id
  obtain ⟨field, hfield, ho⟩ := Tree.Declares.exists_of_singleton
    (hmade.declares rfl (closes ("x: " ++ value)).isComment_build)
  obtain ⟨m, hm, hkind, -⟩ := hmade.linked.shows_children ho
  refine ⟨alone, field, m, by rw [parse, htokens, halone], hfield, hm, hkind.trans ?_⟩
  have hwhole : ("x: " ++ value).toList = "x: ".toList ++ value.toList ++ [] := by simp
  have htext : Token.valueText ("x: " ++ value) ((ps.map (·.shift 3)).map (·.token)) = value :=
    hw.valueText_shift hwhole
  have hregular : ∀ t ∈ [name.token], t.IsRegular := List.forall_mem_singleton.2 (by rintro _ ⟨⟩)
  have hbuild := @build_field [name.token] ((ps.map (·.shift 3)).map (·.token)) colon.token
    ("x: " ++ value) (@Generates.of_derives _ _ _ _ [name] hname) hregular
  rwa [htext] at hbuild

def ReadsBack (text : String) (tree : Tree Kind) : Prop :=
  ∀ id n name value, tree.node? id = some n → n.kind = .field name value →
    ¬ AreStrings (valueTokens (writtenIn (Language.textFormat.tokens text) n.range)) →
    (∃ before after, text = before ++ value ++ after ∧
      (before ++ value).utf8ByteSize = n.range.stop) ∧
    ∃ alone field m, parse ("x: " ++ value) = .ok alone ∧ alone.declarations Tree.root = [field] ∧
      alone.node? field = some m ∧ m.kind = .field "x" value

theorem values_readBack {text : String} {tree : Tree Kind} (h : parse text = .ok tree) :
    ReadsBack text tree := by
  intro id n name value hn hkind hs
  obtain ⟨lead, vs, after, htokens, hgenerates, hvalue, hwritten, hstop⟩ := exists_value_of_node h hn hkind
  rw [hwritten] at hs
  obtain ⟨pre, post, ps, htext, hend, hw, hbare⟩ :=
    Whole.exists_of_isValue htokens (isValue_of_generates hgenerates) hs
  rw [hvalue] at htext hend hw
  obtain ⟨qs, hd, hqs⟩ := exists_pieces rfl hgenerates
  have hpieces : Derives rule plainValue (ps.map .token) :=
    hd.congr_pieces ((Piece.map_bare_congr hqs).trans hbare.symm)
  refine ⟨⟨String.ofList pre, String.ofList post, ?_, ?_⟩, exists_field_alone hw hpieces⟩
  · rw [← String.toList_inj, htext]
    simp
  · rw [← hstop, ← hend, ← String.utf8Len_toList]
    simp

end TextFormat

namespace Document

/-- The values stored in a document are pieces of its text that can be read again, but for those made of
several strings. -/
def ReadsBack (text : String) : Document → Prop
  | .schema tree => Schema.ReadsBack text tree
  | .textFormat tree => TextFormat.ReadsBack text tree

theorem readsBack_of_parse {language : Language} {text : String} {d : Document}
    (h : parse language text = .ok d) : d.ReadsBack text := by
  rcases parse_eq_ok h with ⟨tree, hp, -, rfl⟩ | ⟨tree, hp, -, rfl⟩
  · exact Schema.values_readBack hp
  · exact TextFormat.values_readBack hp

theorem readsBack_with_comments_inside :
    (∃ tree n alone option,
      parse .schema "option a=\x7bb/*c*/:'d' 'e'f<>\x7d//g\n;" = .ok (.schema tree) ∧
      tree.node? 4 = some n ∧ n.kind = .optionValue "\x7bb/*c*/:'d' 'e'f<>\x7d" ∧
      Schema.parse "option x = \x7bb/*c*/:'d' 'e'f<>\x7d;" = .ok alone ∧
      Schema.options alone Tree.root = [option] ∧
      Schema.optionValue? alone option = some "\x7bb/*c*/:'d' 'e'f<>\x7d") ∧
    ∃ tree n alone field m,
      parse .textFormat "a:[-inf,#b\n<>]c:'d' 'e'" = .ok (.textFormat tree) ∧
      tree.node? 2 = some n ∧ n.kind = .field "a" "[-inf,#b\n<>]" ∧
      TextFormat.parse "x: [-inf,#b\n<>]" = .ok alone ∧ alone.declarations Tree.root = [field] ∧
      alone.node? field = some m ∧ m.kind = .field "x" "[-inf,#b\n<>]" := by
  refine ⟨?_, ?_⟩
  · obtain ⟨tree, n, htree, hn, hkind, hrange⟩ := @exists_node_of_toOption _ _
      (Schema.parse "option a=\x7bb/*c*/:'d' 'e'f<>\x7d//g\n;") 4
      (.optionValue "\x7bb/*c*/:'d' 'e'f<>\x7d") ⟨9, 28⟩
      (by rw [Schema.parse, tokens_eq]; cbv)
    have hd : parse .schema "option a=\x7bb/*c*/:'d' 'e'f<>\x7d//g\n;" = .ok (.schema tree) := by
      rw [parse, htree]
      rfl
    have hstrings : decide (AreStrings (writtenIn
        (Language.schema.tokens "option a=\x7bb/*c*/:'d' 'e'f<>\x7d//g\n;") ⟨9, 28⟩)) = false := by
      rw [tokens_eq]
      cbv
    obtain ⟨-, alone, option, halone, hoptions, hoption⟩ :=
      readsBack_of_parse hd 4 n _ hn hkind (hrange ▸ of_decide_eq_false hstrings)
    exact ⟨tree, n, alone, option, hd, hn, hkind, halone, hoptions, hoption⟩
  · obtain ⟨tree, n, htree, hn, hkind, hrange⟩ := @exists_node_of_toOption _ _
      (TextFormat.parse "a:[-inf,#b\n<>]c:'d' 'e'") 2 (.field "a" "[-inf,#b\n<>]") ⟨0, 14⟩
      (by rw [TextFormat.parse, tokens_eq]; cbv)
    have hd : parse .textFormat "a:[-inf,#b\n<>]c:'d' 'e'" = .ok (.textFormat tree) := by
      rw [parse, htree]
      rfl
    have hstrings : decide (AreStrings (TextFormat.valueTokens (writtenIn
        (Language.textFormat.tokens "a:[-inf,#b\n<>]c:'d' 'e'") ⟨0, 14⟩))) = false := by
      rw [tokens_eq]
      cbv
    obtain ⟨-, alone, field, m, halone, hdeclarations, hm, hfield⟩ :=
      readsBack_of_parse hd 2 n _ _ hn hkind (hrange ▸ of_decide_eq_false hstrings)
    exact ⟨tree, n, alone, field, m, hd, hn, hkind, halone, hdeclarations, hm, hfield⟩

end Document
end ProtoSyntax
