import ProtoSyntax.Proofs.CutValues
import ProtoSyntax.Proofs.Parsing.Completion
import ProtoSyntax.Proofs.Schema.WellFormed
import ProtoSyntax.Proofs.Semicolons
import ProtoSyntax.Proofs.Turns

/-!
# Values of options read again

The value of an option is read again as it was when it is put behind the name of an option by itself.
The goals that read it are those of literals, which are blind for nothing, so that the comments inside
of the value are in nobody's way.
-/

namespace ProtoSyntax.Schema
open Ebnf (alt)
open Piece (flatten)
open String (utf8Len)

def plainValue : Expr := [alt [Literal.stringRun, Literal.scalar, Literal.message .literal]]

theorem isValue_of_generates {us : List Token} (h : Generates rule plainValue us) : IsValue us := by
  obtain ⟨a, ha, h⟩ := h.alt_inv
  simp only [List.mem_cons, List.not_mem_nil, or_false] at ha
  rcases ha with rfl | rfl | rfl
  · exact h.isValue_stringRun
  · exact h.isValue_scalar
  · obtain ⟨a, ha, h⟩ := h.alt_inv
    simp only [List.mem_cons, List.not_mem_nil, or_false] at ha
    rcases ha with rfl | rfl
    · exact Generates.isValue_between (e := [.star [.ref (Nonterminal.literal .field)]]) h
    · exact Generates.isValue_between (e := [.star [.ref (Nonterminal.literal .field)]]) h

theorem eq_optionValue_of_build {shape : Shape} {text value : String} {us : List Token}
    (h : build shape text us = .optionValue value) : shape = .optionValue := by
  cases shape <;> first | rfl | cases h

section node

variable {text value : String} {tree : Tree Kind} {id : Nat} {n : Node Kind}

theorem exists_value_of_node (h : parse text = .ok tree) (hn : tree.node? id = some n)
    (hkind : n.kind = .optionValue value) :
    ∃ lead vs after, Language.schema.tokens text = lead ++ flatten (vs ++ after) ∧
      Derives rule plainValue (vs.map .token) ∧ Token.valueText text (vs.map (·.token)) = value ∧
      writtenIn (Language.schema.tokens text) n.range = vs.map (·.token) ∧
      Token.slice text (vs.map (·.token)) =
        String.Pos.Raw.extract text ⟨n.range.start⟩ ⟨n.range.stop⟩ := by
  obtain ⟨l, shape, first, more, lead, after, htokens, hfit, hbuild, hrange, hwritten⟩ :=
    reads.exists_leaf h hn (by rw [hkind]; exact Kind.noConfusion)
      (by rw [hkind]; exact Kind.noConfusion) fun shape us hbuild => by
        obtain rfl := eq_optionValue_of_build (hbuild.trans hkind)
        rfl
  obtain rfl := eq_optionValue_of_build (hbuild.trans hkind)
  refine ⟨lead, first :: more, after, htokens, ?_, Kind.optionValue.inj (hbuild.trans hkind),
    hwritten, ?_⟩
  · cases hfit with
    | @leaf _ _ _ _ e tail hhead hend hd =>
      obtain rfl := Option.some.inj hend
      have he : e = plainValue := by
        cases l <;> first | exact (Option.some.inj hhead).symm | cases hhead
      rwa [he, List.append_nil] at hd
  · rw [Token.slice_pieces, hrange]

end node

theorem lexeme_option (more : List Char) :
    Language.schema.lexeme 'o' (['p', 't', 'i', 'o', 'n'] ++ ' ' :: more) = (.keyword .option, 5) := by
  have hkind : wordKind (String.ofList ['o', 'p', 't', 'i', 'o', 'n']) = .keyword .option := by
    decide +kernel
  exact congrArg (Prod.mk · 5) hkind

theorem lexeme_name (more : List Char) :
    Language.schema.lexeme 'x' ([] ++ ' ' :: more) = (.identifier, 0) := by
  have hkind : wordKind (String.ofList ['x']) = .identifier := by decide
  exact congrArg (Prod.mk · 0) hkind

theorem lexeme_eq (more : List Char) :
    Language.schema.lexeme '=' ([] ++ ' ' :: more) = (.punct .eq, 0) := rfl

theorem tokens_option {value : String} (ht : ∀ t ∈ Language.schema.tokens value, t.isTerminated = true)
    (hlast : ∀ t ∈ (Language.schema.tokens value).getLast?, t.isComment = false) :
    Language.schema.tokens ("option x = " ++ value ++ ";") =
      ⟨.keyword .option, 0, "option"⟩ :: ⟨.identifier, 7, "x"⟩ :: ⟨.punct .eq, 9, "="⟩ ::
        ((Language.schema.tokens value).map (·.shift 11) ++
          [⟨.punct .semicolon, 11 + utf8Len value.toList, ";"⟩]) := by
  have hcuts := (Cuts.append_semicolon (tokens_cuts .schema value) ht hlast).shift 11
  rw [List.map_append, Nat.zero_add] at hcuts
  have hall : Cuts Language.schema.lexeme 0 ('o' :: ['p', 't', 'i', 'o', 'n'] ++ ' ' :: ('x' :: [] ++ ' ' ::
      ('=' :: [] ++ ' ' :: (value.toList ++ [';'])))) _ :=
    .token rfl rfl (.blank rfl (.token rfl rfl (.blank rfl (.token rfl rfl (.blank rfl hcuts)))))
  rw [lexeme_option, lexeme_name, lexeme_eq] at hall
  have htext := tokens_cuts .schema ("option x = " ++ value ++ ";")
  rw [String.toList_append, String.toList_append, List.append_assoc] at htext
  exact htext.unique hall

def literalTurn : Goal → Turn
  | .literal _ => some
  | _ => fun _ => none

def ReadsValue (s : Symbol Goal Shape) : Prop :=
  ∀ g, s = .goal g → g = .optionValue ∨ ∃ l, g = .literal l

theorem readsValue_of_steady {n : Symbols} (h : Steady literalTurn n) : ∀ s ∈ n, ReadsValue s := by
  rintro _ hs g rfl
  have hturn := congrFun (h _ hs) ⟨false, 0⟩
  cases g with
  | literal l => exact .inr ⟨l, rfl⟩
  | _ => cases hturn

theorem readsValue_of_react {g : Goal} {ahead : List Token} {role : Role Shape} {next : Symbols}
    (hg : ReadsValue (.goal g)) (h : react g ahead = .take role next) : ∀ s ∈ next, ReadsValue s := by
  rcases hg g rfl with rfl | ⟨l, rfl⟩
  · obtain ⟨-, hnext⟩ := Reaction.takeOrRefuse_eq_take.1 h
    obtain ⟨m, hm, rfl⟩ := Option.map_eq_some_iff.1 hnext
    obtain ⟨kind, -, hm⟩ := Option.bind_eq_some_iff.1 hm
    have hsteady : Steady literalTurn m := by
      rcases Literal.or_of_disjoint.1 hm with hm | hm
      · exact Literal.steady_of_afterMessageStart? (fun _ => rfl) hm
      · exact Literal.steady_of_afterScalarStart? (fun _ => rfl) hm
    refine List.forall_mem_append.2 ⟨readsValue_of_steady hsteady, ?_⟩
    rintro _ hs g rfl
    cases List.mem_singleton.1 hs
  · have hturn (l : Literal.Goal) : literalTurn (.literal l) = some := rfl
    exact readsValue_of_steady (Literal.react_eq_take hturn h).2

theorem readsValue_semicolonCloses : ∀ s ∈ [.goal .optionValue, semicolonCloses], ReadsValue s := by
  refine List.forall_mem_cons.2 ⟨fun g hg => .inl (Symbol.goal.inj hg).symm, ?_⟩
  rintro _ hs g rfl
  cases List.mem_singleton.1 hs

theorem not_blind_of_readsValue {g : Goal} (h : ReadsValue (.goal g)) (ps : List Piece) :
    ¬ blind g ps := by
  rcases h g rfl with rfl | ⟨l, rfl⟩ <;> exact id

theorem exists_pursuit_value {vs : List Piece} {closer : Piece}
    (hd : Derives rule plainValue (vs.map .token)) (hcloser : closer.kind = .punct .semicolon) :
    ∃ first more, vs = first :: more ∧
      Pursuit react [.goal .optionValue, semicolonCloses] (vs ++ [closer])
        ((Part.leaf .optionValue first more).moves ++ [.take closer .closes]) [] := by
  obtain ⟨first, more, hmore⟩ := Yields.exists_first isPlainPhrase_rule hd rfl rfl
  obtain rfl : vs = first :: more := List.map_injective_iff.2 (fun _ _ => Signal.token.inj) hmore
  have hclear : Clear rule (· = .string) (stackPhrase phrase [semicolonCloses]) :=
    .mark (.token fun k _ hk hstring => by subst hstring; cases hk)
  have hclosed :
      Derives rule (stackPhrase phrase [semicolonCloses]) (Move.take closer Role.closes).signals :=
    .mark _ (.token (by simp [Terminal.accepts, hcloser]) .nil)
  have hvalue : Derives rule optionValue (Part.signals [.leaf .optionValue first more]) := by
    rw [Part.signals_leaf]
    exact .mark _ (hd.append (.mark _ .nil))
  obtain ⟨ms, hp, hms⟩ := (Guided.foresight guided).pursuit [.goal .optionValue, semicolonCloses] _
    (hvalue.append hclosed) ⟨⟨hclear, trivial⟩, trivial⟩ fun g l ts hreaches _ _ =>
      not_blind_of_readsValue (hreaches.forall_mem readsValue_of_react readsValue_semicolonCloses _
        List.mem_cons_self) _
  refine ⟨first, more, rfl, ?_⟩
  obtain rfl : ms = (Part.leaf .optionValue first more).moves ++ [.take closer .closes] :=
    Move.flatMap_signals_injective (by simpa [Part.signals, Part.listMoves] using hms)
  simpa [Part.listPieces, Part.pieces, Part.pieces_signals, Move.signals, Role.marks, Signal.pieces]
    using hp

theorem pursuit_option {word name opener closer : Piece} {first : Piece} {more : List Piece}
    (hword : word.kind = .keyword .option) (hname : name.kind = .identifier)
    (hopener : opener.kind = .punct .eq)
    (h : Pursuit react [.goal .optionValue, semicolonCloses] (first :: more ++ [closer])
      ((Part.leaf .optionValue first more).moves ++ [.take closer .closes]) []) :
    Pursuit react [.goal .declarations] (word :: name :: opener :: (first :: more ++ [closer]))
      (Part.listMoves
        [.block .option word [name] opener [.leaf .optionValue first more] (some closer)]) [] := by
  have hend : Pursuit react [.goal .declarations] [] [] [] := .skip rfl (.done [])
  have hopened : Pursuit react (optionTail .option ++ [semicolonCloses, .goal .declarations])
      (opener :: (first :: more ++ [closer])) (.take opener (.opens .option) ::
        ((Part.leaf .optionValue first more).moves ++ [.take closer .closes] ++ [])) [] :=
    .token (by simp [Terminal.accepts, hopener]) (h.append hend)
  have hskip : react (.moreName "option name") (flatten (opener :: (first :: more ++ [closer]))) = .skip := by
    simp [react, show opener.token.kind = _ from hopener]
  have hname' : react (.optionName .plain) (flatten (name :: opener :: (first :: more ++ [closer]))) =
      .take .plain [.goal (.moreName "option name")] := by
    simp [react, show name.token.kind = _ from hname, afterOptionNameStart?, TokenKind.isWord]
  have hword' : react .declarations
      (flatten (word :: name :: opener :: (first :: more ++ [closer]))) =
        .take .begins (optionStatement ++ [.goal .declarations]) := by
    simp [react, show word.token.kind = _ from hword, afterDeclarationStart?]
  have hall := Pursuit.take hword' (.take hname' (.skip hskip hopened))
  simpa [Part.listMoves, Part.moves, Part.plain, Part.ending] using hall

theorem options_eq_filter (t : Tree Kind) (id : Nat) :
    options t id = (t.declarations id).filter fun c => (t.node? c).any (·.kind.isOption) := by
  rw [options, Tree.declarations, List.filter_filter]
  refine List.filter_congr fun c _ => ?_
  cases t.node? c with
  | none => rfl
  | some n =>
    cases hk : n.kind <;> simp [hk, Kind.isOption, Vocabulary.isComment]

theorem exists_option_of_made {text : String} {tree : Tree Kind} {word opener first : Piece}
    {name more : List Piece} {closer : Option Piece}
    (h : Reads.Made grammar text []
      [.block .option word name opener [.leaf .optionValue first more] closer] tree) :
    ∃ option, options tree Tree.root = [option] ∧
      optionValue? tree option = some (Token.valueText text ((first :: more).map (·.token))) := by
  obtain ⟨option, hoption, ho⟩ :=
    Tree.Declares.exists_of_singleton (h.declares rfl (closes text).isComment_build)
  obtain ⟨n, hn, hkind, -⟩ := h.linked.shows_children ho
  refine ⟨option, ?_, ?_⟩
  · have hoption' : n.kind.isOption = true := hkind ▸ rfl
    rw [options_eq_filter, hoption, List.filter_cons, hn, Option.any_some, if_pos hoption',
      List.filter_nil]
  · let value : Outline Kind := .node (build .optionValue text ((first :: more).map (·.token)))
      ⟨first.token.start, lastStop 0 (first :: more)⟩ []
    have hchildren : (commentNode opener.comments ++ value :: commentForest (first :: more)).filter
        (fun c => !Vocabulary.isComment c.kind) = [value] := (closes text).filter_value.1
    rw [Part.listForest_leaf] at ho
    obtain ⟨_, _, -, -, -, hvalue⟩ := valued_of_outline h.linked ho hchildren rfl
    exact hvalue

theorem tokens_option_of_whole {value : String} {ps : List Piece} (hw : Whole .schema value ps)
    (ht : ∀ p ∈ ps, p.token.isTerminated = true) :
    Language.schema.tokens ("option x = " ++ value ++ ";") =
      ⟨.keyword .option, 0, "option"⟩ :: ⟨.identifier, 7, "x"⟩ :: ⟨.punct .eq, 9, "="⟩ ::
        (flatten (ps.map (·.shift 11)) ++ [⟨.punct .semicolon, 11 + utf8Len value.toList, ";"⟩]) := by
  obtain ⟨xs, p, hps, hp⟩ := hw.ends
  have hlast : (Language.schema.tokens value).getLast? = some p.token := by
    rw [hw.tokens, hps]
    simp [hp]
  have hterminated := @Language.isTerminated_of_getLast? .schema value fun t hmem => by
    rw [hlast] at hmem
    exact Option.some.inj hmem ▸ ht p (by simp [hps])
  rw [Piece.flatten_map_shift, ← hw.tokens]
  refine tokens_option hterminated fun t hmem => ?_
  rw [hlast] at hmem
  exact Option.some.inj hmem ▸ p.token_isComment

/-- A value, put behind the name of an option, is read as the value of this option. -/
theorem exists_option {value : String} {ps : List Piece} (hw : Whole .schema value ps)
    (hd : Derives rule plainValue (ps.map .token)) (ht : ∀ p ∈ ps, p.token.isTerminated = true) :
    ∃ alone option, parse ("option x = " ++ value ++ ";") = .ok alone ∧
      options alone Tree.root = [option] ∧ optionValue? alone option = some value := by
  have htokens := tokens_option_of_whole hw ht
  have hwhole : ("option x = " ++ value ++ ";").toList =
      "option x = ".toList ++ value.toList ++ [';'] := by simp
  generalize "option x = " ++ value ++ ";" = text at htokens hwhole ⊢
  let word : Piece := .ofToken ⟨.keyword .option, 0, "option"⟩ rfl
  let name : Piece := .ofToken ⟨.identifier, 7, "x"⟩ rfl
  let opener : Piece := .ofToken ⟨.punct .eq, 9, "="⟩ rfl
  let closer : Piece := .ofToken ⟨.punct .semicolon, 11 + utf8Len value.toList, ";"⟩ rfl
  have hflatten : Language.schema.tokens text =
      [] ++ flatten (word :: name :: opener :: (ps.map (·.shift 11) ++ [closer])) := by
    rw [htokens]
    simp [word, name, opener, closer, Piece.ofToken]
  have hshifted : Derives rule plainValue ((ps.map (·.shift 11)).map .token) :=
    hd.congr_pieces (Piece.map_bare_map_shift 11 ps).symm
  obtain ⟨first, more, hmore, hvalue⟩ := @exists_pursuit_value _ closer hshifted rfl
  have htext : Token.valueText text ((first :: more).map (·.token)) = value :=
    hmore ▸ hw.valueText_shift hwhole
  rw [hmore] at hflatten hvalue
  have hpursuit := @pursuit_option word name opener closer first more rfl rfl rfl hvalue
  have hordered := hflatten ▸ ordered_tokens .schema text
  obtain ⟨alone, halone, hlinked, houtline⟩ :=
    @Grammar.parse_of_pursuit _ _ _ _ grammar _ text _ _ _ _ Token.isComment_of_mem_nil hordered hpursuit
  obtain ⟨option, hoptions, hoption⟩ := exists_option_of_made ⟨hlinked, houtline⟩
  exact ⟨alone, option, by rw [parse, hflatten, halone], hoptions, htext ▸ hoption⟩

theorem isTerminated_of_mem {text : String} {tree : Tree Kind} (h : parse text = .ok tree) {t : Token}
    (ht : t ∈ Language.schema.tokens text) (hc : t.isComment = false) : t.isTerminated = true := by
  by_contra hterminated
  obtain ⟨before, after, htokens⟩ := List.append_of_mem ht
  have hcuts := tokens_cuts .schema text
  rw [htokens] at hcuts
  obtain rfl := hcuts.eq_nil_of_not_isTerminated (Bool.eq_false_of_not_eq_true hterminated)
  have hstring := kind_ne_string_of_getLast? h t (by simp [htokens])
  refine hterminated (isTerminated_of_ne hstring (fun hk => ?_) _)
  rw [Token.isComment, hk] at hc
  cases hc

theorem isTerminated_of_bare_eq {text : String} {tree : Tree Kind} {lead : List Token}
    {vs after ps : List Piece} (h : parse text = .ok tree)
    (htokens : Language.schema.tokens text = lead ++ flatten (vs ++ after))
    (hbare : ps.map (·.bare) = vs.map (·.bare)) : ∀ p ∈ ps, p.token.isTerminated = true := by
  intro p hp
  obtain ⟨q, hq, he⟩ := List.mem_map.1 (hbare ▸ List.mem_map_of_mem hp : p.bare ∈ vs.map (·.bare))
  have hmem : q.token ∈ Language.schema.tokens text := by
    rw [htokens]
    exact List.mem_append_right _ (Piece.map_token_subset_flatten _
      (List.mem_map_of_mem (List.mem_append_left after hq)))
  have hterminated := isTerminated_of_mem h hmem q.token_isComment
  rwa [Token.isTerminated, show q.token.kind = p.token.kind from Piece.kind_eq_of_bare_eq he,
    Piece.text_eq_of_bare_eq he] at hterminated

/-- The values of options that are not several strings stand in the text as they are, and each of them is
the value of an option again in a file of its own. -/
def ReadsBack (text : String) (tree : Tree Kind) : Prop :=
  ∀ id n value, tree.node? id = some n → n.kind = .optionValue value →
    ¬ AreStrings (writtenIn (Language.schema.tokens text) n.range) →
    value = String.Pos.Raw.extract text ⟨n.range.start⟩ ⟨n.range.stop⟩ ∧
    ∃ alone option, parse ("option x = " ++ value ++ ";") = .ok alone ∧
      options alone Tree.root = [option] ∧ optionValue? alone option = some value

theorem values_readBack {text : String} {tree : Tree Kind} (h : parse text = .ok tree) :
    ReadsBack text tree := by
  intro id n value hn hkind hs
  obtain ⟨lead, vs, after, htokens, hd, hvalue, hwritten, hslice⟩ := exists_value_of_node h hn hkind
  rw [hwritten] at hs
  have hisValue := isValue_of_generates (.of_derives hd)
  obtain ⟨pre, post, ps, -, -, hw, hbare⟩ := Whole.exists_of_isValue htokens hisValue hs
  obtain ⟨_, _, -, -, htext⟩ := hisValue.exists_last hs
  rw [hvalue] at hw
  exact ⟨by rw [← hvalue, htext, hslice],
    exists_option hw (hd.congr_pieces hbare.symm) (isTerminated_of_bare_eq h htokens hbare)⟩

end ProtoSyntax.Schema
