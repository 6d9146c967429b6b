import ProtoSyntax.Proofs.Literal.Readers
import ProtoSyntax.Proofs.NodeRanges
import ProtoSyntax.Proofs.Parsing.Exchange
import ProtoSyntax.Proofs.Parsing.Skeleton
import ProtoSyntax.Proofs.TextFormat.Reading

/-!
# What text-format data denotes

The fields that tokens spell, each with its node: a message holds the fields between its
delimiters, any other field its value as text. A text is read exactly if its tokens, comments left
out, spell fields, and then the tree is the one of these fields.
-/

namespace ProtoSyntax.TextFormat
open Ebnf (opt star alt)
open Piece (flatten)

def plainValue : Expr :=
  [alt [Literal.stringRun, Literal.scalar, .punct .leftBracket :: Literal.itemsUpToBracket .literal]]

def enclosing : List (Punct × Punct) := [(.leftBrace, .rightBrace), (.leftAngle, .rightAngle)]

/-- Tokens that spell fields one after the other, and the nodes of these fields without ranges. -/
inductive Denotes (text : String) : List Token → List (Outline Kind) → Prop where
  | nil : Denotes text [] []
  | leaf {name value separator rest : List Token} {colon : Token} {os : List (Outline Kind)} :
      Generates rule Literal.fieldName name → colon.kind = .punct .colon →
      Generates rule plainValue value → Generates rule Literal.separator separator →
      Denotes text rest os →
      Denotes text (name ++ colon :: value ++ separator ++ rest)
        (.node (.field (Token.concat name) (Token.valueText text value)) ⟨0, 0⟩ [] :: os)
  | message {name colon body separator rest : List Token} {opener closer : Token}
      {opening closing : Punct} {below os : List (Outline Kind)} :
      Generates rule Literal.fieldName name → Generates rule [opt [.punct .colon]] colon →
      (opening, closing) ∈ enclosing → opener.kind = .punct opening → Denotes text body below →
      closer.kind = .punct closing → Generates rule Literal.separator separator →
      Denotes text rest os →
      Denotes text (name ++ colon ++ opener :: body ++ closer :: separator ++ rest)
        (.node (.message (Token.concat name)) ⟨0, 0⟩ below :: os)

theorem exists_pieces {e : Expr} (he : isPlainPhrase isLiteral e = true) {ts : List Token}
    (h : Generates rule e ts) : ∃ ps : List Piece, Derives rule e (ps.map .token) ∧ ps.map (·.token) = ts := by
  obtain ⟨ss, hd, rfl⟩ := h
  obtain ⟨ps, rfl⟩ := hd.exists_map_token isPlainPhrase_rule he
  exact ⟨ps, hd, by rw [Part.pieces_map_token]⟩

theorem message_inv {ss : List (Signal Shape)} (h : Derives rule message ss) :
    ∃ opening closing opener body closer, (opening, closing) ∈ enclosing ∧
      opener.kind = .punct opening ∧ closer.kind = .punct closing ∧ Derives rule document body ∧
      ss = .mark (.opens .message) :: .token opener :: (body ++ [.mark .closes, .token closer]) := by
  have hbody {opening closing : Punct} {ss : List (Signal Shape)} (hmem : (opening, closing) ∈ enclosing)
      (hd : Derives rule (.mark (.opens .message) :: .punct opening :: bodyUpTo closing) ss) :
      ∃ opening closing opener body closer, (opening, closing) ∈ enclosing ∧
        opener.kind = .punct opening ∧ closer.kind = .punct closing ∧ Derives rule document body ∧
        ss = .mark (.opens .message) :: .token opener :: (body ++ [.mark .closes, .token closer]) := by
    cases hd with
    | mark _ hd =>
      cases hd with
      | token hopener hd =>
        obtain ⟨body, y, rfl, hbody, hy⟩ := Derives.split (a := document) hd
        cases hy with
        | mark _ hy =>
          cases hy with
          | token hcloser hy =>
            cases hy
            exact ⟨_, _, _, body, _, hmem, of_decide_eq_true hopener, of_decide_eq_true hcloser,
              hbody, rfl⟩
  cases h with
  | alt ha hd =>
    rw [List.append_nil] at hd
    simp only [List.mem_cons, List.not_mem_nil, or_false] at ha
    rcases ha with rfl | rfl
    · exact hbody (by decide) hd
    · exact hbody (by decide) hd

theorem field_inv {ss : List (Signal Shape)} (h : Derives rule field ss) :
    ∃ name rest separator, Derives rule Literal.fieldName name ∧ Derives rule Literal.separator separator ∧
      ss = .mark .begins :: (name ++ rest ++ separator) ∧
      ((∃ colon value, colon.kind = .punct .colon ∧ Derives rule plainValue value ∧
          rest = .token colon :: (value ++ [.mark (.completes .field)])) ∨
        ∃ colon body, Derives rule [opt [.punct .colon]] colon ∧ Derives rule message body ∧
          rest = colon ++ body) := by
  cases h with
  | mark _ h =>
    obtain ⟨x, separator, rfl, hx, hseparator⟩ :=
      Derives.split (a := Literal.fieldName ++ fieldRest) h
    obtain ⟨name, rest, rfl, hname, hrest⟩ := hx.split
    refine ⟨name, rest, separator, hname, hseparator, rfl, ?_⟩
    cases hrest with
    | alt ha hd =>
      rw [List.append_nil] at hd
      simp only [List.mem_cons, List.not_mem_nil, or_false] at ha
      rcases ha with rfl | rfl
      · cases hd with
        | @token _ colon _ _ hcolon hd =>
          have hcolon' : colon.kind = .punct .colon := of_decide_eq_true hcolon
          cases hd with
          | alt ha hd =>
            rw [List.append_nil] at hd
            simp only [List.mem_cons, List.not_mem_nil, or_false] at ha
            rcases ha with rfl | rfl
            · obtain ⟨value, y, rfl, hvalue, hy⟩ := Derives.split (a := plainValue) hd
              cases hy with
              | mark _ hy =>
                cases hy
                exact .inl ⟨colon, value, hcolon', hvalue, rfl⟩
            · refine .inr ⟨[.token colon], _, .alt (a := [.punct .colon]) (by simp) ?_, hd, rfl⟩
              exact .token hcolon .nil
      · exact .inr ⟨[], rest, .alt (a := []) (by simp) .nil, hd, rfl⟩

theorem exists_denotes (text : String) {ss : List (Signal Shape)} (h : Derives rule document ss) :
    ∃ os, Denotes text ((Signal.pieces ss).map (·.token)) os := by
  -- Both the fields after the first one and those within it are derived with fewer signals.
  induction hn : ss.length using Nat.strongRecOn generalizing ss with
  | _ n ih =>
    subst hn
    cases h with
    | stop h =>
      cases h
      exact ⟨[], .nil⟩
    | more h =>
      cases h with
      | ref h =>
        obtain ⟨x, y, rfl, hx, hy⟩ := Derives.split (a := field) (b := document) h
        obtain ⟨name, rest, separator, hname, hseparator, rfl, hrest⟩ := field_inv hx
        obtain ⟨os, hos⟩ := ih y.length (by simp; omega) hy rfl
        rcases hrest with ⟨colon, value, hcolon, hvalue, rfl⟩ | ⟨colon, body, hcolon, hbody, rfl⟩
        · have hcolon' : colon.token.kind = .punct .colon := hcolon
          have hleaf := Denotes.leaf ⟨_, hname, rfl⟩ hcolon' ⟨_, hvalue, rfl⟩ ⟨_, hseparator, rfl⟩ hos
          exact ⟨_, by simpa [Signal.pieces] using hleaf⟩
        · obtain ⟨opening, closing, opener, inner, closer, hmem, hopener, hcloser, hinner, rfl⟩ :=
            message_inv hbody
          obtain ⟨below, hbelow⟩ := ih inner.length (by simp; omega) hinner rfl
          have hmessage := Denotes.message ⟨_, hname, rfl⟩ ⟨_, hcolon, rfl⟩ hmem hopener hbelow hcloser
            ⟨_, hseparator, rfl⟩ hos
          exact ⟨_, by simpa [Signal.pieces] using hmessage⟩

theorem exists_piece {t : Token} {p : Punct} (h : t.kind = .punct p) : ∃ q : Piece, q.token = t :=
  ⟨⟨t, [], by rw [Token.isComment, h]; rfl, by simp⟩, rfl⟩

theorem exists_name {name : List Token} (h : Generates rule Literal.fieldName name) :
    ∃ first more, Derives rule Literal.fieldName ((first :: more).map .token) ∧
      (first :: more).map (·.token) = name := by
  obtain ⟨ss, hd, rfl⟩ := h
  obtain ⟨first, more, rfl⟩ := Yields.exists_first isPlainPhrase_rule hd rfl rfl
  exact ⟨first, more, hd, by rw [Part.pieces_map_token]⟩

theorem build_field {name value : List Token} {colon : Token} (text : String)
    (h : Generates rule Literal.fieldName name) (hregular : ∀ t ∈ name, t.IsRegular) :
    build .field text (name ++ colon :: value) =
      .field (Token.concat name) (Token.valueText text value) := by
  simp only [build, Literal.readFieldName_append h hregular, List.drop_succ_cons, List.drop_zero]

theorem build_message {name : List Token} (text : String) (h : Generates rule Literal.fieldName name)
    (hregular : ∀ t ∈ name, t.IsRegular) (more : List Token) :
    build .message text (name ++ more) = .message (Token.concat name) := by
  rw [build, Literal.readFieldName_append h hregular]

theorem derives_message {opening closing : Punct} {opener closer : Piece} {body : List (Signal Shape)}
    (hmem : (opening, closing) ∈ enclosing) (hopener : opener.kind = .punct opening)
    (hbody : Derives rule document body) (hcloser : closer.kind = .punct closing) :
    Derives rule message
      (.mark (.opens .message) :: .token opener :: (body ++ [.mark .closes, .token closer])) := by
  have hd : Derives rule (.mark (.opens .message) :: .punct opening :: bodyUpTo closing)
      (.mark (.opens .message) :: .token opener :: (body ++ [.mark .closes, .token closer])) :=
    .mark _ (.token (by simp [hopener]) (hbody.append (.mark _ (.token (by simp [hcloser]) .nil))))
  simp only [enclosing, List.mem_cons, Prod.mk.injEq, List.not_mem_nil, or_false] at hmem
  rcases hmem with ⟨rfl, rfl⟩ | ⟨rfl, rfl⟩
  · exact .alt List.mem_cons_self (by simpa using hd)
  · exact .alt (List.mem_cons_of_mem _ List.mem_cons_self) (by simpa using hd)

theorem derives_leafRest {colon : Piece} {value : List Piece} (hcolon : colon.kind = .punct .colon)
    (hvalue : Derives rule plainValue (value.map .token)) :
    Derives rule fieldRest (.token colon :: (value.map .token ++ [.mark (.completes .field)])) := by
  refine .alt (a := .punct .colon :: TextFormat.value) (by simp) ?_
  refine .token (by simp [hcolon]) (.alt (a := leafValue) (by simp) ?_)
  exact hvalue.append (.mark _ .nil)

theorem derives_fieldRest {colon body : List (Signal Shape)}
    (hcolon : Derives rule [opt [.punct .colon]] colon) (hbody : Derives rule message body) :
    Derives rule fieldRest (colon ++ body) := by
  cases hcolon with
  | alt ha hd =>
    rw [List.append_nil] at hd
    simp only [List.mem_cons, List.not_mem_nil, or_false] at ha
    rcases ha with rfl | rfl
    · cases hd
      exact .alt (a := message) (by simp) (by simpa using hbody)
    · have hvalue : Derives rule value body :=
        .alt (a := message) (by simp) (by simpa using hbody)
      exact .alt (a := .punct .colon :: value) (by simp) (hd.append hvalue)

theorem document_cons {x y : List (Signal Shape)} (hx : Derives rule field x)
    (hy : Derives rule document y) : Derives rule document (x ++ y) :=
  .more (.ref (hx.append hy))

/-- What denotes something is derived from the grammar of a text, and the nodes are those of the
derivation. -/
theorem Denotes.exists_parts {text : String} {ts : List Token} {os : List (Outline Kind)}
    (h : Denotes text ts os) (hregular : ∀ t ∈ ts, t.IsRegular) :
    ∃ parts, Derives rule document (Part.signals parts) ∧
      (Part.listPieces parts).map (·.token) = ts ∧
      Part.listSkeleton (fun shape us => build shape text us) parts = os := by
  induction h with
  | nil => exact ⟨[], .stop .nil, rfl, rfl⟩
  | @leaf name value _ _ colon _ hname hcolon hvalue hseparator _ ih =>
    obtain ⟨parts, hparts, rfl, rfl⟩ := ih fun t ht => hregular t (by simp [ht])
    have hkind : build .field text (name ++ colon :: value) =
        .field (Token.concat name) (Token.valueText text value) :=
      build_field text hname fun t ht => hregular t (by simp [ht])
    obtain ⟨first, more, hfirst, rfl⟩ := exists_name hname
    obtain ⟨colon, rfl⟩ := exists_piece hcolon
    obtain ⟨value, hderives, rfl⟩ := exists_pieces rfl hvalue
    obtain ⟨seps, hseps, rfl⟩ := exists_pieces rfl hseparator
    have hrest := derives_leafRest hcolon hderives
    refine ⟨.leaf .field first (more ++ colon :: value) :: (seps.map .token ++ parts), ?_, ?_, ?_⟩
    · rw [← List.singleton_append, Part.signals_append, Part.signals_leaf, Part.signals_append,
        Part.signals_map_token, ← List.append_assoc]
      refine document_cons (.mark _ ?_) hparts
      simpa using (hfirst.append hrest).append hseps
    · simp [Part.listPieces, Part.pieces, Part.listPieces_append, Part.listPieces_map_token]
    · rw [Part.listSkeleton, Part.listSkeleton_append, Part.listSkeleton_map_token, Part.skeleton,
        ← hkind]
      simp
  | @message _ colon _ _ _ _ _ _ _ _ _ hname hcolon hmem hopener _ hcloser hseparator _ ihbody ih =>
    obtain ⟨body, hbody, rfl, rfl⟩ := ihbody fun t ht => hregular t (by simp [ht])
    obtain ⟨parts, hparts, rfl, rfl⟩ := ih fun t ht => hregular t (by simp [ht])
    have hkind := build_message text hname (fun t ht => hregular t (by simp [ht])) colon
    obtain ⟨first, more, hfirst, rfl⟩ := exists_name hname
    obtain ⟨colons, hcolons, rfl⟩ := exists_pieces rfl hcolon
    obtain ⟨opener, rfl⟩ := exists_piece hopener
    obtain ⟨closer, rfl⟩ := exists_piece hcloser
    obtain ⟨seps, hseps, rfl⟩ := exists_pieces rfl hseparator
    have hmessage := derives_message hmem hopener hbody hcloser
    refine ⟨.block .message first (more ++ colons) opener body (some closer) ::
      (seps.map .token ++ parts), ?_, ?_, ?_⟩
    · rw [← List.singleton_append, Part.signals_append, Part.signals_block, Part.signals_append,
        Part.signals_map_token, ← List.append_assoc]
      refine document_cons (.mark _ ?_) hparts
      have hrest := derives_fieldRest hcolons hmessage
      simpa [Part.ending, Move.signals, Role.marks] using (hfirst.append hrest).append hseps
    · simp [Part.listPieces, Part.pieces, Part.listPieces_append, Part.listPieces_map_token]
    · rw [Part.listSkeleton, Part.listSkeleton_append, Part.listSkeleton_map_token, Part.skeleton,
        ← hkind]
      simp

def solid (ts : List Token) : List Token := ts.filter (!·.isComment)

theorem exists_parse_of_denotes {text : String} {os : List (Outline Kind)}
    (h : Denotes text (solid (Language.textFormat.tokens text)) os) :
    ∃ tree, parse text = .ok tree ∧
      tree.outline?.map (Outline.bare id) = some (.node .document ⟨0, 0⟩ os) := by
  have hregular : ∀ t ∈ solid (Language.textFormat.tokens text), t.IsRegular :=
    fun t ht => isRegular_tokens (List.mem_of_mem_filter ht)
  obtain ⟨lead, ps, htokens, hlead⟩ := Piece.exists_flatten (Language.textFormat.tokens text)
  have ho : Ordered (lead ++ flatten ps) := htokens ▸ ordered_tokens .textFormat text
  rw [htokens, solid, Piece.filter_append_flatten hlead] at h hregular
  obtain ⟨parts, hd, htoken, rfl⟩ := h.exists_parts hregular
  have hbare := Piece.map_bare_congr htoken.symm
  obtain ⟨tree, htree⟩ : ∃ tree, grammar.parse .fields text (lead ++ flatten ps) = .ok tree :=
    reads.exists_tree hd hlead ho hbare fun _ _ _ => id
  obtain ⟨parts', hparts, rfl, hmade⟩ :=
    reads.exists_made (fun _ _ _ => id) hd hlead ho hbare htree
  refine ⟨tree, by rw [parse, htokens, htree], ?_⟩
  rw [hmade.outline_bare (closes text).isComment_comment (closes text).isComment_build]
  exact congrArg (fun os => some (Outline.node Kind.document ⟨0, 0⟩ os))
    (Part.listSkeleton_congr parts' parts hparts htoken.symm)

theorem exists_denotes_of_parse {text : String} {tree : Tree Kind} (h : parse text = .ok tree) :
    ∃ os, Denotes text (solid (Language.textFormat.tokens text)) os := by
  obtain ⟨lead, ps, htokens, hlead⟩ := Piece.exists_flatten (Language.textFormat.tokens text)
  have ho : Ordered (lead ++ flatten ps) := htokens ▸ ordered_tokens .textFormat text
  rw [parse, htokens] at h
  obtain ⟨parts, rfl, hd, -⟩ := reads.parse_sound hlead ho h
  obtain ⟨os, hos⟩ := exists_denotes text hd
  rw [Part.pieces_signals] at hos
  exact ⟨os, by rwa [htokens, solid, Piece.filter_append_flatten hlead]⟩

/-- A text is read exactly if its tokens denote something, comments left out, and the tree is what
they denote. -/
theorem parse_denotes (text : String) :
    ((∃ tree, parse text = .ok tree) ↔
      ∃ os, Denotes text (solid (Language.textFormat.tokens text)) os) ∧
    ∀ os, Denotes text (solid (Language.textFormat.tokens text)) os ↔
      ∃ tree, parse text = .ok tree ∧
        tree.outline?.map (Outline.bare id) = some (.node .document ⟨0, 0⟩ os) := by
  refine ⟨⟨fun ⟨tree, htree⟩ => exists_denotes_of_parse htree, fun ⟨os, hos⟩ => ?_⟩, fun os =>
    ⟨exists_parse_of_denotes, fun ⟨tree, htree, hos⟩ => ?_⟩⟩
  · obtain ⟨tree, htree, -⟩ := exists_parse_of_denotes hos
    exact ⟨tree, htree⟩
  · obtain ⟨os', hos'⟩ := exists_denotes_of_parse htree
    obtain ⟨tree', htree', houtline⟩ := exists_parse_of_denotes hos'
    obtain rfl := Except.ok.inj (htree'.symm.trans htree)
    obtain ⟨-, -, rfl⟩ := Outline.node.inj (Option.some.inj (houtline.symm.trans hos))
    exact hos'

end ProtoSyntax.TextFormat
