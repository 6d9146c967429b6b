import ProtoSyntax.Proofs.NodeRanges
import ProtoSyntax.Proofs.Parsing.Exchange
import ProtoSyntax.Proofs.Parsing.Skeleton
import ProtoSyntax.Proofs.Schema.Acceptance
import ProtoSyntax.Proofs.Schema.BareKinds

/-!
# Comments in schema files

Comments matter to a schema file in two places only: between `map` and the angle of a map type, and
between `stream` and a closing parenthesis, where the token after the next one is looked at.
Elsewhere they change nothing but the ranges and what a message literal looks like in the text.
-/

namespace ProtoSyntax
open Piece (flatten)

def content (ts : List Token) : List (TokenKind × String) :=
  (ts.filter (!·.isComment)).map fun t => (t.kind, t.text)

/-- Whether comments stand between a token of one kind and one of another. -/
def CommentBetween (k l : TokenKind) (ts : List Token) : Prop :=
  ∃ before t cs u after, ts = before ++ t :: (cs ++ u :: after) ∧ t.kind = k ∧ u.kind = l ∧
    cs ≠ [] ∧ ∀ c ∈ cs, c.isComment = true

theorem content_flatten {lead : List Token} (hlead : ∀ t ∈ lead, t.isComment = true)
    (ps : List Piece) : content (lead ++ flatten ps) = ps.map fun p => (p.kind, p.token.text) := by
  rw [content, Piece.filter_append_flatten hlead, List.map_map]
  rfl

theorem map_bare_eq_of_content_eq {ps qs : List Piece}
    (h : ps.map (fun p => (p.kind, p.token.text)) = qs.map fun p => (p.kind, p.token.text)) :
    ps.map (·.bare) = qs.map (·.bare) := by
  induction ps generalizing qs with
  | nil =>
    obtain rfl := List.map_eq_nil_iff.1 h.symm
    rfl
  | cons p ps ih =>
    obtain ⟨q, qs, rfl, hq, hqs⟩ := List.map_eq_cons_iff.1 h.symm
    obtain ⟨hkind, htext⟩ := Prod.mk.inj hq
    rw [List.map_cons, List.map_cons, ih hqs.symm]
    simp only [Piece.bare, hkind, htext]

namespace Schema

/-- A kind without the text of a message literal, of which only the opening is kept. -/
def Kind.bare : Kind → Kind
  | .optionValue text =>
    match text.toList.head? with
    | some '\x7b' => .optionValue "\x7b"
    | some '<' => .optionValue "<"
    | _ => .optionValue text
  | kind => kind

abbrev Laid (text : String) (ps : List Piece) : Prop := LaidIn .schema text (flatten ps)

variable {text text' : String}

theorem bare_build {shape : Shape} (h : shape ≠ .optionValue) {us us' : List Token}
    (hus : us.map Token.bare = us'.map Token.bare) :
    (build shape text us).bare = (build shape text' us').bare := by
  rw [← build_map_bare h text text us, hus, build_map_bare h text text' us']

theorem bare_build_literal {p : Punct} {t : Token} {ts : List Token} {literal : String}
    (hp : p = .leftBrace ∧ literal = "\x7b" ∨ p = .leftAngle ∧ literal = "<")
    (hk : t.kind = .punct p) (h : LaidIn .schema text (t :: ts)) :
    (build .optionValue text (t :: ts)).bare = .optionValue literal := by
  have hvalue : Token.valueText text (t :: ts) = Token.slice text (t :: ts) :=
    LaidIn.valueText_of_ne_string (by simp [hk])
  have hhead := h.head?_slice.trans (h.head?_text hk)
  rw [build, hvalue, Kind.bare, hhead]
  rcases hp with ⟨rfl, rfl⟩ | ⟨rfl, rfl⟩ <;> rfl

theorem map_bare_map_token {ps qs : List Piece} (h : ps.map (·.bare) = qs.map (·.bare)) :
    (ps.map (·.token)).map Token.bare = (qs.map (·.token)).map Token.bare := by
  have hmap := congrArg (List.map Piece.token) h
  rw [List.map_map, List.map_map] at hmap ⊢
  exact hmap

theorem value_cases {first : Piece} {more : List Piece}
    (hd : Derives rule [Ebnf.alt [Literal.stringRun, Literal.scalar, Literal.message .literal]]
      ((first :: more).map .token)) :
    first.kind = .string ∨ (first.kind ≠ .string ∧ more = []) ∨
      ∃ p literal, (p = Punct.leftBrace ∧ literal = "\x7b" ∨ p = .leftAngle ∧ literal = "<") ∧
        first.kind = .punct p := by
  cases hd with
  | alt ha hd =>
    rw [List.append_nil] at hd
    simp only [List.mem_cons, List.not_mem_nil, or_false] at ha
    rcases ha with rfl | rfl | rfl
    · cases hd with
      | token hp _ => exact .inl (of_decide_eq_true hp)
    · cases hd with
      | token hp hd =>
        refine .inr (.inl ⟨?_, ?_⟩)
        · rintro he
          simp [he, TokenKind.isScalar, TokenKind.isWord] at hp
        · generalize hss : more.map Signal.token = ss at hd
          cases hd
          simpa using hss
    · cases hd with
      | alt ha hd =>
        rw [List.append_nil] at hd
        simp only [List.mem_cons, List.not_mem_nil, or_false] at ha
        rcases ha with rfl | rfl
        · cases hd with
          | token hp _ => exact .inr (.inr ⟨_, _, .inl ⟨rfl, rfl⟩, of_decide_eq_true hp⟩)
        · cases hd with
          | token hp _ => exact .inr (.inr ⟨_, _, .inr ⟨rfl, rfl⟩, of_decide_eq_true hp⟩)

theorem bare_build_value {first first' : Piece} {more more' : List Piece}
    (hd : Derives rule [Ebnf.alt [Literal.stringRun, Literal.scalar, Literal.message .literal]]
      ((first :: more).map .token))
    (hfirst : first.bare = first'.bare) (hmore : more.map (·.bare) = more'.map (·.bare))
    (h : LaidIn .schema text ((first :: more).map (·.token)))
    (h' : LaidIn .schema text' ((first' :: more').map (·.token))) :
    (build .optionValue text ((first :: more).map (·.token))).bare =
      (build .optionValue text' ((first' :: more').map (·.token))).bare := by
  have hkind := Piece.kind_eq_of_bare_eq hfirst
  rw [List.map_cons] at h h' ⊢
  rw [List.map_cons]
  rcases value_cases hd with hk | ⟨hk, rfl⟩ | ⟨p, literal, hp, hk⟩
  · have hbare : (first :: more).map (·.bare) = (first' :: more').map (·.bare) := by
      rw [List.map_cons, List.map_cons, hfirst, hmore]
    have hus : (first.token :: more.map (·.token)).map Token.bare =
        (first'.token :: more'.map (·.token)).map Token.bare := map_bare_map_token hbare
    rw [build, build, h.valueText_string hk, h'.valueText_string (hkind.symm.trans hk), ← Token.joined_map_bare,
      hus, Token.joined_map_bare]
  · obtain rfl := List.map_eq_nil_iff.1 hmore.symm
    rw [build, build, LaidIn.valueText_of_ne_string hk,
      LaidIn.valueText_of_ne_string fun he => hk (hkind.trans he), List.map_nil, h.slice_singleton, h'.slice_singleton, Piece.text_eq_of_bare_eq hfirst]
  · rw [bare_build_literal hp hk h, bare_build_literal hp (hkind.symm.trans hk) h']

def bareBuild (text : String) (shape : Shape) (us : List Token) : Kind := (build shape text us).bare

theorem tokens_sublist (ps : List Piece) : (ps.map (·.token)).Sublist (flatten ps) := by
  rw [← Piece.filter_flatten]
  exact List.filter_sublist

theorem listSkeleton_eq {parts parts' : List (Part Shape)}
    (hparts : ∀ q ∈ parts, ∀ q' : Part Shape, q.bare = q'.bare → Laid text q.pieces → Laid text' q'.pieces →
      q.skeleton (bareBuild text) = q'.skeleton (bareBuild text'))
    (hb : Part.listBare parts = Part.listBare parts') (h : Laid text (Part.listPieces parts))
    (h' : Laid text' (Part.listPieces parts')) :
    Part.listSkeleton (bareBuild text) parts = Part.listSkeleton (bareBuild text') parts' := by
  induction parts generalizing parts' with
  | nil =>
    cases parts' with
    | nil => rfl
    | cons q' parts' => cases hb
  | cons q parts ih =>
    cases parts' with
    | nil => cases hb
    | cons q' parts' =>
      obtain ⟨hq, hparts'⟩ := List.cons.inj hb
      rw [Laid, Part.listPieces, Piece.flatten_append] at h h'
      rw [Part.listSkeleton, Part.listSkeleton,
        hparts q List.mem_cons_self q' hq (h.sublist (List.sublist_append_left _ _))
          (h'.sublist (List.sublist_append_left _ _)),
        ih (fun r hr => hparts r (List.mem_cons_of_mem _ hr)) hparts'
          (h.sublist (List.sublist_append_right _ _)) (h'.sublist (List.sublist_append_right _ _))]

theorem skeleton_eq {l : Place} {q q' : Part Shape} (hq : Fits rule layout l q)
    (hb : q.bare = q'.bare) (h : Laid text q.pieces) (h' : Laid text' q'.pieces) :
    q.skeleton (bareBuild text) = q'.skeleton (bareBuild text') := by
  induction hq generalizing q' with
  | token =>
    cases q' <;> first | rfl | cases hb
  | @leaf l shape first more e tail hhead hend hd =>
    cases q' with
    | leaf shape' first' more' =>
      obtain ⟨rfl, hfirst, hmore⟩ := Part.leaf.inj hb
      have hkind : bareBuild text shape ((first :: more).map (·.token)) =
          bareBuild text' shape ((first' :: more').map (·.token)) := by
        by_cases hs : shape = .optionValue
        · subst hs
          obtain rfl := Option.some.inj hend
          have he : e = [Ebnf.alt [Literal.stringRun, Literal.scalar, Literal.message .literal]] := by
            cases l <;> first | exact (Option.some.inj hhead).symm | cases hhead
          rw [he, List.append_nil] at hd
          exact bare_build_value hd hfirst hmore (h.sublist (tokens_sublist _))
            (h'.sublist (tokens_sublist _))
        · exact bare_build hs (map_bare_map_token (by rw [List.map_cons, List.map_cons, hfirst, hmore]))
      rw [Part.skeleton, Part.skeleton, hkind]
    | token | block => cases hb
  | @block l shape first more e opener body closer _ _ hhead hd hdel _ _ _ _ ih =>
    cases q' with
    | block shape' first' more' opener' body' closer' =>
      obtain ⟨rfl, hfirst, hmore, -, hbody, -⟩ := Part.block.inj hb
      have hs : shape ≠ .optionValue := by
        rintro rfl
        cases hdel
      have hkind : bareBuild text shape ((first :: more).map (·.token)) =
          bareBuild text' shape ((first' :: more').map (·.token)) :=
        bare_build hs (map_bare_map_token (by rw [List.map_cons, List.map_cons, hfirst, hmore]))
      have hinner (ps us vs : List Piece) (r : Piece) (ws : List Piece) :
          (flatten ps).Sublist (flatten (r :: us ++ ws ++ ps ++ vs)) := by
        simp only [Piece.flatten_append]
        exact (List.sublist_append_right _ _).trans (List.sublist_append_left _ _)
      have hbelow : Part.listSkeleton (bareBuild text) body =
          Part.listSkeleton (bareBuild text') body' := by
        refine listSkeleton_eq (fun q hq q' => ih q hq) hbody ?_ ?_
        · exact h.sublist (by
            simpa [Part.pieces] using hinner (Part.listPieces body) more closer.toList first [opener])
        · exact h'.sublist (by
            simpa [Part.pieces] using hinner (Part.listPieces body') more' closer'.toList first' [opener'])
      rw [Part.skeleton, Part.skeleton, hkind, hbelow]
    | token | leaf => cases hb

theorem laid_of_tokens {lead : List Token} {ps : List Piece}
    (h : Language.schema.tokens text = lead ++ flatten ps) : Laid text ps where
  spaced := (h ▸ spaced_tokens .schema text : Spaced (lead ++ flatten ps)).right
  foundIn t ht := tokens_foundIn .schema text t (h ▸ List.mem_append_right _ ht)

theorem commentBetween_of_parted {k l : TokenKind} {lead : List Token} {ps qs : List Piece}
    (hqs : qs <:+ ps) (h : Parted k l qs) : CommentBetween k l (lead ++ flatten ps) := by
  obtain ⟨before, rfl⟩ := hqs
  obtain ⟨p, q, rest, rfl, hp, hq, hc⟩ := h
  refine ⟨lead ++ flatten before, p.token, p.comments, q.token, q.comments ++ flatten rest, ?_, hp, hq,
    hc, p.comments_isComment⟩
  simp

theorem not_blind_of_suffix {lead : List Token} {ps qs : List Piece}
    (hmap : ¬ CommentBetween (.keyword .map) (.punct .leftAngle) (lead ++ flatten ps))
    (hstream : ¬ CommentBetween (.keyword .stream) (.punct .rightParen) (lead ++ flatten ps))
    (g : Goal) (hqs : qs <:+ ps) : ¬ blind g qs := by
  cases g with
  | messageBody | oneofBody => exact fun h => hmap (commentBetween_of_parted hqs h)
  | rpcType => exact fun h => hstream (commentBetween_of_parted hqs h)
  | _ => exact id

/-- Texts with the same tokens but for comments have the same trees but for comments. One is read
if the other is, unless comments hide the angle of a map type or the end of a type named like the
word for streams. -/
theorem parse_congr_content {text text' : String} {tree : Tree Kind}
    (hcontent : content (Language.schema.tokens text') = content (Language.schema.tokens text))
    (h : parse text = .ok tree) :
    (∀ tree', parse text' = .ok tree' →
      tree'.outline?.map (Outline.bare Kind.bare) = tree.outline?.map (Outline.bare Kind.bare)) ∧
    (¬ CommentBetween (.keyword .map) (.punct .leftAngle) (Language.schema.tokens text') →
      ¬ CommentBetween (.keyword .stream) (.punct .rightParen) (Language.schema.tokens text') →
      ∃ tree', parse text' = .ok tree') := by
  obtain ⟨lead, ps, htokens, hlead⟩ := Piece.exists_flatten (Language.schema.tokens text)
  obtain ⟨lead', ps', htokens', hlead'⟩ := Piece.exists_flatten (Language.schema.tokens text')
  have ho : Ordered (lead ++ flatten ps) := htokens ▸ ordered_tokens .schema text
  have ho' : Ordered (lead' ++ flatten ps') := htokens' ▸ ordered_tokens .schema text'
  have hlaid := laid_of_tokens htokens
  have hlaid' := laid_of_tokens htokens'
  rw [htokens, htokens', content_flatten hlead, content_flatten hlead'] at hcontent
  have hbare := map_bare_eq_of_content_eq hcontent
  rw [parse, htokens] at h
  obtain ⟨parts, rfl, hd, hfits, hmade⟩ := reads.parse_sound hlead ho h
  constructor
  · intro tree' h'
    rw [parse, htokens'] at h'
    obtain ⟨parts', hparts, rfl, hmade'⟩ := reads.exists_made (fun g ps hps => not_blind hps g) hd
      hlead' ho' hbare h'
    have hskeleton : Part.listSkeleton (bareBuild text) parts =
        Part.listSkeleton (bareBuild text') parts' :=
      listSkeleton_eq (fun q hq q' => skeleton_eq (hfits q hq)) hparts.symm hlaid hlaid'
    rw [hmade.outline_bare (closes text).isComment_comment (closes text).isComment_build,
      hmade'.outline_bare (closes text').isComment_comment (closes text').isComment_build]
    exact congrArg (fun os => some (Outline.node Kind.document ⟨0, 0⟩ os)) hskeleton.symm
  · intro hmap hstream
    rw [htokens'] at hmap hstream
    rw [parse, htokens']
    exact reads.exists_tree hd hlead' ho' hbare fun g qs => not_blind_of_suffix hmap hstream g

theorem congr_content_interrupted_map :
    ∃ tree tree', parse "message A{map<int32,B>c=1[d={}];}" = .ok tree ∧
      parse "message A{map</**/int32,B>c=1[d={/**/}];}" = .ok tree' ∧
      tree'.outline?.map (Outline.bare Kind.bare) = tree.outline?.map (Outline.bare Kind.bare) := by
  obtain ⟨tree, htree⟩ : ∃ tree, parse "message A{map<int32,B>c=1[d={}];}" = .ok tree :=
    exists_ok_of_isOk (by rw [parse, tokens_eq]; cbv)
  obtain ⟨tree', htree'⟩ :
      ∃ tree, parse "message A{map</**/int32,B>c=1[d={/**/}];}" = .ok tree :=
    exists_ok_of_isOk (by rw [parse, tokens_eq]; cbv)
  have hcontent : content (Language.schema.tokens "message A{map</**/int32,B>c=1[d={/**/}];}") =
      content (Language.schema.tokens "message A{map<int32,B>c=1[d={}];}") := by
    rw [tokens_eq, tokens_eq]
    cbv
  exact ⟨tree, tree', htree, htree', (parse_congr_content hcontent htree).1 tree' htree'⟩

/-- A comment before the angle of a map type: the text is refused that is read without it. -/
theorem refused_with_comment_before_angle :
    content (Language.schema.tokens "message A{map/**/<int32,int32>b=1;}") =
        content (Language.schema.tokens "message A{map<int32,int32>b=1;}") ∧
      (∃ tree, parse "message A{map<int32,int32>b=1;}" = .ok tree) ∧
      ∀ tree, parse "message A{map/**/<int32,int32>b=1;}" ≠ .ok tree := by
  have hrefused : (grammar.react.run [.goal .declarations]
      (dropComments (Language.schema.tokens "message A{map/**/<int32,int32>b=1;}"))
      []).refusal.isSome = true := by
    rw [tokens_eq]
    cbv
  refine ⟨by cbv, exists_ok_of_isOk (by rw [parse, tokens_eq]; cbv), ?_⟩
  exact grammar.parse_ne_ok (ordered_tokens .schema _) hrefused

end Schema
end ProtoSyntax
