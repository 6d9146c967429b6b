import ProtoSyntax.Proofs.NodeRanges
import ProtoSyntax.Proofs.Schema.Payloads

/-!
# Well-formed trees

Every tree that is read from a schema file has only such nodes below each other as the language allows,
each option has one value, and the texts of the nodes are what they should be. This holds of the parts
that the tree is made of, and no node is put anywhere else.
-/

namespace ProtoSyntax.Schema
open Outline (Tidy)
open Piece (flatten)

namespace Kind

/-- What may stand directly below a node, next to comments. -/
def admits : Kind → Kind → Bool
  | .document, .version _ | .document, .importFile _ _ | .document, .package _ | .document, .option _
  | .document, .message _ | .document, .enum _ | .document, .service _ => true
  | .message _, .option _ | .message _, .message _ | .message _, .enum _ | .message _, .oneof _
  | .message _, .reserved _ | .message _, .field _ _ _ _ => true
  | .oneof _, .option _ | .oneof _, .field _ _ _ _ => true
  | .enum _, .option _ | .enum _, .reserved _ | .enum _, .enumValue _ _ => true
  | .service _, .option _ | .service _, .rpc _ _ _ _ _ => true
  | .field _ _ _ _, .option _ | .enumValue _ _, .option _ | .rpc _ _ _ _ _, .option _ => true
  | .option _, .optionValue _ => true
  | _, _ => false

/-- Whether nothing stands below a node, not even comments. -/
def isChildless : Kind → Bool
  | .comment | .version _ | .importFile _ _ | .package _ | .optionValue _ | .reserved _ => true
  | _ => false

end Kind

structure WellFormed (t : Tree Kind) : Prop where
  document : ∀ id n, t.node? id = some n → (n.kind = .document ↔ id = Tree.root)
  childless : ∀ id n, t.node? id = some n → n.kind.isChildless = true → n.children = []
  admitted : ∀ id n, t.node? id = some n → ∀ c ∈ t.declarations id,
    ∃ m, t.node? c = some m ∧ n.kind.admits m.kind = true
  valued : ∀ id n name, t.node? id = some n → n.kind = .option name →
    ∃ v m text, t.declarations id = [v] ∧ t.node? v = some m ∧ m.kind = .optionValue text ∧
      optionValue? t id = some text
  sound : ∀ id n, t.node? id = some n → n.kind.IsSound

structure Suits (parent : Kind) (o : Outline Kind) : Prop where
  admitted : o.kind = .comment ∨ parent.admits o.kind = true
  childless : o.kind.isChildless = true → o.children = []
  valued : ∀ name, o.kind = .option name → ∃ v text,
    o.children.filter (fun c => !Vocabulary.isComment c.kind) = [v] ∧ v.kind = .optionValue text
  sound : o.kind.IsSound

theorem suits_comment (k : Kind) (range : Range) : Suits k (.node .comment range []) :=
  ⟨.inl rfl, fun _ => rfl, nofun, trivial⟩

theorem admits_build {k : Kind} {l : Place} {shape : Shape} {e : Expr} (hk : k.place? = some l)
    (hhead : headAt l shape = some e) (text : String) (us : List Token) :
    k.admits (build shape text us) = true := by
  cases k <;> cases hk <;> cases shape <;> first | rfl | cases hhead

variable {l : Place} {shape : Shape} {text : String}

theorem isSound_build {e : Expr} {ps : List Piece} {more : List Token} (hhead : headAt l shape = some e)
    (hd : Derives rule e (ps.map .token))
    (hmore : shape = .reserved → ∃ stop rest, more = stop :: rest ∧ stop.kind = .punct .semicolon)
    (hts : ∀ t ∈ ps.map (·.token), t ∈ Language.schema.tokens text) :
    (build shape text (ps.map (·.token) ++ more)).IsSound := by
  rw [← Part.pieces_map_token (S := Shape) ps] at hts ⊢
  cases shape with
  | field => cases l <;> cases hhead <;> exact isSound_readField (by decide) (by decide) hd hts more
  | enumValue => cases l <;> cases hhead; exact isSound_readEnumValue hd hts more
  | version => cases l <;> cases hhead; exact isSound_version more hd
  | reserved =>
    obtain ⟨stop, rest, rfl, hstop⟩ := hmore rfl
    cases l <;> cases hhead <;> exact isSound_reserved rest hd hstop hts
  | _ => trivial

theorem exists_value {first opener : Piece} {more : List Piece} {body : List (Part Shape)}
    {closer : Option Piece} (hsingle : layout.single shape = true)
    (hq : Fits rule layout l (.block shape first more opener body closer)) :
    ∃ f m, body = [.leaf .optionValue f m] := by
  have hinside : layout.inside shape = .value := by cases shape <;> first | rfl | cases hsingle
  cases hq with
  | block _ _ _ _ _ hone hbody =>
    obtain ⟨q, rfl⟩ := hone hsingle
    have hfits := hbody q List.mem_cons_self
    rw [hinside] at hfits
    have hvalue {shape' : Shape} {e : Expr} (h : headAt .value shape' = some e) :
        shape' = .optionValue := by cases shape' <;> first | rfl | cases h
    cases hfits with
    | token hp => cases hp
    | leaf hhead =>
      obtain rfl := hvalue hhead
      exact ⟨_, _, rfl⟩
    | block hhead _ hdel =>
      obtain rfl := hvalue hhead
      cases hdel

theorem suits_leaf {k : Kind} {first : Piece} {more : List Piece} {range : Range}
    (hk : k.place? = some l) (hq : Fits rule layout l (.leaf shape first more))
    (hts : ∀ t ∈ flatten (first :: more), t ∈ Language.schema.tokens text) :
    Suits k (.node (build shape text ((first :: more).map (·.token))) range []) := by
  cases hq with
  | @leaf _ _ _ _ e tail hhead hend hd =>
    have hts : ∀ t ∈ (first :: more).map (·.token), t ∈ Language.schema.tokens text :=
      fun t ht => hts t (Piece.map_token_subset_flatten _ ht)
    obtain ⟨x, y, hxy, hx, hy⟩ := hd.split
    obtain ⟨ps, qs, hps, rfl, rfl⟩ := List.map_eq_append_iff.1 hxy
    rw [hps, List.map_append] at hts
    refine ⟨.inr (admits_build hk hhead text _), fun _ => rfl, fun name hname => ?_, ?_⟩
    · cases shape with
      | option | bracketOption => cases hend
      | _ => cases hname
    · rw [hps, List.map_append]
      refine isSound_build hhead hx (fun hreserved => ?_)
        fun t ht => hts t (List.mem_append_left _ ht)
      subst hreserved
      obtain rfl := Option.some.inj hend
      cases qs with
      | nil => cases hy
      | cons q qs =>
        cases hy with
        | token hq => exact ⟨_, _, rfl, of_decide_eq_true hq⟩

theorem suits_block {k : Kind} {first opener : Piece} {more : List Piece} {body : List (Part Shape)}
    {closer : Option Piece} {o : Outline Kind} (hk : k.place? = some l)
    (hq : Fits rule layout l (.block shape first more opener body closer))
    (hts : ∀ t ∈ flatten (first :: more), t ∈ Language.schema.tokens text)
    (ho : o ∈ (Part.block shape first more opener body closer).own fun shape => build shape text) :
    Suits k o := by
  have hq' := hq
  obtain rfl := List.mem_singleton.1 ho
  cases hq with
  | @block _ _ _ _ e _ _ _ _ _ hhead hd hdel =>
    have hts : ∀ t ∈ (first :: more).map (·.token), t ∈ Language.schema.tokens text :=
      fun t ht => hts t (Piece.map_token_subset_flatten _ ht)
    have hsound : (build shape text ((first :: more).map (·.token) ++ [])).IsSound :=
      isSound_build hhead hd (fun hreserved => by subst hreserved; cases hdel) hts
    rw [List.append_nil] at hsound
    refine ⟨.inr (admits_build hk hhead text _), fun hchildless => ?_, fun name hname => ?_, hsound⟩
    · cases shape with
      | version | importFile | package | optionValue | reserved => cases hdel
      | _ => cases hchildless
    · have hsingle : layout.single shape = true := by cases shape <;> first | rfl | cases hname
      obtain ⟨f, m, rfl⟩ := exists_value hsingle hq'
      refine ⟨.node (build .optionValue text ((f :: m).map (·.token)))
        ⟨f.token.start, lastStop 0 (f :: m)⟩ [], _, ?_, rfl⟩
      simp only [Outline.children, Part.listForest_leaf]
      exact (closes text).filter_value.1

theorem suits (text : String) :
    Specifies rule layout (fun shape => build shape text) (Language.schema.tokens text)
      (fun k l => k.place? = some l) Suits where
  isComment_build := (closes text).isComment_build
  isComment_comment := rfl
  inside := (closes text).inside
  unclosed := (closes text).exists_leaf
  comment := suits_comment
  own {k l q o} hk hq _ hts ho _ := by
    cases q with
    | token p => cases ho
    | leaf shape first more =>
      obtain rfl := List.mem_singleton.1 ho
      exact suits_leaf hk hq hts.subset
    | block shape first more opener body closer =>
      refine suits_block hk hq (fun t ht => hts.subset ?_) ho
      rw [Part.pieces, List.append_assoc, Piece.flatten_append]
      exact List.mem_append_left _ ht

section tree

variable {t : Tree Kind} {id : Nat}

theorem findSome?_valueText? {ids : List Nat} {os : List (Outline Kind)} (h : t.Shows ids os) :
    (ids.findSome? fun c => (t.node? c).bind fun n => n.kind.valueText?) =
      (os.filter fun o => !Vocabulary.isComment o.kind).findSome? fun o => o.kind.valueText? := by
  induction h with
  | nil => rfl
  | @cons i o ids os ho _ ih =>
    obtain ⟨n, hn, hkind⟩ : ∃ n, t.node? i = some n ∧ n.kind = o.kind := by
      rw [Tree.outlineAt?] at ho
      obtain ⟨n, hn, rfl⟩ := Option.map_eq_some_iff.1 ho
      exact ⟨n, hn, rfl⟩
    rw [List.findSome?_cons, ih, hn, Option.bind_some, hkind]
    by_cases hcomment : o.kind = .comment
    · rw [List.filter_cons_of_neg (by simp [Vocabulary.isComment, hcomment]), hcomment]
      rfl
    · rw [List.filter_cons_of_pos (by simp [Vocabulary.isComment, hcomment]), List.findSome?_cons]

theorem optionValue?_eq (ht : t.Linked) {o : Outline Kind} (ho : t.outlineAt? id = some o) :
    optionValue? t id =
      (o.children.filter fun c => !Vocabulary.isComment c.kind).findSome? fun c => c.kind.valueText? := by
  obtain ⟨n, hn, -, -, hshows⟩ := ht.shows_children ho
  rw [optionValue?, Tree.children_of_node? hn]
  exact findSome?_valueText? hshows

theorem valued_of_outline (ht : t.Linked) {o v : Outline Kind} {text : String}
    (ho : t.outlineAt? id = some o)
    (hv : o.children.filter (fun c => !Vocabulary.isComment c.kind) = [v])
    (hkind : v.kind = .optionValue text) :
    ∃ v m, t.declarations id = [v] ∧ t.node? v = some m ∧ m.kind = .optionValue text ∧
      optionValue? t id = some text := by
  have hvalue := optionValue?_eq ht ho
  have hshows := ht.shows_declarations ho
  rw [hv] at hvalue hshows
  rw [List.findSome?_cons, hkind] at hvalue
  generalize t.declarations id = ids at hshows ⊢
  cases hshows with
  | @cons i _ _ _ hi hnil =>
    cases hnil
    obtain ⟨m, hm, hkind', -⟩ := ht.shows_children hi
    exact ⟨i, m, rfl, hm, hkind'.trans hkind, hvalue⟩

variable {tokens : List Token} {top : Outline Kind} {n : Node Kind}

theorem root_or_suits (ht : t.Linked) (htop : t.outline? = some top) (hdocument : top.kind = .document)
    (htidy : Tidy tokens Suits top) (hn : t.node? id = some n) :
    id = Tree.root ∧ n.kind = .document ∨
      ∃ parent o, t.outlineAt? id = some o ∧ n.kind = o.kind ∧ Suits parent o := by
  rcases Nat.eq_zero_or_pos id with rfl | hpos
  · obtain ⟨root, hroot, hkind, -⟩ := ht.shows_children htop
    obtain rfl := Option.some.inj (hn.symm.trans hroot)
    exact .inl ⟨rfl, hkind.trans hdocument⟩
  · obtain ⟨_, _, n', o, -, -, hn', ho, hkind, hneat⟩ :=
      ht.exists_neat htop htidy hpos (Tree.lt_size_of_node? hn)
    obtain rfl := Option.some.inj (hn'.symm.trans hn)
    exact .inr ⟨_, o, ho, hkind, hneat.holds⟩

theorem Suits.kind_ne_document {parent : Kind} {o : Outline Kind} (h : Suits parent o) :
    o.kind ≠ .document := by
  intro hk
  rcases h.admitted with hcomment | hadmits
  · cases hk.symm.trans hcomment
  · rw [hk] at hadmits
    cases parent <;> cases hadmits

theorem exists_admitted (ht : t.Linked) (htop : t.outline? = some top) (htidy : Tidy tokens Suits top)
    (hn : t.node? id = some n) {c : Nat} (hc : c ∈ t.declarations id) :
    ∃ m, t.node? c = some m ∧ n.kind.admits m.kind = true := by
  obtain ⟨o, ho, htidy⟩ := ht.exists_tidy htop htidy (Tree.lt_size_of_node? hn)
  obtain ⟨n', hn', hkind, -⟩ := ht.shows_children ho
  obtain rfl := Option.some.inj (hn'.symm.trans hn)
  obtain ⟨o', ho', hshown⟩ := (ht.shows_declarations ho).exists_outline hc
  obtain ⟨hmem, hcomment⟩ := List.mem_filter.1 ho'
  obtain ⟨m, hm, hkind', -⟩ := ht.shows_children hshown
  refine ⟨m, hm, ?_⟩
  rw [hkind, hkind']
  refine (htidy.neat o' hmem).holds.admitted.resolve_left fun hk => ?_
  simp [Vocabulary.isComment, hk] at hcomment

theorem wellFormed_of_tidy (ht : t.Linked) (htop : t.outline? = some top)
    (hdocument : top.kind = .document) (htidy : Tidy tokens Suits top) : WellFormed t where
  document id n hn := by
    rcases root_or_suits ht htop hdocument htidy hn with ⟨hid, hkind⟩ | ⟨parent, o, ho, hkind, hsuits⟩
    · exact iff_of_true hkind hid
    · refine iff_of_false (hkind ▸ hsuits.kind_ne_document) fun hid => ?_
      subst hid
      obtain rfl := Option.some.inj (ho.symm.trans htop)
      exact hsuits.kind_ne_document hdocument
  childless id n hn hchildless := by
    rcases root_or_suits ht htop hdocument htidy hn with ⟨-, hkind⟩ | ⟨parent, o, ho, hkind, hsuits⟩
    · rw [hkind] at hchildless
      cases hchildless
    · obtain ⟨n', hn', -, -, hshows⟩ := ht.shows_children ho
      obtain rfl := Option.some.inj (hn'.symm.trans hn)
      rw [hsuits.childless (hkind ▸ hchildless)] at hshows
      exact List.forall₂_nil_right_iff.1 hshows
  admitted id n hn c hc := exists_admitted ht htop htidy hn hc
  valued id n name hn hoption := by
    rcases root_or_suits ht htop hdocument htidy hn with ⟨-, hkind⟩ | ⟨parent, o, ho, hkind, hsuits⟩
    · cases hkind.symm.trans hoption
    · obtain ⟨v, text, hv, hvalue⟩ := hsuits.valued name (hkind.symm.trans hoption)
      obtain ⟨v, m, hdecl, hm, hk, htext⟩ := valued_of_outline ht ho hv hvalue
      exact ⟨v, m, text, hdecl, hm, hk, htext⟩
  sound id n hn := by
    rcases root_or_suits ht htop hdocument htidy hn with ⟨-, hkind⟩ | ⟨parent, o, ho, hkind, hsuits⟩
    · rw [hkind]
      trivial
    · rw [hkind]
      exact hsuits.sound

end tree

theorem wellFormed_of_parse {text : String} {tree : Tree Kind} (h : parse text = .ok tree) :
    WellFormed tree := by
  obtain ⟨lead, parts, -, -, -, ⟨ht, houtline⟩, htidy⟩ := reads.exists_tidy (suits text) rfl h
  exact wellFormed_of_tidy ht houtline rfl htidy

theorem wellFormed_reserved_after_map :
    ∃ tree, parse "message A{map<int32,.B>c=1[d={}/*e*/];reserved 2,3 to max;}" = .ok tree ∧
      WellFormed tree := by
  obtain ⟨tree, htree⟩ :
      ∃ tree, parse "message A{map<int32,.B>c=1[d={}/*e*/];reserved 2,3 to max;}" = .ok tree :=
    exists_ok_of_isOk (by rw [parse, tokens_eq]; cbv)
  exact ⟨tree, htree, wellFormed_of_parse htree⟩

end ProtoSyntax.Schema
