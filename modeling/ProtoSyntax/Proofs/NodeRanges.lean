import ProtoSyntax.Document
import ProtoSyntax.Proofs.Parsing.Closing
import ProtoSyntax.Proofs.Schema.Acceptance
import ProtoSyntax.Proofs.TextFormat.Reading

/-!
# The ranges of nodes

By which characters the nodes of each language are closed; and that every tree that is read from a
text is nested, each node ending as its kind demands.
-/

namespace ProtoSyntax

theorem exists_ok_of_isOk {ε α : Type} {x : Except ε α} (h : x.isOk = true) : ∃ a, x = .ok a := by
  cases x with
  | ok a => exact ⟨a, rfl⟩
  | error e => cases h

theorem exists_node_of_toOption {ε K : Type} {x : Except ε (Tree K)} {id : Nat} {kind : K} {range : Range}
    (h : (x.toOption.bind (·.node? id)).map (fun n => (n.kind, n.range)) = some (kind, range)) :
    ∃ tree n, x = .ok tree ∧ tree.node? id = some n ∧ n.kind = kind ∧ n.range = range := by
  obtain ⟨n, hn, hshown⟩ := Option.map_eq_some_iff.1 h
  obtain ⟨tree, htree, hn⟩ := Option.bind_eq_some_iff.1 hn
  obtain ⟨hkind, hrange⟩ := Prod.mk.inj hshown
  cases x with
  | error => cases htree
  | ok t =>
    obtain rfl := Option.some.inj htree
    exact ⟨t, n, rfl, hn, hkind, hrange⟩

namespace Schema

def Kind.hasBrackets : Kind → Bool
  | .field _ _ _ _ | .enumValue _ _ => true
  | _ => false

/-- The characters that close a node, which an option has only outside of brackets. -/
def Kind.closers (parent : Kind) : Kind → List Punct
  | .comment | .optionValue _ => []
  | .option _ => if parent.hasBrackets then [] else [.semicolon]
  | .message _ | .oneof _ | .enum _ | .service _ => [.rightBrace]
  | .rpc _ _ _ _ _ => [.semicolon, .rightBrace]
  | _ => [.semicolon]

/-- Whether a node ends with its value or a comment after it. -/
def Kind.trails (parent : Kind) : Kind → Bool
  | .option _ => parent.hasBrackets
  | _ => false

def Kind.place? : Kind → Option Place
  | .document => some .file
  | .message _ => some .message
  | .oneof _ => some .oneof
  | .enum _ => some .enum
  | .service _ => some .service
  | .rpc _ _ _ _ _ => some .rpc
  | .field _ _ _ _ | .enumValue _ _ => some .brackets
  | .option _ => some .value
  | _ => none

theorem Kind.hasBrackets_iff {k : Kind} : k.hasBrackets = true ↔ k.place? = some .brackets := by
  cases k <;> simp [hasBrackets, place?]

theorem headAt_option_ne {l : Place} {e : Expr} (h : headAt l .option = some e) : l ≠ .brackets := by
  rintro rfl
  cases h

theorem headAt_bracketOption_eq {l : Place} {e : Expr} (h : headAt l .bracketOption = some e) :
    l = .brackets := by
  cases l <;> first | rfl | cases h

theorem eq_bracketOption_of_unclosed {shape : Shape} {p : Punct}
    (h : (p, none) ∈ layout.delimiters shape) : shape = .bracketOption := by
  cases shape <;> simp [layout] at h ⊢

theorem closes (text : String) :
    Closes layout (fun shape => build shape text) (fun k l => k.place? = some l) Kind.closers
      Kind.trails where
  isComment_build shape us := by cases shape <;> rfl
  isComment_comment := rfl
  closers_comment _ := rfl
  trails_comment _ := rfl
  inside {shape us} h := by cases shape <;> first | rfl | exact absurd rfl h
  leaf {k l shape e tail us} _ _ hend hne := by
    cases shape with
    | optionValue => exact absurd rfl hne
    | version | importFile | package | reserved | field | enumValue | rpc =>
      obtain rfl := Option.some.inj hend
      exact ⟨.semicolon, List.mem_cons_self, rfl⟩
    | _ => cases hend
  block {k l shape e opening p us} hk hhead hdel := by
    cases shape with
    | option =>
      have hk' : k.hasBrackets = false := by
        rw [Bool.eq_false_iff, ne_eq, Kind.hasBrackets_iff, hk]
        exact fun hl => headAt_option_ne hhead (Option.some.inj hl)
      obtain ⟨-, hp⟩ := Prod.mk.inj (List.mem_singleton.1 hdel)
      obtain rfl := Option.some.inj hp
      simp [build, Kind.closers, hk']
    | field | enumValue | message | oneof | enum | service =>
      obtain ⟨-, hp⟩ := Prod.mk.inj (List.mem_singleton.1 hdel)
      obtain rfl := Option.some.inj hp
      exact List.mem_singleton.2 rfl
    | rpc =>
      obtain ⟨-, hp⟩ := Prod.mk.inj (List.mem_singleton.1 hdel)
      obtain rfl := Option.some.inj hp
      exact List.mem_cons_of_mem _ (List.mem_singleton.2 rfl)
    | bracketOption => cases (Prod.mk.inj (List.mem_singleton.1 hdel)).2
    | _ => cases hdel
  unclosed {k l shape e opening us} hk hhead hdel := by
    obtain rfl := eq_bracketOption_of_unclosed hdel
    obtain rfl := headAt_bracketOption_eq hhead
    simp [build, Kind.closers, Kind.hasBrackets_iff.2 hk]
  trails {k l shape e us} hk hhead htrails := by
    cases shape with
    | option =>
      have hl := (Kind.hasBrackets_iff.1 htrails).symm.trans hk
      exact absurd (Option.some.inj hl).symm (headAt_option_ne hhead)
    | bracketOption =>
      refine ⟨rfl, fun opening close hdel => ?_⟩
      exact (Prod.mk.inj (List.mem_singleton.1 hdel)).2
    | _ => cases htrails
  single {shape opening} hdel := by
    obtain rfl := eq_bracketOption_of_unclosed hdel
    refine ⟨rfl, fun kind => rfl, fun shape' e hhead => ?_⟩
    cases shape' <;> first | rfl | cases hhead

end Schema

namespace TextFormat

def Kind.closers (_parent : Kind) : Kind → List Punct
  | .comment | .field _ _ => []
  | _ => [.rightBrace, .rightAngle]

theorem closes (text : String) :
    Closes layout (fun shape => build shape text) (fun _ _ => True) Kind.closers
      (fun _ _ => false) where
  isComment_build shape us := by cases shape <;> rfl
  isComment_comment := rfl
  closers_comment _ := rfl
  trails_comment _ := rfl
  inside _ := trivial
  leaf {k l shape e tail us} _ _ hend hne := by
    cases shape with
    | field => exact absurd rfl hne
    | message => cases hend
  block {k l shape e opening p us} _ _ hdel := by
    cases shape with
    | field => cases hdel
    | message =>
      simp only [layout, List.mem_cons, Prod.mk.injEq, Option.some.injEq, List.not_mem_nil,
        or_false] at hdel
      rcases hdel with ⟨-, rfl⟩ | ⟨-, rfl⟩ <;> simp [build, Kind.closers]
  unclosed {k l shape e opening us} _ _ hdel := by
    cases shape <;> simp [layout] at hdel
  trails _ _ h := by cases h
  single {shape opening} hdel := by
    cases shape <;> simp [layout] at hdel

end TextFormat

namespace Document

/-- The ranges of a document's nodes fit its text and each other. -/
def Nested (text : String) : Document → Prop
  | .schema tree =>
    tree.Nested text (Language.schema.tokens text) Schema.Kind.closers Schema.Kind.trails
  | .textFormat tree =>
    tree.Nested text (Language.textFormat.tokens text) TextFormat.Kind.closers fun _ _ => false

theorem parse_eq_ok {language : Language} {text : String} {d : Document}
    (h : parse language text = .ok d) :
    (∃ tree, Schema.parse text = .ok tree ∧ language = .schema ∧ d = .schema tree) ∨
      ∃ tree, TextFormat.parse text = .ok tree ∧ language = .textFormat ∧ d = .textFormat tree := by
  cases language with
  | schema =>
    rw [parse] at h
    cases hp : Schema.parse text with
    | error e => simp [hp, Except.map] at h
    | ok tree =>
      rw [hp] at h
      exact .inl ⟨tree, rfl, rfl, (Except.ok.inj h).symm⟩
  | textFormat =>
    rw [parse] at h
    cases hp : TextFormat.parse text with
    | error e => simp [hp, Except.map] at h
    | ok tree =>
      rw [hp] at h
      exact .inr ⟨tree, rfl, rfl, (Except.ok.inj h).symm⟩

end Document
end ProtoSyntax
