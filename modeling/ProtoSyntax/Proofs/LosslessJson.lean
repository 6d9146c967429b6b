import ProtoSyntax.Document
import ProtoSyntax.Proofs.JsonText
import ProtoSyntax.Proofs.Tree.Edits
import ProtoSyntax.Proofs.Tree.Renaming

/-!
# Nothing of a tree is lost in JSON

The JSON of a tree has an object for each node. Its label tells which members of the kind follow, and
these tell the kind; the range comes next, and the children last, unless there are none. So the
outline of a tree can be told from its JSON text, and the tree but for the names of its nodes.
-/

namespace ProtoSyntax

/-- The label of a kind and its members tell the kind, whatever members come behind them. -/
def Legible (K : Type) [Vocabulary K] : Prop :=
  ∀ (k k' : K) (r s : List (String × Json)), Vocabulary.label k = Vocabulary.label k' →
    Vocabulary.members k ++ r = Vocabulary.members k' ++ s → k = k' ∧ r = s

namespace Outline

section

variable {K : Type} [Vocabulary K]

def childMembers (children : List (Outline K)) : List (String × Json) :=
  match forestJson children with
  | [] => []
  | elements => [("children", .array elements)]

theorem json_node (kind : K) (range : Range) (children : List (Outline K)) :
    (node kind range children).json = .object (("kind", .string (Vocabulary.label kind)) ::
      (Vocabulary.members kind ++
        ("start", .number range.start) :: ("end", .number range.stop) :: childMembers children)) := by
  rw [json, childMembers, List.cons_append, List.cons_append, List.append_assoc]
  rfl

theorem forestJson_eq {os os' : List (Outline K)} (h : childMembers os = childMembers os') :
    forestJson os = forestJson os' := by
  unfold childMembers at h
  split at h <;> split at h <;> simp_all

mutual

theorem json_inj (hK : Legible K) (o o' : Outline K) (h : o.json = o'.json) : o = o' := by
  match o, o' with
  | .node kind ⟨start, stop⟩ children, .node kind' ⟨start', stop'⟩ children' =>
    rw [json_node, json_node] at h
    obtain ⟨hhead, hmembers⟩ := List.cons.inj (Json.object.inj h)
    obtain ⟨rfl, hrest⟩ := hK kind kind' _ _ (Json.string.inj (Prod.mk.inj hhead).2) hmembers
    simp only [List.cons.injEq, Prod.mk.injEq, true_and, Json.number.injEq] at hrest
    obtain ⟨rfl, rfl, hchildren⟩ := hrest
    rw [forestJson_inj hK children children' (forestJson_eq hchildren)]

theorem forestJson_inj (hK : Legible K) (os os' : List (Outline K))
    (h : forestJson os = forestJson os') : os = os' := by
  match os, os' with
  | [], [] => rfl
  | [], _ :: _ | _ :: _, [] => cases h
  | o :: os, o' :: os' =>
    obtain ⟨ho, hos⟩ := List.cons.inj h
    rw [json_inj hK o o' ho, forestJson_inj hK os os' hos]

end

end

end Outline

namespace Tree

variable {K : Type} [Vocabulary K]

/-- A tree that was made from a bare root by adding nodes and moving ends. -/
def IsBuilt (t : Tree K) : Prop :=
  ∃ (length : Nat) (edits : List (Edit K)), edits.foldlM Edit.perform? (ofLength length) = some t

theorem IsBuilt.owned {t : Tree K} (h : t.IsBuilt) : t.Owned := by
  obtain ⟨length, edits, h⟩ := h
  exact Edit.owned_foldlM (owned_ofLength length) h

theorem Owned.jsonText_eq_iff (hK : Legible K) {t u : Tree K} (ht : t.Owned) (hu : u.Owned) :
    t.jsonText = u.jsonText ↔ ∃ f, Renames f t u := by
  rw [← ht.outline?_eq_iff hu]
  obtain ⟨o, ho⟩ : ∃ o, t.outline? = some o := exists_outlineAt? ht.linked.nonempty
  obtain ⟨o', ho'⟩ : ∃ o, u.outline? = some o := exists_outlineAt? hu.linked.nonempty
  constructor
  · intro h
    rw [jsonText, jsonText, ho, ho'] at h
    have hjson : o.json = o'.json := Json.text_injective h
    rw [ho, ho', Outline.json_inj hK o o' hjson]
  · intro h
    rw [jsonText, h, jsonText]

end Tree

/-! ### Kinds -/

theorem index_eq {K : Type} [Vocabulary K] {labels : List String} {index : K → Nat}
    (h : ∀ k, labels.idxOf (Vocabulary.label k) = index k) {k k' : K}
    (hl : Vocabulary.label k = Vocabulary.label k') : index k = index k' := by
  rw [← h, ← h, hl]

namespace Schema.Kind

theorem importModifierJson_injective : Function.Injective importModifierJson := by
  intro m n h
  rcases m with _ | _ | _ <;> rcases n with _ | _ | _ <;> first | rfl | simp [importModifierJson] at h

theorem fieldModifierJson_injective : Function.Injective fieldModifierJson := by
  intro m n h
  rcases m with _ | _ | _ | _ <;> rcases n with _ | _ | _ | _ <;> simp_all [fieldModifierJson]

theorem entryJson_injective : Function.Injective entryJson := by
  intro a b h
  cases a <;> cases b <;> simp_all [entryJson, Json.ofOption_injective.eq_iff]

def labels : List String :=
  ["Document", "Comment", "Syntax", "Import", "Package", "Option", "OptionValue", "Message", "Oneof",
    "Field", "Reserved", "Enum", "EnumValue", "Service", "Rpc"]

theorem idxOf_label (k : Kind) : labels.idxOf (Vocabulary.label k) = k.ctorIdx := by
  cases k <;> rfl

theorem legible : Legible Kind := by
  intro k k' r s hl h
  match k, k', index_eq idxOf_label hl with
  | .document, .document, _ | .comment, .comment, _ => exact ⟨rfl, h⟩
  | .version _, .version _, _ | .package _, .package _, _ | .option _, .option _, _
  | .optionValue _, .optionValue _, _ | .message _, .message _, _ | .oneof _, .oneof _, _
  | .enum _, .enum _, _ | .service _, .service _, _ | .enumValue _ _, .enumValue _ _, _
  | .rpc _ _ _ _ _, .rpc _ _ _ _ _, _ =>
    simpa [Vocabulary.members, members, and_assoc] using h
  | .importFile _ _, .importFile _ _, _ =>
    simpa [Vocabulary.members, members, and_assoc, importModifierJson_injective.eq_iff] using h
  | .field _ _ _ _, .field _ _ _ _, _ =>
    simpa [Vocabulary.members, members, and_assoc, fieldModifierJson_injective.eq_iff] using h
  | .reserved _, .reserved _, _ =>
    simpa [Vocabulary.members, members, (List.map_injective_iff.2 entryJson_injective).eq_iff] using h

end Schema.Kind

namespace TextFormat.Kind

def labels : List String := ["Document", "Comment", "Field", "Message"]

theorem idxOf_label (k : Kind) : labels.idxOf (Vocabulary.label k) = k.ctorIdx := by
  cases k <;> rfl

theorem legible : Legible Kind := by
  intro k k' r s hl h
  match k, k', index_eq idxOf_label hl with
  | .document, .document, _ | .comment, .comment, _ => exact ⟨rfl, h⟩
  | .field _ _, .field _ _, _ | .message _, .message _, _ =>
    simpa [Vocabulary.members, members, and_assoc] using h

end TextFormat.Kind

namespace Document

def language : Document → Language
  | .schema _ => .schema
  | .textFormat _ => .textFormat

def IsBuilt : Document → Prop
  | .schema tree => tree.IsBuilt
  | .textFormat tree => tree.IsBuilt

def Renames (f : Nat → Nat) : Document → Document → Prop
  | .schema tree, .schema other => Tree.Renames f tree other
  | .textFormat tree, .textFormat other => Tree.Renames f tree other
  | _, _ => False

/-- The JSON text of a tree tells all of it but the names of its nodes. -/
theorem jsonText_lossless {d e : Document} (hd : d.IsBuilt) (he : e.IsBuilt)
    (hlanguage : d.language = e.language) :
    d.jsonText = e.jsonText ↔ ∃ f, Renames f d e := by
  match d, e, hlanguage with
  | .schema _, .schema _, _ => exact hd.owned.jsonText_eq_iff Schema.Kind.legible he.owned
  | .textFormat _, .textFormat _, _ => exact hd.owned.jsonText_eq_iff TextFormat.Kind.legible he.owned

def inOrder : Tree Schema.Kind :=
  ⟨#[⟨.document, ⟨0, 12⟩, none, [1, 4]⟩, ⟨.message "\"\\\x01", ⟨0, 9⟩, some 0, [2, 3]⟩,
    ⟨.field "a" "1" "map<b, c>" (some (.map "b" "c")), ⟨3, 5⟩, some 1, []⟩,
    ⟨.comment, ⟨6, 7⟩, some 1, []⟩,
    ⟨.reserved [.name "\"\x7d", .range "1" none], ⟨9, 12⟩, some 0, []⟩]⟩

def backwards : Tree Schema.Kind :=
  ⟨#[⟨.document, ⟨0, 12⟩, none, [2, 1]⟩,
    ⟨.reserved [.name "\"\x7d", .range "1" none], ⟨9, 12⟩, some 0, []⟩,
    ⟨.message "\"\\\x01", ⟨0, 9⟩, some 0, [4, 3]⟩, ⟨.comment, ⟨6, 7⟩, some 2, []⟩,
    ⟨.field "a" "1" "map<b, c>" (some (.map "b" "c")), ⟨3, 5⟩, some 2, []⟩]⟩

theorem jsonText_lossless_backwards : (schema inOrder).IsBuilt ∧ (schema backwards).IsBuilt ∧
    (schema inOrder).language = (schema backwards).language ∧
    (schema inOrder).jsonText = (schema backwards).jsonText ∧ inOrder ≠ backwards ∧
    ∃ f, Renames f (schema inOrder) (schema backwards) := by
  have hinOrder : (schema inOrder).IsBuilt :=
    ⟨12, [.push 0 (.message "\"\\\x01") ⟨0, 9⟩,
      .push 1 (.field "a" "1" "map<b, c>" (some (.map "b" "c"))) ⟨3, 5⟩, .push 1 .comment ⟨6, 7⟩,
      .push 0 (.reserved [.name "\"\x7d", .range "1" none]) ⟨9, 12⟩], rfl⟩
  have hbackwards : (schema backwards).IsBuilt :=
    ⟨12, [.push 0 (.reserved [.name "\"\x7d", .range "1" none]) ⟨9, 10⟩, .setStop 1 12,
      .insert 0 0 (.message "\"\\\x01") ⟨0, 9⟩, .push 2 .comment ⟨6, 7⟩,
      .insert 2 0 (.field "a" "1" "map<b, c>" (some (.map "b" "c"))) ⟨3, 5⟩], rfl⟩
  have houtline : inOrder.outline? = backwards.outline? := by cbv
  have hjson : (schema inOrder).jsonText = (schema backwards).jsonText := by
    rw [jsonText, jsonText, Tree.jsonText, houtline, Tree.jsonText]
  exact ⟨hinOrder, hbackwards, rfl, hjson, by decide,
    (jsonText_lossless hinOrder hbackwards rfl).1 hjson⟩

end Document
end ProtoSyntax
