import ProtoSyntax.Proofs.NodeRanges
import ProtoSyntax.Proofs.Parsing.Enclosing

/-!
# The places of comments

Which characters open the blocks of each language; and that in every tree that is read from a text
each run of comments has one node, which is below exactly those blocks between whose delimiters it
lies.
-/

namespace ProtoSyntax

namespace Schema

def Kind.opening : Kind → List Punct
  | .message _ | .oneof _ | .enum _ | .service _ | .rpc _ _ _ _ _ => [.leftBrace]
  | _ => []

def Kind.bodiless : Kind → Bool
  | .rpc _ _ _ _ _ => true
  | _ => false

theorem lacks_rpcHead : Lacks rule [.leftBrace] rpcHead := by
  have hparameter : Lacks rule [.leftBrace] (.punct .leftParen :: rpcType) :=
    .punct (by decide) (lacks_rpcType (by decide))
  have hreturns : Lacks rule [.leftBrace]
      (.punct .rightParen :: .keyword .returns :: .punct .leftParen :: rpcType) :=
    .punct (by decide) (.keyword hparameter)
  exact .append (.append (.keyword (.word hparameter)) hreturns) (.punct (by decide) .nil)

theorem headAt_rpc_eq {l : Place} {e : Expr} (h : headAt l .rpc = some e) : e = rpcHead := by
  cases l <;> cases h
  rfl

theorem lacks_of_headAt {l : Place} {shape : Shape} {e : Expr} (h : headAt l shape = some e)
    (hshape : shape = .message ∨ shape = .oneof ∨ shape = .enum ∨ shape = .service) :
    Lacks rule [.leftBrace] e := by
  have hnamed (keyword : Keyword) : Lacks rule [.leftBrace] ([.keyword keyword, .word] : Expr) :=
    .keyword (.word .nil)
  rcases hshape with rfl | rfl | rfl | rfl <;> cases l <;> cases h <;> exact hnamed _

theorem opens (text : String) :
    Opens rule layout (fun shape => build shape text) Kind.opening Kind.bodiless where
  root := rfl
  comment := rfl
  block {l shape e p close us} hhead hdel hne := by
    cases shape with
    | message | oneof | enum | service =>
      obtain ⟨rfl, rfl⟩ := Prod.mk.inj (List.mem_singleton.1 hdel)
      exact ⟨List.mem_singleton.2 rfl, rfl, lacks_of_headAt hhead (by simp)⟩
    | rpc =>
      obtain ⟨rfl, rfl⟩ := Prod.mk.inj (List.mem_singleton.1 hdel)
      obtain rfl := headAt_rpc_eq hhead
      exact ⟨List.mem_singleton.2 rfl, rfl, lacks_rpcHead⟩
    | _ => exact absurd rfl hne
  leaf {l shape e tail us} hhead hend hne := by
    cases shape with
    | message | oneof | enum | service => cases hend
    | rpc =>
      obtain rfl := headAt_rpc_eq hhead
      obtain rfl := Option.some.inj hend
      have hend : Lacks rule [.leftBrace] [semicolon] := .punct (by decide) .nil
      exact ⟨rfl, lacks_rpcHead.append hend⟩
    | _ => exact absurd rfl hne

end Schema

namespace TextFormat

def Kind.opening : Kind → List Punct
  | .message _ => [.leftBrace, .leftAngle]
  | _ => []

theorem opens (text : String) :
    Opens rule layout (fun shape => build shape text) Kind.opening fun _ => false where
  root := rfl
  comment := rfl
  block {l shape e p close us} hhead hdel hne := by
    cases shape with
    | field => cases hdel
    | message =>
      obtain rfl := Option.some.inj hhead
      have hhead : Lacks rule [.leftBrace, .leftAngle] messageHead := by
        refine (lacks_fieldName (by decide)).append (.alt (fun a ha => ?_) .nil)
        simp only [List.mem_cons, List.not_mem_nil, or_false] at ha
        rcases ha with rfl | rfl
        · exact .nil
        · exact .punct (by decide) .nil
      simp only [layout, List.mem_cons, Prod.mk.injEq, List.not_mem_nil, or_false] at hdel
      rcases hdel with ⟨rfl, rfl⟩ | ⟨rfl, rfl⟩ <;> exact ⟨by simp [build, Kind.opening], rfl, hhead⟩
  leaf {l shape e tail us} _ hend hne := by
    cases shape with
    | field => exact absurd rfl hne
    | message => cases hend

end TextFormat

namespace Document

/-- The comments of a document are those of its text, in the blocks they lie in. -/
def CommentsPlaced (text : String) : Document → Prop
  | .schema tree =>
    tree.CommentsPlaced (Language.schema.tokens text) Schema.Kind.opening Schema.Kind.bodiless
  | .textFormat tree =>
    tree.CommentsPlaced (Language.textFormat.tokens text) TextFormat.Kind.opening fun _ => false

theorem commentsPlaced_of_parse {language : Language} {text : String} {d : Document}
    (h : parse language text = .ok d) : d.CommentsPlaced text := by
  rcases parse_eq_ok h with ⟨tree, hp, -, rfl⟩ | ⟨tree, hp, -, rfl⟩
  · exact Schema.reads.commentsPlaced (Schema.closes text) (Schema.opens text) rfl hp rfl
  · exact TextFormat.reads.commentsPlaced (TextFormat.closes text) (TextFormat.opens text) trivial hp rfl

theorem commentsPlaced_interrupting :
    ∃ d, parse .schema "message A/*a*/{/*b*//*c*/B/*d*/e=1[f={}/*g*/];}" = .ok d ∧
      d.CommentsPlaced "message A/*a*/{/*b*//*c*/B/*d*/e=1[f={}/*g*/];}" := by
  obtain ⟨d, hd⟩ : ∃ d, parse .schema "message A/*a*/{/*b*//*c*/B/*d*/e=1[f={}/*g*/];}" = .ok d :=
    exists_ok_of_isOk (by rw [parse, Schema.parse, tokens_eq]; cbv)
  exact ⟨d, hd, commentsPlaced_of_parse hd⟩

end Document
end ProtoSyntax
