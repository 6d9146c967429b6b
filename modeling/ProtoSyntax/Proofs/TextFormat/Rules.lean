import ProtoSyntax.Proofs.Literal.Rules
import ProtoSyntax.TextFormat.Grammar

/-!
# Text format in EBNF

The fields of a text with the nodes that they make. A field is a leaf or a block with fields of its
own; which one it is shows only after its name.
-/

namespace ProtoSyntax.TextFormat
open Ebnf (star alt)
open Piece (flatten)

inductive Nonterminal where
  | literal (n : Literal.Nonterminal)
  | field
deriving DecidableEq, Repr

abbrev Expr := Phrase Nonterminal Shape

def bodyUpTo (closing : Punct) : Expr := [star [.ref .field], .mark .closes, .punct closing]

def message : Expr :=
  [alt [.mark (.opens .message) :: .punct .leftBrace :: bodyUpTo .rightBrace,
    .mark (.opens .message) :: .punct .leftAngle :: bodyUpTo .rightAngle]]

def leafValue : Expr :=
  [alt [Literal.stringRun, Literal.scalar,
      .punct .leftBracket :: Literal.itemsUpToBracket .literal], .mark (.completes .field)]

def value : Expr := [alt [leafValue, message]]

def fieldRest : Expr := [alt [.punct .colon :: value, message]]

def field : Expr := .mark .begins :: Literal.fieldName ++ fieldRest ++ Literal.separator

def document : Expr := [star [.ref .field]]

def rule : Nonterminal → Expr
  | .literal n => Literal.rule .literal n
  | .field => field

def phrase : Goal → Expr
  | .literal g => Literal.phrase .literal g
  | .fields => document
  | .body closing => bodyUpTo closing
  | .fieldRest => fieldRest
  | .value => value

def claims : Goal → TokenKind → Prop
  | .literal g => g.claims
  | .fieldRest | .value => fun k => k = .string
  | .fields | .body _ => fun _ => False

def follow (g : Goal) (k : Symbols) : Prop :=
  Clear rule (claims g) (stackPhrase phrase k) ∧
    match g with
    | .literal g => g.IsClosable
    | .fields => k = []
    | .body closing => closing = .rightBrace ∨ closing = .rightAngle
    | .fieldRest | .value => True

def blind (_ : Goal) (_ : List Piece) : Prop := False

theorem hosted : Literal.Hosted rule phrase react follow .literal .literal :=
  ⟨fun _ => rfl, fun _ => rfl, fun _ _ => rfl, fun _ _ => Iff.rfl⟩

abbrev Starts (f : Start Goal Shape) (a : Expr) : Prop := Predicts rule phrase f a

theorem openMessage?_eq_take {kind : TokenKind} {r : Role Shape} {n : Symbols} :
    openMessage? kind = some (.take r n) ↔ r = .opens .message ∧
      (kind = .punct .leftBrace ∧ n = [.goal (.body .rightBrace)] ∨
        kind = .punct .leftAngle ∧ n = [.goal (.body .rightAngle)]) := by
  simp only [openMessage?, Option.map_eq_some_iff, Literal.closing?_eq_some]
  grind

theorem message_starts : Starts
    (fun t r n => openMessage? t.kind = some (.take r n)) message := by
  have h : Starts _ message :=
    .or (.role (Role.opens Shape.message) [.goal (Goal.body .rightBrace)] rfl)
      (.or (.role (Role.opens Shape.message) [.goal (Goal.body .rightAngle)] rfl) .none)
  refine h.congr ?_
  intro t r n
  simp only [openMessage?_eq_take, decide_eq_true_eq]
  tauto

theorem afterLeafStart?_eq_some {kind : TokenKind} {n : Symbols} :
    afterLeafStart? kind = some n ↔ ∃ m, (kind = .punct .leftBracket ∧ m = [.goal (.literal .items)] ∨
      Literal.afterScalarStart? .literal kind = some m) ∧ n = m ++ [.complete .field] := by
  unfold afterLeafStart?
  split
  · simp_all [Literal.afterScalarStart?, TokenKind.isScalar, TokenKind.isWord, eq_comm]
  · simp_all only [Option.map_eq_some_iff, false_and, false_or]
    grind

theorem value_starts : Starts
    (fun t r n => r = .plain ∧ afterLeafStart? t.kind = some n ∨
      openMessage? t.kind = some (.take r n)) value := by
  have hleaf : Starts _ leafValue :=
    (hosted.leaf (.or (.token [.goal (.literal .items)] rfl) .none)).append [.complete .field] rfl
  have h : Starts _ value := .or hleaf (.or message_starts .none)
  refine h.congr ?_
  intro t r n
  simp only [afterLeafStart?_eq_some, decide_eq_true_eq]
  grind

theorem fieldRest_starts : Starts
    (fun t r n => t.kind = .punct .colon ∧ r = .plain ∧ n = [.goal .value] ∨
      openMessage? t.kind = some (.take r n)) fieldRest := by
  have h : Starts _ fieldRest := .or (.token [.goal .value] rfl) (.or message_starts .none)
  refine h.congr ?_
  intro t r n
  simp only [decide_eq_true_eq]
  tauto

def fieldTail : Symbols := [.goal .fieldRest, .goal (.literal .separator)]

theorem field_starts : Starts
    (fun t r n => r = .begins ∧ ∃ m, Literal.afterNameStart? .literal t.kind = some m ∧
      n = m ++ fieldTail) [.ref .field] := by
  have h : Starts _ (Literal.fieldName ++ (fieldRest ++ Literal.separator)) :=
    hosted.fieldName.append fieldTail rfl
  refine .ref rfl ((h.withRole (by grind) .begins).congr ?_)
  intro t r n
  grind

theorem afterFieldStart?_eq_some {after : Goal} {kind : TokenKind} {n : Symbols} :
    afterFieldStart? after kind = some n ↔
      ∃ m, Literal.afterNameStart? .literal kind = some m ∧ n = m ++ fieldTail ++ [.goal after] := by
  simp only [afterFieldStart?, Option.map_eq_some_iff, fieldTail]
  grind

section

variable {k : Symbols} {kind : TokenKind}

theorem body_starts (closing : Punct) : Starts
    (fun t r n => t.kind = .punct closing ∧ r = .closes ∧ n = [] ∨
      r = .begins ∧ afterFieldStart? (.body closing) t.kind = some n) (bodyUpTo closing) := by
  refine (field_starts.loop (g := .body closing) (.role .closes [] rfl) rfl).congr ?_
  intro t r n
  simp only [decide_eq_true_eq, afterFieldStart?_eq_some]
  grind

theorem document_offers : Offers rule phrase
    (fun t r n => r = .begins ∧ afterFieldStart? .fields t.kind = some n) document := by
  refine (Offers.star (g := .fields) field_starts rfl).congr ?_
  intro t r n
  simp only [afterFieldStart?_eq_some]
  grind

theorem not_claimed_of_name {claimed : TokenKind → Prop} {m : Symbols}
    (hm : Literal.afterNameStart? .literal kind = some m) (hw : ∀ t, claimed t → t.isWord = false)
    (hb : ¬ claimed (.punct .leftBracket)) : ¬ claimed kind := by
  rcases Literal.afterNameStart?_eq_some.1 hm with ⟨rfl, -⟩ | ⟨ht, -⟩
  · exact hb
  · intro hc
    simp [hw _ hc] at ht

def Fields (g : Goal) (k : Symbols) : Prop :=
  ∀ claimed : TokenKind → Prop, (∀ t, claimed t → t.isWord = false) →
    (∀ p ∈ [Punct.leftBracket, .rightBrace, .rightAngle], ¬ claimed (.punct p)) →
    Clear rule claimed (stackPhrase phrase (.goal g :: k))

theorem fields_fields : Fields .fields [] := by
  intro claimed hw hp
  refine document_offers.clear ?_ .nil
  rintro t r n ⟨-, hn⟩
  obtain ⟨m, hm, -⟩ := afterFieldStart?_eq_some.1 hn
  exact not_claimed_of_name hm hw (hp _ (by simp))

theorem fields_body {closing : Punct} (hc : closing = .rightBrace ∨ closing = .rightAngle) :
    Fields (.body closing) k := by
  intro claimed hw hp
  refine (body_starts closing).clear ?_
  rintro t r n (⟨ht, -⟩ | ⟨-, hn⟩)
  · rw [ht]
    rcases hc with rfl | rfl <;> exact hp _ (by simp)
  · obtain ⟨m, hm, -⟩ := afterFieldStart?_eq_some.1 hn
    exact not_claimed_of_name hm hw (hp _ (by simp))

theorem followed_field {after : Goal} {n : Symbols} (hn : afterFieldStart? after kind = some n)
    (ha : Fields after k) (hk : Followed follow (.goal after :: k)) : Followed follow (n ++ k) := by
  obtain ⟨m, hm, rfl⟩ := afterFieldStart?_eq_some.1 hn
  have hseparator : Offers rule phrase _ Literal.separator := Literal.Hosted.separator
  rw [List.append_assoc, List.append_assoc]
  refine hosted.followed_name hm ⟨⟨hseparator.clear ?_ ?_, trivial⟩, ⟨?_, trivial⟩, hk⟩
  · rintro t r n ⟨-, ht | ht, -⟩ <;> simp [claims, ht]
  · exact ha _ (by rintro _ rfl; rfl) (by simp [claims])
  · exact ha _ (by rintro _ (rfl | rfl) <;> rfl) (by simp [claims, Literal.Goal.claims])

theorem followed_message {r : Role Shape} {n : Symbols}
    (hn : openMessage? kind = some (.take r n)) (hk : Followed follow k) :
    Followed follow (n ++ k) := by
  obtain ⟨-, ⟨-, rfl⟩ | ⟨-, rfl⟩⟩ := openMessage?_eq_take.1 hn
  · exact ⟨⟨.unguarded, .inl rfl⟩, hk⟩
  · exact ⟨⟨.unguarded, .inr rfl⟩, hk⟩

theorem getD_openMessage?_ne_skip {reaction : Reaction Goal Shape} (h : reaction ≠ .skip) :
    (openMessage? kind).getD reaction ≠ .skip := by
  unfold openMessage?
  cases Literal.closing? kind <;> simp [h]

theorem openMessage?_eq_none {n : Symbols} (hn : afterLeafStart? kind = some n) :
    openMessage? kind = none := by
  rw [openMessage?, Option.map_eq_none_iff, Option.eq_none_iff_forall_ne_some]
  intro c hc
  rcases Literal.closing?_eq_some.1 hc with ⟨rfl, -⟩ | ⟨rfl, -⟩ <;>
    simp [afterLeafStart?, Literal.afterScalarStart?, TokenKind.isScalar, TokenKind.isWord] at hn

theorem getD_openMessage?_eq_take {reaction : Reaction Goal Shape} {r : Role Shape} {n : Symbols} :
    (openMessage? kind).getD reaction = .take r n ↔
      openMessage? kind = some (.take r n) ∨ openMessage? kind = none ∧ reaction = .take r n := by
  cases openMessage? kind <;> simp

end

theorem guided_fields : Guided rule phrase react follow blind .fields where
  skip _ hd := .stop hd
  take ht hd := by
    simp only [react, flatten, List.flatMap_cons, Piece.tokens, List.cons_append, kindAt_cons_zero,
      Reaction.takeOrRefuse_eq_take] at ht
    exact (document_offers _ _).2 (.inr ⟨_, _, _, _, ht, hd, rfl⟩)
  step {k ss} hd hk hks _ := by
    obtain ⟨-, rfl⟩ := hk
    rcases (document_offers _ _).1 hd with hd' | ⟨p, r, n, ts, hn, hd', rfl⟩
    · cases hd'
      exact .skip rfl .nil
    · refine .take ?_ (by simpa using hd') ?_
      · simpa [react] using hn
      · exact followed_field hn.2 fields_fields ⟨⟨.unguarded, rfl⟩, hks⟩

theorem guided_body (closing : Punct) :
    Guided rule phrase react follow blind (.body closing) := by
  refine .required rfl (body_starts closing) ?_ ?_ ?_ ?_
  · rintro (_ | ⟨t, ts⟩)
    · simp [react]
    · simp only [react, kindAt_cons_zero]
      split <;> simp
  · intro t ts r n ht
    simp only [react, kindAt_cons_zero] at ht
    split at ht <;> simp_all
  · rintro t ts r n k hk (⟨ht, rfl, rfl⟩ | ⟨rfl, hn⟩)
    · simp [react, ht]
    · have hne : t.kind ≠ .punct closing := by
        obtain ⟨m, hm, -⟩ := afterFieldStart?_eq_some.1 hn
        have hbracket : (.punct .leftBracket : TokenKind) ≠ .punct closing := by
          rcases hk.2 with rfl | rfl <;> simp
        exact @not_claimed_of_name _ (· = .punct closing) _ hm (by rintro _ rfl; rfl) hbracket
      simp [react, hne, hn]
  · rintro t r n k (⟨-, -, rfl⟩ | ⟨-, hn⟩) hk hks
    · exact hks
    · exact followed_field hn (fields_body hk.2) ⟨hk, hks⟩

theorem guided_fieldRest : Guided rule phrase react follow blind .fieldRest := by
  refine .required rfl fieldRest_starts ?_ ?_ ?_ ?_
  · rintro (_ | ⟨t, ts⟩)
    · simp [react]
    · by_cases hc : t.kind = .punct .colon
      · simp [react, hc]
      · simpa [react, hc] using getD_openMessage?_ne_skip (by simp)
  · intro t ts r n ht
    by_cases hc : t.kind = .punct .colon
    · simp [react, hc] at ht
      exact .inl ⟨hc, ht.1.symm, ht.2.symm⟩
    · simp [react, hc, getD_openMessage?_eq_take] at ht
      exact .inr ht
  · rintro t ts r n k - (⟨ht, rfl, rfl⟩ | hn)
    · simp [react, ht]
    · have hne : t.kind ≠ .punct .colon := by
        rcases (openMessage?_eq_take.1 hn).2 with ⟨ht, -⟩ | ⟨ht, -⟩ <;> simp [ht]
      simp [react, hne, hn]
  · rintro t r n k (⟨-, -, rfl⟩ | hn) hk hks
    · exact ⟨⟨hk.1, trivial⟩, hks⟩
    · exact followed_message hn hks

theorem guided_value : Guided rule phrase react follow blind .value := by
  refine .required rfl value_starts ?_ ?_ ?_ ?_
  · rintro (_ | ⟨t, ts⟩)
    · simp [react]
    · simpa [react] using getD_openMessage?_ne_skip (by simp)
  · intro t ts r n ht
    simp only [react, kindAt_cons_zero, Option.bind_some, getD_openMessage?_eq_take,
      Reaction.takeOrRefuse_eq_take] at ht
    tauto
  · rintro t ts r n k - (⟨rfl, hn⟩ | hn)
    · simp [react, openMessage?_eq_none hn, hn]
    · simp [react, hn]
  · rintro t r n k (⟨-, hn⟩ | hn) hk hks
    · obtain ⟨m, hm, rfl⟩ := afterLeafStart?_eq_some.1 hn
      rw [List.append_assoc]
      rcases hm with ⟨-, rfl⟩ | hm
      · exact ⟨⟨.unguarded, trivial⟩, hks⟩
      · exact hosted.followed_scalar hm (clear_complete hk.1) hks
    · exact followed_message hn hks

theorem guided (g : Goal) : Guided rule phrase react follow blind g := by
  cases g with
  | literal g => exact hosted.guided g
  | fields => exact guided_fields
  | body closing => exact guided_body closing
  | fieldRest => exact guided_fieldRest
  | value => exact guided_value

end ProtoSyntax.TextFormat
