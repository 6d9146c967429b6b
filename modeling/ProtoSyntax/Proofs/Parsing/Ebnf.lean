import Mathlib.Data.List.Basic
import ProtoSyntax.Parsing.Prediction

/-!
# EBNF over marked tokens

A text is a sequence of pieces: a token that is no comment and the comments right after it.
Expressions in EBNF derive sequences of signals, which are pieces and marks between them; the marks
tell where nodes begin, open and end and take up no token. Derivations expand the leftmost item, so
that they can be followed by a pursuit of symbols.
-/

namespace ProtoSyntax

/-- A token with the run of comments that follows it. -/
structure Piece where
  token : Token
  comments : List Token
  token_isComment : token.isComment = false
  comments_isComment : ∀ t ∈ comments, t.isComment = true

@[simp] theorem kindAt_nil (k : Nat) : kindAt [] k = none := rfl

@[simp] theorem kindAt_cons_zero (t : Token) (ts : List Token) :
    kindAt (t :: ts) 0 = some t.kind := rfl

theorem kindAt_cons_one (t : Token) (ts : List Token) : kindAt (t :: ts) 1 = kindAt ts 0 := rfl

namespace Piece

abbrev kind (p : Piece) : TokenKind := p.token.kind

def tokens (p : Piece) : List Token := p.token :: p.comments

def flatten (ps : List Piece) : List Token := ps.flatMap tokens

@[simp] theorem flatten_nil : flatten [] = [] := rfl

@[simp] theorem flatten_cons (p : Piece) (ps : List Piece) :
    flatten (p :: ps) = p.token :: (p.comments ++ flatten ps) := rfl

@[simp] theorem flatten_append (ps qs : List Piece) :
    flatten (ps ++ qs) = flatten ps ++ flatten qs := List.flatMap_append

@[simp] theorem dropComments_flatten (ps : List Piece) : dropComments (flatten ps) = flatten ps := by
  cases ps with
  | nil => rfl
  | cons p ps => simp [dropComments, p.token_isComment]

theorem dropComments_append_flatten {lead : List Token} (hlead : ∀ t ∈ lead, t.isComment = true)
    (ps : List Piece) : dropComments (lead ++ flatten ps) = flatten ps := by
  rw [dropComments, List.dropWhile_append_of_pos hlead]
  exact dropComments_flatten ps

@[simp] theorem dropComments_comments_append (p : Piece) (ps : List Piece) :
    dropComments (p.comments ++ flatten ps) = flatten ps :=
  dropComments_append_flatten p.comments_isComment ps

theorem takeWhile_comments_append (p : Piece) (ps : List Piece) :
    (p.comments ++ flatten ps).takeWhile (·.isComment) = p.comments := by
  rw [List.takeWhile_append_of_pos p.comments_isComment]
  cases ps with
  | nil => simp
  | cons q qs => simp [q.token_isComment]

theorem kindAt_flatten_zero (ps : List Piece) :
    kindAt (flatten ps) 0 = ps.head?.map kind := by cases ps <;> rfl

/-- Looking one token further finds the next piece only if no comment stands in between. -/
theorem kindAt_flatten_one (p : Piece) (ps : List Piece) :
    kindAt (flatten (p :: ps)) 1 =
      match p.comments with
      | [] => ps.head?.map kind
      | c :: _ => some c.kind := by
  cases hc : p.comments with
  | cons c cs => simp [kindAt, hc]
  | nil =>
    cases ps with
    | nil => simp [kindAt, hc]
    | cons q qs => simp [kindAt, hc]

theorem exists_flatten (tokens : List Token) :
    ∃ lead ps, tokens = lead ++ flatten ps ∧ ∀ t ∈ lead, t.isComment = true := by
  induction tokens with
  | nil => exact ⟨[], [], rfl, by simp⟩
  | cons t ts ih =>
    obtain ⟨lead, ps, rfl, hl⟩ := ih
    cases ht : t.isComment with
    | true => exact ⟨t :: lead, ps, rfl, by simpa [ht] using hl⟩
    | false => exact ⟨[], ⟨t, lead, ht, hl⟩ :: ps, rfl, by simp⟩

theorem filter_flatten (ps : List Piece) :
    (flatten ps).filter (!·.isComment) = ps.map token := by
  induction ps with
  | nil => rfl
  | cons p ps ih =>
    have hc : p.comments.filter (!·.isComment) = [] := by
      simpa [List.filter_eq_nil_iff] using p.comments_isComment
    simp [p.token_isComment, hc, ih]

theorem filter_append_flatten {lead : List Token} (hlead : ∀ t ∈ lead, t.isComment = true)
    (ps : List Piece) : (lead ++ flatten ps).filter (!·.isComment) = ps.map token := by
  have hnil : lead.filter (!·.isComment) = [] := by
    simpa [List.filter_eq_nil_iff] using hlead
  rw [List.filter_append, hnil, List.nil_append, filter_flatten]

end Piece

/-- What a derivation says about nodes: one begins, opens, ends with the next token, is complete
as a leaf, or ends without a token of its own. -/
inductive Mark (S : Type) where
  | begins
  | opens (shape : S)
  | closes
  | completes (shape : S)
  | finishes
deriving DecidableEq, Repr

inductive Signal (S : Type) where
  | token (p : Piece)
  | mark (m : Mark S)

namespace Signal

variable {S : Type}

def pieces : List (Signal S) → List Piece
  | [] => []
  | .token p :: ss => p :: pieces ss
  | .mark _ :: ss => pieces ss

@[simp] theorem pieces_append (ss ts : List (Signal S)) :
    pieces (ss ++ ts) = pieces ss ++ pieces ts := by
  induction ss with
  | nil => rfl
  | cons s ss ih => cases s <;> simp [pieces, ih]

theorem pieces_flatten (xs : List (List (Signal S))) : pieces xs.flatten = xs.flatMap pieces := by
  induction xs with
  | nil => rfl
  | cons x xs ih => rw [List.flatten_cons, pieces_append, ih, List.flatMap_cons]

theorem mem_pieces {p : Piece} {ss : List (Signal S)} : p ∈ pieces ss ↔ .token p ∈ ss := by
  induction ss with
  | nil => simp [pieces]
  | cons s ss ih => cases s <;> simp [pieces, ih]

end Signal

inductive Ebnf (N S : Type) where
  | token (accepts : TokenKind → String → Bool)
  | mark (m : Mark S)
  | alt (choices : List (List (Ebnf N S)))
  | star (a : List (Ebnf N S))
  | ref (n : N)

abbrev Phrase (N S : Type) := List (Ebnf N S)

namespace Ebnf

variable {N S : Type}

def opt (a : Phrase N S) : Ebnf N S := alt [[], a]

def sepBy (a separator : Phrase N S) : Phrase N S := a ++ [star (separator ++ a)]

def kind (k : TokenKind) : Ebnf N S := token fun kind _ => kind = k

def punct (p : Punct) : Ebnf N S := kind (.punct p)

def keyword (k : Keyword) : Ebnf N S := kind (.keyword k)

def string : Ebnf N S := kind .string

def word : Ebnf N S := token fun kind _ => kind.isWord

def integer : Ebnf N S := token fun kind _ => kind.isInteger

def leaf (shape : S) (a : Phrase N S) : Phrase N S :=
  mark .begins :: a ++ [mark (.completes shape)]

def block (shape : S) (head : Phrase N S) (opener : Ebnf N S) (body : Phrase N S)
    (closer : Ebnf N S) : Phrase N S :=
  mark .begins :: head ++ mark (.opens shape) :: opener :: body ++ [mark .closes, closer]

end Ebnf

/-- The signals that an expression derives, where names stand for the expressions of `rule`. -/
inductive Derives {N S : Type} (rule : N → Phrase N S) : Phrase N S → List (Signal S) → Prop where
  | nil : Derives rule [] []
  | token {accepts : TokenKind → String → Bool} {p : Piece} {e : Phrase N S}
      {ss : List (Signal S)} :
      accepts p.kind p.token.text = true → Derives rule e ss →
      Derives rule (.token accepts :: e) (.token p :: ss)
  | mark (m : Mark S) {e : Phrase N S} {ss : List (Signal S)} :
      Derives rule e ss → Derives rule (.mark m :: e) (.mark m :: ss)
  | alt {choices : List (Phrase N S)} {a e : Phrase N S} {ss : List (Signal S)} :
      a ∈ choices → Derives rule (a ++ e) ss → Derives rule (.alt choices :: e) ss
  | stop {a e : Phrase N S} {ss : List (Signal S)} :
      Derives rule e ss → Derives rule (.star a :: e) ss
  | more {a e : Phrase N S} {ss : List (Signal S)} :
      Derives rule (a ++ .star a :: e) ss → Derives rule (.star a :: e) ss
  | ref {n : N} {e : Phrase N S} {ss : List (Signal S)} :
      Derives rule (rule n ++ e) ss → Derives rule (.ref n :: e) ss

namespace Derives

variable {N S : Type} {rule : N → Phrase N S} {a b : Phrase N S} {x y ss : List (Signal S)}

theorem append (ha : Derives rule a x) (hb : Derives rule b y) :
    Derives rule (a ++ b) (x ++ y) := by
  induction ha with
  | nil => exact hb
  | token hp _ ih => exact .token hp ih
  | mark m _ ih => exact .mark m ih
  | alt hc _ ih => exact .alt hc (by simpa using ih)
  | stop _ ih => exact .stop ih
  | more _ ih => exact .more (by simpa using ih)
  | ref _ ih => exact .ref (by simpa using ih)

theorem split (h : Derives rule (a ++ b) ss) :
    ∃ x y, ss = x ++ y ∧ Derives rule a x ∧ Derives rule b y := by
  -- The derivation is cut where it comes to `b`, so in each case its first item is of `a` or of `b`.
  generalize he : a ++ b = e at h
  induction h generalizing a with
  | nil =>
    obtain ⟨rfl, rfl⟩ := List.append_eq_nil_iff.1 he
    exact ⟨[], [], rfl, .nil, .nil⟩
  | token hp h ih =>
    rcases List.append_eq_cons_iff.1 he with ⟨rfl, rfl⟩ | ⟨a, rfl, rfl⟩
    · exact ⟨[], _, rfl, .nil, .token hp h⟩
    · obtain ⟨x, y, rfl, hx, hy⟩ := ih rfl
      exact ⟨_ :: x, y, rfl, .token hp hx, hy⟩
  | mark m h ih =>
    rcases List.append_eq_cons_iff.1 he with ⟨rfl, rfl⟩ | ⟨a, rfl, rfl⟩
    · exact ⟨[], _, rfl, .nil, .mark m h⟩
    · obtain ⟨x, y, rfl, hx, hy⟩ := ih rfl
      exact ⟨_ :: x, y, rfl, .mark m hx, hy⟩
  | alt hc h ih =>
    rcases List.append_eq_cons_iff.1 he with ⟨rfl, rfl⟩ | ⟨a, rfl, rfl⟩
    · exact ⟨[], _, rfl, .nil, .alt hc h⟩
    · obtain ⟨x, y, rfl, hx, hy⟩ := ih (List.append_assoc _ a b)
      exact ⟨x, y, rfl, .alt hc hx, hy⟩
  | stop h ih =>
    rcases List.append_eq_cons_iff.1 he with ⟨rfl, rfl⟩ | ⟨a, rfl, rfl⟩
    · exact ⟨[], _, rfl, .nil, .stop h⟩
    · obtain ⟨x, y, rfl, hx, hy⟩ := ih rfl
      exact ⟨x, y, rfl, .stop hx, hy⟩
  | @more c e ss h ih =>
    rcases List.append_eq_cons_iff.1 he with ⟨rfl, rfl⟩ | ⟨a, rfl, rfl⟩
    · exact ⟨[], _, rfl, .nil, .more h⟩
    · obtain ⟨x, y, rfl, hx, hy⟩ := ih (a := c ++ .star c :: a) (by simp)
      exact ⟨x, y, rfl, .more hx, hy⟩
  | ref h ih =>
    rcases List.append_eq_cons_iff.1 he with ⟨rfl, rfl⟩ | ⟨a, rfl, rfl⟩
    · exact ⟨[], _, rfl, .nil, .ref h⟩
    · obtain ⟨x, y, rfl, hx, hy⟩ := ih (List.append_assoc _ a b)
      exact ⟨x, y, rfl, .ref hx, hy⟩

end Derives

def Generates {N S : Type} (rule : N → Phrase N S) (e : Phrase N S) (ts : List Token) : Prop :=
  ∃ ss, Derives rule e ss ∧ (Signal.pieces ss).map (·.token) = ts

/-- Nothing that the expression derives begins with a piece of a guarded kind. -/
def Clear {N S : Type} (rule : N → Phrase N S) (guarded : TokenKind → Prop) (e : Phrase N S) :
    Prop :=
  ∀ ss, Derives rule e ss → ∀ p ∈ (Signal.pieces ss).head?, ¬ guarded p.kind

namespace Clear

variable {N S : Type} {rule : N → Phrase N S} {guarded : TokenKind → Prop} {a e : Phrase N S}

theorem mono {fewer : TokenKind → Prop} (h : Clear rule guarded e)
    (hg : ∀ k, fewer k → guarded k) : Clear rule fewer e :=
  fun ss hd p hp hk => h ss hd p hp (hg _ hk)

@[simp] theorem unguarded : Clear rule (fun _ => False) e := fun _ _ _ _ => id

theorem kindAt_ne (h : Clear rule guarded e) {ss : List (Signal S)} (hd : Derives rule e ss)
    {k : TokenKind} (hk : guarded k) : kindAt (Piece.flatten (Signal.pieces ss)) 0 ≠ some k := by
  rw [Piece.kindAt_flatten_zero]
  intro he
  obtain ⟨p, hp, rfl⟩ := Option.map_eq_some_iff.1 he
  exact h ss hd p hp hk

theorem kindAt_one_ne (h : Clear rule guarded e) {ss : List (Signal S)} (hd : Derives rule e ss)
    {k : TokenKind} (hk : guarded k) (hc : k.isComment = false) (p : Piece) :
    kindAt (Piece.flatten (p :: Signal.pieces ss)) 1 ≠ some k := by
  rw [Piece.kindAt_flatten_one]
  cases hp : p.comments with
  | nil =>
    have := h.kindAt_ne hd hk
    rwa [Piece.kindAt_flatten_zero] at this
  | cons c cs =>
    have hcomment : c.isComment = true := p.comments_isComment c (by simp [hp])
    simp only [ne_eq, Option.some.injEq]
    rintro rfl
    rw [Token.isComment, hc] at hcomment
    cases hcomment

theorem nil : Clear rule guarded [] := by
  intro ss hd
  cases hd
  simp [Signal.pieces]

theorem mark {m : Mark S} (h : Clear rule guarded e) : Clear rule guarded (.mark m :: e) := by
  intro ss hd
  cases hd with
  | mark _ hd => exact fun p hp => h _ hd p hp

theorem token {accepts : TokenKind → String → Bool}
    (h : ∀ k text, accepts k text = true → ¬ guarded k) :
    Clear rule guarded (.token accepts :: e) := by
  intro ss hd
  cases hd with
  | token hp hd => simpa [Signal.pieces] using h _ _ hp

theorem star (h : Clear rule guarded e) (ha : Clear rule guarded (a ++ .star a :: e)) :
    Clear rule guarded (.star a :: e) := by
  intro ss hd
  cases hd with
  | stop hd => exact h _ hd
  | more hd => exact ha _ hd

end Clear
end ProtoSyntax
