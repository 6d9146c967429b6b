import ProtoSyntax.Proofs.Parsing.Parts

/-!
# Layouts

A layout tells for each place in a text, such as the body of a message, which nodes and which bare
tokens may stand there, and how each node is written. What a grammar derives for a place is then
cut into parts that fit it.
-/

namespace ProtoSyntax

variable {N S L : Type}

/-- What is told of an expression item by item is told of two of them, one after the other. -/
theorem Phrase.fold_append {B : Sort*} {op : B → B → B} {item : Ebnf N S → B} {P : Phrase N S → B}
    (hassoc : ∀ b c d, op (op b c) d = op b (op c d)) (hunit : ∀ b, op (P []) b = b)
    (hcons : ∀ i e, P (i :: e) = op (item i) (P e)) (a e : Phrase N S) : P (a ++ e) = op (P a) (P e) := by
  induction a with
  | nil => exact (hunit _).symm
  | cons i a ih => rw [List.cons_append, hcons, hcons, ih, hassoc]

theorem Phrase.of_choices {P : Phrase N S → Prop} {Q : List (Phrase N S) → Prop}
    (hcons : ∀ a choices, Q (a :: choices) → P a ∧ Q choices) {choices : List (Phrase N S)}
    (h : Q choices) {a : Phrase N S} (ha : a ∈ choices) : P a := by
  induction choices with
  | nil => cases ha
  | cons b choices ih =>
    obtain ⟨hb, hchoices⟩ := hcons b choices h
    rcases List.mem_cons.1 ha with rfl | ha
    · exact hb
    · exact ih hchoices ha

section plain

variable (safe : N → Bool)

mutual

/-- Whether an item derives tokens only, given names that do. -/
def Ebnf.isPlain : Ebnf N S → Bool
  | .token _ => true
  | .mark _ => false
  | .alt choices => allPlain choices
  | .star a => isPlainPhrase a
  | .ref n => safe n

def isPlainPhrase : List (Ebnf N S) → Bool
  | [] => true
  | i :: e => i.isPlain && isPlainPhrase e

def allPlain : List (List (Ebnf N S)) → Bool
  | [] => true
  | a :: choices => isPlainPhrase a && allPlain choices

end

mutual

def Ebnf.isSolid : Ebnf N S → Bool
  | .token _ => true
  | .alt choices => allSolid choices
  | .mark _ | .star _ | .ref _ => false

def isSolidPhrase : List (Ebnf N S) → Bool
  | [] => false
  | i :: e => i.isSolid || isSolidPhrase e

def allSolid : List (List (Ebnf N S)) → Bool
  | [] => true
  | a :: choices => isSolidPhrase a && allSolid choices

end

theorem isPlainPhrase_append (a e : Phrase N S) :
    isPlainPhrase safe (a ++ e) = (isPlainPhrase safe a && isPlainPhrase safe e) :=
  Phrase.fold_append Bool.and_assoc Bool.true_and (fun _ _ => rfl) a e

theorem isPlainPhrase_of_allPlain {a : Phrase N S} {choices : List (Phrase N S)}
    (h : allPlain safe choices = true) (ha : a ∈ choices) : isPlainPhrase safe a = true :=
  Phrase.of_choices (P := (isPlainPhrase safe · = true)) (Q := (allPlain safe · = true))
    (fun _ _ => (Bool.and_eq_true _ _).mp) h ha

theorem isSolidPhrase_append (a e : Phrase N S) :
    isSolidPhrase (a ++ e) = (isSolidPhrase a || isSolidPhrase e) :=
  Phrase.fold_append Bool.or_assoc Bool.false_or (fun _ _ => rfl) a e

theorem isSolidPhrase_of_allSolid {a : Phrase N S} {choices : List (Phrase N S)}
    (h : allSolid choices = true) (ha : a ∈ choices) : isSolidPhrase a = true :=
  Phrase.of_choices (P := (isSolidPhrase · = true)) (Q := (allSolid · = true))
    (fun _ _ => (Bool.and_eq_true _ _).mp) h ha

end plain

namespace Derives

variable {rule : N → Phrase N S} {e : Phrase N S} {ss : List (Signal S)}

theorem exists_map_token {safe : N → Bool} (hs : ∀ n, safe n = true → isPlainPhrase safe (rule n) = true)
    (h : Derives rule e ss) (he : isPlainPhrase safe e = true) :
    ∃ ps : List Piece, ss = ps.map .token := by
  induction h with
  | nil => exact ⟨[], rfl⟩
  | @token _ p _ _ _ _ ih =>
    obtain ⟨ps, rfl⟩ := ih (by simpa [isPlainPhrase, Ebnf.isPlain] using he)
    exact ⟨p :: ps, rfl⟩
  | mark => simp [isPlainPhrase, Ebnf.isPlain] at he
  | alt ha _ ih =>
    simp only [isPlainPhrase, Ebnf.isPlain, Bool.and_eq_true] at he
    apply ih
    rw [isPlainPhrase_append, isPlainPhrase_of_allPlain safe he.1 ha, he.2]
    rfl
  | stop _ ih =>
    simp only [isPlainPhrase, Bool.and_eq_true] at he
    exact ih he.2
  | more _ ih =>
    simp only [isPlainPhrase, Ebnf.isPlain, Bool.and_eq_true] at he
    apply ih
    simp [isPlainPhrase_append, isPlainPhrase, Ebnf.isPlain, he.1, he.2]
  | @ref n _ _ _ ih =>
    simp only [isPlainPhrase, Ebnf.isPlain, Bool.and_eq_true] at he
    apply ih
    rw [isPlainPhrase_append, hs n he.1, he.2]
    rfl

theorem pieces_ne_nil (h : Derives rule e ss) (he : isSolidPhrase e = true) :
    Signal.pieces ss ≠ [] := by
  induction h with
  | nil => simp [isSolidPhrase] at he
  | token => simp [Signal.pieces]
  | mark _ _ ih => exact ih (by simpa [isSolidPhrase, Ebnf.isSolid] using he)
  | alt ha _ ih =>
    apply ih
    rw [isSolidPhrase_append]
    simp only [isSolidPhrase, Ebnf.isSolid, Bool.or_eq_true] at he
    rcases he with he | he
    · rw [isSolidPhrase_of_allSolid he ha, Bool.true_or]
    · rw [he, Bool.or_true]
  | stop _ ih => exact ih (by simpa [isSolidPhrase, Ebnf.isSolid] using he)
  | more _ ih =>
    apply ih
    simp only [isSolidPhrase, Ebnf.isSolid, Bool.false_or] at he
    simp [isSolidPhrase_append, isSolidPhrase, Ebnf.isSolid, he]
  | ref _ ih =>
    apply ih
    simp only [isSolidPhrase, Ebnf.isSolid, Bool.false_or] at he
    rw [isSolidPhrase_append, he, Bool.or_true]

theorem star_inv {a b : Phrase N S} (h : Derives rule (b ++ [.star a]) ss) :
    ∃ x xs, ss = x ++ List.flatten xs ∧ Derives rule b x ∧ ∀ y ∈ xs, Derives rule a y := by
  generalize he : b ++ [Ebnf.star a] = e at h
  induction h generalizing b with
  | nil => simp at he
  | token hp _ ih =>
    rcases List.append_eq_cons_iff.1 he with ⟨-, he⟩ | ⟨b, rfl, rfl⟩
    · cases he
    · obtain ⟨x, xs, rfl, hx, hxs⟩ := ih rfl
      exact ⟨_ :: x, xs, rfl, .token hp hx, hxs⟩
  | mark m _ ih =>
    rcases List.append_eq_cons_iff.1 he with ⟨-, he⟩ | ⟨b, rfl, rfl⟩
    · cases he
    · obtain ⟨x, xs, rfl, hx, hxs⟩ := ih rfl
      exact ⟨_ :: x, xs, rfl, .mark m hx, hxs⟩
  | alt hc _ ih =>
    rcases List.append_eq_cons_iff.1 he with ⟨-, he⟩ | ⟨b, rfl, rfl⟩
    · cases he
    · obtain ⟨x, xs, rfl, hx, hxs⟩ := ih (List.append_assoc _ b _)
      exact ⟨x, xs, rfl, .alt hc hx, hxs⟩
  | stop h ih =>
    rcases List.append_eq_cons_iff.1 he with ⟨rfl, he⟩ | ⟨b, rfl, rfl⟩
    · cases he
      cases h
      exact ⟨[], [], rfl, .nil, by simp⟩
    · obtain ⟨x, xs, rfl, hx, hxs⟩ := ih rfl
      exact ⟨x, xs, rfl, .stop hx, hxs⟩
  | @more c _ _ _ ih =>
    rcases List.append_eq_cons_iff.1 he with ⟨rfl, he⟩ | ⟨b, rfl, rfl⟩
    · cases he
      -- The row gets longer by what the first round derives.
      obtain ⟨x, xs, rfl, hx, hxs⟩ := ih rfl
      exact ⟨[], x :: xs, rfl, .nil, by simpa using ⟨hx, hxs⟩⟩
    · obtain ⟨x, xs, rfl, hx, hxs⟩ := ih (b := c ++ .star c :: b) (by simp)
      exact ⟨x, xs, rfl, .more hx, hxs⟩
  | ref _ ih =>
    rcases List.append_eq_cons_iff.1 he with ⟨-, he⟩ | ⟨b, rfl, rfl⟩
    · cases he
    · obtain ⟨x, xs, rfl, hx, hxs⟩ := ih (List.append_assoc _ b _)
      exact ⟨x, xs, rfl, .ref hx, hxs⟩

end Derives

def Lacks (rule : N → Phrase N S) (barred : List Punct) (e : Phrase N S) : Prop :=
  ∀ ss, Derives rule e ss → ∀ p ∈ Signal.pieces ss, ∀ c ∈ barred, p.kind ≠ .punct c

namespace Lacks

variable {rule : N → Phrase N S} {barred : List Punct} {a e : Phrase N S}

theorem nil : Lacks rule barred [] := by
  intro ss hd
  cases hd
  simp [Signal.pieces]

theorem append (ha : Lacks rule barred a) (he : Lacks rule barred e) : Lacks rule barred (a ++ e) := by
  intro ss hd p hp
  obtain ⟨x, y, rfl, hx, hy⟩ := hd.split
  rw [Signal.pieces_append, List.mem_append] at hp
  exact hp.elim (ha x hx p) (he y hy p)

theorem token {accepts : TokenKind → String → Bool}
    (h : ∀ k text, accepts k text = true → ∀ c ∈ barred, k ≠ .punct c) (he : Lacks rule barred e) :
    Lacks rule barred (.token accepts :: e) := by
  intro ss hd
  cases hd with
  | token hp hd => simpa [Signal.pieces] using ⟨h _ _ hp, he _ hd⟩

theorem word (he : Lacks rule barred e) : Lacks rule barred (.word :: e) :=
  token (fun k _ hk c _ hc => by subst hc; cases hk) he

theorem kind {k : TokenKind} (h : ∀ c ∈ barred, k ≠ .punct c) (he : Lacks rule barred e) :
    Lacks rule barred (.kind k :: e) :=
  token (fun _ _ hk => by rwa [of_decide_eq_true hk]) he

theorem keyword {k : Keyword} (he : Lacks rule barred e) : Lacks rule barred (.keyword k :: e) :=
  kind nofun he

theorem punct {p : Punct} (h : p ∉ barred) (he : Lacks rule barred e) :
    Lacks rule barred (.punct p :: e) :=
  kind (fun _ hc hp => h (TokenKind.punct.inj hp ▸ hc)) he

theorem alt {choices : List (Phrase N S)} (h : ∀ a ∈ choices, Lacks rule barred a)
    (he : Lacks rule barred e) : Lacks rule barred (.alt choices :: e) := by
  intro ss hd
  cases hd with
  | alt ha hd => exact (h _ ha).append he _ hd

theorem star (ha : Lacks rule barred a) (he : Lacks rule barred e) :
    Lacks rule barred (.star a :: e) := by
  refine append (a := [.star a]) (fun ss hd p hp => ?_) he
  obtain ⟨x, xs, rfl, hx, hxs⟩ := Derives.star_inv (b := []) hd
  cases hx
  rw [Signal.mem_pieces, List.nil_append, List.mem_flatten] at hp
  obtain ⟨y, hy, hp⟩ := hp
  exact ha y (hxs y hy) p (Signal.mem_pieces.2 hp)

end Lacks

/-- Which nodes may stand in a place and how they are written. -/
structure Layout (N S L : Type) where
  loose : L → TokenKind → Bool
  head : L → S → Option (Phrase N S)
  leafEnd : S → Option (Phrase N S)
  delimiters : S → List (Punct × Option Punct)
  inside : S → L
  /-- Whether a block has exactly one node and no tokens of its own inside. -/
  single : S → Bool

inductive Fits (rule : N → Phrase N S) (layout : Layout N S L) : L → Part S → Prop where
  | token {l : L} {p : Piece} : layout.loose l p.kind = true → Fits rule layout l (.token p)
  | leaf {l : L} {shape : S} {first : Piece} {more : List Piece} {e tail : Phrase N S} :
      layout.head l shape = some e → layout.leafEnd shape = some tail →
      Derives rule (e ++ tail) ((first :: more).map .token) →
      Fits rule layout l (.leaf shape first more)
  | block {l : L} {shape : S} {first : Piece} {more : List Piece} {e : Phrase N S} {opener : Piece}
      {body : List (Part S)} {closer : Option Piece} {open' : Punct} {close : Option Punct} :
      layout.head l shape = some e → Derives rule e ((first :: more).map .token) →
      (open', close) ∈ layout.delimiters shape → opener.kind = .punct open' →
      closer.map (·.kind) = close.map .punct →
      (layout.single shape = true → ∃ q, body = [q]) →
      (∀ q ∈ body, Fits rule layout (layout.inside shape) q) →
      Fits rule layout l (.block shape first more opener body closer)

/-- What an expression derives, in at most so many signals, is cut into parts that fit a place. If
`one` is set it is a single part. -/
def Yields (rule : N → Phrase N S) (layout : Layout N S L) (n : Nat) (one : Bool) (l : L)
    (e : Phrase N S) : Prop :=
  ∀ ss, ss.length ≤ n → Derives rule e ss → ∃ parts, Part.signals parts = ss ∧
    (∀ q ∈ parts, Fits rule layout l q) ∧ (one = true → ∃ q, parts = [q])

namespace Yields

variable {rule : N → Phrase N S} {layout : Layout N S L} {n : Nat} {one : Bool} {l : L}
  {a b e : Phrase N S}

theorem mono {m : Nat} (h : Yields rule layout n one l e) (hm : m ≤ n) :
    Yields rule layout m one l e :=
  fun ss hss hd => h ss (Nat.le_trans hss hm) hd

theorem of_derives (h : Yields rule layout n one l b)
    (hab : ∀ ss, Derives rule a ss → Derives rule b ss) : Yields rule layout n one l a :=
  fun ss hss hd => h ss hss (hab ss hd)

theorem nil : Yields rule layout n false l [] := by
  intro ss _ hd
  cases hd
  exact ⟨[], rfl, by simp, by simp⟩

theorem append (ha : Yields rule layout n false l a) (hb : Yields rule layout n false l b) :
    Yields rule layout n false l (a ++ b) := by
  intro ss hss hd
  obtain ⟨x, y, rfl, hx, hy⟩ := hd.split
  simp only [List.length_append] at hss
  obtain ⟨qs, rfl, hqs, -⟩ := ha x (by omega) hx
  obtain ⟨rs, rfl, hrs, -⟩ := hb y (by omega) hy
  refine ⟨qs ++ rs, by simp, ?_, by simp⟩
  intro q hq
  exact (List.mem_append.1 hq).elim (hqs q) (hrs q)

theorem token {accepts : TokenKind → String → Bool}
    (h : ∀ k text, accepts k text = true → layout.loose l k = true) :
    Yields rule layout n one l [.token accepts] := by
  intro ss _ hd
  cases hd with
  | @token _ p _ _ hp hd =>
    cases hd
    exact ⟨[.token p], Part.signals_token p, by simpa using .token (h _ _ hp), fun _ => ⟨_, rfl⟩⟩

theorem alt {choices : List (Phrase N S)}
    (h : ∀ c ∈ choices, Yields rule layout n one l (b ++ c ++ e)) :
    Yields rule layout n one l (b ++ .alt choices :: e) := by
  intro ss hss hd
  obtain ⟨x, y, rfl, hx, hy⟩ := hd.split
  cases hy with
  | alt hc hy =>
    refine h _ hc _ hss ?_
    rw [List.append_assoc]
    exact hx.append hy

theorem star (h : Yields rule layout n false l a) : Yields rule layout n false l [.star a] := by
  intro ss hss hd
  obtain ⟨x, xs, rfl, hx, hxs⟩ := Derives.star_inv (b := []) hd
  clear hd
  cases hx
  induction xs with
  | nil => exact ⟨[], rfl, by simp, by simp⟩
  | cons y xs ih =>
    simp only [List.nil_append, List.flatten_cons, List.length_append] at hss ih ⊢
    obtain ⟨qs, rfl, hqs, -⟩ := h y (by omega) (hxs y List.mem_cons_self)
    obtain ⟨rs, hrs, hfits, -⟩ := ih (fun z hz => hxs z (List.mem_cons_of_mem _ hz)) (by omega)
    refine ⟨qs ++ rs, by rw [Part.signals_append, hrs], ?_, by simp⟩
    intro q hq
    exact (List.mem_append.1 hq).elim (hqs q) (hfits q)

theorem ref {m : N} (h : Yields rule layout n one l (rule m)) :
    Yields rule layout n one l [.ref m] := by
  intro ss hss hd
  cases hd with
  | ref hd => exact h ss hss (by simpa using hd)

theorem closes_inv {p : Punct} {y : List (Signal S)}
    (h : Derives rule [.mark .closes, .punct p] y) :
    ∃ closer, y = (Part.ending closer).signals ∧
      closer.map (·.kind) = (some p).map TokenKind.punct := by
  cases h with
  | mark _ h =>
    cases h with
    | @token _ q _ _ hq h =>
      cases h
      exact ⟨some q, rfl, by simpa using hq⟩

theorem finishes_inv {y : List (Signal S)} (h : Derives rule [.mark .finishes] y) :
    ∃ closer, y = (Part.ending closer).signals ∧
      closer.map (·.kind) = none.map TokenKind.punct := by
  cases h with
  | mark _ h =>
    cases h
    exact ⟨none, rfl, rfl⟩

theorem punct {p : Punct} (h : layout.loose l (.punct p) = true) :
    Yields rule layout n one l [.punct p] := by
  refine .token fun k _ hk => ?_
  obtain rfl : k = .punct p := by simpa using hk
  exact h

section nodes

variable {safe : N → Bool} {tail : Phrase N S}
  (hs : ∀ m, safe m = true → isPlainPhrase safe (rule m) = true)

include hs

theorem exists_first (hd : Derives rule e ss) (hplain : isPlainPhrase safe e = true)
    (hsolid : isSolidPhrase e = true) :
    ∃ first more, ss = (first :: more).map .token := by
  obtain ⟨ps, rfl⟩ := hd.exists_map_token hs hplain
  have hne := hd.pieces_ne_nil hsolid
  cases ps with
  | nil => simp [Signal.pieces] at hne
  | cons p ps => exact ⟨p, ps, rfl⟩

theorem leaf (shape : S) (hhead : layout.head l shape = some e)
    (hend : layout.leafEnd shape = some tail) (hplain : isPlainPhrase safe (e ++ tail) = true)
    (hsolid : isSolidPhrase (e ++ tail) = true)
    (ha : a = .mark .begins :: (e ++ tail) ++ [.mark (.completes shape)]) :
    Yields rule layout n one l a := by
  subst ha
  intro ss _ hd
  cases hd with
  | mark _ hd =>
    obtain ⟨x, y, rfl, hx, hy⟩ := Derives.split (a := e ++ tail) hd
    obtain ⟨first, more, rfl⟩ := exists_first hs hx hplain hsolid
    cases hy with
    | mark _ hy =>
      cases hy
      refine ⟨[.leaf shape first more], Part.signals_leaf _ _ _, ?_, fun _ => ⟨_, rfl⟩⟩
      simpa using .leaf hhead hend hx

theorem block (shape : S) {opening : Punct} {close : Option Punct} {ending : Phrase N S}
    (hhead : layout.head l shape = some e) (hplain : isPlainPhrase safe e = true)
    (hsolid : isSolidPhrase e = true) (hdel : (opening, close) ∈ layout.delimiters shape)
    (hending : ∀ y, Derives rule ending y →
      ∃ closer, y = (Part.ending closer).signals ∧ closer.map (·.kind) = close.map .punct)
    (hbody : Yields rule layout n (layout.single shape) (layout.inside shape) b)
    (ha : a = .mark .begins :: (e ++ .mark (.opens shape) :: .punct opening :: (b ++ ending))) :
    Yields rule layout (n + 1) one l a := by
  subst ha
  intro ss hss hd
  cases hd with
  | mark _ hd =>
    obtain ⟨x, y, rfl, hx, hy⟩ := hd.split
    obtain ⟨first, more, rfl⟩ := exists_first hs hx hplain hsolid
    cases hy with
    | mark _ hy =>
      cases hy with
      | @token _ opener _ _ hopener hy =>
        obtain ⟨z, w, rfl, hz, hw⟩ := Derives.split hy
        obtain ⟨closer, rfl, hcloser⟩ := hending w hw
        obtain ⟨body, rfl, hfits, hone⟩ := hbody z (by simp at hss; omega) hz
        refine ⟨[.block shape first more opener body closer], ?_, ?_, fun _ => ⟨_, rfl⟩⟩
        · simpa using Part.signals_block shape first more opener body closer
        · simpa using .block hhead hx hdel (by simpa using hopener) hcloser hone hfits

end nodes

end Yields
end ProtoSyntax
