import ProtoSyntax.Proofs.CutTexts
import ProtoSyntax.Proofs.Schema.BareKinds
import ProtoSyntax.Proofs.Schema.Types

/-!
# The texts of nodes

What the nodes of a schema file say of themselves is read off the tokens of their heads by looking for
punctuation. Each head has this punctuation only where it is looked for, so numbers are numbers, the
entries of a reservation are of one sort, and a file has the only version there is.
-/

namespace ProtoSyntax.Schema
open Ebnf (opt star alt sepBy)

def IsInteger (text : String) : Prop :=
  ∃ radix, Language.schema.tokens text = [⟨.integer radix, 0, text⟩]

namespace ReservedEntry

def IsName : ReservedEntry → Prop
  | .name _ => True
  | .range _ _ => False

def IsRange : ReservedEntry → Prop
  | .name _ => False
  | .range start stop => IsInteger start ∧ ∀ s ∈ stop, IsInteger s ∨ s = "max"

end ReservedEntry

/-- What can be said of the texts of a node. -/
def Kind.IsSound : Kind → Prop
  | .version text => text = "proto3"
  | .field _ number type modifier =>
    IsInteger number ∧
      ∀ key value, modifier = some (.map key value) → type = "map<" ++ key ++ ", " ++ value ++ ">"
  | .enumValue _ number => IsInteger number
  | .reserved entries =>
    entries ≠ [] ∧ ((∀ e ∈ entries, e.IsName) ∨ ∀ e ∈ entries, e.IsRange)
  | _ => True

theorem isInteger_text {text : String} {t : Token} (ht : t ∈ Language.schema.tokens text)
    (hk : t.kind.isInteger = true) : IsInteger t.text := by
  have htext := tokens_text ht
  cases hkind : t.kind with
  | integer radix => exact ⟨radix, by rw [htext, hkind]⟩
  | _ =>
    rw [hkind] at hk
    cases hk

theorem cut_append {p : Punct} {us : List Token} {t : Token} (vs : List Token)
    (hus : ∀ u ∈ us, u.kind ≠ .punct p) (ht : t.kind = .punct p) :
    cut p (us ++ t :: vs) = (us, vs) := by
  have hcut : ∀ u ∈ us, (!decide (u.kind = .punct p)) = true := by simpa using hus
  simp [cut, List.takeWhile_append_of_pos hcut, List.dropWhile_append_of_pos hcut, ht]

theorem ne_punct_of_lacks {barred : List Punct} {e : Expr} {ss : List (Signal Shape)}
    (h : Lacks rule barred e) (hd : Derives rule e ss) {c : Punct} (hc : c ∈ barred) :
    ∀ u ∈ (Signal.pieces ss).map (·.token), u.kind ≠ .punct c := by
  intro u hu
  obtain ⟨p, hp, rfl⟩ := List.mem_map.1 hu
  exact h ss hd p hp c hc

section numbered

variable {text : String} {ss : List (Signal Shape)}

theorem isSound_readField {excluded : List Keyword} (hrepeated : .repeated ∈ excluded)
    (hoptional : .optional ∈ excluded) (hd : Derives rule (fieldHead excluded) ss)
    (hts : ∀ t ∈ (Signal.pieces ss).map (·.token), t ∈ Language.schema.tokens text) (more : List Token) :
    (readField ((Signal.pieces ss).map (·.token) ++ more)).1.IsSound := by
  obtain ⟨ts, name, sign, number, type, m, hus, -, -, -, hnumber, -, hread⟩ :=
    readField_append hrepeated hoptional ⟨ss, hd, rfl⟩ (fun t ht => isRegular_tokens (hts t ht)) more
  rw [hread]
  refine ⟨isInteger_text (hts number (by simp [hus])) hnumber, fun key value hm => ?_⟩
  exact readField_map (by rw [hread, hm])

theorem isSound_readEnumValue (hd : Derives rule enumValueHead ss)
    (hts : ∀ t ∈ (Signal.pieces ss).map (·.token), t ∈ Language.schema.tokens text) (more : List Token) :
    (readEnumValue ((Signal.pieces ss).map (·.token) ++ more)).1.IsSound := by
  cases hd with
  | @token _ name _ _ _ hd =>
    cases hd with
    | @token _ sign _ _ _ hd =>
      cases hd with
      | @token _ number _ _ hnumber hd =>
        cases hd
        exact isInteger_text (hts number.token (by simp [Signal.pieces])) hnumber

end numbered

theorem isSound_version {text : String} {ss : List (Signal Shape)} (more : List Token)
    (hd : Derives rule [.keyword .syntaxWord, .punct .eq, versionLiteral] ss) :
    (build .version text ((Signal.pieces ss).map (·.token) ++ more)).IsSound := by
  cases hd with
  | @token _ keyword _ _ _ hd =>
    cases hd with
    | @token _ sign _ _ _ hd =>
      cases hd with
      | @token _ literal _ _ hliteral hd =>
        cases hd
        simp only [Bool.and_eq_true, decide_eq_true_eq] at hliteral
        have htext := hliteral.2
        simp only [isVersionLiteral, Bool.or_eq_true, decide_eq_true_eq] at htext
        show unquote literal.token.text = "proto3"
        rcases htext with htext | htext <;> rw [htext] <;> decide

section reserved

theorem commaRuns_eq_singleton {us : List Token} (hus : ∀ u ∈ us, u.kind ≠ .punct .comma) :
    commaRuns us = [us] := by
  induction us with
  | nil => rfl
  | cons u us ih =>
    obtain ⟨hu, hus⟩ := List.forall_mem_cons.1 hus
    rw [commaRuns, ih hus]
    exact if_neg hu

theorem commaRuns_append {us : List Token} {t : Token} (vs : List Token)
    (hus : ∀ u ∈ us, u.kind ≠ .punct .comma) (ht : t.kind = .punct .comma) :
    commaRuns (us ++ t :: vs) = us :: commaRuns vs := by
  induction us with
  | nil =>
    rw [List.nil_append, commaRuns]
    cases hruns : commaRuns vs with
    | nil => exact absurd hruns (commaRuns_ne_nil vs)
    | cons run runs => exact if_pos ht
  | cons u us ih =>
    obtain ⟨hu, hus⟩ := List.forall_mem_cons.1 hus
    rw [List.cons_append, commaRuns, ih hus]
    exact if_neg hu

theorem commaRuns_sepBy {a : Expr} {ss : List (Signal Shape)} (ha : Lacks rule [.comma] a)
    (hd : Derives rule (sepBy a [.punct .comma]) ss) :
    ∃ xs, xs ≠ [] ∧ (∀ x ∈ xs, Derives rule a x ∧ Signal.pieces x ⊆ Signal.pieces ss) ∧
      commaRuns ((Signal.pieces ss).map (·.token)) =
        xs.map fun x => (Signal.pieces x).map (·.token) := by
  obtain ⟨x, ys, rfl, hx, hys⟩ := hd.star_inv
  clear hd
  induction ys generalizing x with
  | nil =>
    refine ⟨[x], by simp, by simpa using hx, ?_⟩
    rw [List.flatten_nil, List.append_nil]
    exact commaRuns_eq_singleton (ne_punct_of_lacks ha hx List.mem_cons_self)
  | cons y ys ih =>
    have hrest := (List.forall_mem_cons.1 hys).2
    cases (List.forall_mem_cons.1 hys).1 with
    | @token _ comma _ z hcomma hz =>
      obtain ⟨xs, -, hxs, hruns⟩ := ih z hz hrest
      refine ⟨x :: xs, by simp, List.forall_mem_cons.2 ⟨⟨hx, by simp⟩, fun y hy => ?_⟩, ?_⟩
      · refine ⟨(hxs y hy).1, fun p hp => ?_⟩
        have hmem := (hxs y hy).2 hp
        simp only [Signal.pieces_append, List.mem_append] at hmem
        simp only [Signal.pieces_append, Signal.pieces, List.flatten_cons, List.cons_append,
          List.mem_append, List.mem_cons]
        exact .inr (.inr hmem)
      simp only [List.flatten_cons, List.cons_append, Signal.pieces, Signal.pieces_append,
        List.map_append, List.map_cons] at hruns ⊢
      rw [commaRuns_append _ (ne_punct_of_lacks ha hx List.mem_cons_self) (of_decide_eq_true hcomma),
        hruns]

theorem isName_entryOf {x : List (Signal Shape)} (hd : Derives rule [.string] x) :
    (entryOf ((Signal.pieces x).map (·.token))).IsName := by
  cases hd with
  | @token _ p _ _ hp hd =>
    cases hd
    have hkind : p.token.kind = .string := of_decide_eq_true hp
    simp [Signal.pieces, entryOf, hkind, ReservedEntry.IsName]

theorem isRange_entryOf {text : String} {x : List (Signal Shape)} (hd : Derives rule range x)
    (hts : ∀ t ∈ (Signal.pieces x).map (·.token), t ∈ Language.schema.tokens text) :
    (entryOf ((Signal.pieces x).map (·.token))).IsRange := by
  cases hd with
  | @token _ start _ _ hstart hd =>
    have hinteger : IsInteger start.token.text :=
      isInteger_text (hts _ (by simp [Signal.pieces])) hstart
    have hkind : start.token.kind ≠ .string := by
      intro hk
      rw [show start.kind = _ from hk] at hstart
      cases hstart
    cases hd with
    | alt ha hd =>
      simp only [List.mem_cons, List.not_mem_nil, or_false] at ha
      rcases ha with rfl | rfl
      · cases hd
        simp [Signal.pieces, entryOf, hkind, ReservedEntry.IsRange, hinteger]
      · cases hd with
        | @token _ word _ _ _ hd =>
          cases hd with
          | @token _ stop _ _ hstop hd =>
            cases hd
            have hentry : entryOf [start.token, word.token, stop.token] =
                .range (Token.concat [start.token]) (some (Token.concat [stop.token])) := rfl
            simp only [Token.concat_cons, Token.concat_nil, String.append_empty] at hentry
            simp only [Signal.pieces, List.map_cons, List.map_nil, hentry]
            refine ⟨hinteger, fun s hs => ?_⟩
            obtain rfl := Option.mem_some.1 hs
            simp only [Bool.or_eq_true, Bool.and_eq_true, decide_eq_true_eq] at hstop
            rcases hstop with hstop | ⟨-, hstop⟩
            · exact .inl (isInteger_text (hts _ (by simp [Signal.pieces])) hstop)
            · exact .inr hstop

theorem lacks_range {barred : List Punct} : Lacks rule barred range := by
  refine .token (fun k _ hk c _ hc => by subst hc; cases hk) (.alt (fun a ha => ?_) .nil)
  simp only [List.mem_cons, List.not_mem_nil, or_false] at ha
  rcases ha with rfl | rfl
  · exact .nil
  · refine .keyword (.token (fun k text hk c _ hc => ?_) .nil)
    subst hc
    simp [TokenKind.isInteger] at hk

theorem lacks_string {barred : List Punct} : Lacks rule barred [.string] :=
  .kind nofun .nil

theorem lacks_reservedEntries : Lacks rule [.semicolon] reservedEntries := by
  refine .alt (fun a ha => ?_) .nil
  simp only [List.mem_cons, List.not_mem_nil, or_false] at ha
  rcases ha with rfl | rfl
  · exact .append lacks_string (.star (.punct (by decide) lacks_string) .nil)
  · exact .append lacks_range (.star (.punct (by decide) lacks_range) .nil)

theorem isSound_reserved {text : String} {ss : List (Signal Shape)} {stop : Token} (more : List Token)
    (hd : Derives rule (.keyword .reserved :: reservedEntries) ss) (hstop : stop.kind = .punct .semicolon)
    (hts : ∀ t ∈ (Signal.pieces ss).map (·.token), t ∈ Language.schema.tokens text) :
    (build .reserved text ((Signal.pieces ss).map (·.token) ++ stop :: more)).IsSound := by
  cases hd with
  | @token _ keyword _ entries _ hd =>
    have hcut := cut_append more
      (ne_punct_of_lacks lacks_reservedEntries hd List.mem_cons_self) hstop
    show Kind.IsSound (.reserved ((commaRuns
      (cut .semicolon ((Signal.pieces entries).map (·.token) ++ stop :: more)).1).map entryOf))
    rw [hcut]
    cases hd with
    | alt ha hd =>
      simp only [List.mem_cons, List.not_mem_nil, or_false] at ha
      rcases ha with rfl | rfl
      · obtain ⟨xs, hne, hxs, hruns⟩ := commaRuns_sepBy lacks_string (by simpa using hd)
        rw [hruns]
        refine ⟨by simpa using hne, .inl ?_⟩
        simpa using fun x hx => isName_entryOf (hxs x hx).1
      · obtain ⟨xs, hne, hxs, hruns⟩ := commaRuns_sepBy lacks_range (by simpa using hd)
        rw [hruns]
        refine ⟨by simpa using hne, .inr ?_⟩
        simp only [List.mem_map, exists_exists_and_eq_and, forall_exists_index, and_imp,
          forall_apply_eq_imp_iff₂]
        refine fun x hx => isRange_entryOf (hxs x hx).1 fun t ht => hts t ?_
        obtain ⟨p, hp, rfl⟩ := List.mem_map.1 ht
        exact List.mem_map.2 ⟨p, List.mem_cons_of_mem _ ((hxs x hx).2 hp), rfl⟩

end reserved

end ProtoSyntax.Schema
