import ProtoSyntax.Proofs.Parsing.Consistency
import ProtoSyntax.Proofs.Safety

/-!
# Calls in any order

A caller may advance a parse as it likes, have literals read, begin nodes, and add them in any order and
at any time later. Whatever it calls, the state stays consistent, and there is a place for each node
that was begun. All that can go wrong is to end a container, without a token, before it begins.
-/

namespace ProtoSyntax

variable {G S K : Type}

namespace Literal

inductive Routine where
  | strings | fieldName | extension | message | list | value | separator
deriving DecidableEq, Repr

namespace Routine

def symbols (embed : Goal → G) : Routine → List (Symbol G S)
  | strings => Literal.strings embed
  | fieldName => [goal embed .fieldName]
  | extension => punct .leftBracket :: Literal.extension embed
  | message => [goal embed .message]
  | list => Literal.list embed
  | value => [goal embed .value]
  | separator => [goal embed .separator]

theorem steady_symbols {embed : Goal → G} {turn : G → Turn} (hembed : ∀ goal, turn (embed goal) = some)
    (routine : Routine) : Steady turn (routine.symbols embed : List (Symbol G S)) := by
  cases routine <;>
    simp [symbols, Literal.strings, Literal.extension, Literal.list, goal, punct, word, string, Symbol.turn,
      Role.turn, hembed]

end Routine
end Literal

/-- A parse in the hands of a caller, with the nodes that were begun and not added yet. -/
structure Session (K : Type) where
  state : State K
  pending : List Marker

/-- A call. A node that was begun is named by its number among those pending. -/
inductive Call (K : Type) where
  | advance
  | eat (kind : TokenKind)
  | expect (kind : TokenKind)
  | expectText (kind : TokenKind) (what : String)
  | expectWord (what : String)
  | start
  | complete (n : Nat) (kind : K)
  | openNode (n : Nat) (kind : K)
  | close (kind : TokenKind)
  | finish
  | literal (routine : Literal.Routine)

namespace Session

def lift {α : Type} (x : ParseM K α) (σ : Session K) : EStateM.Result Failure (Session K) Unit :=
  match x σ.state with
  | .ok _ s => .ok () { σ with state := s }
  | .error e s => .error e { σ with state := s }

def redeem (n : Nat) (add : Marker → ParseM K Nat) (σ : Session K) :
    EStateM.Result Failure (Session K) Unit :=
  match σ.pending[n]? with
  | some m => lift (add m) { σ with pending := σ.pending.eraseIdx n }
  | none => .error .misuse σ

end Session

namespace Call

/-- What is asked of a call: the node was begun, and a container does not end before it begins. -/
def Fits (σ : Session K) : Call K → Prop
  | complete n _ | openNode n _ => n < σ.pending.length
  | finish =>
    (σ.state.tree.range σ.state.container).start ≤ max σ.state.lastChildStop σ.state.prevStop
  | _ => True

variable [Vocabulary K]

def perform (g : Grammar G S K) (embed : Literal.Goal → G) (call : Call K) (σ : Session K) :
    EStateM.Result Failure (Session K) Unit :=
  match call with
  | advance => σ.lift ParseM.advance
  | eat kind => σ.lift (ParseM.eat kind)
  | expect kind => σ.lift (ParseM.expect kind)
  | expectText kind what => σ.lift (ParseM.expectText kind what)
  | expectWord what => σ.lift (ParseM.expectWord what)
  | start => .ok () { σ with pending := σ.pending ++ [σ.state.marker] }
  | complete n kind => σ.redeem n (ParseM.complete · kind)
  | openNode n kind => σ.redeem n (ParseM.openNode · kind)
  | close kind => σ.lift (ParseM.close kind)
  | finish => σ.lift ParseM.finish
  | literal routine => σ.lift (g.read (routine.symbols embed))

def leave? (g : Grammar G S K) (embed : Literal.Goal → G) (σ : Session K) (call : Call K) :
    Option (Session K) :=
  match call.perform g embed σ with
  | .ok _ σ' | .error (.refused _) σ' => some σ'
  | .error .misuse _ => none

end Call

namespace Session

structure Consistent (text : String) (tokens : List Token) (σ : Session K) : Prop where
  state : σ.state.Consistent text tokens
  pending : ∀ m ∈ σ.pending, σ.state.Admits m

variable {text : String} {tokens : List Token} {σ σ' : Session K}

theorem Consistent.leads {s : State K} (h : σ.Consistent text tokens)
    (hleads : State.Leads text tokens σ.state s) : Consistent text tokens { σ with state := s } :=
  ⟨hleads.consistent, fun m hm => (h.pending m hm).later hleads.later⟩

theorem Consistent.lift {α : Type} {x : ParseM K α} (h : σ.Consistent text tokens)
    (hx : ∃ a s, x σ.state = .ok a s ∧ State.Leads text tokens σ.state s) :
    ∃ σ', σ.lift x = .ok () σ' ∧ σ'.Consistent text tokens := by
  obtain ⟨a, s, hx, hleads⟩ := hx
  exact ⟨_, by simp only [Session.lift, hx], h.leads hleads⟩

theorem Consistent.lift_allOrNothing {α : Type} {x : ParseM K α} (h : σ.Consistent text tokens)
    (hx : State.AllOrNothing text tokens x σ.state) :
    (∃ σ', σ.lift x = .ok () σ' ∧ σ'.Consistent text tokens) ∨
      ∃ e, σ.lift x = .error (.refused e) σ := by
  refine hx.imp h.lift fun ⟨e, hx⟩ => ⟨e, ?_⟩
  simp only [Session.lift, hx]

theorem Consistent.redeem {n : Nat} {add : Marker → ParseM K Nat} (h : σ.Consistent text tokens)
    (hn : n < σ.pending.length)
    (hadd : ∀ m, σ.state.Admits m → ∃ id s, add m σ.state = .ok id s ∧ State.Leads text tokens σ.state s) :
    ∃ σ', σ.redeem n add = .ok () σ' ∧ σ'.Consistent text tokens := by
  have hm := h.pending _ (List.getElem_mem hn)
  have hrest : Consistent text tokens { σ with pending := σ.pending.eraseIdx n } :=
    ⟨h.state, fun m hm => h.pending m (List.mem_of_mem_eraseIdx hm)⟩
  rw [Session.redeem, List.getElem?_eq_getElem hn]
  exact hrest.lift (hadd _ hm)

end Session

section

variable [Vocabulary K] {g : Grammar G S K} {embed : Literal.Goal → G} {turn : G → Turn} {text : String}
  {tokens : List Token} {σ σ' : Session K}

namespace Call

theorem perform_of_not_fits {call : Call K} (h : ¬ call.Fits σ) :
    ∃ σ', call.perform g embed σ = .error .misuse σ' := by
  cases call with
  | complete n kind | openNode n kind =>
    have hnone : σ.pending[n]? = none := List.getElem?_eq_none (Nat.le_of_not_lt h)
    exact ⟨σ, by simp only [perform, Session.redeem, hnone]⟩
  | finish =>
    have hnone : σ.state.tree.setStop? σ.state.container (max σ.state.lastChildStop σ.state.prevStop) =
        none := if_neg fun hc => h hc.2
    exact ⟨σ, by simp only [perform, Session.lift, ParseM.finish, ParseM.endContainer, hnone]; rfl⟩
  | _ => exact absurd trivial h

theorem perform_eat (h : σ.Consistent text tokens) (hslice : Sliceable text tokens) (kind : TokenKind) :
    ∃ σ', (eat kind : Call K).perform g embed σ = .ok () σ' ∧ σ'.Consistent text tokens :=
  h.lift (h.state.eat hslice kind)

/-- A call that fits is carried out. If the text is refused, then nothing was done, unless some of a
literal was read. -/
theorem perform_of_fits (hd : Disciplined g.react turn) (hembed : ∀ goal, turn (embed goal) = some)
    (hslice : Sliceable text tokens) (h : σ.Consistent text tokens) {call : Call K} (hfits : call.Fits σ) :
    (∃ σ', call.perform g embed σ = .ok () σ' ∧ σ'.Consistent text tokens) ∨
      ∃ e σ', call.perform g embed σ = .error (.refused e) σ' ∧ σ'.Consistent text tokens ∧
        ((∀ routine, call ≠ literal routine) → σ' = σ) := by
  have undone {α : Type} {x : ParseM K α} (hx : State.AllOrNothing text tokens x σ.state) :
      (∃ σ', σ.lift x = .ok () σ' ∧ σ'.Consistent text tokens) ∨
        ∃ e σ', σ.lift x = .error (.refused e) σ' ∧ σ'.Consistent text tokens ∧
          ((∀ routine, call ≠ literal routine) → σ' = σ) :=
    (h.lift_allOrNothing hx).imp_right fun ⟨e, he⟩ => ⟨e, σ, he, h, fun _ => rfl⟩
  cases call with
  | advance => exact undone (h.state.advance_allOrNothing hslice)
  | eat kind => exact .inl (perform_eat h hslice kind)
  | expect kind => exact undone (h.state.expectWhere hslice _ _)
  | expectText kind what | expectWord what => exact undone ((h.state.expectWhere hslice _ _).map _)
  | start =>
    refine .inl ⟨_, rfl, h.state, fun m hm => ?_⟩
    rcases List.mem_append.1 hm with hm | hm
    · exact h.pending m hm
    · exact List.mem_singleton.1 hm ▸ h.state.marker
  | complete n kind => exact .inl (h.redeem hfits fun m hm => h.state.complete hm kind)
  | openNode n kind => exact .inl (h.redeem hfits fun m hm => h.state.openNode hm kind)
  | close kind => exact undone (h.state.close hslice kind)
  | finish => exact .inl (h.lift (h.state.finish hfits))
  | literal routine =>
    rcases h.state.read hd (routine.steady_symbols hembed) hslice with hok | ⟨e, s, hs, hleads⟩
    · exact .inl (h.lift hok)
    · refine .inr ⟨e, _, ?_, h.leads hleads, fun hne => absurd rfl (hne routine)⟩
      simp only [perform, Session.lift, hs]

theorem consistent_of_leave? (hd : Disciplined g.react turn) (hembed : ∀ goal, turn (embed goal) = some)
    (hslice : Sliceable text tokens) (h : σ.Consistent text tokens) {call : Call K}
    (hleave : leave? g embed σ call = some σ') : σ'.Consistent text tokens := by
  have hfits : call.Fits σ := by
    by_contra hfits
    obtain ⟨σ₁, hmisuse⟩ := @perform_of_not_fits _ _ _ _ g embed σ call hfits
    simp [leave?, hmisuse] at hleave
  rcases perform_of_fits hd hembed hslice h hfits with ⟨σ₁, hok, hσ₁⟩ | ⟨e, σ₁, hrefused, hσ₁, -⟩
  · simp only [leave?, hok] at hleave
    exact Option.some.inj hleave ▸ hσ₁
  · simp only [leave?, hrefused] at hleave
    exact Option.some.inj hleave ▸ hσ₁

end Call

namespace Session

structure Reliable (g : Grammar G S K) (embed : Literal.Goal → G) (text : String) (tokens : List Token)
    (σ : Session K) : Prop where
  consistent : σ.Consistent text tokens
  misuse_iff : ∀ call : Call K, (∃ σ', call.perform g embed σ = .error .misuse σ') ↔ ¬ call.Fits σ
  eats : ∀ kind, ∃ σ', (Call.eat kind).perform g embed σ = .ok () σ'
  undone : ∀ (call : Call K) (e : ParseError) (σ' : Session K), (∀ routine, call ≠ .literal routine) →
    call.perform g embed σ = .error (.refused e) σ' → σ' = σ

theorem Consistent.reliable (hd : Disciplined g.react turn) (hembed : ∀ goal, turn (embed goal) = some)
    (hslice : Sliceable text tokens) (h : σ.Consistent text tokens) : σ.Reliable g embed text tokens where
  consistent := h
  misuse_iff call := by
    refine ⟨fun ⟨σ', hmisuse⟩ hfits => ?_, Call.perform_of_not_fits⟩
    rcases Call.perform_of_fits hd hembed hslice h hfits with ⟨σ₁, hok, -⟩ | ⟨e, σ₁, hrefused, -⟩
    · cases hok.symm.trans hmisuse
    · cases hrefused.symm.trans hmisuse
  eats kind := by
    obtain ⟨σ', hσ', -⟩ := @Call.perform_eat _ _ _ _ g embed _ _ _ h hslice kind
    exact ⟨σ', hσ'⟩
  undone call e σ' hcall hperform := by
    have hfits : call.Fits σ := by
      by_contra hfits
      obtain ⟨σ₁, hmisuse⟩ := @Call.perform_of_not_fits _ _ _ _ g embed σ call hfits
      cases hmisuse.symm.trans hperform
    rcases Call.perform_of_fits hd hembed hslice h hfits with ⟨σ₁, hok, -⟩ | ⟨e', σ₁, hrefused, -, hsame⟩
    · cases hok.symm.trans hperform
    · obtain ⟨-, rfl⟩ := EStateM.Result.error.inj (hrefused.symm.trans hperform)
      exact hsame hcall

def AlwaysReliable (g : Grammar G S K) (embed : Literal.Goal → G) (text : String)
    (tokens : List Token) : Prop :=
  ∃ s, State.ofTokens text tokens = .ok () s ∧ ∀ (calls : List (Call K)) (σ : Session K),
    calls.foldlM (Call.leave? g embed) ⟨s, []⟩ = some σ → σ.Reliable g embed text tokens

theorem consistent_of_calls (hd : Disciplined g.react turn) (hembed : ∀ goal, turn (embed goal) = some)
    (hslice : Sliceable text tokens) {calls : List (Call K)} (h : σ.Consistent text tokens)
    (hcalls : calls.foldlM (Call.leave? g embed) σ = some σ') : σ'.Consistent text tokens := by
  induction calls generalizing σ with
  | nil => exact Option.some.inj hcalls ▸ h
  | cons call calls ih =>
    obtain ⟨σ₁, hleave, hcalls⟩ := Option.bind_eq_some_iff.1 hcalls
    exact ih (Call.consistent_of_leave? hd hembed hslice h hleave) hcalls

theorem alwaysReliable (hd : Disciplined g.react turn) (hembed : ∀ goal, turn (embed goal) = some)
    (hslice : Sliceable text tokens) : AlwaysReliable g embed text tokens := by
  obtain ⟨s, hs, hconsistent⟩ := State.exists_consistent (K := K) hslice
  refine ⟨s, hs, fun calls σ hcalls => ?_⟩
  have hstart : Session.Consistent text tokens (⟨s, []⟩ : Session K) :=
    ⟨hconsistent, fun m hm => absurd hm List.not_mem_nil⟩
  exact (consistent_of_calls hd hembed hslice hstart hcalls).reliable hd hembed hslice

end Session

end

/-- The state of a parse stays consistent under any use, whichever kinds of nodes are added to the tree
of a text in either language. -/
theorem calls_reliable (language : Language) (text : String) :
    Session.AlwaysReliable Schema.grammar .literal text (language.tokens text) ∧
      Session.AlwaysReliable TextFormat.grammar .literal text (language.tokens text) :=
  ⟨Session.alwaysReliable Schema.disciplined (fun _ => rfl) (tokens_sliceable language text),
    Session.alwaysReliable TextFormat.disciplined (fun _ => rfl) (tokens_sliceable language text)⟩

def firstFirst : List (Call TextFormat.Kind) :=
  [.start, .advance, .start, .advance, .complete 0 (.field "a" ""), .complete 0 (.field "b" ""), .finish,
    .finish]

example : (match State.ofTokens "a b#\nc" (Language.textFormat.tokens "a b#\nc") with
    | .ok _ s => firstFirst.foldlM (Call.leave? TextFormat.grammar .literal) ⟨s, []⟩
    | .error _ _ => none).map (fun σ : Session TextFormat.Kind =>
      (σ.state.tree.children Tree.root, σ.state.containers)) =
    some ([3, 2, 1], []) := by
  rw [tokens_eq]
  cbv

end ProtoSyntax
