import ProtoSyntax.Parsing.Assembly
import ProtoSyntax.Proofs.Tree.Owned

/-!
# Trees of parses are owned

Whatever a parse does, it changes the tree by adding nodes and moving ends only. So each step leaves the
tree with every node below its one parent, and so does the whole parse.
-/

namespace ProtoSyntax

variable {G S K α β : Type}

def KeepsOwned (x : ParseM K α) : Prop :=
  ∀ ⦃s s' : State K⦄ ⦃a : α⦄, s.tree.Owned → x s = .ok a s' → s'.tree.Owned

namespace KeepsOwned

theorem of_tree_eq {x : ParseM K α} (h : ∀ ⦃s s' a⦄, x s = .ok a s' → s'.tree = s.tree) : KeepsOwned x :=
  fun _ _ _ hs hx => (h hx).symm ▸ hs

theorem pure (a : α) : KeepsOwned (pure a : ParseM K α) :=
  of_tree_eq fun _ _ _ h => by
    obtain ⟨-, rfl⟩ := EStateM.Result.ok.inj h
    rfl

theorem get : KeepsOwned (get : ParseM K (State K)) :=
  of_tree_eq fun _ _ _ h => by
    obtain ⟨-, rfl⟩ := EStateM.Result.ok.inj h
    rfl

theorem bind {x : ParseM K α} {f : α → ParseM K β} (hx : KeepsOwned x) (hf : ∀ a, KeepsOwned (f a)) :
    KeepsOwned (x >>= f) := by
  intro s s' b hs h
  change EStateM.bind x f s = .ok b s' at h
  unfold EStateM.bind at h
  split at h
  · next a u hu => exact hf a (hx hs hu) h
  · cases h

theorem refuse (refusal : Refusal) : KeepsOwned (ParseM.refuse refusal : ParseM K α) :=
  fun _ _ _ _ h => nomatch h

theorem demand (accepts : TokenKind → Bool) (what : String) :
    KeepsOwned (ParseM.demand accepts what : ParseM K Token) := by
  refine of_tree_eq fun s s' t h => ?_
  unfold ParseM.demand at h
  split at h
  · split at h
    · obtain ⟨-, rfl⟩ := EStateM.Result.ok.inj h
      rfl
    · cases h
  · cases h

theorem complete (m : Marker) (kind : K) : KeepsOwned (ParseM.complete m kind) := by
  intro s s' id hs h
  unfold ParseM.complete at h
  split at h
  · next hins =>
    obtain ⟨-, rfl⟩ := EStateM.Result.ok.inj h
    exact Tree.Owned.insertChild? hs hins
  · cases h

theorem openNode (m : Marker) (kind : K) : KeepsOwned (ParseM.openNode m kind) := by
  intro s s' id hs h
  unfold ParseM.openNode at h
  split at h
  · next hins =>
    obtain ⟨-, rfl⟩ := EStateM.Result.ok.inj h
    exact Tree.Owned.insertChild? hs hins
  · cases h

theorem endContainer (stop : Nat) : KeepsOwned (ParseM.endContainer stop : ParseM K Nat) := by
  intro s s' id hs h
  unfold ParseM.endContainer at h
  split at h
  · next hset =>
    obtain ⟨-, rfl⟩ := EStateM.Result.ok.inj h
    exact hs.setStop? hset
  · cases h

theorem finish : KeepsOwned (ParseM.finish : ParseM K Nat) :=
  fun _ _ _ hs h => endContainer _ hs h

theorem begun (pending : Option Pending) : KeepsOwned (Grammar.begun pending : ParseM K Pending) := by
  refine of_tree_eq fun s s' p h => ?_
  unfold Grammar.begun at h
  split at h
  · split at h
    · obtain ⟨-, rfl⟩ := EStateM.Result.ok.inj h
      rfl
    · cases h
  · cases h

theorem nested : KeepsOwned (Grammar.nested : ParseM K Unit) := by
  refine of_tree_eq fun s s' u h => ?_
  unfold Grammar.nested at h
  split at h
  · obtain ⟨-, rfl⟩ := EStateM.Result.ok.inj h
    rfl
  · cases h

variable [Vocabulary K]

theorem absorbComments : KeepsOwned (ParseM.absorbComments : ParseM K Unit) := by
  intro s s' u hs h
  unfold ParseM.absorbComments at h
  split at h
  · obtain ⟨-, rfl⟩ := EStateM.Result.ok.inj h
    exact hs
  · dsimp only at h
    split at h
    · next hins =>
      obtain ⟨-, rfl⟩ := EStateM.Result.ok.inj h
      exact Tree.Owned.insertChild? hs hins
    · cases h

theorem advance : KeepsOwned (ParseM.advance : ParseM K Unit) := by
  intro s s' u hs h
  unfold ParseM.advance at h
  split at h
  · cases h
  · refine absorbComments ?_ h
    exact hs

theorem close (kind : TokenKind) : KeepsOwned (ParseM.close kind : ParseM K Nat) :=
  (demand _ _).bind fun _ => (endContainer _).bind fun _ => advance.bind fun _ => pure _

variable (g : Grammar G S K)

theorem takeToken (t : Token) (role : Role S) (pending : Option Pending) :
    KeepsOwned (g.takeToken t role pending) := by
  cases role with
  | plain => exact advance.bind fun _ => pure _
  | begins => exact get.bind fun _ => advance.bind fun _ => pure _
  | opens shape =>
    exact (begun pending).bind fun p => get.bind fun s => (openNode _ _).bind fun _ =>
      advance.bind fun _ => pure _
  | closes => exact nested.bind fun _ => (close t.kind).bind fun _ => pure _

theorem perform (act : Act S) (pending : Option Pending) : KeepsOwned (g.perform act pending) := by
  cases act with
  | take t role => exact takeToken g t role pending
  | complete shape =>
    exact (begun pending).bind fun p => get.bind fun s => (complete _ _).bind fun _ => pure _
  | finish => exact nested.bind fun _ => finish.bind fun _ => pure _

theorem play (acts : List (Act S)) (pending : Option Pending) : KeepsOwned (g.play acts pending) := by
  induction acts generalizing pending with
  | nil => exact pure pending
  | cons act acts ih => exact (perform g act pending).bind fun pending => ih pending

theorem read (symbols : List (Symbol G S)) : KeepsOwned (g.read symbols) := by
  refine get.bind fun s => (play g _ none).bind fun _ => ?_
  split
  · exact refuse _
  · exact pure _

end KeepsOwned

theorem Grammar.owned_of_parse [Vocabulary K] {g : Grammar G S K} {goal : G} {text : String}
    {tokens : List Token} {tree : Tree K} (h : g.parse goal text tokens = .ok tree) : tree.Owned := by
  unfold Grammar.parse at h
  split at h
  · cases h
  · next s hs =>
    have howned : s.tree.Owned :=
      KeepsOwned.absorbComments (Tree.owned_ofLength text.utf8ByteSize) hs
    split at h
    · cases h
    · next u s' hread =>
      obtain rfl := Except.ok.inj h
      have hkeeps : KeepsOwned (g.read [.goal goal] *> Grammar.settled) := by
        refine (KeepsOwned.read g [.goal goal]).bind fun _ => .of_tree_eq fun s s' u h => ?_
        change Grammar.settled s = _ at h
        unfold Grammar.settled at h
        split at h
        · obtain ⟨-, rfl⟩ := EStateM.Result.ok.inj h
          rfl
        · cases h
      exact hkeeps howned hread

end ProtoSyntax
