import ProtoSyntax.Proofs.Parsing.Foresight

/-!
# Goals and their expressions

Most goals decide by the next token alone. `Predicts` relates an expression to the ways to take the
token that all it derives begins with, and `Offers` one that may derive nothing instead; the
combinators follow the expression. A goal is `Guided` if its reactions are sound and foresighted.
-/

namespace ProtoSyntax
open Piece (flatten)

variable {G N S : Type}

namespace Reaction

variable {role r : Role S} {what : String} {o : Option (List (Symbol G S))}
  {n : List (Symbol G S)}

@[simp] theorem takeOrRefuse_eq_take :
    takeOrRefuse role what o = .take r n ↔ r = role ∧ o = some n := by
  cases o <;> simp [takeOrRefuse, eq_comm]

@[simp] theorem takeOrRefuse_ne_skip : takeOrRefuse role what o ≠ .skip := by
  cases o <;> simp [takeOrRefuse]

@[simp] theorem takeOrSkip_eq_take : takeOrSkip o = .take r n ↔ r = .plain ∧ o = some n := by
  cases o <;> simp [takeOrSkip, eq_comm]

@[simp] theorem takeOrSkip_eq_skip : takeOrSkip o = .skip ↔ o = none := by
  cases o <;> simp [takeOrSkip]

end Reaction

@[simp] theorem followed_token {follow : G → List (Symbol G S) → Prop} {terminal : Terminal}
    {role : Role S} {k : List (Symbol G S)} :
    Followed follow (.token terminal role :: k) ↔ Followed follow k := .rfl

@[simp] theorem followed_complete {follow : G → List (Symbol G S) → Prop} {shape : S}
    {k : List (Symbol G S)} : Followed follow (.complete shape :: k) ↔ Followed follow k := .rfl

@[simp] theorem followed_finish {follow : G → List (Symbol G S) → Prop}
    {k : List (Symbol G S)} : Followed follow (.finish :: k) ↔ Followed follow k := .rfl

def Terminal.Avoids (terminal : Terminal) (guarded : TokenKind → Prop) : Prop :=
  ∀ kind, terminal.accepts kind = true → ¬ guarded kind

theorem Terminal.avoids_iff {terminal : Terminal} {guarded : TokenKind → Prop} :
    terminal.Avoids guarded ↔ ∀ kind, guarded kind → terminal.accepts kind = false :=
  forall_congr' fun kind => by rw [← Bool.not_eq_true]; exact imp_not_comm

@[simp] theorem clear_token {rule : N → Phrase N S} {lang : G → Phrase N S}
    {guarded : TokenKind → Prop} {terminal : Terminal} {role : Role S} {e : Phrase N S}
    (h : terminal.Avoids guarded) :
    Clear rule guarded (Symbol.phrase lang (.token terminal role) ++ e) := by
  cases role with
  | plain => exact .token fun k _ => h k
  | begins | opens | closes => exact .mark (.token fun k _ => h k)

@[simp] theorem clear_complete {rule : N → Phrase N S} {lang : G → Phrase N S}
    {guarded : TokenKind → Prop} {shape : S} {e : Phrase N S} (h : Clear rule guarded e) :
    Clear rule guarded (Symbol.phrase lang (.complete shape) ++ e) := .mark h

@[simp] theorem clear_finish {rule : N → Phrase N S} {lang : G → Phrase N S}
    {guarded : TokenKind → Prop} {e : Phrase N S} (h : Clear rule guarded e) :
    Clear rule guarded (Symbol.phrase lang .finish ++ e) := .mark h

/-- The ways to take a token, each with what is to be pursued then. -/
abbrev Start (G S : Type) := Token → Role S → List (Symbol G S) → Prop

variable {rule : N → Phrase N S} {lang : G → Phrase N S} {f f' : Start G S}
  {a b e : Phrase N S} {ss : List (Signal S)}

def Begins (rule : N → Phrase N S) (lang : G → Phrase N S) (f : Start G S) (e : Phrase N S)
    (ss : List (Signal S)) : Prop :=
  ∃ p role next ts, f p.token role next ∧ Derives rule (stackPhrase lang next ++ e) ts ∧
    ss = (Move.take p role).signals ++ ts

def Predicts (rule : N → Phrase N S) (lang : G → Phrase N S) (f : Start G S) (a : Phrase N S) :
    Prop :=
  ∀ e ss, Derives rule (a ++ e) ss ↔ Begins rule lang f e ss

def Offers (rule : N → Phrase N S) (lang : G → Phrase N S) (f : Start G S) (a : Phrase N S) :
    Prop :=
  ∀ e ss, Derives rule (a ++ e) ss ↔ Derives rule e ss ∨ Begins rule lang f e ss

theorem Begins.clear {guarded : TokenKind → Prop} (h : Begins rule lang f e ss)
    (hf : ∀ t r n, f t r n → ¬ guarded t.kind) :
    ∀ p ∈ (Signal.pieces ss).head?, ¬ guarded p.kind := by
  obtain ⟨p, r, n, ts, hs, -, rfl⟩ := h
  rw [Move.pieces_signals_append]
  simpa using hf _ _ _ hs

namespace Predicts

theorem clear {guarded : TokenKind → Prop} (h : Predicts rule lang f a)
    (hf : ∀ t r n, f t r n → ¬ guarded t.kind) : Clear rule guarded (a ++ e) :=
  fun ss hd => ((h e ss).1 hd).clear hf

theorem congr (h : Predicts rule lang f a) (hf : ∀ t r n, f t r n ↔ f' t r n) :
    Predicts rule lang f' a := by
  have he : f = f' := funext fun t => funext fun r => funext fun n => propext (hf t r n)
  exact he ▸ h

theorem role (role : Role S) {accepts : TokenKind → String → Bool} (next : List (Symbol G S))
    (hb : stackPhrase lang next = b) :
    Predicts rule lang (fun t r n => accepts t.kind t.text = true ∧ r = role ∧ n = next)
      (role.marks.map .mark ++ .token accepts :: b) := by
  intro e ss
  subst hb
  constructor
  · intro h
    cases role with
    | plain =>
      cases h with
      | token hp h => exact ⟨_, .plain, next, _, ⟨hp, rfl, rfl⟩, h, rfl⟩
    | begins | opens | closes =>
      cases h with
      | mark _ h =>
        cases h with
        | token hp h => exact ⟨_, _, next, _, ⟨hp, rfl, rfl⟩, h, rfl⟩
  · rintro ⟨p, r, n, ts, ⟨hp, hr, hn⟩, h, rfl⟩
    subst hr hn
    cases r with
    | plain => exact .token hp h
    | begins | opens | closes => exact .mark _ (.token hp h)

theorem token {accepts : TokenKind → String → Bool} (next : List (Symbol G S))
    (hb : stackPhrase lang next = b) :
    Predicts rule lang (fun t r n => accepts t.kind t.text = true ∧ r = .plain ∧ n = next)
      (.token accepts :: b) :=
  role .plain next hb

theorem append (h : Predicts rule lang f a) (next : List (Symbol G S))
    (hb : stackPhrase lang next = b) :
    Predicts rule lang (fun t r n => ∃ m, f t r m ∧ n = m ++ next) (a ++ b) := by
  intro e ss
  rw [List.append_assoc, h]
  subst hb
  constructor
  · rintro ⟨p, role, m, ts, hf, hd, rfl⟩
    exact ⟨p, role, m ++ next, ts, ⟨m, hf, rfl⟩, by simpa using hd, rfl⟩
  · rintro ⟨p, role, _, ts, ⟨m, hf, rfl⟩, hd, rfl⟩
    exact ⟨p, role, m, ts, hf, by simpa using hd, rfl⟩

theorem none : Predicts rule lang (fun _ _ _ => False) [.alt []] := by
  intro e ss
  constructor
  · intro h
    cases h with
    | alt hm _ => cases hm
  · rintro ⟨_, _, _, _, ⟨⟩, _⟩

theorem or {choices : List (Phrase N S)} (h : Predicts rule lang f a)
    (hs : Predicts rule lang f' [.alt choices]) :
    Predicts rule lang (fun t r n => f t r n ∨ f' t r n) [.alt (a :: choices)] := by
  intro e ss
  constructor
  · intro hd
    cases hd with
    | alt hm hd =>
      rcases List.mem_cons.1 hm with rfl | hm
      · obtain ⟨p, r, n, ts, hf, hd, hs⟩ := (h e ss).1 hd
        exact ⟨p, r, n, ts, .inl hf, hd, hs⟩
      · obtain ⟨p, r, n, ts, hf, hd, hs⟩ := (hs e ss).1 (.alt hm hd)
        exact ⟨p, r, n, ts, .inr hf, hd, hs⟩
  · rintro ⟨p, r, n, ts, hf | hf, hd, hs'⟩
    · exact .alt List.mem_cons_self ((h e ss).2 ⟨p, r, n, ts, hf, hd, hs'⟩)
    · cases (hs e ss).2 ⟨p, r, n, ts, hf, hd, hs'⟩ with
      | alt hm hd => exact .alt (List.mem_cons_of_mem _ hm) hd

theorem ref {n : N} (hn : rule n = a) (h : Predicts rule lang f a) :
    Predicts rule lang f [.ref n] := by
  intro e ss
  subst hn
  rw [← h e ss]
  exact ⟨fun hd => by cases hd with | ref hd => exact hd, .ref⟩

theorem withRole (h : Predicts rule lang f a) (hf : ∀ t r n, f t r n → r = .plain)
    (role : Role S) :
    Predicts rule lang (fun t r n => r = role ∧ f t .plain n) (role.marks.map .mark ++ a) := by
  intro e ss
  constructor
  · intro hd
    cases role with
    | plain =>
      obtain ⟨p, r, n, ts, hs, hd', rfl⟩ := (h e _).1 hd
      obtain rfl := hf _ _ _ hs
      exact ⟨p, .plain, n, ts, ⟨rfl, hs⟩, hd', rfl⟩
    | begins | opens | closes =>
      cases hd with
      | mark _ hd =>
        obtain ⟨p, r, n, ts, hs, hd', rfl⟩ := (h e _).1 hd
        obtain rfl := hf _ _ _ hs
        exact ⟨p, _, n, ts, ⟨rfl, hs⟩, hd', rfl⟩
  · rintro ⟨p, r, n, ts, ⟨rfl, hs⟩, hd, rfl⟩
    have hd' := (h e _).2 ⟨p, .plain, n, ts, hs, hd, rfl⟩
    cases r with
    | plain => exact hd'
    | begins | opens | closes => exact .mark _ hd'

theorem opt (h : Predicts rule lang f (a ++ b)) (h' : Predicts rule lang f' b) :
    Predicts rule lang (fun t r n => f' t r n ∨ f t r n) (.opt a :: b) := by
  intro e ss
  constructor
  · intro hd
    cases hd with
    | alt hm hd =>
      rcases List.mem_pair.1 hm with rfl | rfl
      · obtain ⟨p, r, n, ts, hs, hd', rfl⟩ := (h' e _).1 hd
        exact ⟨p, r, n, ts, .inl hs, hd', rfl⟩
      · obtain ⟨p, r, n, ts, hs, hd', rfl⟩ := (h e _).1 (by simpa using hd)
        exact ⟨p, r, n, ts, .inr hs, hd', rfl⟩
  · rintro ⟨p, r, n, ts, hs | hs, hd, he⟩
    · exact .alt List.mem_cons_self ((h' e ss).2 ⟨p, r, n, ts, hs, hd, he⟩)
    · refine .alt (List.mem_cons_of_mem _ List.mem_cons_self) ?_
      simpa using (h e ss).2 ⟨p, r, n, ts, hs, hd, he⟩

theorem loop {g : G} (h : Predicts rule lang f a) (h' : Predicts rule lang f' b)
    (hg : lang g = .star a :: b) :
    Predicts rule lang (fun t r n => f' t r n ∨ ∃ m, f t r m ∧ n = m ++ [.goal g])
      (.star a :: b) := by
  intro e ss
  have hmore := (h.append [.goal g] (b := .star a :: b) (by simp [Symbol.phrase, hg])) e ss
  constructor
  · intro hd
    cases hd with
    | stop hd =>
      obtain ⟨p, r, n, ts, hs, hd', rfl⟩ := (h' e _).1 hd
      exact ⟨p, r, n, ts, .inl hs, hd', rfl⟩
    | more hd =>
      obtain ⟨p, r, n, ts, hs, hd', rfl⟩ := hmore.1 (by simpa using hd)
      exact ⟨p, r, n, ts, .inr hs, hd', rfl⟩
  · rintro ⟨p, r, n, ts, hs | hs, hd, he⟩
    · exact .stop ((h' e ss).2 ⟨p, r, n, ts, hs, hd, he⟩)
    · exact .more (by simpa using hmore.2 ⟨p, r, n, ts, hs, hd, he⟩)

end Predicts

namespace Offers

theorem clear {guarded : TokenKind → Prop} (h : Offers rule lang f a)
    (hf : ∀ t r n, f t r n → ¬ guarded t.kind) (he : Clear rule guarded e) :
    Clear rule guarded (a ++ e) :=
  fun ss hd => ((h e ss).1 hd).elim (he ss) (·.clear hf)

theorem congr (h : Offers rule lang f a) (hf : ∀ t r n, f t r n ↔ f' t r n) :
    Offers rule lang f' a := by
  have he : f = f' := funext fun t => funext fun r => funext fun n => propext (hf t r n)
  exact he ▸ h

theorem opt (h : Predicts rule lang f a) : Offers rule lang f [.opt a] := by
  intro e ss
  rw [← h e ss]
  constructor
  · intro hd
    cases hd with
    | alt hm hd =>
      rcases List.mem_pair.1 hm with rfl | rfl
      · exact .inl hd
      · exact .inr hd
  · rintro (hd | hd)
    · exact .alt List.mem_cons_self hd
    · exact .alt (List.mem_cons_of_mem _ List.mem_cons_self) hd

theorem star {g : G} (h : Predicts rule lang f a) (hg : lang g = [.star a]) :
    Offers rule lang (fun t r n => ∃ m, f t r m ∧ n = m ++ [.goal g]) [.star a] := by
  intro e ss
  rw [← (h.append [.goal g] (b := [.star a]) (by simp [Symbol.phrase, hg])) e ss]
  constructor
  · intro hd
    cases hd with
    | stop hd => exact .inl hd
    | more hd => exact .inr (by simpa using hd)
  · rintro (hd | hd)
    · exact .stop hd
    · exact .more (by simpa using hd)

theorem optKind {kind : TokenKind} (next : List (Symbol G S)) (hb : stackPhrase lang next = b) :
    Offers rule lang (fun t r n => t.kind = kind ∧ r = .plain ∧ n = next)
      [.opt (.kind kind :: b)] :=
  (opt (.token next hb)).congr fun t r n => by rw [decide_eq_true_eq]

theorem starKind {g : G} {kind : TokenKind} (next : List (Symbol G S))
    (hb : stackPhrase lang next = b) (hg : lang g = [.star (.kind kind :: b)]) :
    Offers rule lang (fun t r n => t.kind = kind ∧ r = .plain ∧ n = next ++ [.goal g])
      [.star (.kind kind :: b)] := by
  refine (star (.token next hb) hg).congr fun t r n => ?_
  simp only [decide_eq_true_eq]
  constructor
  · rintro ⟨_, ⟨ht, hr, rfl⟩, hn⟩
    exact ⟨ht, hr, hn⟩
  · rintro ⟨ht, hr, hn⟩
    exact ⟨next, ⟨ht, hr, rfl⟩, hn⟩

end Offers

/-- The reactions to a goal agree with its expression, in both directions. -/
structure Guided (rule : N → Phrase N S) (lang : G → Phrase N S) (react : Prediction G S)
    (follow : G → List (Symbol G S) → Prop) (blind : G → List Piece → Prop) (g : G) : Prop where
  skip : ∀ {ps e ss}, react g (flatten ps) = .skip → Derives rule e ss →
    Derives rule (lang g ++ e) ss
  take : ∀ {p ps role next e ss}, react g (flatten (p :: ps)) = .take role next →
    Derives rule (stackPhrase lang next ++ e) ss →
    Derives rule (lang g ++ e) ((Move.take p role).signals ++ ss)
  step : ∀ {k ss}, Derives rule (lang g ++ stackPhrase lang k) ss → follow g k →
    Followed follow k → ¬ blind g (Signal.pieces ss) → Step rule lang react follow g k ss

namespace Guided

variable {react : Prediction G S} {follow : G → List (Symbol G S) → Prop}
  {blind : G → List Piece → Prop} {g : G}

theorem sound (h : ∀ g, Guided rule lang react follow blind g) : Sound rule lang react :=
  ⟨(h _).skip, (h _).take⟩

theorem foresight (h : ∀ g, Guided rule lang react follow blind g) :
    Foresight rule lang react follow blind := fun g _ _ => (h g).step

/-- A goal that never is content with nothing. Which of the ways it takes may depend on what comes
after the next token. -/
theorem of_predicts (ha : lang g = a) (hp : Predicts rule lang f a)
    (hs : ∀ ts, react g ts ≠ .skip) (hr : ∀ t ts r n, react g (t :: ts) = .take r n → f t r n)
    (hf : ∀ p r n k ss, f p.token r n → follow g k → Followed follow k →
      Derives rule (stackPhrase lang (n ++ k)) ss → ¬ blind g (p :: Signal.pieces ss) →
      ∃ m, react g (flatten (p :: Signal.pieces ss)) = .take r m ∧
        Derives rule (stackPhrase lang (m ++ k)) ss ∧ Followed follow (m ++ k)) :
    Guided rule lang react follow blind g where
  skip h := absurd h (hs _)
  take ht hd := ha ▸ (hp _ _).2 ⟨_, _, _, _, hr _ _ _ _ ht, hd, rfl⟩
  step {k ss} hd hg hk hb := by
    obtain ⟨p, r, n, ts, hn, hd', rfl⟩ := (hp _ _).1 (ha ▸ hd)
    rw [Move.pieces_signals_append] at hb
    obtain ⟨m, ht, hm, hkm⟩ := hf p r n k ts hn hg hk (by simpa using hd') hb
    exact .take ht hm hkm

theorem required (ha : lang g = a) (hp : Predicts rule lang f a)
    (hs : ∀ ts, react g ts ≠ .skip)
    (hr : ∀ t ts r n, react g (t :: ts) = .take r n → f t r n)
    (hr' : ∀ t ts r n k, follow g k → f t r n → react g (t :: ts) = .take r n)
    (hk : ∀ t r n k, f t r n → follow g k → Followed follow k → Followed follow (n ++ k)) :
    Guided rule lang react follow blind g :=
  of_predicts ha hp hs hr fun _ r n k _ hn hg hks hd _ =>
    ⟨n, hr' _ _ r n k hg hn, hd, hk _ r n k hn hg hks⟩

/-- A goal that takes the next token if it may and else is content with nothing. -/
theorem optional {o : List Token → Option (List (Symbol G S))} {claimed : TokenKind → Prop}
    (ha : lang g = a) (hf : Offers rule lang f a) (hr : ∀ ts, react g ts = .takeOrSkip (o ts)) (hn : o [] = none)
    (ho : ∀ t ts r n, r = .plain ∧ o (t :: ts) = some n ↔ f t r n)
    (hg : ∀ k, follow g k → Clear rule claimed (stackPhrase lang k))
    (hc : ∀ t r n, f t r n → claimed t.kind)
    (hk : ∀ t r n k, f t r n → follow g k → Followed follow k → Followed follow (n ++ k)) :
    Guided rule lang react follow blind g where
  skip _ hd := ha ▸ (hf _ _).2 (.inl hd)
  take hr' hd := by
    rw [hr, Reaction.takeOrSkip_eq_take] at hr'
    exact ha ▸ (hf _ _).2 (.inr ⟨_, _, _, _, (ho _ _ _ _).1 hr', hd, rfl⟩)
  step {k ss} hd hgk hk' _ := by
    rcases (hf _ _).1 (ha ▸ hd) with hd' | ⟨p, r, n, ts, hs, hd', rfl⟩
    · refine .skip ?_ hd'
      rw [hr, Reaction.takeOrSkip_eq_skip, Option.eq_none_iff_forall_ne_some]
      intro n hn'
      cases hp : Signal.pieces ss with
      | nil => simp [hp, hn] at hn'
      | cons p ps =>
        rw [hp] at hn'
        exact hg k hgk ss hd' p (by simp [hp]) (hc _ _ _ ((ho _ _ _ _).1 ⟨rfl, hn'⟩))
    · refine .take ?_ (by simpa using hd') (hk _ _ _ _ hs hgk hk')
      rw [hr, Reaction.takeOrSkip_eq_take]
      exact (ho _ _ _ _).2 hs

theorem optionalKind {kind : TokenKind} {next : List (Symbol G S)} {claimed : TokenKind → Prop}
    (ha : lang g = a)
    (hf : Offers rule lang (fun t r n => t.kind = kind ∧ r = .plain ∧ n = next) a)
    (hr : ∀ ts, react g ts = .takeOrSkip (if kindAt ts 0 = some kind then some next else none))
    (hg : ∀ k, follow g k → Clear rule claimed (stackPhrase lang k)) (hc : claimed kind)
    (hk : ∀ k, follow g k → Followed follow k → Followed follow (next ++ k)) :
    Guided rule lang react follow blind g := by
  refine .optional ha hf hr rfl ?_ hg ?_ ?_
  · intro t ts r n
    rw [kindAt_cons_zero, Option.ite_none_right_eq_some, Option.some.injEq, Option.some.injEq]
    constructor
    · rintro ⟨hr, ht, hn⟩
      exact ⟨ht, hr, hn.symm⟩
    · rintro ⟨ht, hr, hn⟩
      exact ⟨hr, ht, hn.symm⟩
  · rintro t r n ⟨rfl, -, -⟩
    exact hc
  · rintro t r n k ⟨-, -, rfl⟩
    exact hk k

end Guided
end ProtoSyntax
