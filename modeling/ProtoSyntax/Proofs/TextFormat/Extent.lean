import ProtoSyntax.Proofs.Parsing.Midway
import ProtoSyntax.Proofs.Safety

/-!
# Messages read for their extent

A message can be read for the nodes in it, or as a literal, for its extent only. The goals of one reading
stand beside those of the other, and beside each other they react alike, but for the nodes that are begun
and ended in between. So both take the same tokens and refuse the same texts, in the same place and with
the same message.
-/

namespace ProtoSyntax.TextFormat

/-- The goal that reads the same for its extent only. Fields up to the end of a text have no such goal. -/
def Goal.extent? : Goal → Option Literal.Goal
  | .literal g => some g
  | .fields => none
  | .body closing => some (.fields closing)
  | .fieldRest => some .fieldRest
  | .value => some .value

/-- Symbols beside symbols that read the same for its extent only. -/
inductive Mirrors : Symbols → Symbols → Prop where
  | nil : Mirrors [] []
  | goal {g : Goal} {l : Literal.Goal} {k k' : Symbols} : g.extent? = some l → Mirrors k k' →
      Mirrors (.goal g :: k) (.goal (.literal l) :: k')
  | token (terminal : Terminal) {k k' : Symbols} : Mirrors k k' →
      Mirrors (.token terminal .plain :: k) (.token terminal .plain :: k')
  | complete (shape : Shape) {k k' : Symbols} : Mirrors k k' → Mirrors (.complete shape :: k) k'

inductive MirrorsIn : Reaction Goal Shape → Reaction Goal Shape → Prop where
  | reject (refusal : Refusal) : MirrorsIn (.reject refusal) (.reject refusal)
  | skip : MirrorsIn .skip .skip
  | take (role : Role Shape) {next next' : Symbols} : Mirrors next next' →
      MirrorsIn (.take role next) (.take .plain next')

namespace MirrorsIn

variable {reaction : Reaction Goal Shape}

theorem eq_reject {refusal : Refusal} (h : MirrorsIn (.reject refusal) reaction) :
    reaction = .reject refusal := by
  cases h
  rfl

theorem eq_skip (h : MirrorsIn .skip reaction) : reaction = .skip := by
  cases h
  rfl

theorem exists_take {role : Role Shape} {next : Symbols} (h : MirrorsIn (.take role next) reaction) :
    ∃ next', reaction = .take .plain next' ∧ Mirrors next next' := by
  cases h with
  | take _ hnext => exact ⟨_, rfl, hnext⟩

end MirrorsIn

theorem Mirrors.append {n n' k k' : Symbols} (hn : Mirrors n n') (hk : Mirrors k k') :
    Mirrors (n ++ k) (n' ++ k') := by
  induction hn with
  | nil => exact hk
  | goal hg _ ih => exact .goal hg ih
  | token terminal _ ih => exact .token terminal ih
  | complete shape _ ih => exact .complete shape ih

def literalTurn : Goal → Turn
  | .literal _ => some
  | _ => fun _ => none

theorem mirrors_self {n : Symbols} (h : Steady literalTurn n) : Mirrors n n := by
  induction n with
  | nil => exact .nil
  | cons s n ih =>
    obtain ⟨hs, hn⟩ := steady_cons.1 h
    -- Anything but a literal is out of order at one of two levels.
    have hbegun := congrFun hs ⟨true, 0⟩
    have hended := congrFun hs ⟨false, 0⟩
    cases s with
    | goal g =>
      cases g with
      | literal g => exact .goal rfl (ih hn)
      | fields | body | fieldRest | value => cases hended
    | token terminal role =>
      cases role with
      | plain => exact .token terminal (ih hn)
      | begins | closes => cases hbegun
      | opens => cases hended
    | complete => cases hended
    | finish => cases hbegun

theorem literal_mirrorsIn (g : Literal.Goal) (ahead : List Token) :
    MirrorsIn (react (.literal g) ahead) (react (.literal g) ahead) := by
  cases h : react (.literal g) ahead with
  | reject refusal => exact .reject refusal
  | skip => exact .skip
  | take role next =>
    have hturn (g : Literal.Goal) : literalTurn (.literal g) = some := rfl
    obtain ⟨rfl, hsteady⟩ := Literal.react_eq_take hturn h
    exact .take _ (mirrors_self hsteady)

theorem MirrorsIn.openMessage {reaction : Reaction Goal Shape} {what : String} {start? : Option Symbols}
    (h : MirrorsIn reaction (.takeOrRefuse .plain what start?)) (kind : TokenKind) :
    MirrorsIn ((openMessage? kind).getD reaction)
      (.takeOrRefuse .plain what ((Literal.afterMessageStart? .literal kind).or start?)) := by
  unfold openMessage? Literal.afterMessageStart?
  cases Literal.closing? kind with
  | none => exact h
  | some closing => exact .take _ (.goal rfl .nil)

theorem body_mirrorsIn (closing : Punct) (ahead : List Token) :
    MirrorsIn (react (.body closing) ahead) (react (.literal (.fields closing)) ahead) := by
  rw [react, react, Literal.react]
  cases kindAt ahead 0 with
  | none => exact .reject _
  | some kind =>
    dsimp only
    split
    · exact .take _ .nil
    · unfold afterFieldStart?
      cases hname : Literal.afterNameStart? Goal.literal kind with
      | none => exact .reject _
      | some n =>
        have hsteady : Steady literalTurn n := Literal.steady_of_afterNameStart? (fun _ => rfl) hname
        exact .take _ ((mirrors_self hsteady).append (.goal rfl (.goal rfl (.goal rfl .nil))))

theorem fieldRest_mirrorsIn (ahead : List Token) :
    MirrorsIn (react .fieldRest ahead) (react (.literal .fieldRest) ahead) := by
  rw [react, react, Literal.react]
  split
  · exact .take _ (.goal rfl .nil)
  cases kindAt ahead 0 with
  | none => exact .reject _
  | some kind =>
    have hreject : MirrorsIn (.reject (.expected "':' or '\x7b'"))
        (.takeOrRefuse .plain "':' or '\x7b'" none) := .reject _
    have hopen := hreject.openMessage kind
    rwa [Option.or_none] at hopen

theorem value_mirrorsIn (ahead : List Token) :
    MirrorsIn (react .value ahead) (react (.literal .value) ahead) := by
  rw [react, react, Literal.react]
  cases kindAt ahead 0 with
  | none => exact .reject _
  | some kind =>
    dsimp only [Option.bind_some]
    by_cases hbracket : kind = .punct .leftBracket
    · subst hbracket
      exact .take _ (.goal rfl (.complete _ .nil))
    rw [afterLeafStart?, Literal.afterValueStart?, if_neg hbracket, if_neg hbracket]
    refine MirrorsIn.openMessage ?_ kind
    cases hscalar : Literal.afterScalarStart? Goal.literal kind with
    | none => exact .reject _
    | some n =>
      have hsteady : Steady literalTurn n := Literal.steady_of_afterScalarStart? (fun _ => rfl) hscalar
      have hleaf := (mirrors_self hsteady).append (.complete .field .nil)
      rw [List.append_nil] at hleaf
      exact .take _ hleaf

theorem react_mirrorsIn {g : Goal} {l : Literal.Goal} (h : g.extent? = some l) (ahead : List Token) :
    MirrorsIn (react g ahead) (react (.literal l) ahead) := by
  cases g with
  | fields => cases h
  | literal g => exact Option.some.inj h ▸ literal_mirrorsIn g ahead
  | body closing => exact Option.some.inj h ▸ body_mirrorsIn closing ahead
  | fieldRest => exact Option.some.inj h ▸ fieldRest_mirrorsIn ahead
  | value => exact Option.some.inj h ▸ value_mirrorsIn ahead

theorem Mirrors.run {k k' : Symbols} (h : Mirrors k k') {ahead : List Token} {done done' : List (Act Shape)}
    (hdone : SameTokens done done') :
    (Prediction.run react k ahead done).SameExtent (Prediction.run react k' ahead done') := by
  fun_induction Prediction.run react k ahead done generalizing k' done' with
  | case1 ahead done =>
    cases h
    rw [Prediction.run]
    exact ⟨hdone.reverse, rfl, rfl⟩
  | case2 ahead done shape k ih =>
    cases h with
    | complete _ h => exact ih h (hdone.complete shape)
  | case3 => cases h
  | case4 done terminal role k =>
    cases h
    rw [Prediction.run]
    exact ⟨hdone.reverse, rfl, rfl⟩
  | case5 done terminal role k t ts hacc ih =>
    cases h with
    | token _ h =>
      rw [Prediction.run, if_pos hacc]
      exact ih h (hdone.take t _ _)
  | case6 done terminal role k t ts hacc =>
    cases h
    rw [Prediction.run, if_neg hacc]
    exact ⟨hdone.reverse, rfl, rfl⟩
  | case7 ahead done g k refusal hr =>
    cases h with
    | goal hg h =>
      have hr' := (hr ▸ react_mirrorsIn hg ahead).eq_reject
      rw [Prediction.run, hr']
      exact ⟨hdone.reverse, rfl, rfl⟩
  | case8 ahead done g k hr ih =>
    cases h with
    | goal hg h =>
      have hr' := (hr ▸ react_mirrorsIn hg ahead).eq_skip
      rw [Prediction.run, hr']
      exact ih h hdone
  | case9 done g k role next hr =>
    cases h with
    | goal hg h =>
      obtain ⟨next', hr', -⟩ := (hr ▸ react_mirrorsIn hg []).exists_take
      rw [Prediction.run, hr']
      exact ⟨hdone.reverse, rfl, rfl⟩
  | case10 done g k role next t ts hr ih =>
    cases h with
    | goal hg h =>
      obtain ⟨next', hr', hnext⟩ := (hr ▸ react_mirrorsIn hg (t :: ts)).exists_take
      rw [Prediction.run, hr']
      exact ih (hnext.append h) (hdone.take t _ _)

theorem react_eq_message {l : Literal.Goal} (hl : l = .fieldRest ∨ l = .value) {ahead : List Token}
    (hahead : kindAt ahead 0 = some (.punct .leftBrace) ∨ kindAt ahead 0 = some (.punct .leftAngle)) :
    react (.literal l) ahead = react (.literal .message) ahead := by
  rw [react, react]
  rcases hl with rfl | rfl <;> rcases hahead with h | h <;> simp only [Literal.react, h] <;> rfl

theorem message_sameExtent {goal : Goal} (hgoal : goal = .fieldRest ∨ goal = .value) {ahead : List Token}
    (hahead : kindAt ahead 0 = some (.punct .leftBrace) ∨ kindAt ahead 0 = some (.punct .leftAngle)) :
    (Prediction.run react [.goal goal] ahead []).SameExtent
      (Prediction.run react [.goal (.literal .message)] ahead []) := by
  obtain ⟨l, hextent, hl⟩ : ∃ l, goal.extent? = some l ∧ (l = .fieldRest ∨ l = .value) := by
    rcases hgoal with rfl | rfl
    · exact ⟨_, rfl, .inl rfl⟩
    · exact ⟨_, rfl, .inr rfl⟩
  have hrun : Prediction.run react [.goal (.literal .message)] ahead [] =
      Prediction.run react [.goal (.literal l)] ahead [] := by
    conv_lhs => rw [Prediction.run]
    conv_rhs => rw [Prediction.run, react_eq_message hl hahead]
  rw [hrun]
  exact (Mirrors.goal hextent .nil).run .nil

/-- A message read for its nodes comes to the same end as the literal, or is refused alike. The node may have
been begun anywhere before in the open container, and under any name; the root is open, as it always is while
a grammar reads. -/
theorem message_sameOutcome {text : String} {s : State Kind} {p : Pending} {goal : Goal}
    (h : s.Consistent text (Language.textFormat.tokens text)) (hopen : s.containers ≠ [])
    (hparent : p.marker.parent = s.container) (hplace : s.Admits p.marker)
    (hcurrent : s.currentKind = some (.punct .leftBrace) ∨ s.currentKind = some (.punct .leftAngle))
    (hgoal : goal = .fieldRest ∨ goal = .value) :
    SameOutcome (grammar.readOn (some p) [.goal goal] s)
      (grammar.read [.goal (.literal .message)] s) := by
  obtain ⟨ps, hps⟩ := h.exists_flatten
  have hdepth : 0 < s.containers.length := List.length_pos_iff.2 hopen
  have hnode : s.Engaged text (Language.textFormat.tokens text) (some p) ⟨true, 0⟩ ps :=
    ⟨h, hps, hdepth, rfl, by rintro _ ⟨⟩; exact ⟨hparent, hplace⟩⟩
  have hliteral : s.Engaged text (Language.textFormat.tokens text) none ⟨false, 0⟩ ps :=
    ⟨h, hps, hdepth, rfl, by simp⟩
  have hturn : stackTurn turn ([.goal goal] : Symbols) ⟨true, 0⟩ = some ⟨false, 0⟩ := by
    rcases hgoal with rfl | rfl <;> rfl
  rw [← Grammar.readOn_none]
  exact hnode.readOn_same disciplined (tokens_sliceable _ text) hliteral hturn rfl
    (message_sameExtent hgoal hcurrent)

theorem message_sameOutcome_unfinished : ∃ s : State Kind,
    s.Consistent "\x7ba:1 #c\n b<c:[2,\x7b\x7d] d 3>\x7d"
        (Language.textFormat.tokens "\x7ba:1 #c\n b<c:[2,\x7b\x7d] d 3>\x7d") ∧
      s.containers ≠ [] ∧ s.marker.parent = s.container ∧ s.Admits s.marker ∧
      (s.currentKind = some (.punct .leftBrace) ∨ s.currentKind = some (.punct .leftAngle)) ∧
      SameOutcome (grammar.readOn (some ⟨s.marker, [⟨.identifier, 0, "m"⟩]⟩) [.goal .value] s)
        (grammar.read [.goal (.literal .message)] s) := by
  obtain ⟨s, h, hstart⟩ := State.exists_start
    (tokens_sliceable .textFormat "\x7ba:1 #c\n b<c:[2,\x7b\x7d] d 3>\x7d")
    (fun s : State Kind => (s.containers, s.currentKind))
    (show _ = some ([Tree.root], some (.punct .leftBrace)) by rw [tokens_eq]; cbv)
  obtain ⟨hcontainers, hcurrent⟩ := Prod.mk.inj hstart
  have hopen : s.containers ≠ [] := by simp [hcontainers]
  exact ⟨s, h, hopen, rfl, h.marker, .inl hcurrent,
    message_sameOutcome (p := ⟨s.marker, _⟩) h hopen rfl h.marker (.inl hcurrent) (.inr rfl)⟩

end ProtoSyntax.TextFormat
