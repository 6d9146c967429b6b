import ProtoSyntax.Proofs.Literal.Rules
import ProtoSyntax.Proofs.Parsing.Discipline
import ProtoSyntax.Proofs.TextFormat.Rules
import ProtoSyntax.Schema.Grammar

/-!
# The turns of goals

Literals begin no nodes. In the other grammars a goal reads whole nodes, the rest of a node that is
begun, or the rest of a container that is open.
-/

namespace ProtoSyntax

namespace Literal

variable {G S : Type} {embed : Goal → G} {turn : G → Turn}

theorem steady_of_afterMessageStart? (hturn : ∀ g, turn (embed g) = some) {k : TokenKind}
    {n : List (Symbol G S)} (h : afterMessageStart? embed k = some n) : Steady turn n := by
  rcases afterMessageStart?_eq_some.1 h with ⟨-, rfl⟩ | ⟨-, rfl⟩ <;>
    simp [goal, Symbol.turn, hturn]

theorem steady_of_afterNameStart? (hturn : ∀ g, turn (embed g) = some) {k : TokenKind}
    {n : List (Symbol G S)} (h : afterNameStart? embed k = some n) : Steady turn n := by
  rcases afterNameStart?_eq_some.1 h with ⟨-, rfl⟩ | ⟨-, rfl⟩ <;>
    simp [extension, goal, word, punct, Symbol.turn, Role.turn, hturn]

theorem steady_of_afterScalarStart? (hturn : ∀ g, turn (embed g) = some) {k : TokenKind}
    {n : List (Symbol G S)} (h : afterScalarStart? embed k = some n) : Steady turn n := by
  rcases afterScalarStart?_eq_some.1 h with ⟨-, rfl⟩ | ⟨-, rfl⟩ <;>
    simp [goal, Symbol.turn, hturn]

theorem steady_of_afterValueStart? (hturn : ∀ g, turn (embed g) = some) {k : TokenKind}
    {n : List (Symbol G S)} (h : afterValueStart? embed k = some n) : Steady turn n := by
  rcases afterValueStart?_eq_some.1 h with ⟨-, rfl⟩ | h | h
  · simp [goal, Symbol.turn, hturn]
  · exact steady_of_afterMessageStart? hturn h
  · exact steady_of_afterScalarStart? hturn h

theorem react_eq_take (hturn : ∀ g, turn (embed g) = some) {g : Goal} {ahead : List Token}
    {role : Role S} {next : List (Symbol G S)} (h : react embed g ahead = .take role next) :
    role = .plain ∧ Steady turn next := by
  cases g with
  | moreStrings | moreExtension | moreItems | separator =>
    obtain ⟨rfl, hn⟩ := Reaction.takeOrSkip_eq_take.1 h
    split at hn
    · obtain rfl := Option.some.inj hn
      simp [goal, word, Symbol.turn, Role.turn, hturn]
    · cases hn
  | fieldName =>
    obtain ⟨rfl, ho⟩ := Reaction.takeOrRefuse_eq_take.1 h
    obtain ⟨k, -, hn⟩ := Option.bind_eq_some_iff.1 ho
    exact ⟨rfl, steady_of_afterNameStart? hturn hn⟩
  | message =>
    obtain ⟨rfl, ho⟩ := Reaction.takeOrRefuse_eq_take.1 h
    obtain ⟨k, -, hn⟩ := Option.bind_eq_some_iff.1 ho
    exact ⟨rfl, steady_of_afterMessageStart? hturn hn⟩
  | value =>
    obtain ⟨rfl, ho⟩ := Reaction.takeOrRefuse_eq_take.1 h
    obtain ⟨k, -, hn⟩ := Option.bind_eq_some_iff.1 ho
    exact ⟨rfl, steady_of_afterValueStart? hturn hn⟩
  | fields closing =>
    rw [react] at h
    split at h
    · split at h
      · obtain ⟨rfl, rfl⟩ := Reaction.take.inj h
        simp
      · obtain ⟨rfl, ho⟩ := Reaction.takeOrRefuse_eq_take.1 h
        obtain ⟨n, hn, rfl⟩ := Option.map_eq_some_iff.1 ho
        have := steady_of_afterNameStart? hturn hn
        simp [this, fieldTail, goal, Symbol.turn, hturn]
    · cases h
  | fieldRest =>
    rw [react] at h
    split at h
    · obtain ⟨rfl, rfl⟩ := Reaction.take.inj h
      simp [goal, Symbol.turn, hturn]
    · obtain ⟨rfl, ho⟩ := Reaction.takeOrRefuse_eq_take.1 h
      obtain ⟨k, -, hn⟩ := Option.bind_eq_some_iff.1 ho
      exact ⟨rfl, steady_of_afterMessageStart? hturn hn⟩
  | items =>
    rw [react] at h
    split at h
    · obtain ⟨rfl, rfl⟩ := Reaction.take.inj h
      simp
    · obtain ⟨rfl, ho⟩ := Reaction.takeOrRefuse_eq_take.1 h
      obtain ⟨n, hn, rfl⟩ := Option.map_eq_some_iff.1 ho
      obtain ⟨k, -, hn⟩ := Option.bind_eq_some_iff.1 hn
      have := steady_of_afterValueStart? hturn hn
      simp [this, punct, goal, Symbol.turn, Role.turn, hturn]

end Literal

namespace Schema

open Turn

def turn : Goal → Turn
  | .declarations | .optionValue | .moreOptions => whole
  | .declarationEnd _ | .rpcEnd => completes
  | .messageBody | .oneofBody | .enumBody | .serviceBody | .rpcBody => closes
  | .optionName role => role.turn
  | _ => some

def Within (t : Turn) (k : Symbols) : Prop := ∀ l l', t l = some l' → stackTurn turn k l = some l'

theorem steady_of_afterTypeStart? {k : TokenKind} {n : Symbols} (h : afterTypeStart? k = some n) :
    Steady turn n := by
  unfold afterTypeStart? at h
  split at h
  · obtain rfl := Option.some.inj h
    simp
  · obtain rfl := Option.some.inj h
    simp [Symbol.turn, turn]
  · split at h
    · obtain rfl := Option.some.inj h
      simp [Symbol.turn, turn]
    · cases h

theorem Within.of_steady {n k : Symbols} {t : Turn} (hn : Steady turn n) (hk : Within t k) :
    Within t (n ++ k) :=
  fun l _ hl => stackTurn_append_eq_some.2 ⟨l, hn.stackTurn_eq l, hk _ _ hl⟩

theorem within_fieldTail : Within completes fieldTail := by
  rintro ⟨_ | _, d⟩ l' hl <;> cases hl
  rfl

theorem within_of_afterFieldStart? {ahead : List Token} {n : Symbols}
    (h : afterFieldStart? ahead = some n) : Within completes n := by
  unfold afterFieldStart? at h
  split at h
  · obtain rfl := Option.some.inj h
    exact .of_steady (n := [.goal .typeName]) (by simp [Symbol.turn, turn]) within_fieldTail
  · obtain rfl := Option.some.inj h
    exact .of_steady (n := [.goal .typeName]) (by simp [Symbol.turn, turn]) within_fieldTail
  · split at h
    · obtain rfl := Option.some.inj h
      refine .of_steady ?_ within_fieldTail
      simp [mapType, Literal.punct, Symbol.turn, Role.turn, turn]
    · obtain ⟨n, hn, rfl⟩ := Option.map_eq_some_iff.1 h
      exact .of_steady (steady_of_afterTypeStart? hn) within_fieldTail
  · cases h

theorem within_of_afterDeclarationStart? {k : TokenKind} {n : Symbols}
    (h : afterDeclarationStart? k = some n) : Within completes n := by
  rintro ⟨_ | _, d⟩ l' hl <;> cases hl
  unfold afterDeclarationStart? at h
  split at h <;> cases h <;> rfl

theorem within_of_afterMessageMemberStart? {ahead : List Token} {n : Symbols}
    (h : afterMessageMemberStart? ahead = some n) : Within completes n := by
  unfold afterMessageMemberStart? at h
  split at h
  · obtain rfl := Option.some.inj h
    rintro ⟨_ | _, d⟩ l' hl <;> cases hl
    rfl
  · obtain rfl := Option.some.inj h
    rintro ⟨_ | _, d⟩ l' hl <;> cases hl
    rfl
  · obtain rfl := Option.some.inj h
    rintro ⟨_ | _, d⟩ l' hl <;> cases hl
    rfl
  · obtain rfl := Option.some.inj h
    rintro ⟨_ | _, d⟩ l' hl <;> cases hl
    rfl
  · exact within_of_afterFieldStart? h

theorem within_optionStatement : Within completes optionStatement := by
  rintro ⟨_ | _, d⟩ l' hl <;> cases hl
  rfl

theorem Within.begins {n : Symbols} (hn : Within completes n) {g : Goal} {l l' : Level}
    (hl : turn g l = some l') (hbegun : l.begun = false) :
    ∃ m, (Role.begins : Role Shape).turn l = some m ∧ stackTurn turn (n ++ [.goal g]) m = some l' := by
  obtain ⟨_ | _, d⟩ := l
  · refine ⟨⟨true, d⟩, rfl, stackTurn_append_eq_some.2 ⟨⟨false, d⟩, hn _ _ rfl, ?_⟩⟩
    exact stackTurn_cons_eq_some.2 ⟨l', hl, rfl⟩
  · cases hbegun

theorem inBody {body : Goal} (hbody : turn body = closes) {what : String} {member? : Option Symbols}
    (hmember : ∀ n, member? = some n → Within completes n) {kind? : Option TokenKind}
    {role : Role Shape} {next : Symbols} {l l' : Level}
    (h : reactInBody body what member? kind? = .take role next) (hl : turn body l = some l') :
    ∃ m, role.turn l = some m ∧ stackTurn turn next m = some l' := by
  have hcloses : closes l = some l' := hbody ▸ hl
  have hbegun : l.begun = false := by
    obtain ⟨_ | _, _ | d⟩ := l <;> first | rfl | cases hcloses
  unfold reactInBody at h
  split at h
  · obtain ⟨rfl, rfl⟩ := Reaction.take.inj h
    exact ⟨l', hcloses, rfl⟩
  · obtain ⟨rfl, rfl⟩ := Reaction.take.inj h
    exact ⟨l, rfl, stackTurn_cons_eq_some.2 ⟨l', hl, rfl⟩⟩
  · obtain ⟨rfl, rfl⟩ := Reaction.take.inj h
    exact within_optionStatement.begins hl hbegun
  · obtain ⟨rfl, ho⟩ := Reaction.takeOrRefuse_eq_take.1 h
    obtain ⟨n, hn, rfl⟩ := Option.map_eq_some_iff.1 ho
    exact (hmember n hn).begins hl hbegun

theorem reactToVersion_eq_take {t? : Option Token} {role : Role Shape} {next : Symbols}
    (h : reactToVersion t? = .take role next) : role = .plain ∧ next = [] := by
  unfold reactToVersion at h
  split at h
  · split_ifs at h
    obtain ⟨rfl, rfl⟩ := Reaction.take.inj h
    exact ⟨rfl, rfl⟩
  · cases h

theorem steady_of_react {g : Goal} {ahead : List Token} {role : Role Shape} {next : Symbols}
    (h : react g ahead = .take role next) (hg : turn g = some) (hname : ∀ r, g ≠ .optionName r) :
    role = .plain ∧ Steady turn next := by
  cases g with
  | literal g =>
    have hturn (g : Literal.Goal) : turn (.literal g) = some := rfl
    exact Literal.react_eq_take hturn h
  | optionName r => exact absurd rfl (hname r)
  | declarations | optionValue | moreOptions | declarationEnd | rpcEnd | messageBody | oneofBody |
      enumBody | serviceBody | rpcBody => cases congrFun hg ⟨true, 0⟩
  | moreName | moreOptionName | moreReservedNames | moreReservedRanges | rangeRest |
      optionalSemicolon =>
    obtain ⟨rfl, ho⟩ := Reaction.takeOrSkip_eq_take.1 h
    split at ho
    · obtain rfl := Option.some.inj ho
      simp [Literal.word, Literal.string, Literal.integer, Symbol.turn, Role.turn, turn]
    · cases ho
  | name | rootedName | reservedEntries | rangeEnd =>
    obtain ⟨rfl, ho⟩ := Reaction.takeOrRefuse_eq_take.1 h
    split_ifs at ho <;> obtain rfl := Option.some.inj ho <;> simp [Symbol.turn, turn]
  | typeName =>
    obtain ⟨rfl, ho⟩ := Reaction.takeOrRefuse_eq_take.1 h
    obtain ⟨k, -, hn⟩ := Option.bind_eq_some_iff.1 ho
    exact ⟨rfl, steady_of_afterTypeStart? hn⟩
  | rpcType =>
    rw [react] at h
    split at h
    · obtain ⟨rfl, rfl⟩ := Reaction.take.inj h
      simp [Symbol.turn, turn]
    · obtain ⟨rfl, ho⟩ := Reaction.takeOrRefuse_eq_take.1 h
      obtain ⟨k, -, hn⟩ := Option.bind_eq_some_iff.1 ho
      exact ⟨rfl, steady_of_afterTypeStart? hn⟩
  | version =>
    obtain ⟨rfl, rfl⟩ := reactToVersion_eq_take h
    simp
  | importPath =>
    obtain ⟨rfl, ho⟩ := Reaction.takeOrRefuse_eq_take.1 h
    split at ho <;> cases ho <;> simp [Literal.string, Symbol.turn, Role.turn]

theorem steady_of_afterOptionNameStart? {k : TokenKind} {n : Symbols}
    (h : afterOptionNameStart? k = some n) : Steady turn n := by
  unfold afterOptionNameStart? at h
  split_ifs at h <;> obtain rfl := Option.some.inj h <;>
    simp [Literal.punct, Symbol.turn, Role.turn, turn]

theorem within_of_afterEnumMemberStart? {k : TokenKind} {n : Symbols}
    (h : afterEnumMemberStart? k = some n) : Within completes n := by
  rintro ⟨_ | _, d⟩ l' hl <;> cases hl
  unfold afterEnumMemberStart? at h
  split_ifs at h <;> cases h <;> rfl

theorem within_of_afterServiceMemberStart? {k : TokenKind} {n : Symbols}
    (h : afterServiceMemberStart? k = some n) : Within completes n := by
  rintro ⟨_ | _, d⟩ l' hl <;> cases hl
  unfold afterServiceMemberStart? at h
  split_ifs at h
  cases h
  rfl

theorem reactInBody_ne_skip {body : Goal} {what : String} {member? : Option Symbols}
    {kind? : Option TokenKind} : reactInBody body what member? kind? ≠ .skip := by
  unfold reactInBody
  split <;> simp

theorem turn_of_skip {g : Goal} {ahead : List Token} {l l' : Level} (h : react g ahead = .skip)
    (hl : turn g l = some l') : l = l' := by
  cases g with
  | declarations | optionValue | moreOptions => exact (Turn.whole_eq_some.1 hl).2
  | optionName => exact absurd h Reaction.takeOrRefuse_ne_skip
  | declarationEnd | rpcEnd =>
    rw [react] at h
    split at h
    · cases h
    · exact absurd h Reaction.takeOrRefuse_ne_skip
  | messageBody | oneofBody | enumBody | serviceBody | rpcBody => exact absurd h reactInBody_ne_skip
  | _ => exact Option.some.inj hl

theorem disciplined : Disciplined react turn where
  skip := turn_of_skip
  take {g ahead role next l l'} h hl := by
    cases g with
    | declarations =>
      obtain ⟨_ | _, d⟩ := l <;> cases hl
      rw [react] at h
      split at h
      · cases h
      · obtain ⟨rfl, rfl⟩ := Reaction.take.inj h
        exact ⟨_, rfl, rfl⟩
      · obtain ⟨rfl, ho⟩ := Reaction.takeOrRefuse_eq_take.1 h
        obtain ⟨n, hn, rfl⟩ := Option.map_eq_some_iff.1 ho
        exact (within_of_afterDeclarationStart? hn).begins rfl rfl
    | optionName r =>
      obtain ⟨rfl, ho⟩ := Reaction.takeOrRefuse_eq_take.1 h
      obtain ⟨k, -, hn⟩ := Option.bind_eq_some_iff.1 ho
      exact ⟨l', hl, (steady_of_afterOptionNameStart? hn).stackTurn_eq l'⟩
    | optionValue =>
      obtain ⟨_ | _, d⟩ := l <;> cases hl
      obtain ⟨rfl, ho⟩ := Reaction.takeOrRefuse_eq_take.1 h
      obtain ⟨n, hn, rfl⟩ := Option.map_eq_some_iff.1 ho
      obtain ⟨k, -, hn⟩ := Option.bind_eq_some_iff.1 hn
      have hsteady : Steady turn n := by
        rcases Literal.or_of_disjoint.1 hn with hn | hn
        · exact Literal.steady_of_afterMessageStart? (fun _ => rfl) hn
        · exact Literal.steady_of_afterScalarStart? (fun _ => rfl) hn
      exact ⟨_, rfl, stackTurn_append_eq_some.2 ⟨_, hsteady.stackTurn_eq _, rfl⟩⟩
    | moreOptions =>
      obtain ⟨_ | _, d⟩ := l <;> cases hl
      obtain ⟨rfl, ho⟩ := Reaction.takeOrSkip_eq_take.1 h
      split_ifs at ho
      obtain rfl := Option.some.inj ho
      exact ⟨_, rfl, rfl⟩
    | declarationEnd shape | rpcEnd =>
      obtain ⟨_ | _, d⟩ := l <;> cases hl
      rw [react] at h
      split at h
      · obtain ⟨rfl, rfl⟩ := Reaction.take.inj h
        exact ⟨_, rfl, rfl⟩
      · obtain ⟨rfl, ho⟩ := Reaction.takeOrRefuse_eq_take.1 h
        split_ifs at ho
        obtain rfl := Option.some.inj ho
        exact ⟨_, rfl, rfl⟩
    | messageBody => exact inBody rfl (fun n => within_of_afterMessageMemberStart?) h hl
    | oneofBody => exact inBody rfl (fun n => within_of_afterFieldStart?) h hl
    | enumBody =>
      refine inBody rfl (fun n hn => ?_) h hl
      obtain ⟨k, -, hn⟩ := Option.bind_eq_some_iff.1 hn
      exact within_of_afterEnumMemberStart? hn
    | serviceBody =>
      refine inBody rfl (fun n hn => ?_) h hl
      obtain ⟨k, -, hn⟩ := Option.bind_eq_some_iff.1 hn
      exact within_of_afterServiceMemberStart? hn
    | rpcBody => exact inBody rfl (by simp) h hl
    | _ =>
      obtain ⟨rfl, hn⟩ := steady_of_react h rfl (by simp)
      exact ⟨l, rfl, (hn.stackTurn_eq l).trans hl⟩

end Schema

namespace TextFormat

open Turn

def turn : Goal → Turn
  | .literal _ => some
  | .fields => whole
  | .body _ => closes
  | .fieldRest | .value => completes

theorem steady_of_afterLeafStart? {k : TokenKind} {n : Symbols} (h : afterLeafStart? k = some n) :
    ∃ m, Steady turn m ∧ n = m ++ [.complete .field] := by
  obtain ⟨m, hm, rfl⟩ := afterLeafStart?_eq_some.1 h
  refine ⟨m, ?_, rfl⟩
  rcases hm with ⟨-, rfl⟩ | hm
  · simp [Symbol.turn, turn]
  · exact Literal.steady_of_afterScalarStart? (fun _ => rfl) hm

theorem turn_of_afterFieldStart? {after : Goal} {k : TokenKind} {n : Symbols} {d : Nat} {l' : Level}
    (h : afterFieldStart? after k = some n) (hl : turn after ⟨false, d⟩ = some l') :
    stackTurn turn n ⟨true, d⟩ = some l' := by
  obtain ⟨m, hm, rfl⟩ := Option.map_eq_some_iff.1 h
  have hsteady : Steady turn m := Literal.steady_of_afterNameStart? (fun _ => rfl) hm
  refine stackTurn_append_eq_some.2 ⟨_, hsteady.stackTurn_eq _, ?_⟩
  exact stackTurn_cons_eq_some.2 ⟨⟨false, d⟩, rfl, stackTurn_cons_eq_some.2 ⟨⟨false, d⟩, rfl,
    stackTurn_cons_eq_some.2 ⟨l', hl, rfl⟩⟩⟩

theorem turn_of_openMessage? {k? : Option TokenKind} {role : Role Shape} {next : Symbols} {d : Nat}
    (h : k?.bind openMessage? = some (.take role next)) :
    ∃ m, role.turn ⟨true, d⟩ = some m ∧ stackTurn turn next m = some ⟨false, d⟩ := by
  obtain ⟨k, -, hk⟩ := Option.bind_eq_some_iff.1 h
  obtain ⟨rfl, ⟨-, rfl⟩ | ⟨-, rfl⟩⟩ := openMessage?_eq_take.1 hk <;> exact ⟨_, rfl, rfl⟩

theorem getD_bind_openMessage?_ne_skip {k? : Option TokenKind} {reaction : Reaction Goal Shape}
    (h : reaction ≠ .skip) : (k?.bind openMessage?).getD reaction ≠ .skip := by
  cases k? with
  | none => exact h
  | some k => exact getD_openMessage?_ne_skip h

theorem disciplined : Disciplined react turn where
  skip {g ahead l l'} h hl := by
    cases g with
    | literal g => exact Option.some.inj hl
    | fields => exact (Turn.whole_eq_some.1 hl).2
    | body closing =>
      rw [react] at h
      split at h
      · cases h
      · split at h
        · cases h
        · exact absurd h Reaction.takeOrRefuse_ne_skip
    | fieldRest =>
      rw [react] at h
      split at h
      · cases h
      · exact absurd h (getD_bind_openMessage?_ne_skip (by simp))
    | value => exact absurd h (getD_bind_openMessage?_ne_skip Reaction.takeOrRefuse_ne_skip)
  take {g ahead role next l l'} h hl := by
    cases g with
    | literal g =>
      have hturn (g : Literal.Goal) : turn (.literal g) = some := rfl
      obtain ⟨rfl, hn⟩ := Literal.react_eq_take hturn h
      exact ⟨l, rfl, (hn.stackTurn_eq l).trans hl⟩
    | fields =>
      obtain ⟨_ | _, d⟩ := l <;> cases hl
      rw [react] at h
      split at h
      · cases h
      · obtain ⟨rfl, ho⟩ := Reaction.takeOrRefuse_eq_take.1 h
        exact ⟨_, rfl, turn_of_afterFieldStart? ho rfl⟩
    | body closing =>
      obtain ⟨_ | _, _ | d⟩ := l <;> cases hl
      rw [react] at h
      split at h
      · cases h
      · split at h
        · obtain ⟨rfl, rfl⟩ := Reaction.take.inj h
          exact ⟨_, rfl, rfl⟩
        · obtain ⟨rfl, ho⟩ := Reaction.takeOrRefuse_eq_take.1 h
          exact ⟨_, rfl, turn_of_afterFieldStart? ho rfl⟩
    | fieldRest =>
      obtain ⟨_ | _, d⟩ := l <;> cases hl
      rw [react] at h
      split at h
      · obtain ⟨rfl, rfl⟩ := Reaction.take.inj h
        exact ⟨_, rfl, rfl⟩
      · obtain ho | ⟨-, ho⟩ := Option.getD_eq_iff.1 h
        · exact turn_of_openMessage? ho
        · cases ho
    | value =>
      obtain ⟨_ | _, d⟩ := l <;> cases hl
      obtain ho | ⟨-, ho⟩ := Option.getD_eq_iff.1 h
      · exact turn_of_openMessage? ho
      · obtain ⟨rfl, hn⟩ := Reaction.takeOrRefuse_eq_take.1 ho
        obtain ⟨k, -, hk⟩ := Option.bind_eq_some_iff.1 hn
        obtain ⟨m, hm, rfl⟩ := steady_of_afterLeafStart? hk
        exact ⟨_, rfl, stackTurn_append_eq_some.2 ⟨_, hm.stackTurn_eq _, rfl⟩⟩

end TextFormat
end ProtoSyntax
