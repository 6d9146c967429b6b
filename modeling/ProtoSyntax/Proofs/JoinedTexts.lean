import ProtoSyntax.Proofs.Errors
import ProtoSyntax.Proofs.Parsing.Joined
import ProtoSyntax.Proofs.Parsing.Seam
import ProtoSyntax.Proofs.Schema.Transparency
import ProtoSyntax.Proofs.TextFormat.Denotation

/-!
# Parses of joined texts

A text that is read leaves nothing behind that would matter to a text after it. So the text joined of
the two is read if the second is, with the declarations of both, and else refused where and as the
second is.
-/

namespace ProtoSyntax
open Piece (flatten)
open String (utf8Len)

theorem LaidIn.slice_shift {language : Language} {text whole : String} {us : List Token}
    {pre post : List Char} (h : LaidIn language text us)
    (hwhole : whole.toList = pre ++ text.toList ++ post) :
    Token.slice whole (us.map (·.shift (utf8Len pre))) = Token.slice text us := by
  cases us with
  | nil => rfl
  | cons t ts =>
    obtain ⟨before, c, mid, after, htext, hstart, hstop, -⟩ := h.exists_slice
    rw [Token.slice_eq htext hstart hstop, List.map_cons]
    have hcut : whole.toList = pre ++ before ++ (c :: mid) ++ (after ++ post) := by simp [hwhole, htext]
    refine Token.slice_eq hcut ?_ ?_
    · rw [Token.shift, hstart, String.utf8Len_append]
    · rw [Token.getLastD_map_shift, Token.stop_shift, hstop, List.append_assoc,
        String.utf8Len_append pre]

theorem Token.joined_shift (n : Nat) (us : List Token) :
    Token.joined (us.map (·.shift n)) = Token.joined us := by
  rw [← joined_map_bare, ← joined_map_bare us, List.map_map]
  rfl

theorem LaidIn.valueText_shift {language : Language} {text whole : String} {us : List Token}
    {pre post : List Char} (h : LaidIn language text us)
    (hwhole : whole.toList = pre ++ text.toList ++ post) :
    Token.valueText whole (us.map (·.shift (utf8Len pre))) = Token.valueText text us := by
  match us with
  | [] | [t] => exact h.slice_shift hwhole
  | t :: u :: us =>
    by_cases hk : t.kind = .string
    · exact (if_pos hk).trans ((Token.joined_shift _ (t :: u :: us)).trans (if_pos hk).symm)
    · exact (if_neg hk).trans ((h.slice_shift hwhole).trans (if_neg hk).symm)

theorem laidIn_tokens (language : Language) (text : String) :
    LaidIn language text (language.tokens text) :=
  ⟨spaced_tokens language text, tokens_foundIn language text⟩

theorem Schema.agrees {text whole : String} {pre post : List Char}
    (hwhole : whole.toList = pre ++ text.toList ++ post) :
    Agrees (utf8Len pre) (fun shape => grammar.build shape text)
      (fun shape => grammar.build shape whole) (Language.schema.tokens text) := by
  intro shape us hus
  by_cases hs : shape = .optionValue
  · subst hs
    exact congrArg Kind.optionValue (((laidIn_tokens .schema text).sublist hus).valueText_shift hwhole)
  · have hbare : (us.map (·.shift (utf8Len pre))).map Token.bare = us.map Token.bare := by
      rw [List.map_map]
      rfl
    exact (build_map_bare hs whole whole _).symm.trans (hbare ▸ build_map_bare hs whole text us)

theorem TextFormat.agrees {text whole : String} {pre post : List Char}
    (hwhole : whole.toList = pre ++ text.toList ++ post) :
    Agrees (utf8Len pre) (fun shape => grammar.build shape text)
      (fun shape => grammar.build shape whole) (Language.textFormat.tokens text) := by
  intro shape us hus
  have hname := Literal.steady_readFieldName.moved (·.shift (utf8Len pre)) (fun _ => rfl) us
  cases shape with
  | message => exact congrArg (Kind.message ·.1) hname
  | field =>
    have hvalue := ((laidIn_tokens .textFormat text).sublist (((List.drop_sublist 1 _).trans
      (Literal.steady_readFieldName.suffix us).sublist).trans hus)).valueText_shift hwhole
    rw [List.map_drop] at hvalue
    show build .field whole _ = build .field text us
    rw [build, build, hname, hvalue]

namespace Schema

/-- The goals that do not end with the end of a text. -/
def Solid : Goal → Prop
  | .declarationEnd _ | .messageBody | .oneofBody | .enumBody | .serviceBody | .rpcBody => True
  | _ => False

theorem Solid.ne_skip {g : Goal} (hg : Solid g) {ahead : List Token} : react g ahead ≠ .skip := by
  cases g with
  | declarationEnd shape =>
    rw [react]
    split <;> simp
  | messageBody | oneofBody | enumBody | serviceBody | rpcBody => exact reactInBody_ne_skip
  | _ => cases hg

theorem firm_body {body : Goal} (hbody : Solid body) {what : String} {member? : Option Symbols}
    {k : Option TokenKind} {role : Role Shape} {next : Symbols}
    (h : reactInBody body what member? k = .take role next) : Firm Solid next := by
  cases k with
  | none =>
    obtain ⟨m, -, rfl⟩ := Option.map_eq_some_iff.1 (Reaction.takeOrRefuse_eq_take.1 h).2
    exact .goal m hbody
  | some kind =>
    rcases reactInBody_eq_take.1 h with ⟨-, -, rfl⟩ | ⟨-, -, rfl⟩ | ⟨-, -, rfl⟩ | ⟨-, -, m, -, rfl⟩
    · trivial
    · exact .goal [] hbody
    · exact .goal optionStatement hbody
    · exact .goal m hbody

theorem firm_declarationEnd {shape : Shape} {ahead : List Token} {role : Role Shape} {next : Symbols}
    (h : react (.declarationEnd shape) ahead = .take role next) : Firm Solid next := by
  rw [react] at h
  split at h
  · obtain ⟨-, rfl⟩ := Reaction.take.inj h
    exact .token (bracketOption ++ [Literal.punct .rightBracket]) [] trivial
  · obtain ⟨-, h⟩ := Reaction.takeOrRefuse_eq_take.1 h
    split at h
    · obtain rfl := Option.some.inj h
      trivial
    · cases h

theorem firm_fileBlock {w : Keyword} {n : Symbols} (h : (w, n) ∈ fileBlocks) : Firm Solid n := by
  simp only [fileBlocks, List.mem_cons, Prod.mk.injEq, List.not_mem_nil, or_false] at h
  rcases h with ⟨-, rfl⟩ | ⟨-, rfl⟩ | ⟨-, rfl⟩ | ⟨-, rfl⟩ | ⟨-, rfl⟩ | ⟨-, rfl⟩ | ⟨-, rfl⟩
  · exact .token [Literal.punct .eq, .goal Goal.version] [.complete Shape.version] trivial
  · exact .token [.goal Goal.importPath] [.complete Shape.importFile] trivial
  · exact .token [.goal (Goal.name "package name")] [.complete Shape.package] trivial
  · exact .token (.goal (.optionName .plain) :: optionTail .option) [] trivial
  all_goals exact @Firm.goal _ _ Solid [_, _] _ trivial

theorem isSealed : Sealed react Solid .declarations where
  toRecurs := recurs_declarations
  alone _ _ := rfl
  firm_turn h := by
    obtain ⟨m, hm, he⟩ := react_declarations_eq_take.1 h
    obtain rfl := List.append_cancel_right he
    rcases hm with ⟨-, -, rfl⟩ | ⟨-, hm⟩
    · trivial
    · obtain ⟨w, hw, -⟩ := afterDeclarationStart?_eq_some.1 hm
      exact firm_fileBlock hw
  firm {g ahead role next} hg h := by
    cases g with
    | declarationEnd shape => exact firm_declarationEnd h
    | messageBody | oneofBody | enumBody | serviceBody | rpcBody => exact firm_body hg h
    | _ => cases hg
  skip_nil hg := hg.ne_skip

theorem exists_last {q : Part Shape} (h : Fits rule layout .file q) :
    q.isClosed = true ∧ ∃ ps p, q.pieces = ps ++ [p] ∧ ∃ c, p.kind = .punct c := by
  cases h with
  | @token _ p hp => exact ⟨rfl, [], p, rfl, .semicolon, of_decide_eq_true hp⟩
  | @leaf _ shape first more e tail hhead hend hd =>
    have htail : tail = [semicolon] := by
      cases shape with
      | optionValue => cases hhead
      | version | importFile | package | reserved | field | enumValue | rpc =>
        exact (Option.some.inj hend).symm
      | _ => cases hend
    rw [htail] at hd
    -- Every leaf among the declarations ends with a semicolon.
    obtain ⟨x, y, he, -, hy⟩ := hd.split
    cases hy with
    | @token _ p _ _ hp hy =>
      cases hy
      obtain ⟨xs, ys, hps, rfl, hys⟩ := List.map_eq_append_iff.1 he
      obtain ⟨r, rs, rfl, hr, hrs⟩ := List.map_eq_cons_iff.1 hys
      obtain rfl := List.map_eq_nil_iff.1 hrs
      obtain rfl := Signal.token.inj hr
      exact ⟨rfl, xs, r, hps, .semicolon, of_decide_eq_true hp⟩
  | @block _ shape first more e opener body closer opening close hhead hd hdel hopener hcloser =>
    have hclose : close ≠ none := by
      rintro rfl
      obtain rfl := eq_bracketOption_of_unclosed hdel
      cases hhead
    obtain ⟨c, rfl⟩ := Option.ne_none_iff_exists'.1 hclose
    obtain ⟨p, rfl, hp⟩ := Option.map_eq_some_iff.1 hcloser
    exact ⟨rfl, _, p, rfl, c, hp⟩

theorem kind_ne_string_of_getLast? {text : String} {tree : Tree Kind} (h : parse text = .ok tree) :
    ∀ t ∈ (Language.schema.tokens text).getLast?, t.kind ≠ .string := by
  obtain ⟨lead, ps, htokens, hlead⟩ := Piece.exists_flatten (Language.schema.tokens text)
  have ho : Ordered (lead ++ flatten ps) := htokens ▸ ordered_tokens .schema text
  rw [parse, htokens] at h
  obtain ⟨parts, rfl, -, hfits, -⟩ := reads.parse_sound hlead ho h
  rw [htokens]
  have hcomment {cs : List Token} (hcs : ∀ t ∈ cs, t.isComment = true) :
      ∀ t ∈ cs.getLast?, t.kind ≠ .string := by
    intro t ht hk
    have hc := hcs t (List.mem_of_getLast? ht)
    rw [Token.isComment, hk] at hc
    cases hc
  rcases List.eq_nil_or_concat parts with rfl | ⟨parts, q, rfl⟩
  · rw [Part.listPieces, Piece.flatten_nil, List.append_nil]
    exact hcomment hlead
  · -- The last token is that of the last declaration, or one of the comments after it.
    obtain ⟨-, ps, p, hps, c, hc⟩ := exists_last (hfits q (by simp))
    have hlast : lead ++ flatten (Part.listPieces (parts.concat q)) =
        (lead ++ flatten (Part.listPieces parts ++ ps)) ++ p.token :: p.comments := by
      simp [Part.listPieces_append, Part.listPieces, hps]
    rw [hlast, List.getLast?_append, List.getLast?_cons]
    cases hcs : p.comments.getLast? with
    | none => simp [hc]
    | some u => simpa using hcomment p.comments_isComment u hcs

theorem isTerminated_of_parse {text : String} {tree : Tree Kind} (h : parse text = .ok tree)
    (hc : ∀ t ∈ Language.schema.tokens text, t.kind = .comment true → t.isTerminated = true) :
    ∀ t ∈ Language.schema.tokens text, t.isTerminated = true := by
  refine Language.schema.isTerminated_of_getLast? fun t ht => ?_
  by_cases hk : t.kind = .comment true
  · exact hc t (List.mem_of_getLast? ht) hk
  · exact isTerminated_of_ne (kind_ne_string_of_getLast? h t ht) hk _

end Schema

def lineFeeds (text : String) : Nat := text.toList.count '\n'

/-- The same error further on, in the same column of a later line. -/
def ParseError.shift (bytes lines : Nat) (e : ParseError) : ParseError :=
  ⟨e.message, e.range.shift bytes, lines + e.line, e.column⟩

theorem locateFrom_append (line column offset : Nat) (cs ds : List Char) :
    locateFrom line column (utf8Len cs + 1 + offset) (cs ++ '\n' :: ds) =
      locateFrom (line + cs.count '\n' + 1) 0 offset ds := by
  induction cs generalizing line column with
  | nil =>
    have hsize : '\n'.utf8Size = 1 := rfl
    have hoffset : 0 + 1 + offset - 1 = offset := by omega
    rw [List.nil_append, locateFrom, hsize, String.utf8Len_nil, if_neg (by omega), if_pos rfl, hoffset]
    rfl
  | cons c cs ih =>
    have hoffset : utf8Len (c :: cs) + 1 + offset - c.utf8Size = utf8Len cs + 1 + offset := by
      rw [String.utf8Len_cons]
      omega
    rw [List.cons_append, locateFrom, hoffset, if_neg (by rw [String.utf8Len_cons]; omega), ih, ih]
    by_cases hc : c = '\n'
    · rw [if_pos hc, hc, List.count_cons_self, Nat.add_right_comm line 1]
      rfl
    · rw [if_neg hc, List.count_cons_of_ne hc]

theorem locateFrom_add (lines line column offset : Nat) (cs : List Char) :
    locateFrom (lines + line) column offset cs =
      (lines + (locateFrom line column offset cs).1, (locateFrom line column offset cs).2) := by
  fun_induction locateFrom line column offset cs with
  | case1 => rfl
  | case2 line column offset c cs hlt => rw [locateFrom, if_pos hlt]
  | case3 line column offset cs hlt ih => rw [locateFrom, if_neg hlt, if_pos rfl, Nat.add_assoc, ih]
  | case4 line column offset c cs hlt hc ih => rw [locateFrom, if_neg hlt, if_neg hc, ih]

theorem ParseError.locate_joined (text more message : String) (range : Range) :
    locate (joined text more) message (range.shift (behind text)) =
      (locate more message range).shift (behind text) (lineFeeds text + 1) := by
  have hbehind : behind text = utf8Len text.toList + 1 := by
    rw [behind, String.utf8Len_toList]
  have hlocate := locateFrom_append 0 0 range.start text.toList more.toList
  rw [← toList_joined, ← hbehind, Nat.zero_add, ← lineFeeds, ← Nat.add_zero (lineFeeds text + 1),
    locateFrom_add] at hlocate
  rw [locate, locate, Range.shift, hlocate]
  rfl

theorem ParseError.ofRefusal_joined (text more : String) (found : Option Token) (refusal : Refusal) :
    ofRefusal (joined text more) (found.map (·.shift (behind text))) refusal =
      (ofRefusal more found refusal).shift (behind text) (lineFeeds text + 1) := by
  have hmessage : refusal.message (found.map (·.shift (behind text))) = refusal.message found := by
    cases found with
    | none => rfl
    | some t => exact Refusal.message_congr rfl refusal
  have hrange : rangeAt (joined text more) (found.map (·.shift (behind text))) =
      (rangeAt more found).shift (behind text) := by
    cases found with
    | none =>
      have hsize : (joined text more).utf8ByteSize = behind text + more.utf8ByteSize := by
        rw [joined, String.utf8ByteSize_append, String.utf8ByteSize_append]
        rfl
      rw [Option.map_none, rangeAt, rangeAt, hsize]
      rfl
    | some t => rw [Option.map_some, rangeAt, rangeAt, Token.stop_shift]; rfl
  rw [ofRefusal, ofRefusal, hmessage, hrange, locate_joined]

namespace Schema

variable {text : String} {t : Tree Kind}

theorem parse_joined_cases (more : String) (h : parse text = .ok t)
    (hc : ∀ s ∈ Language.schema.tokens text, s.kind = .comment true → s.isTerminated = true) :
    (∃ w u, parse (joined text more) = .ok w ∧ parse more = .ok u) ∨
      ∃ e, parse more = .error (.refused e) ∧
        parse (joined text more) = .error (.refused (e.shift (behind text) (lineFeeds text + 1))) := by
  have hparse (text : String) := disciplined.parse_eq (g := grammar)
    (rfl : turn .declarations ⟨false, 0⟩ = some ⟨false, 0⟩) (tokens_sliceable .schema text)
  have htext := hparse text
  have hmore := hparse more
  have hjoined := hparse (joined text more)
  rw [← Grammar.trace, ← parse] at htext hmore hjoined
  have hr : (grammar.trace .declarations (Language.schema.tokens text)).refusal = none := by
    cases href : (grammar.trace .declarations (Language.schema.tokens text)).refusal with
    | none => rfl
    | some refusal =>
      rw [href, h] at htext
      cases htext
  obtain ⟨hrest, href⟩ := isSealed.trace_append (g := grammar) attention
    (Token.bare_shift (behind text)) (Language.schema.tokens more) hr
  rw [← Language.schema.tokens_joined more (isTerminated_of_parse h hc)] at hrest href
  rw [href, hrest, List.head?_map] at hjoined
  split at hmore
  · next hnone =>
    rw [hnone] at hjoined
    obtain ⟨u, hu⟩ := hmore
    obtain ⟨w, hw⟩ := hjoined
    exact .inl ⟨w, u, hw, hu⟩
  · next refusal hsome =>
    rw [hsome] at hjoined
    refine .inr ⟨_, hmore, ?_⟩
    rw [← ParseError.ofRefusal_joined]
    exact hjoined

theorem declares_joined {more : String} {u w : Tree Kind} (h : parse text = .ok t)
    (hc : ∀ s ∈ Language.schema.tokens text, s.kind = .comment true → s.isTerminated = true)
    (hu : parse more = .ok u) (hw : parse (joined text more) = .ok w) :
    ∃ os os', t.Declares os ∧ u.Declares os' ∧
      w.Declares (os ++ os'.map (Outline.shift (behind text))) := by
  have htokens := Language.schema.tokens_joined more (isTerminated_of_parse h hc)
  have ho := ordered_tokens .schema (joined text more)
  rw [parse, htokens] at hw
  rw [htokens] at ho
  refine reads.declares_joined rfl (ordered_tokens .schema text) (ordered_tokens .schema more) ho h hu
    (fun g ps hps => not_blind hps g) (fun q hq => (exists_last hq).1) rfl
    (fun shape text us => (closes text).isComment_build shape us)
    (@agrees _ _ [] ('\n' :: more.toList) ?_) ?_ hw
  · rw [toList_joined, List.nil_append]
  · rw [← utf8Len_append_lineFeed]
    exact @agrees _ _ _ [] (by simp [toList_joined])

end Schema

namespace TextFormat

theorem isClosed_of_fits {q : Part Shape} (h : Fits rule layout () q) : q.isClosed = true := by
  cases h with
  | token | leaf => rfl
  | @block _ shape first more e opener body closer opening close hhead hd hdel hopener hcloser =>
    cases shape with
    | field => cases hdel
    | message =>
      have hclose : close.isSome = true := by
        simp only [layout, List.mem_cons, Prod.mk.injEq, List.not_mem_nil, or_false] at hdel
        rcases hdel with ⟨-, rfl⟩ | ⟨-, rfl⟩ <;> rfl
      have := congrArg Option.isSome hcloser
      rw [Option.isSome_map, Option.isSome_map] at this
      exact this.trans hclose

variable {text more : String} {t u : Tree Kind}

theorem isTerminated_of_getLast?
    (h : ∀ s ∈ (Language.textFormat.tokens text).getLast?, s.kind = .string → s.isTerminated = true) :
    ∀ s ∈ Language.textFormat.tokens text, s.isTerminated = true := by
  refine Language.textFormat.isTerminated_of_getLast? fun s hs => ?_
  by_contra hterminated
  obtain ⟨before, c, body, after, -, -, hl, -, htext⟩ :=
    tokens_foundIn .textFormat text s (List.mem_of_getLast? hs)
  obtain ⟨-, ⟨-, hkind⟩ | ⟨rfl, -, hkind⟩⟩ :=
    (Language.textFormat.lexes c (body ++ after)).unterminated (by
      rw [hl, List.take_left]
      simpa [Token.isTerminated, htext] using hterminated)
  · exact hterminated (h s hs ((congrArg Prod.fst hl).symm.trans hkind))
  · -- Block comments have no place in text-format data.
    cases hkind

theorem exists_declares_joined (h : parse text = .ok t) (hu : parse more = .ok u)
    (hlast : ∀ s ∈ (Language.textFormat.tokens text).getLast?, s.kind = .string →
      s.isTerminated = true) :
    ∃ w, parse (joined text more) = .ok w ∧
      ∃ os os', t.Declares os ∧ u.Declares os' ∧
        w.Declares (os ++ os'.map (Outline.shift (behind text))) := by
  have htokens := Language.textFormat.tokens_joined more (isTerminated_of_getLast? hlast)
  have ho := ordered_tokens .textFormat (joined text more)
  rw [parse, htokens]
  rw [htokens] at ho
  obtain ⟨w, hw⟩ : ∃ w, grammar.parse .fields (joined text more) _ = .ok w :=
    reads.exists_joined rfl (ordered_tokens .textFormat text) (ordered_tokens .textFormat more) ho h hu
      fun _ _ => id
  refine ⟨w, hw, reads.declares_joined rfl (ordered_tokens .textFormat text)
    (ordered_tokens .textFormat more) ho h hu (fun _ _ _ => id) (fun q => isClosed_of_fits) rfl
    (fun shape text us => (closes text).isComment_build shape us)
    (@agrees _ _ [] ('\n' :: more.toList) ?_) ?_ hw⟩
  · rw [toList_joined, List.nil_append]
  · rw [← utf8Len_append_lineFeed]
    exact @agrees _ _ _ [] (by simp [toList_joined])

end TextFormat

/-- Parses are put together as texts are: the lines and offsets in the second text are moved on, and
nothing else changes. -/
theorem parse_joined (text more : String) :
    (∀ t, Schema.parse text = .ok t →
      (∀ s ∈ Language.schema.tokens text, s.kind = .comment true → s.isTerminated = true) →
      ((∃ w, Schema.parse (joined text more) = .ok w) ↔ ∃ u, Schema.parse more = .ok u) ∧
      (∀ u w, Schema.parse more = .ok u → Schema.parse (joined text more) = .ok w →
        ∃ os os', t.Declares os ∧ u.Declares os' ∧
          w.Declares (os ++ os'.map (Outline.shift (behind text)))) ∧
      ∀ failure, Schema.parse (joined text more) = .error failure →
        ∃ e, Schema.parse more = .error (.refused e) ∧
          failure = .refused (e.shift (behind text) (lineFeeds text + 1))) ∧
    ∀ t u, TextFormat.parse text = .ok t → TextFormat.parse more = .ok u →
      (∀ s ∈ (Language.textFormat.tokens text).getLast?, s.kind = .string → s.isTerminated = true) →
      ∃ w, TextFormat.parse (joined text more) = .ok w ∧
        ∃ os os', t.Declares os ∧ u.Declares os' ∧
          w.Declares (os ++ os'.map (Outline.shift (behind text))) := by
  refine ⟨fun t h hc => ⟨?_, fun u w => Schema.declares_joined h hc, fun failure hfailure => ?_⟩,
    fun t u => TextFormat.exists_declares_joined⟩
  · rcases Schema.parse_joined_cases more h hc with ⟨w, u, hw, hu⟩ | ⟨e, hmore, hjoined⟩
    · exact ⟨fun _ => ⟨u, hu⟩, fun _ => ⟨w, hw⟩⟩
    · rw [hmore, hjoined]
      simp
  · rcases Schema.parse_joined_cases more h hc with ⟨w, u, hw, hu⟩ | ⟨e, hmore, hjoined⟩
    · rw [hw] at hfailure
      cases hfailure
    · exact ⟨e, hmore, Except.error.inj (hfailure.symm.trans hjoined)⟩

theorem parse_joined_between_comments :
    (∃ t u w, Schema.parse "message A{}//a" = .ok t ∧ Schema.parse "/*b*/enum B{}" = .ok u ∧
      Schema.parse "message A{}//a\n/*b*/enum B{}" = .ok w ∧
      ∃ os os', t.Declares os ∧ u.Declares os' ∧ w.Declares (os ++ os'.map (Outline.shift 15))) ∧
    (∃ e, Schema.parse "/*b*/A{}" = .error (.refused e) ∧
      Schema.parse "message A{}//a\n/*b*/A{}" = .error (.refused (e.shift 15 1))) ∧
    ∃ t u w, TextFormat.parse "a:1#a" = .ok t ∧ TextFormat.parse "b{}" = .ok u ∧
      TextFormat.parse "a:1#a\nb{}" = .ok w ∧
      ∃ os os', t.Declares os ∧ u.Declares os' ∧ w.Declares (os ++ os'.map (Outline.shift 6)) := by
  obtain ⟨t, ht⟩ : ∃ t, Schema.parse "message A{}//a" = .ok t :=
    exists_ok_of_isOk (by rw [Schema.parse, tokens_eq]; cbv)
  have hterminated : (Language.schema.tokens "message A{}//a").all (·.isTerminated) = true := by
    rw [tokens_eq]
    cbv
  have hc : ∀ s ∈ Language.schema.tokens "message A{}//a",
      s.kind = .comment true → s.isTerminated = true :=
    fun s hs _ => List.all_eq_true.1 hterminated s hs
  have hbehind : behind "message A{}//a" = 15 ∧ behind "a:1#a" = 6 := by cbv
  have hlines : lineFeeds "message A{}//a" + 1 = 1 := by cbv
  refine ⟨?_, ?_, ?_⟩
  · have hjoined : joined "message A{}//a" "/*b*/enum B{}" = "message A{}//a\n/*b*/enum B{}" := rfl
    obtain ⟨hiff, hdeclares, -⟩ := (parse_joined "message A{}//a" "/*b*/enum B{}").1 t ht hc
    rw [hjoined] at hiff hdeclares
    rw [hbehind.1] at hdeclares
    obtain ⟨u, hu⟩ : ∃ u, Schema.parse "/*b*/enum B{}" = .ok u :=
      exists_ok_of_isOk (by rw [Schema.parse, tokens_eq]; cbv)
    obtain ⟨w, hw⟩ := hiff.2 ⟨u, hu⟩
    exact ⟨t, u, w, ht, hu, hw, hdeclares u w hu hw⟩
  · have hjoined : joined "message A{}//a" "/*b*/A{}" = "message A{}//a\n/*b*/A{}" := rfl
    obtain ⟨hiff, -, herror⟩ := (parse_joined "message A{}//a" "/*b*/A{}").1 t ht hc
    rw [hjoined] at hiff herror
    rw [hbehind.1, hlines] at herror
    obtain ⟨hrest, hrefusal⟩ :
        (Schema.grammar.trace .declarations (Language.schema.tokens "/*b*/A{}")).rest =
          (Language.schema.tokens "/*b*/A{}").drop 1 ∧
        (Schema.grammar.trace .declarations (Language.schema.tokens "/*b*/A{}")).refusal =
          some (.expected "top-level declaration") := by
      rw [tokens_eq]
      cbv
    have hrefused : Schema.parse "/*b*/A{}" = .error _ :=
      ((Schema.disciplined.failsAt_iff rfl (tokens_sliceable .schema _) (spaced_tokens .schema _)).2
        ⟨by rw [tokens_eq]; cbv, hrest, _, hrefusal, rfl⟩).parse
    rcases hp : Schema.parse "message A{}//a\n/*b*/A{}" with failure | w
    · obtain ⟨e, he, hfailure⟩ := herror failure hp
      exact ⟨e, he, congrArg Except.error hfailure⟩
    · obtain ⟨u, hu⟩ := hiff.1 ⟨w, hp⟩
      rw [hu] at hrefused
      cases hrefused
  · have hjoined : joined "a:1#a" "b{}" = "a:1#a\nb{}" := rfl
    obtain ⟨t, ht⟩ : ∃ t, TextFormat.parse "a:1#a" = .ok t :=
      exists_ok_of_isOk (by rw [TextFormat.parse, tokens_eq]; cbv)
    obtain ⟨u, hu⟩ : ∃ u, TextFormat.parse "b{}" = .ok u :=
      exists_ok_of_isOk (by rw [TextFormat.parse, tokens_eq]; cbv)
    have hlast : (Language.textFormat.tokens "a:1#a").all (·.isTerminated) = true := by
      rw [tokens_eq]
      cbv
    obtain ⟨w, hw, hdeclares⟩ := (parse_joined "a:1#a" "b{}").2 t u ht hu
      fun s hs _ => List.all_eq_true.1 hlast s (List.mem_of_getLast? hs)
    rw [hbehind.2] at hdeclares
    exact ⟨t, u, w, ht, hu, hjoined ▸ hw, hdeclares⟩

end ProtoSyntax
