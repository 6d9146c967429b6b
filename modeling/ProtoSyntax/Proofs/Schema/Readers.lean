import ProtoSyntax.Proofs.Parsing.Readers
import ProtoSyntax.Proofs.RegularTokens
import ProtoSyntax.Proofs.Schema.Rules
import ProtoSyntax.Schema.Document

/-!
# Names and types of schema files, read

Names and types are put together from their words, with the dots and parentheses between these. What the
grammar derives for a name gives its tokens' texts one after the other, unless more of the name follows.
-/

namespace ProtoSyntax.Schema
open Ebnf (opt star alt sepBy)

def EndsName (rest : List Token) : Prop := ∀ t ∈ rest.head?, t.kind ≠ .punct .dot

theorem endsName_nil : EndsName [] := nofun

theorem endsName_cons {t : Token} {p : Punct} (hp : p ≠ .dot) (ht : t.kind = .punct p) (rest : List Token) :
    EndsName (t :: rest) := by
  rintro _ ⟨⟩ hk
  exact hp (TokenKind.punct.inj (ht.symm.trans hk))

variable {us rest : List Token}

theorem ne_punct_of_isWord {t : Token} (h : t.kind.isWord = true) (p : Punct) : t.kind ≠ .punct p := by
  intro hk
  rw [hk] at h
  cases h

theorem endsName_word {t : Token} (ht : t.kind.isWord = true) (rest : List Token) : EndsName (t :: rest) := by
  rintro _ ⟨⟩
  exact ne_punct_of_isWord ht .dot

theorem EndsName.dot?_eq_none (h : EndsName rest) : ∀ t ∈ rest.head?, dot? t = none :=
  fun t ht => if_neg (h t ht)

theorem moreWords_append (h : Generates rule [star [.punct .dot, .word]] us)
    (hregular : ∀ t ∈ us, t.IsRegular) (hrest : EndsName rest) (name : String) :
    Reader.moreWords dot? name (us ++ rest) = (name ++ Token.concat us, rest) := by
  obtain ⟨xs, rfl, hxs⟩ := h.star_inv
  refine Reader.moreWords_flatten (fun x hx => ?_) hrest.dot?_eq_none name
  obtain ⟨dot, _, rfl, hdot, hx'⟩ := (hxs x hx).kind_inv
  obtain ⟨word, rfl, -⟩ := hx'.single_inv
  have htext : dot.text = "." := (hregular dot (List.mem_flatten.2 ⟨_, hx, by simp⟩)).punct hdot
  exact ⟨dot, word, rfl, by rw [dot?, if_pos hdot, htext]⟩

theorem readFullName_words {word : Token} (leadingDot : Bool) (hword : word.kind.isWord = true)
    (h : Generates rule [star [.punct .dot, .word]] us) (hregular : ∀ t ∈ us, t.IsRegular)
    (hrest : EndsName rest) :
    readFullName leadingDot (word :: us ++ rest) = (Token.concat (word :: us), rest) := by
  have hkind := ne_punct_of_isWord hword .dot
  cases leadingDot <;> simp [readFullName, eatRoot, hkind, moreWords_append h hregular hrest]

theorem readFullName_dotted (leadingDot : Bool) (h : Generates rule dotted us)
    (hregular : ∀ t ∈ us, t.IsRegular) (hrest : EndsName rest) :
    readFullName leadingDot (us ++ rest) = (Token.concat us, rest) := by
  obtain ⟨word, more, rfl, hword, hmore⟩ := h.token_inv
  exact readFullName_words leadingDot hword hmore (fun t ht => hregular t (List.mem_cons_of_mem _ ht)) hrest

theorem readFullName_dot {dot word : Token} (hdot : dot.kind = .punct .dot)
    (h : Generates rule [star [.punct .dot, .word]] us) (hregular : ∀ t ∈ dot :: word :: us, t.IsRegular)
    (hrest : EndsName rest) :
    readFullName true (dot :: word :: us ++ rest) = (Token.concat (dot :: word :: us), rest) := by
  have htext : dot.text = "." := (hregular dot List.mem_cons_self).punct hdot
  have hwords (name : String) := moreWords_append h
    (fun t ht => hregular t (List.mem_cons_of_mem _ (List.mem_cons_of_mem _ ht))) hrest name
  simp [readFullName, eatRoot, hdot, hwords, htext, String.append_assoc]

theorem readFullName_rooted (h : Generates rule rooted us) (hregular : ∀ t ∈ us, t.IsRegular)
    (hrest : EndsName rest) : readFullName true (us ++ rest) = (Token.concat us, rest) := by
  obtain ⟨root, words, rfl, hroot, hwords⟩ := Generates.append_inv (a := [opt [.punct .dot]]) h
  rcases hroot.opt_inv with rfl | hroot
  · exact readFullName_dotted true hwords hregular hrest
  · obtain ⟨dot, rfl, hdot⟩ := hroot.single_kind_inv
    obtain ⟨word, more, rfl, -, hmore⟩ := hwords.token_inv
    exact readFullName_dot hdot hmore hregular hrest

theorem readTypeName_dot {dot word : Token} (hdot : dot.kind = .punct .dot)
    (h : Generates rule [star [.punct .dot, .word]] us) (hregular : ∀ t ∈ dot :: word :: us, t.IsRegular)
    (hrest : EndsName rest) :
    readTypeName (dot :: word :: us ++ rest) = (Token.concat (dot :: word :: us), rest) := by
  simpa [readTypeName, hdot] using readFullName_dot hdot h hregular hrest

theorem readTypeName_append {excluded : List Keyword} (h : Generates rule (typeExcept excluded) us)
    (hregular : ∀ t ∈ us, t.IsRegular) (hrest : EndsName rest) :
    readTypeName (us ++ rest) = (Token.concat us, rest) := by
  obtain ⟨a, ha, h⟩ := h.alt_inv
  simp only [List.mem_cons, List.not_mem_nil, or_false] at ha
  rcases ha with rfl | rfl | rfl
  · obtain ⟨t, rfl, ht⟩ := h.single_inv
    cases hk : t.kind with
    | primitive p =>
      have htext : t.text = p.spelling := (hregular t List.mem_cons_self).primitive hk
      simp [readTypeName, hk, htext]
    | _ =>
      rw [hk] at ht
      cases ht
  · obtain ⟨dot, _, rfl, hdot, hwords⟩ := h.kind_inv
    obtain ⟨word, more, rfl, -, hmore⟩ := hwords.token_inv
    exact readTypeName_dot hdot hmore hregular hrest
  · obtain ⟨word, more, rfl, hword, hmore⟩ := h.token_inv
    simp only [Bool.and_eq_true, Bool.not_eq_true'] at hword
    have hname := readFullName_words true hword.1.1 hmore
      (fun t ht => hregular t (List.mem_cons_of_mem _ ht)) hrest
    cases hk : word.kind with
    | primitive p =>
      rw [hk] at hword
      cases hword.1.2
    | _ => simpa [readTypeName, hk] using hname

theorem readParenthesised_append {opener closer : Token} (hopener : opener.text = "(")
    (hcloser : closer.text = ")") (hkind : closer.kind = .punct .rightParen) (h : Generates rule rooted us)
    (hregular : ∀ t ∈ us, t.IsRegular) (rest : List Token) :
    readParenthesised (opener :: us ++ closer :: rest) =
      (Token.concat (opener :: us ++ [closer]), rest) := by
  have hname := readFullName_rooted h hregular (endsName_cons (by decide) hkind rest)
  simp [readParenthesised, hname, hopener, hcloser, String.append_assoc]

theorem readOptionName_append (h : Generates rule optionName us) (hregular : ∀ t ∈ us, t.IsRegular)
    (hrest : EndsName rest) : readOptionName (us ++ rest) = (Token.concat us, rest) := by
  rcases h.either_inv with h | h
  · have hname := readFullName_dotted false h hregular hrest
    obtain ⟨word, more, rfl, hword, -⟩ := h.token_inv
    have hkind := ne_punct_of_isWord hword .leftParen
    simpa [readOptionName, hkind] using hname
  · obtain ⟨front, back, rfl, hfront, hback⟩ := Generates.append_inv (a := .punct .leftParen :: rooted) h
    obtain ⟨opener, name, rfl, hopener, hname⟩ := hfront.kind_inv
    obtain ⟨closer, path, rfl, hcloser, hpath⟩ := hback.kind_inv
    have hread (after : List Token) : readParenthesised (opener :: (name ++ closer :: after)) =
        (Token.concat (opener :: name ++ [closer]), after) :=
      readParenthesised_append ((hregular opener (by simp)).punct hopener)
        ((hregular closer (by simp)).punct hcloser) hcloser hname (fun t ht => hregular t (by simp [ht])) after
    rcases hpath.opt_inv with rfl | hpath
    · simp [readOptionName, hopener, hread, Reader.eat_of_ne hrest]
    · obtain ⟨dot, words, rfl, hdot, hwords⟩ := hpath.kind_inv
      have htext : dot.text = "." := (hregular dot (by simp)).punct hdot
      have hwords := readFullName_dotted false hwords (fun t ht => hregular t (by simp [ht])) hrest
      simp [readOptionName, hopener, hread, hdot, hwords, htext, String.append_assoc]

theorem readMapType_append (word opener : Token) {comma closer : Token} {ks vs : List Token}
    (hks : Generates rule type ks) (hcomma : comma.kind = .punct .comma) (hvs : Generates rule type vs)
    (hcloser : closer.kind = .punct .rightAngle) (hregular : ∀ t ∈ ks, t.IsRegular)
    (hregular' : ∀ t ∈ vs, t.IsRegular) (rest : List Token) :
    readMapType (word :: opener :: ks ++ comma :: vs ++ closer :: rest) =
      ((Token.concat ks, Token.concat vs), rest) := by
  have hkey := readTypeName_append hks hregular (endsName_cons (by decide) hcomma (vs ++ closer :: rest))
  have hvalue := readTypeName_append hvs hregular' (endsName_cons (by decide) hcloser rest)
  simp [readMapType, hkey, hvalue]

section steady

theorem steady_readFullName (leadingDot : Bool) : Reader.Steady (readFullName leadingDot) := by
  refine .bind ?_ fun _ => .bind .takeText fun _ => .moreWords (fun _ => rfl) _
  cases leadingDot
  · exact .pure false
  · exact .eat (.punct .dot)

theorem steady_readTypeName : Reader.Steady readTypeName := by
  refine .bind (.peek 0) fun k => ?_
  split
  · exact .bind .advance fun _ => .pure _
  · exact steady_readFullName true

theorem steady_readParenthesised : Reader.Steady readParenthesised :=
  .bind .advance fun _ => .bind (steady_readFullName true) fun _ => .bind .advance fun _ => .pure _

theorem steady_readOptionName : Reader.Steady readOptionName :=
  .bind (.peek 0) fun _ => .ite
    (.bind steady_readParenthesised fun _ => .bind (.eat _) fun _ =>
      .ite (.bind (steady_readFullName false) fun _ => .pure _) (.pure _))
    (steady_readFullName false)

theorem steady_readMapType : Reader.Steady readMapType :=
  .bind .advance fun _ => .bind .advance fun _ => .bind steady_readTypeName fun _ => .bind .advance fun _ =>
    .bind steady_readTypeName fun _ => .bind .advance fun _ => .pure _

theorem steady_readFieldType : Reader.Steady readFieldType :=
  .bind (.eat _) fun _ => .ite (.bind steady_readTypeName fun _ => .pure _) <|
    .bind (.eat _) fun _ => .ite (.bind steady_readTypeName fun _ => .pure _) <|
      .bind (.peek 0) fun _ => .bind (.peek 1) fun _ =>
        .ite (.bind steady_readMapType fun _ => .pure _) (.bind steady_readTypeName fun _ => .pure _)

theorem steady_eatStream : Reader.Steady eatStream :=
  .bind (.peek 0) fun _ => .bind (.peek 1) fun _ => .ite (.bind .advance fun _ => .pure _) (.pure _)

theorem steady_readRpcType : Reader.Steady readRpcType :=
  .bind .advance fun _ => .bind steady_eatStream fun _ => .bind steady_readTypeName fun _ =>
    .bind .advance fun _ => .pure _

theorem steady_readField : Reader.Steady readField :=
  .bind steady_readFieldType fun _ => .bind .takeText fun _ => .bind .advance fun _ =>
    .bind .takeText fun _ => .pure _

theorem steady_readEnumValue : Reader.Steady readEnumValue :=
  .bind .takeText fun _ => .bind .advance fun _ => .bind .takeText fun _ => .pure _

theorem steady_readRpc : Reader.Steady readRpc :=
  .bind .takeText fun _ => .bind steady_readRpcType fun _ => .bind .advance fun _ =>
    .bind steady_readRpcType fun _ => .pure _

theorem steady_readVersion : Reader.Steady readVersion :=
  .bind .advance fun _ => .bind .takeText fun _ => .pure _

theorem steady_readImport : Reader.Steady readImport := by
  refine .bind ?_ fun _ => .bind .takeText fun _ => .pure _
  exact .bind (.eat _) fun _ => .ite (.pure _) (.bind (.eat _) fun _ => .ite (.pure _) (.pure _))

end steady

end ProtoSyntax.Schema
