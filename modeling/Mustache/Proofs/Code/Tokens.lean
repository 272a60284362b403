import Mustache.Proofs.Code.Pieces

/-! # Tokens

A tree is printed as a sequence of tokens: literals as they are, and tags in a pair of delimiters.
Whether the tokens can be told apart again in the printed text is a matter of where a delimiter
comes first: at the end of the literal in front of it, and at the end of the tag that it closes.

* `Text.OnlyAtEnd` — a text that shows up for the first time where it is put.
* `Tag.scanInside_inner` — what is written in a tag is what is read there.
* `Token`, `tokens`, `written` — the tokens of a tree, and their text.
* `Legible` — the tokens can be told apart in their text.
* `bodyOf_literal`, `bodyOf_tag` — the parser passes a token.
-/

namespace Mustache

namespace Text

/-! ## Texts that end with the first occurrence of another -/

/-- Put behind a text, `sep` shows up for the first time there. -/
def OnlyAtEnd (sep s : List Char) : Prop :=
  ∀ a b, s ++ sep = a ++ (sep ++ b) → b = []

variable {sep s t rest : List Char} {c : Char}

theorem onlyAtEnd_nil (sep : List Char) : OnlyAtEnd sep [] := by
  intro a b h
  have hlength := congrArg List.length h
  simp only [List.nil_append, List.length_append] at hlength
  exact List.length_eq_zero_iff.mp (by omega)

theorem OnlyAtEnd.tail (h : OnlyAtEnd sep (c :: s)) : OnlyAtEnd sep s := by
  intro a b heq
  exact h (c :: a) b (by rw [List.cons_append, heq, List.cons_append])

theorem OnlyAtEnd.not_prefix (h : OnlyAtEnd sep (c :: s)) :
    ¬ sep <+: c :: s ++ (sep ++ rest) := by
  intro hprefix
  rw [← List.append_assoc] at hprefix
  obtain ⟨b, hb⟩ := List.prefix_of_prefix_length_le hprefix (List.prefix_append _ rest)
    (by simp only [List.length_append]; omega)
  have hlength := congrArg List.length hb
  simp only [h [] b hb.symm, List.length_append, List.length_cons, List.length_nil] at hlength
  omega

theorem cut?_sep (sep rest : List Char) : cut? sep (sep ++ rest) = some ([], rest) := by
  cases sep with
  | nil => cases rest <;> simp [cut?]
  | cons c sep => simp [cut?]

theorem cut?_of_onlyAtEnd (h : OnlyAtEnd sep s) (rest : List Char) :
    cut? sep (s ++ (sep ++ rest)) = some (s, rest) := by
  induction s with
  | nil => exact cut?_sep sep rest
  | cons c s ih =>
    have hprefix : sep.isPrefixOf (c :: (s ++ (sep ++ rest))) = false := by
      rw [← Bool.not_eq_true, List.isPrefixOf_iff_prefix]
      exact h.not_prefix
    simp [cut?, hprefix, ih h.tail]

theorem exists_cut? {s a b : List Char} (h : s = a ++ (sep ++ b)) :
    ∃ p, cut? sep s = some p ∧ p.1.length ≤ a.length := by
  induction s generalizing a with
  | nil =>
    obtain rfl : sep = [] := by simp_all
    exact ⟨_, rfl, Nat.zero_le _⟩
  | cons c s ih =>
    by_cases hprefix : sep.isPrefixOf (c :: s) = true
    · exact ⟨_, by rw [cut?, if_pos hprefix], Nat.zero_le _⟩
    · cases a with
      | nil => exact absurd (List.isPrefixOf_iff_prefix.mpr ⟨b, h.symm⟩) hprefix
      | cons c' a =>
        rw [List.cons_append, List.cons.injEq] at h
        obtain ⟨p, hcut, hle⟩ := ih h.2
        exact ⟨(c :: p.1, p.2), by rw [cut?, if_neg hprefix, hcut]; rfl, Nat.succ_le_succ hle⟩

/-- A text is cut where `sep` shows up for the first time. -/
theorem onlyAtEnd_of_cut? (h : cut? sep rest = some (s, t)) : OnlyAtEnd sep s := by
  intro a b heq
  have hrest : rest = a ++ (sep ++ (b ++ t)) := by
    rw [eq_append_of_cut? h, ← List.append_assoc, heq]
    simp only [List.append_assoc]
  obtain ⟨p, hp, hle⟩ := exists_cut? hrest
  obtain rfl : (s, t) = p := Option.some.inj (h.symm.trans hp)
  have hlength := congrArg List.length heq
  simp only [List.length_append] at hlength hle
  exact List.length_eq_zero_iff.mp (by omega)

theorem onlyAtEnd_iff : OnlyAtEnd sep s ↔ cut? sep (s ++ sep) = some (s, []) := by
  refine ⟨fun h => ?_, onlyAtEnd_of_cut?⟩
  simpa using cut?_of_onlyAtEnd h []

instance : Decidable (OnlyAtEnd sep s) :=
  decidable_of_iff _ onlyAtEnd_iff.symm

instance {before after : List Char} : Decidable (StandsAlone before after) :=
  decidable_of_iff _ standsAlone_iff.symm

theorem OnlyAtEnd.right (h : OnlyAtEnd sep (s ++ t)) : OnlyAtEnd sep t := by
  intro a b heq
  refine h (s ++ a) b ?_
  rw [List.append_assoc, heq, List.append_assoc]

/-- Where a text only shows up at the end, it does not show up in what stands before. -/
theorem OnlyAtEnd.cut?_left (hsep : sep ≠ []) (h : OnlyAtEnd sep (s ++ t)) : cut? sep s = none := by
  cases hcut : cut? sep s with
  | none => rfl
  | some p =>
    have hs := eq_append_of_cut? hcut
    have hnil := h p.1 (p.2 ++ (t ++ sep)) (by rw [hs]; simp)
    exact absurd (List.append_eq_nil_iff.mp (List.append_eq_nil_iff.mp hnil).2).2 hsep

theorem cut?_eq_none_of_onlyAtEnd (hsep : sep ≠ []) (h : OnlyAtEnd sep s) :
    cut? sep s = none := by
  rw [← List.append_nil s] at h
  exact h.cut?_left hsep

/-! ## Trimmed texts -/

theorem dropWhile_isBlank_of_trim (h : trim s = s) :
    s.dropWhile isBlank = s ∧ s.reverse.dropWhile isBlank = s.reverse := by
  have hstart : s.dropWhile isBlank = s := by
    refine (List.dropWhile_suffix isBlank).eq_of_length_le ?_
    have hlength := congrArg List.length h
    have hle := (List.dropWhile_suffix (l := (s.dropWhile isBlank).reverse) isBlank).length_le
    simp only [trim, trimStart, trimEnd, List.length_reverse] at hlength hle
    omega
  refine ⟨hstart, ?_⟩
  rw [trim, trimStart, hstart, trimEnd] at h
  rw [← List.reverse_reverse (s.reverse.dropWhile isBlank), h]

theorem trim_cons (hc : isBlank c = false) (hs : s ≠ []) (h : trim s = s) :
    trim (c :: s) = c :: s := by
  have hend := (dropWhile_isBlank_of_trim h).2
  have hreverse : (c :: s).reverse.dropWhile isBlank = (c :: s).reverse := by
    rw [List.reverse_cons, List.dropWhile_append, hend]
    simp [hs]
  rw [trim, trimStart, List.dropWhile_cons_of_neg (by simp [hc]), trimEnd, hreverse,
    List.reverse_reverse]

end Text

/-! ## Writing a tag and reading it -/

namespace Tag

/-- Whether a text can be the name in a tag: it is not empty, and nothing blank is around it. -/
def IsName (name : String) : Prop :=
  name ≠ "" ∧ Text.trim name.toList = name.toList

section

variable {name : String} {c : Char}

theorem IsName.toList_ne_nil (h : IsName name) : name.toList ≠ [] := by
  intro hnil
  exact h.1 (String.toList_eq_nil_iff.mp hnil)

theorem IsName.isEmpty_toList (h : IsName name) : name.toList.isEmpty = false :=
  List.isEmpty_eq_false_iff.mpr h.toList_ne_nil

theorem IsName.trim_cons (h : IsName name) (hc : Text.isBlank c = false) :
    Text.trim (c :: name.toList) = c :: name.toList :=
  Text.trim_cons hc h.toList_ne_nil h.2

end

namespace Content

/-- What is written in a tag in front of what closes it. -/
def inner : Content → List Char
  | .value .escaped name => name.toList
  | .value .triple name => '\x7b' :: name.toList
  | .value .ampersand name => '&' :: name.toList
  | .opening bracket name => bracket.sigil.toList ++ name.toList
  | .close name => '/' :: name.toList
  | .inclusion name => '>' :: name.toList
  | .dynamic name => '>' :: '*' :: name.toList
  | .comment | .delimiters _ | .pragma _ => []

def closer (d : Delimiters) : Content → List Char
  | .value .triple _ => '\x7d' :: d.closing.toList
  | _ => d.closing.toList

/-- Whether the name in a tag can be told from the signs around it. -/
def WellNamed : Content → Prop
  | .value .escaped name =>
    IsName name ∧ ∀ c ∈ name.toList.head?, isSigil c = false ∧ c ≠ '\x7b'
  | .inclusion name => IsName name ∧ name.toList.head? ≠ some '*'
  | .value _ name | .opening _ name | .close name | .dynamic name => IsName name
  | .comment | .delimiters _ | .pragma _ => False

variable {d : Delimiters} {content : Content} {name : String} {inner rest : List Char} {c : Char}

theorem toList_print (d : Delimiters) (h : content.WellNamed) :
    (content.print d).toList = d.opening.toList ++ (content.inner ++ content.closer d) := by
  cases content with
  | value style name => cases style <;> simp [print, Content.inner, closer, Delimiters.tag]
  | comment | delimiters | pragma => exact h.elim
  | _ => simp [print, Content.inner, closer, Delimiters.tag]

theorem closer_of_ne_triple (hstyle : ∀ name, content ≠ .value .triple name) :
    content.closer d = d.closing.toList := by
  unfold closer
  split
  · next triple => exact absurd rfl (hstyle triple)
  · rfl

theorem ofChars_sigil (hname : IsName name) (hblank : Text.isBlank c = false)
    (hc : c ≠ '!' ∧ c ≠ '=') (hsigil : isSigil c = true)
    (h : ofSigil? c name.toList = some content) :
    ofChars (Text.trim (c :: name.toList)) = .ok content := by
  rw [hname.trim_cons hblank]
  simp [ofChars, hc.1, hc.2, hsigil, hname.2, hname.isEmpty_toList, h]

theorem ofChars_escaped (h : (value .escaped name).WellNamed) :
    ofChars (Text.trim name.toList) = .ok (.value .escaped name) := by
  obtain ⟨hname, hhead⟩ := h
  rw [hname.2]
  cases hlist : name.toList with
  | nil => exact absurd hlist hname.toList_ne_nil
  | cons c s =>
    obtain ⟨hsigil, -⟩ := hhead c (by rw [hlist]; rfl)
    have hne : c ≠ '!' ∧ c ≠ '=' := by
      constructor <;> rintro rfl <;> simp [isSigil] at hsigil
    simp [ofChars, hne.1, hne.2, hsigil, ← hlist]

theorem ofChars_inclusion (h : (inclusion name).WellNamed) :
    ofChars (Text.trim ('>' :: name.toList)) = .ok (.inclusion name) := by
  obtain ⟨hname, hhead⟩ := h
  refine ofChars_sigil hname rfl (by decide) (by decide) ?_
  unfold ofSigil?
  simp only [String.ofList_toList]
  split
  · next hstar => simp [hstar] at hhead
  · rfl

theorem ofChars_dynamic (hname : IsName name) :
    ofChars (Text.trim ('>' :: '*' :: name.toList)) = .ok (.dynamic name) := by
  have hstar : IsName (.ofList ('*' :: name.toList)) := by
    refine ⟨?_, ?_⟩
    · simp
    · rw [String.toList_ofList]
      exact hname.trim_cons rfl
  have hsigil : ofSigil? '>' (String.ofList ('*' :: name.toList)).toList = some (.dynamic name) := by
    simp [ofSigil?, hname.2, hname.1]
  have h := ofChars_sigil hstar rfl (by decide) rfl hsigil
  rwa [String.toList_ofList] at h

theorem ofChars_inner (h : content.WellNamed) (hstyle : ∀ name, content ≠ .value .triple name) :
    ofChars (Text.trim content.inner) = .ok content := by
  cases content with
  | value style name =>
    cases style with
    | escaped => exact ofChars_escaped h
    | triple => exact absurd rfl (hstyle name)
    | ampersand => exact ofChars_sigil h rfl (by decide) (by decide) (by simp [ofSigil?])
  | opening bracket name =>
    cases bracket with
    | positive => exact ofChars_sigil (c := '#') h rfl (by decide) rfl (by simp [ofSigil?])
    | negated => exact ofChars_sigil (c := '^') h rfl (by decide) rfl (by simp [ofSigil?])
    | extend => exact ofChars_sigil (c := '<') h rfl (by decide) rfl (by simp [ofSigil?])
    | block => exact ofChars_sigil (c := '$') h rfl (by decide) rfl (by simp [ofSigil?])
  | close name => exact ofChars_sigil h rfl (by decide) (by decide) (by simp [ofSigil?])
  | inclusion name => exact ofChars_inclusion h
  | dynamic name => exact ofChars_dynamic h
  | comment | delimiters | pragma => exact h.elim

theorem head_inner (h : content.WellNamed) (hstyle : ∀ name, content ≠ .value .triple name) :
    ∃ c s, content.inner = c :: s ∧ c ≠ '\x7b' := by
  cases content with
  | value style name =>
    cases style with
    | escaped =>
      obtain ⟨hname, hhead⟩ := h
      cases hlist : name.toList with
      | nil => exact absurd hlist hname.toList_ne_nil
      | cons c s => exact ⟨c, s, hlist, (hhead c (by rw [hlist]; rfl)).2⟩
    | triple => exact absurd rfl (hstyle name)
    | ampersand => exact ⟨_, _, rfl, by decide⟩
  | opening bracket name => cases bracket <;> exact ⟨_, _, rfl, by decide⟩
  | close name | inclusion name | dynamic name => exact ⟨_, _, rfl, by decide⟩
  | comment | delimiters | pragma => exact h.elim

end Content

variable {d : Delimiters} {content : Content} {rest : List Char}

/-- What is written in a tag is what is read there. -/
theorem scanInside_inner (h : content.WellNamed)
    (hcloser : Text.OnlyAtEnd (content.closer d) content.inner) :
    scanInside d (content.inner ++ (content.closer d ++ rest)) = .ok (content, rest) := by
  by_cases hstyle : ∃ name, content = .value .triple name
  · obtain ⟨name, rfl⟩ := hstyle
    have hcut := Text.cut?_of_onlyAtEnd hcloser.tail rest
    have hname : IsName name := h
    simp only [Content.closer, List.cons_append] at hcut
    simp [scanInside, Content.inner, Content.closer, hcut, hname.2, Content.ofTriple, hname.1,
      Except.map]
  · have hstyle : ∀ name, content ≠ .value .triple name := fun name heq => hstyle ⟨name, heq⟩
    rw [Content.closer_of_ne_triple hstyle] at hcloser ⊢
    have hcut := Text.cut?_of_onlyAtEnd hcloser rest
    obtain ⟨c, s, hinner, hc⟩ := Content.head_inner h hstyle
    unfold scanInside
    split
    · next raw hraw =>
      rw [hinner, List.cons_append, List.cons.injEq] at hraw
      exact absurd hraw.1 hc
    · rw [hcut]
      simp [Content.ofChars_inner h hstyle, Except.map]

theorem next_print {file : String} {passed : List Char} (h : content.WellNamed)
    (hcloser : Text.OnlyAtEnd (content.closer d) content.inner) :
    next file d (.past passed ((content.print d).toList ++ rest)) =
      .ok (some ⟨[], ⟨content, d, .past passed ((content.print d).toList ++ rest)⟩,
        .past (passed ++ (content.print d).toList) rest⟩) := by
  have hcut : Text.cut? d.opening.toList ((content.print d).toList ++ rest) =
      some ([], content.inner ++ (content.closer d ++ rest)) := by
    rw [content.toList_print d h, List.append_assoc, List.append_assoc, Text.cut?_sep]
  have hlength : ((content.print d).toList ++ rest).length - rest.length =
      (content.print d).toList.length := by
    rw [List.length_append]
    omega
  have hskip := @Cursor.skip_past passed rest (content.print d).toList
  unfold next
  simp only [Cursor.past] at hcut hskip ⊢
  simp only [hcut, scanInside_inner h hcloser, List.length_nil, Cursor.skip, hlength, hskip]

theorem next_of_onlyAtEnd {file : String} {passed s : List Char} (hd : d.opening.toList ≠ [])
    (hs : Text.OnlyAtEnd d.opening.toList s) : next file d (.past passed s) = .ok none := by
  simp only [next, Cursor.past, Text.cut?_eq_none_of_onlyAtEnd hd hs]

end Tag

namespace Code

/-! ## Tokens -/

/-- What a tree is printed as, bit by bit. -/
inductive Token
  | literal (s : String)
  | tag (content : Tag.Content)

def Token.print (d : Delimiters) : Token → List Char
  | .literal s => s.toList
  | .tag content => (content.print d).toList

def written (d : Delimiters) (ts : List Token) : List Char :=
  ts.flatMap (Token.print d)

def enclosed (bracket : Tag.Bracket) (name : String) (ts : List Token) : List Token :=
  .tag (.opening bracket name) :: (ts ++ [.tag (.close name)])

mutual

def tokens : Code → List Token
  | .text s => [.literal s]
  | .value v => [.tag (.value v.style v.name)]
  | .sect ⟨_, name, negated, _, _, body⟩ =>
    enclosed (if negated then .negated else .positive) name (tokensAll body)
  | .inclusion p => [.tag (.inclusion p.name)]
  | .dynamic p => [.tag (.dynamic p.name)]
  | .extend ⟨_, name, _, body, _⟩ => enclosed .extend name (tokensAll body)
  | .block ⟨_, name, _, body⟩ => enclosed .block name (tokensAll body)
  | .eof => []

def tokensAll : List Code → List Token
  | [] => []
  | c :: cs => tokens c ++ tokensAll cs

end

/-- What ends a token shows up for the first time at its end: the next opening delimiter behind a
    literal, and what closes a tag. -/
def Token.Ends (d : Delimiters) : Token → Prop
  | .literal s => Text.OnlyAtEnd d.opening.toList s.toList
  | .tag content => Text.OnlyAtEnd (content.closer d) content.inner

/-- A token does not take its line away. -/
def Token.Stays (d : Delimiters) (before after : List Token) : Token → Prop
  | .literal _ => True
  | .tag content =>
    content.mayStandAlone = true → ¬ Text.StandsAlone (written d before) (written d after)

/-- The tokens can be told apart in their text: the delimiter that ends a token does not show up in
    it before, and no tag stands alone on its line and takes it away. -/
structure Legible (d : Delimiters) (ts : List Token) : Prop where
  ends : ∀ t ∈ ts, t.Ends d
  stays : ∀ before t after, ts = before ++ t :: after → t.Stays d before after

variable {d : Delimiters} {ts : List Token}

@[simp] theorem written_nil (d : Delimiters) : written d [] = [] := rfl

@[simp] theorem written_cons (d : Delimiters) (t : Token) (ts : List Token) :
    written d (t :: ts) = t.print d ++ written d ts := rfl

@[simp] theorem written_append (d : Delimiters) (ts ts' : List Token) :
    written d (ts ++ ts') = written d ts ++ written d ts' :=
  List.flatMap_append

instance : DecidablePred (Token.Ends d)
  | .literal s => inferInstanceAs (Decidable (Text.OnlyAtEnd d.opening.toList s.toList))
  | .tag content => inferInstanceAs (Decidable (Text.OnlyAtEnd (content.closer d) content.inner))

instance {before after : List Token} : DecidablePred (Token.Stays d before after)
  | .literal _ => inferInstanceAs (Decidable True)
  | .tag content => inferInstanceAs (Decidable (content.mayStandAlone = true →
      ¬ Text.StandsAlone (written d before) (written d after)))

theorem legible_iff : Legible d ts ↔
    (∀ t ∈ ts, t.Ends d) ∧ ∀ i : Fin ts.length, ts[i].Stays d (ts.take i) (ts.drop (i + 1)) := by
  constructor
  · intro h
    refine ⟨h.ends, fun i => h.stays _ _ _ ?_⟩
    simp
  · rintro ⟨hends, hstays⟩
    refine ⟨hends, fun before t after h => ?_⟩
    subst h
    have hi : before.length < (before ++ t :: after).length := by simp
    simpa using hstays ⟨before.length, hi⟩

instance : Decidable (Legible d ts) :=
  decidable_of_iff _ legible_iff.symm

/-! ## Passing a token -/

variable {src : Source} {opened : Option Opened} {passed held s rest : List Char}
  {content : Tag.Content}

/-- Text in which no tag begins, whatever follows it, is held back. -/
theorem bodyOf_pass (hcut : Text.cut? d.opening.toList (s ++ rest) =
      (Text.cut? d.opening.toList rest).map fun p => (s ++ p.1, p.2)) :
    bodyOf src opened d held (.past passed (s ++ rest)) =
      bodyOf src opened d (held ++ s) (.past (passed ++ s) rest) := by
  have hskip (after : List Char) := @Cursor.skip_past passed after s
  rw [bodyOf_eq, bodyOf_eq]
  cases hrest : Text.cut? d.opening.toList rest with
  | none =>
    rw [hrest] at hcut
    rw [Tag.next_eq_none_iff.mpr hcut, Tag.next_eq_none_iff.mpr hrest]
    simp only [bodyAtEnd]
    cases opened with
    | some o => rfl
    | none =>
      have hend : (Cursor.past passed (s ++ rest)).skip (s ++ rest).length =
          (Cursor.past (passed ++ s) rest).skip rest.length := by
        have hall := @Cursor.skip_past passed [] (s ++ rest)
        have hlast := @Cursor.skip_past (passed ++ s) [] rest
        rw [List.append_nil] at hall hlast
        rw [hall, hlast, List.append_assoc]
      simp only [Cursor.past] at hend ⊢
      simp only [hend, List.append_assoc]
  | some p =>
    obtain ⟨before, inside⟩ := p
    rw [hrest] at hcut
    have hplace : (Cursor.past passed (s ++ rest)).skip (s ++ before).length =
        (Cursor.past (passed ++ s) rest).skip before.length := by
      rw [Text.eq_append_of_cut? hrest, ← List.append_assoc, Cursor.skip_past, Cursor.skip_past,
        List.append_assoc]
    simp only [Tag.next, Cursor.past, Option.map_some] at hcut hrest hplace ⊢
    simp only [hcut, hrest, hplace]
    -- The tag that is found is the same; only the literal in front of it is held back already.
    cases Tag.scanInside d inside with
    | error cause => rfl
    | ok p => simp only [settleFound, List.append_assoc]

/-- A literal in front of a tag, or at the end, is held back. -/
theorem bodyOf_literal (hd : d.opening.toList ≠ []) (hs : Text.OnlyAtEnd d.opening.toList s)
    (hrest : rest = [] ∨ ∃ inside, rest = d.opening.toList ++ inside) :
    bodyOf src opened d held (.past passed (s ++ rest)) =
      bodyOf src opened d (held ++ s) (.past (passed ++ s) rest) := by
  apply bodyOf_pass
  obtain rfl | ⟨inside, rfl⟩ := hrest
  · rw [List.append_nil, Text.cut?_eq_none_of_onlyAtEnd hd hs,
      Text.cut?_eq_none_of_onlyAtEnd hd (Text.onlyAtEnd_nil _), Option.map_none]
  · rw [Text.cut?_of_onlyAtEnd hs, Text.cut?_sep, Option.map_some, List.append_nil]

/-- A tag is read where it is written, and does not take its line away. -/
theorem bodyOf_tag (h : content.WellNamed)
    (hcloser : Text.OnlyAtEnd (content.closer d) content.inner)
    (halone : content.mayStandAlone = true → ¬ Text.StandsAlone passed rest) :
    bodyOf src opened d held (.past passed ((content.print d).toList ++ rest)) =
      bodyAtTag src opened d ⟨content, d, .past passed ((content.print d).toList ++ rest)⟩
        ⟨held, [], .past (passed ++ (content.print d).toList) rest⟩ := by
  rw [bodyOf_eq, Tag.next_print h hcloser]
  simp only [settleFound]
  rw [settle_of_not_standsAlone rfl halone, List.append_nil]

end Code

end Mustache
