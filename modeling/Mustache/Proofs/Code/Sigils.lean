import Mustache.Proofs.Code.Places

/-! # What stands inside a tag

Between its delimiters a tag has a sigil and a name, with blanks around either of them.  The sigil
says what the tag is written for; a tag without one is a value, and so is one with a pair of braces
more.

* `Tag.Content.Inside` — what stands between the delimiters of a tag, for what the tag says.
* `Tag.Content.Inside.of_scanInside` — a tag that is read says what stands inside it.
-/

namespace Mustache

/-- The sign of a tag that encloses a body. -/
def Tag.Bracket.sigil : Tag.Bracket → String
  | .positive => "#"
  | .negated => "^"
  | .extend => "<"
  | .block => "$"

namespace Tag

/-- A name is written with blanks around it, and is not empty. -/
structure Named (written : List Char) (name : String) : Prop where
  trim : Text.trim written = name.toList
  ne : name ≠ ""

/-- A pair of delimiters is written as two words, or as one word whose halves have the same number
    of bytes. -/
def Paired (written : List Char) (d : Delimiters) : Prop :=
  Text.words written = [d.opening.toList, d.closing.toList] ∨
    Text.words written = [d.opening.toList ++ d.closing.toList] ∧
      Text.utf8Size d.opening.toList = Text.utf8Size d.closing.toList

/-- What stands between the delimiters of a tag, for what the tag says. -/
inductive Content.Inside (inner : List Char) : Content → Prop
  | escaped {name : String} (hname : Named inner name)
    (hplain : ∀ c ∈ name.toList.head?, isSigil c = false) (hbrace : inner.head? ≠ some '\x7b') :
    Inside inner (.value .escaped name)
  | triple {written : List Char} {name : String} (hinner : inner = '\x7b' :: (written ++ ['\x7d']))
    (hname : Named written name) : Inside inner (.value .triple name)
  | ampersand {written : List Char} {name : String} (hinner : Text.trim inner = '&' :: written)
    (hname : Named written name) : Inside inner (.value .ampersand name)
  | opening {bracket : Bracket} {written : List Char} {name : String}
    (hinner : Text.trim inner = bracket.sigil.toList ++ written) (hname : Named written name) :
    Inside inner (.opening bracket name)
  | close {written : List Char} {name : String} (hinner : Text.trim inner = '/' :: written)
    (hname : Named written name) : Inside inner (.close name)
  | inclusion {written : List Char} {name : String} (hinner : Text.trim inner = '>' :: written)
    (hname : Named written name) (hstar : name.toList.head? ≠ some '*') :
    Inside inner (.inclusion name)
  | dynamic {starred written : List Char} {name : String}
    (hinner : Text.trim inner = '>' :: starred) (hstar : Text.trim starred = '*' :: written)
    (hname : Named written name) : Inside inner (.dynamic name)
  | comment {written : List Char} (hinner : Text.trim inner = '!' :: written) :
    Inside inner .comment
  | delimiters {written : List Char} {d : Delimiters}
    (hinner : Text.trim inner = '=' :: (written ++ ['='])) (hpair : Paired written d)
    (hvalid : d.isValid = true) : Inside inner (.delimiters d)
  | pragma {written : List Char} {body : String} (hinner : Text.trim inner = '%' :: written)
    (hname : Named written body) : Inside inner (.pragma body.toList)

variable {n : Nat} {s a b inner rest written : List Char} {d : Delimiters} {content : Content}

theorem Named.of_trim (hne : (Text.trim written).isEmpty = false) :
    Named written (.ofList (Text.trim written)) := by
  refine ⟨by simp, fun heq => ?_⟩
  rw [String.ofList_eq_empty_iff] at heq
  rw [heq] at hne
  cases hne

/-! ## Pairs of delimiters -/

theorem eq_append_of_cutAtByte? (h : cutAtByte? n s = some (a, b)) :
    s = a ++ b ∧ Text.utf8Size a = n := by
  induction s generalizing n a with
  | nil =>
    cases n with
    | zero =>
      cases h
      exact ⟨rfl, rfl⟩
    | succ n => cases h
  | cons c s ih =>
    cases n with
    | zero =>
      cases h
      exact ⟨rfl, rfl⟩
    | succ n =>
      rw [cutAtByte?] at h
      split at h
      · next hle =>
        obtain ⟨⟨a', b'⟩, hcut, heq⟩ := Option.map_eq_some_iff.mp h
        cases heq
        obtain ⟨rfl, hsize⟩ := ih hcut
        refine ⟨rfl, ?_⟩
        change c.utf8Size + Text.utf8Size a' = n + 1
        omega
      · cases h

theorem utf8Size_append (a b : List Char) :
    Text.utf8Size (a ++ b) = Text.utf8Size a + Text.utf8Size b := by
  induction a with
  | nil => exact (Nat.zero_add _).symm
  | cons c a ih =>
    change c.utf8Size + Text.utf8Size (a ++ b) = c.utf8Size + Text.utf8Size a + Text.utf8Size b
    omega

theorem paired_of_pair? (h : pair? written = some d) : Paired written d := by
  unfold pair? at h
  split at h
  · next opening closing hwords =>
    cases h
    exact .inl (by simp [hwords])
  · next both hwords =>
    simp only at h
    split at h
    · next heven =>
      obtain ⟨⟨a, b⟩, hcut, heq⟩ := Option.map_eq_some_iff.mp h
      cases heq
      obtain ⟨rfl, hsize⟩ := eq_append_of_cutAtByte? hcut
      refine .inr ⟨by simp [hwords], ?_⟩
      have happend := utf8Size_append a b
      simp only [String.toList_ofList]
      omega
    · cases h
  · cases h

/-! ## Reading -/

theorem exists_paired (h : directive? ('=' :: s) = some d) :
    ∃ written, s = written ++ ['='] ∧ Paired written d ∧ d.isValid = true := by
  simp only [directive?, List.drop_one, List.tail_cons] at h
  split at h
  · next hlast =>
    obtain ⟨hpair, hvalid⟩ := Option.filter_eq_some_iff.mp h
    have hne : s ≠ [] := by
      rintro rfl
      cases hlast
    have hend : s.getLast hne = '=' :=
      Option.some.inj ((List.getLast?_eq_some_getLast hne).symm.trans hlast)
    exact ⟨s.dropLast, by rw [← hend, List.dropLast_concat_getLast hne],
      paired_of_pair? hpair, hvalid⟩
  · cases h

/-- A tag with a sigil has it before its name. -/
theorem Content.Inside.of_ofSigil? {c : Char} (hinner : Text.trim inner = c :: s)
    (hne : (Text.trim s).isEmpty = false)
    (h : Content.ofSigil? c (Text.trim s) = some content) : content.Inside inner := by
  have hname := Named.of_trim hne
  unfold Content.ofSigil? at h
  simp only at h
  split at h
  case h_4 =>
    -- A star after the sigil of an inclusion says that the name is that of a value.
    split at h
    · next target htarget =>
      split at h
      · cases h
      · next hempty =>
        cases h
        exact .dynamic hinner htarget (.of_trim (by simpa using hempty))
    · next hstar =>
      cases h
      refine .inclusion hinner hname fun hhead => ?_
      rw [String.toList_ofList] at hhead
      obtain ⟨target, htarget⟩ := List.head?_eq_some_iff.mp hhead
      exact hstar target htarget
  all_goals cases h
  · exact .opening hinner hname
  · exact .opening hinner hname
  · exact .close hinner hname
  · exact .ampersand hinner hname
  · have hpragma := Inside.pragma hinner hname
    rwa [String.toList_ofList] at hpragma
  · exact .opening hinner hname
  · exact .opening hinner hname

theorem Content.Inside.of_ofChars (h : Content.ofChars (Text.trim inner) = .ok content)
    (hbrace : inner.head? ≠ some '\x7b') : content.Inside inner := by
  cases htrim : Text.trim inner with
  | nil =>
    rw [htrim] at h
    cases h
  | cons c s =>
    rw [htrim, Content.ofChars] at h
    split at h
    · next hc =>
      cases h
      exact .comment (hc ▸ htrim)
    · split at h
      · next hc =>
        subst hc
        split at h
        · next d hdirective =>
          cases h
          obtain ⟨written, rfl, hpair, hvalid⟩ := exists_paired hdirective
          exact .delimiters htrim hpair hvalid
        · cases h
      · split at h
        · simp only at h
          split at h
          · cases h
          · next hne =>
            split at h
            · next hsigil =>
              cases h
              exact of_ofSigil? htrim (by simpa using hne) hsigil
            · cases h
        · next hplain =>
          cases h
          refine .escaped ⟨by simpa using htrim, by simp⟩ (fun c' hc => ?_) hbrace
          simp only [String.toList_ofList, List.head?_cons, Option.mem_def, Option.some.injEq] at hc
          simpa [← hc] using hplain

/-- **A tag says what stands inside it.** -/
theorem Content.Inside.of_scanInside
    (h : scanInside d (inner ++ d.closing.toList ++ rest) = .ok (content, rest)) :
    content.Inside inner := by
  unfold scanInside at h
  split at h
  · next raw hraw =>
    split at h
    · next s r hcut =>
      cases htriple : Content.ofTriple (Text.trim s) with
      | error e => simp [htriple, Except.map] at h
      | ok c =>
        simp only [htriple, Except.map, Except.ok.injEq, Prod.mk.injEq] at h
        obtain ⟨rfl, rfl⟩ := h
        have hinner : inner = '\x7b' :: (s ++ ['\x7d']) := by
          rw [Text.eq_append_of_cut? hcut] at hraw
          have hraw : inner ++ (d.closing.toList ++ r) =
              '\x7b' :: (s ++ ['\x7d']) ++ (d.closing.toList ++ r) := by
            simpa using hraw
          exact List.append_cancel_right hraw
        unfold Content.ofTriple at htriple
        split at htriple
        · cases htriple
        · next hne =>
          cases htriple
          exact .triple hinner (.of_trim (by simpa using hne))
    · split at h <;> cases h
  · next hplain =>
    split at h
    · next s r hcut =>
      cases hchars : Content.ofChars (Text.trim s) with
      | error e => simp [hchars, Except.map] at h
      | ok c =>
        simp only [hchars, Except.map, Except.ok.injEq, Prod.mk.injEq] at h
        obtain ⟨rfl, rfl⟩ := h
        have happ := Text.eq_append_of_cut? hcut
        rw [List.append_assoc] at happ
        obtain rfl := List.append_cancel_right happ
        refine of_ofChars hchars fun hhead => ?_
        obtain ⟨raw, rfl⟩ := List.head?_eq_some_iff.mp hhead
        exact hplain _ rfl
    · cases h

end Tag

end Mustache
