import Mathlib.Data.List.Basic
import Mustache.Proofs.Code.Tokens

/-! # Reading a tag

What a tag says is a matter of its own text: of what stands between its delimiters, up to where the
closing delimiter shows up first.  So what follows a tag plays no part in it, and neither does it in
what is wrong with a tag, unless the tag is cut off.

* `SyntaxError.Cause.isCutOff` — a tag that is not closed as it should be.
* `Tag.scanInside_cases` — what a tag may be that is read at a place.
* `Tag.scanInside_congr`, `Tag.scanInside_error_append` — another text may follow it.
* `Tag.scanInside_comment_iff` — comments.
-/

namespace Mustache

namespace Text

variable {s : List Char} {c : Char}

/-- A trimmed text starts with the first character that is not blank. -/
theorem head?_trim (s : List Char) : (trim s).head? = (trimStart s).head? := by
  rw [trim, trimEnd]
  cases hs : trimStart s with
  | nil => rfl
  | cons c t =>
    have hc : isBlank c = false := by
      have hhead := List.head?_dropWhile_not isBlank s
      rw [← trimStart, hs] at hhead
      simpa using hhead
    rw [List.reverse_cons, List.dropWhile_append]
    split
    · simp [hc]
    · simp

end Text

/-! ## What a tag may be -/

/-- Whether a tag is never closed as it should be. -/
def SyntaxError.Cause.isCutOff : SyntaxError.Cause → Bool
  | .unterminatedTag _ => true
  | .improperlyClosedVariable => true
  | _ => false

namespace Tag

variable {d : Delimiters} {s inside rest : List Char}

theorem scanInside_braced (hs : Text.OnlyAtEnd ('\x7d' :: d.closing.toList) s) (rest : List Char) :
    scanInside d ('\x7b' :: (s ++ ('\x7d' :: d.closing.toList ++ rest))) =
      (Content.ofTriple (Text.trim s)).map (·, rest) := by
  rw [scanInside, Text.cut?_of_onlyAtEnd hs]

theorem scanInside_plain (hs : Text.OnlyAtEnd d.closing.toList s)
    (hhead : (s ++ (d.closing.toList ++ rest)).head? ≠ some '\x7b') :
    scanInside d (s ++ (d.closing.toList ++ rest)) =
      (Content.ofChars (Text.trim s)).map (·, rest) := by
  unfold scanInside
  split
  · next raw hraw =>
    rw [hraw] at hhead
    exact absurd rfl hhead
  · rw [Text.cut?_of_onlyAtEnd hs]

/-- A tag is read up to what closes it, in braces or not, or it is cut off. -/
theorem scanInside_cases (d : Delimiters) (inside : List Char) :
    (∃ s rest, inside = '\x7b' :: (s ++ ('\x7d' :: d.closing.toList ++ rest)) ∧
      Text.OnlyAtEnd ('\x7d' :: d.closing.toList) s) ∨
    (∃ s rest, inside = s ++ (d.closing.toList ++ rest) ∧ inside.head? ≠ some '\x7b' ∧
      Text.OnlyAtEnd d.closing.toList s) ∨
    ∃ cause, scanInside d inside = .error cause ∧ cause.isCutOff = true := by
  by_cases hhead : inside.head? = some '\x7b'
  · obtain ⟨raw, rfl⟩ := List.head?_eq_some_iff.mp hhead
    cases hcut : Text.cut? ('\x7d' :: d.closing.toList) raw with
    | some p => exact .inl ⟨p.1, p.2, by rw [← Text.eq_append_of_cut? hcut],
        Text.onlyAtEnd_of_cut? hcut⟩
    | none =>
      refine .inr (.inr ?_)
      rw [scanInside, hcut]
      simp only
      split
      · exact ⟨_, rfl, rfl⟩
      · exact ⟨_, rfl, rfl⟩
  · cases hcut : Text.cut? d.closing.toList inside with
    | some p => exact .inr (.inl ⟨p.1, p.2, Text.eq_append_of_cut? hcut, hhead,
        Text.onlyAtEnd_of_cut? hcut⟩)
    | none =>
      refine .inr (.inr ⟨.unterminatedTag d.closing, ?_, rfl⟩)
      unfold scanInside
      split
      · exact absurd rfl hhead
      · rw [hcut]

theorem ne_nil_of_ofChars {content : Content} (h : Content.ofChars (Text.trim s) = .ok content) :
    s ≠ [] := by
  rintro rfl
  cases h

/-- What follows a tag plays no part in it. -/
theorem scanInside_congr {inner : List Char} {content : Content}
    (h : scanInside d (inner ++ d.closing.toList ++ rest) = .ok (content, rest))
    (rest' : List Char) :
    scanInside d (inner ++ d.closing.toList ++ rest') = .ok (content, rest') := by
  obtain ⟨s, rest₁, hinside, hs⟩ | ⟨s, rest₁, hinside, hhead, hs⟩ | ⟨cause, herror, -⟩ :=
    scanInside_cases d (inner ++ d.closing.toList ++ rest)
  · rw [hinside, scanInside_braced hs] at h
    obtain ⟨content', hcontent, heq⟩ := Code.exists_ok_of_map h
    obtain ⟨rfl, rfl⟩ := Prod.mk.inj heq
    have hsplit : inner ++ (d.closing.toList ++ rest₁) =
        '\x7b' :: (s ++ ['\x7d']) ++ (d.closing.toList ++ rest₁) := by simpa using hinside
    have hinner := List.append_cancel_right hsplit
    have hread : scanInside d _ = .ok (content', rest') :=
      (scanInside_braced hs rest').trans (by rw [hcontent]; rfl)
    simpa [hinner] using hread
  · rw [hinside, scanInside_plain hs (hinside ▸ hhead)] at h
    obtain ⟨content', hcontent, heq⟩ := Code.exists_ok_of_map h
    obtain ⟨rfl, rfl⟩ := Prod.mk.inj heq
    obtain rfl : inner = s :=
      List.append_cancel_right ((List.append_assoc inner _ _).symm.trans hinside)
    -- A tag that says something has a first character, whatever follows the tag.
    obtain ⟨c, inner, rfl⟩ := List.exists_cons_of_ne_nil (ne_nil_of_ofChars hcontent)
    have hhead' : (c :: inner ++ (d.closing.toList ++ rest')).head? ≠ some '\x7b' := by
      simpa using hhead
    rw [List.append_assoc, scanInside_plain hs hhead', hcontent]
    rfl
  · rw [herror] at h
    cases h

/-- A tag at fault that is not cut off is at fault whatever follows it. -/
theorem scanInside_error_append {inside : List Char} {cause : SyntaxError.Cause}
    (hd : d.isValid = true) (h : scanInside d inside = .error cause)
    (hcause : cause.isCutOff = false) (z : List Char) :
    scanInside d (inside ++ z) = .error cause := by
  -- The text behind a tag is handed on with what the tag says, and is lost with a fault.
  have hmap {r : Except SyntaxError.Cause Content} {rest : List Char} (rest' : List Char)
      (hr : r.map (·, rest) = .error cause) : r.map (·, rest') = .error cause := by
    cases r with
    | error e => exact hr
    | ok content => cases hr
  obtain ⟨s, rest, rfl, hs⟩ | ⟨s, rest, rfl, hhead, hs⟩ | ⟨cause', herror, hcut⟩ :=
    scanInside_cases d inside
  · rw [scanInside_braced hs] at h
    have happ : '\x7b' :: (s ++ ('\x7d' :: d.closing.toList ++ rest)) ++ z =
        '\x7b' :: (s ++ ('\x7d' :: d.closing.toList ++ (rest ++ z))) := by simp
    rw [happ, scanInside_braced hs]
    exact hmap _ h
  · rw [scanInside_plain hs hhead] at h
    have hne : s ++ (d.closing.toList ++ rest) ≠ [] := by
      have hclosing := Code.ne_nil_of_isUsable (Bool.and_eq_true_iff.mp hd).2
      simp [hclosing]
    have hhead' : (s ++ (d.closing.toList ++ (rest ++ z))).head? ≠ some '\x7b' := by
      rw [← List.append_assoc d.closing.toList, ← List.append_assoc,
        List.head?_append_of_ne_nil _ hne]
      exact hhead
    rw [List.append_assoc, List.append_assoc, scanInside_plain hs hhead']
    exact hmap _ h
  · obtain rfl : cause = cause' := Except.error.inj (h.symm.trans herror)
    rw [hcause] at hcut
    cases hcut

theorem Content.ofChars_ne_illegalExtendContent (s : List Char) (name : String) :
    Content.ofChars s ≠ .error (.illegalExtendContent name) := by
  intro h
  cases s with
  | nil => cases h
  | cons c s =>
    simp only [Content.ofChars] at h
    repeat' split at h
    all_goals cases h

/-- What is at fault inside a tag is never the body of an extension. -/
theorem scanInside_ne_illegalExtendContent (d : Delimiters) (inside : List Char) (name : String) :
    scanInside d inside ≠ .error (.illegalExtendContent name) := by
  intro h
  obtain ⟨s, rest, rfl, hs⟩ | ⟨s, rest, rfl, hhead, hs⟩ | ⟨cause, herror, hcut⟩ :=
    scanInside_cases d inside
  · rw [scanInside_braced hs, Content.ofTriple] at h
    split at h <;> cases h
  · rw [scanInside_plain hs hhead] at h
    cases hcontent : Content.ofChars (Text.trim s) with
    | ok content =>
      rw [hcontent] at h
      cases h
    | error cause =>
      rw [hcontent] at h
      cases h
      exact Content.ofChars_ne_illegalExtendContent _ _ hcontent
  · rw [h] at herror
    cases herror
    cases hcut

/-! ## Comments -/

/-- A tag is a comment if the first character in it that is not blank is an exclamation mark. -/
theorem scanInside_comment_iff {inner : List Char} :
    scanInside d (inner ++ (d.closing.toList ++ rest)) = .ok (.comment, rest) ↔
      (Text.trim inner).head? = some '!' ∧ Text.OnlyAtEnd d.closing.toList inner := by
  constructor
  · intro h
    have hcomment : Content.comment.Inside inner := .of_scanInside (List.append_assoc _ _ _ ▸ h)
    refine ⟨by cases hcomment with | comment hinner => rw [hinner]; rfl, ?_⟩
    obtain ⟨s, rest₁, hinside, hs⟩ | ⟨s, rest₁, hinside, hhead, hs⟩ | ⟨cause, herror, -⟩ :=
      scanInside_cases d (inner ++ (d.closing.toList ++ rest))
    · rw [hinside, scanInside_braced hs] at h
      obtain ⟨content, hcontent, heq⟩ := Code.exists_ok_of_map h
      obtain ⟨rfl, -⟩ := Prod.mk.inj heq
      unfold Content.ofTriple at hcontent
      split at hcontent <;> cases hcontent
    · rw [hinside, scanInside_plain hs (hinside ▸ hhead)] at h
      obtain ⟨content, hcontent, heq⟩ := Code.exists_ok_of_map h
      obtain ⟨rfl, rfl⟩ := Prod.mk.inj heq
      obtain rfl : inner = s := List.append_cancel_right hinside
      exact hs
    · cases herror.symm.trans h
  · rintro ⟨hcomment, hs⟩
    have hfirst := hcomment
    rw [Text.head?_trim] at hfirst
    have hne : inner ≠ [] := by
      rintro rfl
      cases hfirst
    have hhead : (inner ++ (d.closing.toList ++ rest)).head? ≠ some '\x7b' := by
      rw [List.head?_append_of_ne_nil _ hne]
      intro hbrace
      obtain ⟨t, rfl⟩ := List.head?_eq_some_iff.mp hbrace
      cases hfirst
    obtain ⟨t, ht⟩ := List.head?_eq_some_iff.mp hcomment
    rw [scanInside_plain hs hhead, ht]
    rfl

/-! ## Tags at fault -/

variable {file : String} {passed text : List Char} {e : SyntaxError}

/-- A tag that is not lexed is reported where it opens. -/
theorem next_eq_error_iff :
    next file d (.past passed text) = .error e ↔
      ∃ before inside cause, Text.cut? d.opening.toList text = some (before, inside) ∧
        scanInside d inside = .error cause ∧
        e = ⟨file, (passed ++ before).count '\n' + 1,
          (Text.lastLine (passed ++ before)).length + 1, cause⟩ := by
  cases hcut : Text.cut? d.opening.toList text with
  | none =>
    have hnone : next file d (.past passed text) = .ok none := next_eq_none_iff.mpr hcut
    simp [hnone]
  | some p =>
    obtain ⟨before, inside⟩ := p
    have hplace := @Cursor.skip_past passed (d.opening.toList ++ inside) before
    rw [← Text.eq_append_of_cut? hcut] at hplace
    have hrest : (Cursor.past passed text).rest = text := rfl
    simp only [next, hrest, hcut, hplace, Option.some.injEq, Prod.mk.injEq]
    cases hscan : scanInside d inside with
    | ok r =>
      simp only [reduceCtorEq, false_iff]
      rintro ⟨_, _, cause, ⟨rfl, rfl⟩, herror, -⟩
      rw [hscan] at herror
      cases herror
    | error cause =>
      have hcolumn : (Cursor.past (passed ++ before) (d.opening.toList ++ inside)).column =
          (Text.lastLine (passed ++ before)).length + 1 := by
        simp [Cursor.column, Cursor.past, Text.lastLine]
      rw [hcolumn]
      constructor
      · intro h
        exact ⟨_, _, cause, ⟨rfl, rfl⟩, hscan, (Except.error.inj h).symm⟩
      · rintro ⟨_, _, cause', ⟨rfl, rfl⟩, herror, rfl⟩
        obtain rfl : cause = cause' := Except.error.inj (hscan.symm.trans herror)
        rfl

end Tag

end Mustache
