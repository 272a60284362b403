import Mathlib.Data.List.Basic
import Mustache.Proofs.Code.Tokens

/-! # Whole lines

Whether a tag stands alone is a matter of its line.  Behind whole lines a line starts, whatever the
lines are; and how a line ends is told before the next one starts, whatever follows.

* `WholeLines` — a text that is empty or ends with a line feed.
* `exists_lastLine` — any text is whole lines and its last line.
* `blankLineRest?_append`, `EndsLine.elsewhere` — how a line ends does not depend on the next ones.
* `cut?_append_of_wholeLines` — a delimiter does not go over a line ending.
-/

namespace Mustache.Text

variable {sep s w x y z a b : List Char}

/-- Whether a text is empty or ends with a line feed. -/
def WholeLines (s : List Char) : Prop :=
  s = [] ∨ s.getLast? = some '\n'

theorem wholeLines_nil : WholeLines [] := .inl rfl

theorem lastLine_eq_nil (h : WholeLines s) : lastLine s = [] := by
  obtain rfl | h := h
  · rfl
  · obtain ⟨s, rfl⟩ := List.getLast?_eq_some_iff.mp h
    simp [lastLine]

theorem lastLine_of_not_mem (h : '\n' ∉ s) : lastLine s = s := by
  have happ := @lastLine_append [] s
  rwa [if_neg h] at happ

theorem lastLine_append_of_wholeLines (h : WholeLines a) : lastLine (a ++ b) = lastLine b := by
  rw [lastLine_append]
  split
  · rfl
  · next hfeed => rw [lastLine_eq_nil h, List.nil_append, lastLine_of_not_mem hfeed]

/-- What is left of whole lines ends with a line feed, unless nothing is left. -/
theorem WholeLines.right (h : WholeLines (a ++ b)) : WholeLines b := by
  obtain h | h := h
  · exact .inl (List.append_eq_nil_iff.mp h).2
  · by_cases hb : b = []
    · exact .inl hb
    · rw [List.getLast?_append_of_ne_nil a hb] at h
      exact .inr h

theorem WholeLines.mem (h : WholeLines s) (hs : s ≠ []) : '\n' ∈ s :=
  List.mem_of_getLast? (h.resolve_left hs)

theorem WholeLines.append (ha : WholeLines a) (hb : WholeLines b) : WholeLines (a ++ b) := by
  obtain rfl | hb := hb
  · rwa [List.append_nil]
  · have hne : b ≠ [] := by
      rintro rfl
      cases hb
    exact .inr (by rw [List.getLast?_append_of_ne_nil a hne, hb])

/-- A text falls into whole lines and what is on its last line. -/
theorem exists_lastLine (x : List Char) :
    ∃ y, x = y ++ lastLine x ∧ WholeLines y ∧ '\n' ∉ lastLine x := by
  by_cases h : '\n' ∈ x
  -- Read backwards, the last line goes up to the first line feed.
  · obtain ⟨s, t, hreverse, hs⟩ := List.eq_append_cons_of_mem (List.mem_reverse.mpr h)
    have hs' : '\n' ∉ s.reverse := fun hmem => hs (List.mem_reverse.mp hmem)
    have hx : x = (t.reverse ++ ['\n']) ++ s.reverse := by
      rw [← List.reverse_reverse x, hreverse]
      simp
    have hwhole : WholeLines (t.reverse ++ ['\n']) := .inr (by simp)
    have hlast : lastLine x = s.reverse := by
      rw [hx, lastLine_append_of_wholeLines hwhole, lastLine_of_not_mem hs']
    exact ⟨_, by rw [hlast]; exact hx, hwhole, hlast ▸ hs'⟩
  · rw [lastLine_of_not_mem h]
    exact ⟨[], rfl, wholeLines_nil, h⟩

theorem wholeLines_of_lastLine (h : lastLine s = []) : WholeLines s := by
  obtain ⟨y, hs, hy, -⟩ := exists_lastLine s
  rw [h, List.append_nil] at hs
  exact hs ▸ hy

/-- Whether a line ends is told before the first line feed. -/
theorem blankLineRest?_append (h : '\n' ∈ s) :
    Tag.blankLineRest? (s ++ y) = Tag.blankLineRest? s := by
  have hdrop : '\n' ∈ s.dropWhile isSpacing := by
    rw [← List.takeWhile_append_dropWhile (p := isSpacing) (l := s)] at h
    refine (List.mem_append.mp h).resolve_left fun hmem => ?_
    cases List.mem_takeWhile_imp hmem
  have hne : s.dropWhile isSpacing ≠ [] := List.ne_nil_of_mem hdrop
  have htake : (s ++ y).takeWhile isSpacing = s.takeWhile isSpacing := by
    rw [List.takeWhile_append, if_neg]
    intro hlength
    have hsplit := congrArg List.length (List.takeWhile_append_dropWhile (p := isSpacing) (l := s))
    rw [List.length_append] at hsplit
    exact hne (List.length_eq_zero_iff.mp (by omega))
  have hrest : (s ++ y).dropWhile isSpacing = s.dropWhile isSpacing ++ y := by
    rw [List.dropWhile_append, if_neg (by simpa using hne)]
  rw [Tag.blankLineRest?, Tag.blankLineRest?, htake, hrest]
  cases hs : s.dropWhile isSpacing with
  | nil => exact absurd hs hne
  | cons c t =>
    cases t with
    | nil =>
      rw [hs, List.mem_singleton] at hdrop
      subst hdrop
      rfl
    | cons c' t =>
      by_cases hc : c = '\n'
      · subst hc
        rfl
      · by_cases hc' : c = '\r' ∧ c' = '\n'
        · obtain ⟨rfl, rfl⟩ := hc'
          rfl
        · rw [List.cons_append, List.cons_append]
          split <;> split <;> simp_all

theorem not_mem_of_all_isSpacing (h : s.all isSpacing = true) : '\n' ∉ s := by
  intro hmem
  cases List.all_eq_true.mp h _ hmem

/-- What ends a line ends it in front of another text, too, unless the line goes on there. -/
theorem EndsLine.elsewhere {spacing trail rest rest' : List Char} (h : EndsLine spacing trail rest)
    (hrest : '\n' ∈ trail ∨ (rest = [] → rest' = [])) : EndsLine spacing trail rest' := by
  cases h with
  | lineFeed hs => exact .lineFeed hs rest'
  | carriageReturn hs => exact .carriageReturn hs rest'
  | atEnd hs =>
    rw [hrest.resolve_left (not_mem_of_all_isSpacing hs) rfl]
    exact .atEnd hs

/-- What ends a line in front of a text ends with a line feed. -/
theorem EndsLine.getLast?_eq {spacing trail rest : List Char} (h : EndsLine spacing trail rest)
    (hrest : rest ≠ []) : trail.getLast? = some '\n' := by
  cases h with
  | lineFeed => simp
  | carriageReturn => simp
  | atEnd => exact absurd rfl hrest

theorem EndsLine.getLast?_ne {spacing trail rest : List Char} (h : EndsLine spacing trail rest) :
    trail.getLast? ≠ some '\r' := by
  cases h with
  | lineFeed => simp
  | carriageReturn => simp
  | atEnd hs =>
    intro hlast
    cases List.all_eq_true.mp hs _ (List.mem_of_getLast? hlast)

/-! ## Delimiters -/

/-- What does not show up in whole lines does not begin in them either, if it is on one line. -/
theorem cut?_append_of_wholeLines (hfeed : '\n' ∉ sep) (hx : WholeLines x)
    (hcut : cut? sep x = none) (z : List Char) :
    cut? sep (x ++ z) = (cut? sep z).map fun p => (x ++ p.1, p.2) := by
  induction x with
  | nil => simp
  | cons c x ih =>
    rw [cut?] at hcut
    split at hcut
    · cases hcut
    · next hsep =>
      have hbegins : sep.isPrefixOf (c :: (x ++ z)) = false := by
        refine Bool.eq_false_iff.mpr fun hprefix => ?_
        -- A delimiter that begins here ends in the lines, or goes over their last line feed.
        obtain hshort | hlong := List.prefix_or_prefix_of_prefix
          (List.isPrefixOf_iff_prefix.mp hprefix) (List.prefix_append (c :: x) z)
        · exact hsep (List.isPrefixOf_iff_prefix.mpr hshort)
        · exact hfeed (hlong.subset (hx.mem (List.cons_ne_nil c x)))
      have hx' : WholeLines x := WholeLines.right (a := [c]) hx
      rw [List.cons_append, cut?, hbegins, ih hx' (Option.map_eq_none_iff.mp hcut)]
      simp only [Bool.false_eq_true, if_false, Option.map_map]
      rfl

/-- Spacing in front of a delimiter is no part of it. -/
theorem cut?_spacing (hsep : Delimiters.isUsable sep = true) (hw : w.all isSpacing = true)
    (rest : List Char) : cut? sep (w ++ (sep ++ rest)) = some (w, rest) := by
  induction w with
  | nil => exact cut?_sep sep rest
  | cons c w ih =>
    rw [List.all_cons, Bool.and_eq_true] at hw
    have hbegins : sep.isPrefixOf (c :: (w ++ (sep ++ rest))) = false := by
      refine Bool.eq_false_iff.mpr fun hprefix => ?_
      obtain ⟨c', sep', rfl⟩ := List.exists_cons_of_ne_nil (Code.ne_nil_of_isUsable hsep)
      obtain ⟨rfl, -⟩ := List.cons_prefix_cons.mp (List.isPrefixOf_iff_prefix.mp hprefix)
      have hall := Code.all_isSpacing_of_isUsable (s := [c']) (by
        have hblank := Code.not_isBlank_of_isUsable hsep List.mem_cons_self
        simp only [Delimiters.isUsable, List.all_cons, Bool.and_eq_true] at hsep ⊢
        exact ⟨rfl, hsep.2.1, rfl⟩)
      simp [hw.1] at hall
    rw [List.cons_append, cut?, hbegins, ih hw.2]
    rfl

end Mustache.Text
