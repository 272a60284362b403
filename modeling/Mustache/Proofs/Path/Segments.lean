import Mustache.Path

/-! # Folded paths

A path is folded if there is nothing in it to fold away: it is empty, or every segment names
something.  The path that a name stands for in a tag is always folded, whatever slashes and dots
meet where the directory, the name and the extension are put together.

* `Path.IsFolded` — paths without empty, `.` or `..` segments.
* `Path.splitAtChar_join`, `Path.join_splitAtChar` — joining segments and telling them apart again.
* `Path.isFolded_normalize`, `Path.isFolded_resolve` — folding folds.
-/

namespace Mustache.Path

/-- A segment that names something: it is not empty, and it is not one dot or two. -/
def IsOrdinary (seg : List Char) : Prop :=
  seg ≠ [] ∧ seg ≠ ['.'] ∧ seg ≠ ['.', '.']

instance (seg : List Char) : Decidable (IsOrdinary seg) :=
  inferInstanceAs (Decidable (_ ∧ _))

/-- An empty path, or one whose segments all name something. -/
def IsFolded (path : List Char) : Prop :=
  path = [] ∨ ∀ seg ∈ Text.splitAtChar '/' path, IsOrdinary seg

instance (path : List Char) : Decidable (IsFolded path) :=
  inferInstanceAs (Decidable (_ ∨ _))

/-- Folding keeps segments that name something, and makes no new ones. -/
theorem mem_fold {seg : List Char} {segs kept : List (List Char)} (h : seg ∈ fold kept segs) :
    seg ∈ kept ∨ seg ∈ segs ∧ IsOrdinary seg := by
  induction segs generalizing kept with
  | nil => exact .inl (List.mem_reverse.mp h)
  | cons w segs ih =>
    have htail {kept' : List (List Char)} (h : seg ∈ fold kept' segs) :
        seg ∈ kept' ∨ seg ∈ w :: segs ∧ IsOrdinary seg :=
      (ih h).imp_right fun hseg => ⟨List.mem_cons_of_mem _ hseg.1, hseg.2⟩
    rw [fold] at h
    split at h
    · exact htail h
    · next hstays =>
      split at h
      -- Two dots only take away what was kept.
      · exact (htail h).imp_left List.mem_of_mem_tail
      · next hparent =>
        obtain hkept | hseg := htail h
        · obtain rfl | hkept := List.mem_cons.mp hkept
          · obtain ⟨hempty, hdot⟩ := not_or.mp hstays
            exact .inr ⟨List.mem_cons_self, hempty, hdot, hparent⟩
          · exact .inl hkept
        · exact .inr hseg

/-- Segments without slashes are the segments of the path they are joined to. -/
theorem splitAtChar_join {segs : List (List Char)} (hne : segs ≠ [])
    (hslash : ∀ seg ∈ segs, '/' ∉ seg) : Text.splitAtChar '/' (join segs) = segs := by
  induction segs with
  | nil => exact absurd rfl hne
  | cons seg segs ih =>
    have hseg := hslash seg List.mem_cons_self
    cases segs with
    | nil => exact Text.splitAtChar_of_not_mem hseg
    | cons next segs =>
      have hrest := ih (List.cons_ne_nil _ _) fun w hw => hslash w (List.mem_cons_of_mem _ hw)
      rw [join, Text.splitAtChar_append, Text.splitAtChar_of_not_mem hseg, hrest]
      · rfl
      · exact List.cons_ne_nil _ _

/-- A path is its segments, joined. -/
theorem join_splitAtChar (path : List Char) : join (Text.splitAtChar '/' path) = path := by
  have hcons (seg : List Char) {segs : List (List Char)} (h : segs ≠ []) :
      join (seg :: segs) = seg ++ '/' :: join segs := by
    cases segs with
    | nil => exact absurd rfl h
    | cons next segs => rfl
  induction path with
  | nil => rfl
  | cons c path ih =>
    have hne := Text.splitAtChar_ne_nil '/' path
    rw [Text.splitAtChar]
    split
    -- A slash begins a segment that is empty so far; another character goes on with the first one.
    · next hc =>
      rw [hcons [] hne, ih, eq_of_beq hc]
      rfl
    · cases hsplit : Text.splitAtChar '/' path with
      | nil => exact absurd hsplit hne
      | cons seg segs =>
        rw [hsplit] at ih
        cases segs with
        | nil =>
          rw [← ih]
          rfl
        | cons next segs =>
          rw [← ih, hcons seg (List.cons_ne_nil _ _)]
          rfl

theorem isFolded_normalize (path : List Char) : IsFolded (normalize path) := by
  have hsegs : ∀ seg ∈ fold [] (Text.splitAtChar '/' path), '/' ∉ seg ∧ IsOrdinary seg := by
    intro seg hseg
    obtain hkept | ⟨hmem, hordinary⟩ := mem_fold hseg
    · exact absurd hkept List.not_mem_nil
    · exact ⟨Text.not_mem_of_mem_splitAtChar hmem, hordinary⟩
  rw [normalize]
  generalize fold [] (Text.splitAtChar '/' path) = segs at hsegs ⊢
  by_cases hne : segs = []
  · subst hne
    exact .inl rfl
  · rw [IsFolded, splitAtChar_join hne fun seg hseg => (hsegs seg hseg).1]
    exact .inr fun seg hseg => (hsegs seg hseg).2

/-- The path that a name stands for in a tag is folded. -/
theorem isFolded_resolve (name including : String) : IsFolded (resolve name including).toList := by
  rw [resolve, String.toList_ofList]
  exact isFolded_normalize _

end Mustache.Path
