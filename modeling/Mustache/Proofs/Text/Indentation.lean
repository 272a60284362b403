import Mustache.Proofs.Text.WholeLines
import Mustache.Text.Lines

/-! # Indented text

Indentation goes in front of every line that is not empty.  Read from left to right, it is put in
wherever a line starts that holds more than its line ending, so an indented text can be cut where
the text itself can be cut.

* `indentFrom` — indentation from left to right; `indentLines_eq` says that it is the same.
* `indentFrom_append` — where an indented text can be cut.
* `lastLine_indentFrom`, `count_indentFrom` — its lines.
* `onlyAtEnd_indentFrom` — a delimiter shows up in it where it shows up in the text.
-/

namespace Mustache.Text

/-- Whether nothing but a line ending is left on a line. -/
def beginsEmpty : List Char → Bool
  | [] => true
  | '\n' :: _ => true
  | '\r' :: '\n' :: _ => true
  | _ => false

/-- Text with `indent` before every line that is not empty.  The first line starts with the text, or
    has started before. -/
def indentFrom (indent : List Char) : Bool → List Char → List Char
  | _, [] => []
  | starts, c :: s =>
    (if starts && !beginsEmpty (c :: s) then indent else []) ++ c :: indentFrom indent (c == '\n') s

variable {i s x y z sep : List Char} {b : Bool} {c : Char}

/-! ## From left to right -/

theorem isEmptyLine_cons {l : List Char} {ls : List (List Char)} (hc : c ≠ '\n')
    (h : lines s = l :: ls) : isEmptyLine (c :: l) = beginsEmpty (c :: s) := by
  cases s with
  | nil => cases h
  | cons c' s =>
    by_cases hr : c = '\r'
    -- A carriage return ends a line if a line feed follows, so the next character is needed.
    · subst hr
      by_cases hc' : c' = '\n'
      · subst hc'
        simp only [lines, beq_self_eq_true, if_true, List.cons.injEq] at h
        obtain ⟨rfl, -⟩ := h
        rfl
      · have hl : ∃ t, l = c' :: t := by
          simp only [lines, beq_iff_eq, hc', if_false] at h
          split at h <;> cases h <;> exact ⟨_, rfl⟩
        obtain ⟨t, rfl⟩ := hl
        simp [isEmptyLine, beginsEmpty, hc']
    · simp [isEmptyLine, beginsEmpty, hc, hr]

theorem lines_indentFrom (i s : List Char) :
    indentFrom i true s = indentLines i s ∧
      indentFrom i false s = (lines s).headD [] ++
        (lines s).tail.flatMap fun l => if isEmptyLine l then l else i ++ l := by
  induction s with
  | nil => exact ⟨rfl, rfl⟩
  | cons c s ih =>
    obtain ⟨htrue, hfalse⟩ := ih
    rw [indentLines] at htrue
    by_cases hc : c = '\n'
    · subst hc
      simp [indentFrom, indentLines, lines, beginsEmpty, isEmptyLine, htrue]
    · have hc' : (c == '\n') = false := by simpa using hc
      cases hlines : lines s with
      | nil =>
        obtain rfl : s = [] := by
          cases s with
          | nil => rfl
          | cons c' s =>
            rw [lines] at hlines
            split at hlines
            · cases hlines
            · split at hlines <;> cases hlines
        simp [indentFrom, indentLines, lines, beginsEmpty, isEmptyLine, hc]
      | cons l ls =>
        have hempty := isEmptyLine_cons hc hlines
        rw [hlines] at hfalse
        simp only [List.headD_cons, List.tail_cons] at hfalse
        simp only [indentFrom, indentLines, lines, hc', hlines, hfalse]
        refine ⟨?_, by simp⟩
        cases hbegins : beginsEmpty (c :: s) <;> simp [hempty, hbegins]

/-- Indentation from left to right is indentation line by line. -/
theorem indentLines_eq (i s : List Char) : indentLines i s = indentFrom i true s :=
  (lines_indentFrom i s).1.symm

theorem indentFrom_nil (b : Bool) (s : List Char) : indentFrom [] b s = s := by
  induction s generalizing b with
  | nil => rfl
  | cons c s ih => simp [indentFrom, ih]

/-! ## Cutting an indented text -/

/-- Whether a line starts behind a text, which itself starts with a line or does not. -/
def startsBehind (b : Bool) (x : List Char) : Bool :=
  if x.isEmpty then b else x.getLast? == some '\n'

theorem startsBehind_cons : startsBehind b (c :: x) = startsBehind (c == '\n') x := by
  cases x with
  | nil => simp [startsBehind]
  | cons c' x => simp [startsBehind, List.getLast?_cons]

theorem startsBehind_append : startsBehind b (x ++ y) = startsBehind (startsBehind b x) y := by
  by_cases hy : y = []
  · subst hy
    rw [List.append_nil]
    rfl
  · simp [startsBehind, hy, List.getLast?_append_of_ne_nil x hy]

theorem startsBehind_delimiter (hsep : Delimiters.isUsable sep = true) (b : Bool) :
    startsBehind b sep = false := by
  have hlast : sep.getLast? ≠ some '\n' := fun h =>
    Code.not_mem_of_isUsable hsep (List.mem_of_getLast? h)
  simp [startsBehind, Code.ne_nil_of_isUsable hsep, hlast]

/-- An indented text is cut anywhere but inside of a line ending. -/
theorem indentFrom_append (h : x.getLast? = some '\r' → y.head? ≠ some '\n') (i : List Char)
    (b : Bool) :
    indentFrom i b (x ++ y) = indentFrom i b x ++ indentFrom i (startsBehind b x) y := by
  induction x generalizing b with
  | nil => rfl
  | cons c x ih =>
    -- Two characters tell whether a line is empty, and they are not cut apart.
    have hempty : beginsEmpty (c :: (x ++ y)) = beginsEmpty (c :: x) := by
      cases x with
      | nil =>
        by_cases hr : c = '\r'
        · subst hr
          have hy := h rfl
          cases y with
          | nil => rfl
          | cons c' y =>
            have hc' : c' ≠ '\n' := fun heq => hy (by rw [heq]; rfl)
            simp [beginsEmpty, hc']
        · by_cases hn : c = '\n'
          · subst hn
            rfl
          · simp [beginsEmpty, hr, hn]
      | cons c' x =>
        by_cases hn : c = '\n'
        · subst hn
          rfl
        · by_cases hrn : c = '\r' ∧ c' = '\n'
          · obtain ⟨rfl, rfl⟩ := hrn
            rfl
          · rw [List.cons_append, beginsEmpty, beginsEmpty] <;> simp_all
    have hrest : x.getLast? = some '\r' → y.head? ≠ some '\n' := by
      intro hx
      refine h ?_
      rw [List.getLast?_cons, hx]
      rfl
    rw [List.cons_append, indentFrom, indentFrom, hempty, ih hrest, startsBehind_cons]
    simp

theorem indentFrom_of_not_mem (h : '\n' ∉ x) (i : List Char) :
    indentFrom i false x = x ∧ indentFrom i true x = if x.isEmpty then [] else i ++ x := by
  induction x with
  | nil => exact ⟨rfl, rfl⟩
  | cons c x ih =>
    obtain ⟨hc, hx⟩ := not_or.mp (mt List.mem_cons.mpr h)
    have hfalse : (c == '\n') = false := by simpa using Ne.symm hc
    have hempty : beginsEmpty (c :: x) = false := by
      unfold beginsEmpty
      split <;> simp_all
    simp [indentFrom, hfalse, (ih hx).1, hempty]

/-- In front of a delimiter, a line is indented that starts there. -/
theorem indentFrom_delimiter (hsep : Delimiters.isUsable sep = true) (i : List Char) (b : Bool)
    (y : List Char) :
    indentFrom i b (sep ++ y) = (if b then i else []) ++ (sep ++ indentFrom i false y) := by
  have hfeed := Code.not_mem_of_isUsable hsep
  have hne := Code.ne_nil_of_isUsable hsep
  have hreturn : sep.getLast? = some '\r' → y.head? ≠ some '\n' := fun h => by
    cases Code.not_isBlank_of_isUsable hsep (List.mem_of_getLast? h)
  rw [indentFrom_append hreturn, startsBehind_delimiter hsep]
  obtain ⟨hfalse, htrue⟩ := indentFrom_of_not_mem hfeed i
  cases b with
  | false => simp [hfalse]
  | true => simp [htrue, hne]

/-! ## Its lines -/

theorem count_indentFrom (hi : '\n' ∉ i) (b : Bool) (x : List Char) :
    (indentFrom i b x).count '\n' = x.count '\n' := by
  induction x generalizing b with
  | nil => rfl
  | cons c x ih =>
    rw [indentFrom, List.count_append, List.count_cons, List.count_cons, ih]
    split
    · rw [List.count_eq_zero.mpr hi, Nat.zero_add]
    · simp

theorem mem_indentFrom (hi : '\n' ∉ i) : '\n' ∈ indentFrom i b x ↔ '\n' ∈ x := by
  rw [← List.count_pos_iff, ← List.count_pos_iff, count_indentFrom hi]

theorem getLast?_indentFrom (i : List Char) (b : Bool) (x : List Char) :
    (indentFrom i b x).getLast? = x.getLast? := by
  induction x generalizing b with
  | nil => rfl
  | cons c x ih =>
    rw [indentFrom, List.getLast?_append, List.getLast?_cons, List.getLast?_cons, ih,
      Option.some_or]

theorem WholeLines.indentFrom (h : WholeLines x) (i : List Char) (b : Bool) :
    WholeLines (indentFrom i b x) := by
  obtain rfl | h := h
  · exact .inl rfl
  · exact .inr (by rw [getLast?_indentFrom, h])

theorem startsBehind_of_wholeLines (h : WholeLines x) : startsBehind true x = true := by
  obtain rfl | h := h
  · rfl
  · simp [startsBehind, h]

theorem WholeLines.indentFrom_append (h : WholeLines x) (i y : List Char) :
    Text.indentFrom i true (x ++ y) = Text.indentFrom i true x ++ Text.indentFrom i true y := by
  have hlast : x.getLast? = some '\r' → y.head? ≠ some '\n' := by
    intro hr
    obtain rfl | h := h
    · cases hr
    · cases h.symm.trans hr
  rw [Text.indentFrom_append hlast, startsBehind_of_wholeLines h]

/-- The last line is indented, unless it is empty. -/
theorem lastLine_indentFrom (hi : '\n' ∉ i) (x : List Char) :
    lastLine (indentFrom i true x) = if (lastLine x).isEmpty then [] else i ++ lastLine x := by
  obtain ⟨y, hx, hy, hlast⟩ := exists_lastLine x
  have hindent := (indentFrom_of_not_mem hlast i).2
  have hfeed : '\n' ∉ indentFrom i true (lastLine x) := fun hmem =>
    hlast ((mem_indentFrom hi).mp hmem)
  conv_lhs => rw [hx]
  rw [hy.indentFrom_append, lastLine_append_of_wholeLines (hy.indentFrom i true),
    lastLine_of_not_mem hfeed, hindent]

/-- Whether a line starts behind a text is told by its last line. -/
theorem startsBehind_eq (x : List Char) : startsBehind true x = (lastLine x).isEmpty := by
  by_cases h : WholeLines x
  · rw [startsBehind_of_wholeLines h, lastLine_eq_nil h]
    rfl
  · obtain ⟨hne, hlast⟩ := not_or.mp h
    obtain ⟨y, hx, hy, -⟩ := exists_lastLine x
    have hne' : lastLine x ≠ [] := fun hnil => h (by rw [hx, hnil, List.append_nil]; exact hy)
    have hempty : x.isEmpty = false := List.isEmpty_eq_false_iff.mpr hne
    rw [startsBehind, hempty, List.isEmpty_eq_false_iff.mpr hne']
    exact beq_eq_false_iff_ne.mpr hlast

/-- In front of something that is indented, the last line is indented in any case. -/
theorem lastLine_indentFrom_append (hi : '\n' ∉ i) (x : List Char) :
    lastLine (indentFrom i true x ++ if startsBehind true x then i else []) = i ++ lastLine x := by
  have hfeed : '\n' ∉ if startsBehind true x then i else [] := by
    split
    · exact hi
    · exact List.not_mem_nil
  rw [lastLine_append, if_neg hfeed, lastLine_indentFrom hi, startsBehind_eq]
  cases hlast : lastLine x <;> simp

/-- The rest of a line stays as it is. -/
theorem indentFrom_line (h : '\n' ∉ x) (i y : List Char) :
    indentFrom i false (x ++ '\n' :: y) = x ++ '\n' :: indentFrom i true y := by
  induction x with
  | nil => rfl
  | cons c x ih =>
    obtain ⟨hc, hx⟩ := not_or.mp (mt List.mem_cons.mpr h)
    have hfalse : (c == '\n') = false := by simpa using Ne.symm hc
    simp [indentFrom, hfalse, ih hx]

/-- Whether a line goes on blank is not changed by the indentation of the lines after it. -/
theorem blankLineRest?_indentFrom (i x : List Char) :
    Tag.blankLineRest? (indentFrom i false x) = Tag.blankLineRest? x := by
  by_cases h : '\n' ∈ x
  · obtain ⟨s, t, rfl, hs⟩ := List.eq_append_cons_of_mem h
    have hcut (t : List Char) : s ++ '\n' :: t = (s ++ ['\n']) ++ t := by simp
    have hline : '\n' ∈ s ++ ['\n'] := by simp
    rw [indentFrom_line hs, hcut t, hcut (indentFrom i true t), blankLineRest?_append hline,
      blankLineRest?_append hline]
  · rw [(indentFrom_of_not_mem h i).1]

/-- What ends a line stays as it is. -/
theorem EndsLine.indentFrom {spacing trail rest : List Char} (h : EndsLine spacing trail rest)
    (i : List Char) : Text.indentFrom i false (trail ++ rest) =
      trail ++ Text.indentFrom i (startsBehind false trail) rest := by
  have hspacing {w : List Char} (hw : w.all isSpacing = true) : '\n' ∉ w :=
    not_mem_of_all_isSpacing hw
  cases h with
  | lineFeed hs =>
    have hline := indentFrom_line (hspacing hs) i rest
    simpa [startsBehind] using hline
  | carriageReturn hs =>
    have hfeed : '\n' ∉ spacing ++ ['\r'] := by simpa using hspacing hs
    have hline := indentFrom_line hfeed i rest
    simpa [startsBehind] using hline
  | atEnd hs =>
    rw [List.append_nil, (indentFrom_of_not_mem (hspacing hs) i).1, Text.indentFrom,
      List.append_nil]

/-- The first character that is not blank stays the first one. -/
theorem head?_trimStart_indentFrom (hi : i.all isSpacing = true) (h : (trimStart x).head? = some c)
    (y : List Char) : (trimStart (indentFrom i b x ++ y)).head? = some c := by
  have hblank : ∀ c ∈ i, isBlank c = true := fun c hc => by
    have hspacing := List.all_eq_true.mp hi c hc
    simp only [isSpacing, Bool.or_eq_true, beq_iff_eq] at hspacing
    obtain rfl | rfl := hspacing <;> rfl
  induction x generalizing b with
  | nil => cases h
  | cons c' x ih =>
    -- The indent in front of the character is blank, if there is one.
    have hpre : ∀ c ∈ (if b && !beginsEmpty (c' :: x) then i else []), isBlank c = true := by
      split
      · exact hblank
      · exact fun c hc => by cases hc
    rw [indentFrom, List.append_assoc, trimStart, List.dropWhile_append_of_pos hpre]
    by_cases hc' : isBlank c' = true
    · rw [trimStart, List.dropWhile_cons_of_pos hc'] at h
      rw [List.cons_append, List.dropWhile_cons_of_pos hc']
      exact ih h
    · rw [trimStart, List.dropWhile_cons_of_neg hc'] at h
      rw [List.cons_append, List.dropWhile_cons_of_neg hc']
      exact h

/-! ## Delimiters -/

theorem exists_of_indentFrom_false_eq {t z : List Char} (ht : '\n' ∉ t)
    (h : indentFrom i false x = t ++ z) : ∃ z', x = t ++ z' ∧ z = indentFrom i false z' := by
  induction t generalizing x with
  | nil => exact ⟨x, rfl, h.symm⟩
  | cons c t ih =>
    obtain ⟨hc, htail⟩ := not_or.mp (mt List.mem_cons.mpr ht)
    cases x with
    | nil => cases h
    | cons c' x =>
      simp only [indentFrom, Bool.false_and, Bool.false_eq_true, if_false, List.nil_append,
        List.cons_append, List.cons.injEq] at h
      obtain ⟨rfl, hrest⟩ := h
      have hfalse : (c' == '\n') = false := by simpa using Ne.symm hc
      rw [hfalse] at hrest
      obtain ⟨z', rfl, hz⟩ := ih htail hrest
      exact ⟨z', rfl, hz⟩

/-- Spacing in front of a text is no part of a delimiter in it. -/
theorem exists_of_spacing_append_eq {w y a z : List Char} (hsep : Delimiters.isUsable sep = true)
    (hw : w.all isSpacing = true) (h : w ++ y = a ++ (sep ++ z)) :
    ∃ a', a = w ++ a' ∧ y = a' ++ (sep ++ z) := by
  obtain ⟨a', rfl, hy⟩ | ⟨t, rfl, ht⟩ := List.append_eq_append_iff.mp h
  · exact ⟨a', rfl, hy⟩
  · cases t with
    | nil => exact ⟨[], by simp, by simpa using ht.symm⟩
    | cons c t =>
      obtain ⟨c', sep', rfl⟩ := List.exists_cons_of_ne_nil (Code.ne_nil_of_isUsable hsep)
      simp only [List.cons_append, List.cons.injEq] at ht
      obtain ⟨rfl, -⟩ := ht
      have hblank := Code.not_isBlank_of_isUsable hsep List.mem_cons_self
      have hspacing : isSpacing c' = true := List.all_eq_true.mp hw c' (by simp)
      simp only [isSpacing, Bool.or_eq_true, beq_iff_eq] at hspacing
      obtain rfl | rfl := hspacing <;> cases hblank

/-- What is on one line shows up in an indented text where it shows up in the text. -/
theorem exists_of_indentFrom_eq {a z : List Char} (hsep : Delimiters.isUsable sep = true)
    (hi : i.all isSpacing = true) (h : indentFrom i b x = a ++ (sep ++ z)) :
    ∃ a' z', x = a' ++ (sep ++ z') ∧ z = indentFrom i false z' := by
  induction x generalizing b a with
  | nil => simp [indentFrom, Code.ne_nil_of_isUsable hsep] at h
  | cons c x ih =>
    have hpre : (if b && !beginsEmpty (c :: x) then i else []).all isSpacing = true := by
      split
      · exact hi
      · rfl
    obtain ⟨a, -, hrest⟩ := exists_of_spacing_append_eq hsep hpre h
    cases a with
    | nil =>
      have hfalse : indentFrom i false (c :: x) = sep ++ z := hrest
      obtain ⟨z', hx, hz⟩ := exists_of_indentFrom_false_eq (Code.not_mem_of_isUsable hsep) hfalse
      exact ⟨[], z', hx, hz⟩
    | cons c' a =>
      simp only [List.cons_append, List.cons.injEq] at hrest
      obtain ⟨rfl, hrest⟩ := hrest
      obtain ⟨a', z', rfl, hz⟩ := ih hrest
      exact ⟨c :: a', z', rfl, hz⟩

theorem cut?_indentFrom_eq_none (hsep : Delimiters.isUsable sep = true)
    (hi : i.all isSpacing = true) (h : cut? sep x = none) (b : Bool) :
    cut? sep (indentFrom i b x) = none := by
  cases hcut : cut? sep (indentFrom i b x) with
  | none => rfl
  | some p =>
    obtain ⟨a, z, hx, -⟩ := exists_of_indentFrom_eq hsep hi (eq_append_of_cut? hcut)
    obtain ⟨p', hp', -⟩ := exists_cut? hx
    cases h.symm.trans hp'

/-- An indented text in front of a delimiter, which is itself indented if it starts a line. -/
theorem indentFrom_before (hsep : Delimiters.isUsable sep = true) (i : List Char) (b : Bool)
    (x y : List Char) :
    indentFrom i b (x ++ (sep ++ y)) =
      indentFrom i b x ++ (if startsBehind b x then i else []) ++
        (sep ++ indentFrom i false y) := by
  have hhead : x.getLast? = some '\r' → (sep ++ y).head? ≠ some '\n' := by
    intro _
    rw [List.head?_append_of_ne_nil _ (Code.ne_nil_of_isUsable hsep)]
    exact fun h => Code.not_mem_of_isUsable hsep (List.mem_of_head? h)
  rw [indentFrom_append hhead, indentFrom_delimiter hsep, List.append_assoc]

/-- A delimiter that shows up at the end only does so when the text is indented. -/
theorem onlyAtEnd_indentFrom (hsep : Delimiters.isUsable sep = true) (hi : i.all isSpacing = true)
    (h : OnlyAtEnd sep x) (b : Bool) :
    OnlyAtEnd sep (indentFrom i b x ++ if startsBehind b x then i else []) := by
  intro a z heq
  have hindent := indentFrom_before hsep i b x []
  rw [List.append_nil, indentFrom, List.append_nil, heq] at hindent
  obtain ⟨a', z', hx, rfl⟩ := exists_of_indentFrom_eq hsep hi hindent
  rw [h a' z' hx]
  rfl

end Mustache.Text
