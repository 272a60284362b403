/-! # Searching text

Cutting text at the first occurrence of another text, which is how tags, their ends and the
literals around values are found.
-/

namespace Mustache.Text

/-- The text before and after the first occurrence of `sep`. -/
def cut? (sep : List Char) : List Char → Option (List Char × List Char)
  | [] => if sep.isEmpty then some ([], []) else none
  | c :: s =>
    if sep.isPrefixOf (c :: s) then some ([], (c :: s).drop sep.length)
    else (cut? sep s).map fun p => (c :: p.1, p.2)

/-- A cut text is put together again by `sep`. -/
theorem eq_append_of_cut? {sep s a b : List Char} (h : cut? sep s = some (a, b)) :
    s = a ++ (sep ++ b) := by
  induction s generalizing a b with
  | nil =>
    simp only [cut?] at h
    split at h
    · simp_all
    · simp at h
  | cons c s ih =>
    simp only [cut?] at h
    split at h
    · next hp =>
      obtain ⟨t, ht⟩ := List.isPrefixOf_iff_prefix.1 hp
      simp only [Option.some.injEq, Prod.mk.injEq] at h
      rw [← h.1, ← h.2, ← ht, List.drop_left, List.nil_append]
    · obtain ⟨p, hp, hq⟩ := Option.map_eq_some_iff.1 h
      simp only [Prod.mk.injEq] at hq
      rw [← hq.1, ← hq.2, List.cons_append, ← ih hp]

def occurs (sep s : List Char) : Bool :=
  (cut? sep s).isSome

/-- Text with every occurrence of `old` replaced, searching on after each replacement; an empty
    `old` stands before every character and at the end. -/
def replaceAll (old new : List Char) : List Char → Nat → List Char
  | [], _ => if old.isEmpty then new else []
  | c :: s, skip =>
    match skip with
    | k + 1 => replaceAll old new s k
    | 0 =>
      if old.isEmpty then new ++ c :: replaceAll old new s 0
      else if old.isPrefixOf (c :: s) then new ++ replaceAll old new s (old.length - 1)
      else c :: replaceAll old new s 0

/-- The pieces between the occurrences of one character; there is always at least one. -/
def splitAtChar (sep : Char) : List Char → List (List Char)
  | [] => [[]]
  | c :: s =>
    if c == sep then [] :: splitAtChar sep s
    else
      match splitAtChar sep s with
      | w :: ws => (c :: w) :: ws
      | [] => [[c]]

theorem splitAtChar_ne_nil (sep : Char) (s : List Char) : splitAtChar sep s ≠ [] := by
  cases s with
  | nil => exact List.cons_ne_nil _ _
  | cons c s =>
    rw [splitAtChar]
    split
    · exact List.cons_ne_nil _ _
    · split <;> exact List.cons_ne_nil _ _

theorem not_mem_of_mem_splitAtChar {sep : Char} {s seg : List Char} (h : seg ∈ splitAtChar sep s) :
    sep ∉ seg := by
  induction s generalizing seg with
  | nil =>
    obtain rfl := List.mem_singleton.mp h
    exact List.not_mem_nil
  | cons c s ih =>
    rw [splitAtChar] at h
    split at h
    · obtain rfl | h := List.mem_cons.mp h
      · exact List.not_mem_nil
      · exact ih h
    · next hc =>
      split at h
      · next w ws hsplit =>
        rw [hsplit] at ih
        obtain rfl | h := List.mem_cons.mp h
        · have hw := ih List.mem_cons_self
          simp only [List.mem_cons, not_or]
          exact ⟨fun heq => hc (by simp [heq]), hw⟩
        · exact ih (List.mem_cons_of_mem _ h)
      · obtain rfl := List.mem_singleton.mp h
        simp only [List.mem_singleton]
        exact fun heq => hc (by simp [heq])

/-- A text without the character is in one piece. -/
theorem splitAtChar_of_not_mem {sep : Char} {s : List Char} (h : sep ∉ s) :
    splitAtChar sep s = [s] := by
  induction s with
  | nil => rfl
  | cons c s ih =>
    obtain ⟨hc, hs⟩ := not_or.mp (mt List.mem_cons.mpr h)
    rw [splitAtChar, ih hs, if_neg (by simpa using Ne.symm hc)]

/-- The pieces on either side of one occurrence are the pieces of the texts there. -/
theorem splitAtChar_append (sep : Char) (a b : List Char) :
    splitAtChar sep (a ++ sep :: b) = splitAtChar sep a ++ splitAtChar sep b := by
  induction a with
  | nil => simp [splitAtChar]
  | cons c a ih =>
    rw [List.cons_append, splitAtChar, splitAtChar, ih]
    split
    · rfl
    · cases hsplit : splitAtChar sep a with
      | nil => exact absurd hsplit (splitAtChar_ne_nil sep a)
      | cons w ws => rfl

/-- The text before and after the first occurrence of a character. -/
def cutAtChar? (sep : Char) : List Char → Option (List Char × List Char)
  | [] => none
  | c :: s => if c == sep then some ([], s) else (cutAtChar? sep s).map fun p => (c :: p.1, p.2)

/-- The text before the last occurrence of a character, and the rest from that character on. -/
def cutAtLast? (sep : Char) : List Char → Option (List Char × List Char)
  | [] => none
  | c :: s =>
    match cutAtLast? sep s with
    | some p => some (c :: p.1, p.2)
    | none => if c == sep then some ([], c :: s) else none

def utf8Size (s : List Char) : Nat :=
  s.foldr (fun c n => c.utf8Size + n) 0

end Mustache.Text
