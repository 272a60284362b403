import Mustache.Proofs.Lookup.Guards

/-! # Where a decision is valid

Every fact that a search records is true of the stack that it searches: a shape is recorded of what
was read there, and a member is recorded as it was found.  So a decision is valid on the stack it was
made for, also if it says that there is no such name.  As the facts pin the whole search down, it is
valid on the stacks for which it would be made again, and on no others.

* `Lookup.check_accessor`, `Lookup.check_extendPath`, `Lookup.check_search` — the facts recorded by
  each part of the search are true.
* `Lookup.isValid_find_self` — a decision is valid where it was made.
* `Lookup.isValid_find_iff` — a decision is valid where it would be made again.
-/

namespace Mustache.Lookup

variable {s : Scopes} {index : Nat} {path : List Accessor}

/-- The facts about the accessors tried on what is read along a path are true. -/
theorem check_firstPresent {v : Value} (hv : s.walk index path = some v) (as : List Accessor) :
    ∀ g ∈ (firstPresent v index path as).1, g.check s := by
  induction as with
  | nil => exact fun _ hg => absurd hg List.not_mem_nil
  | cons a as ih =>
    intro g hg
    have hcheck : (Guard.member index path a (a.isPresent v)).check s := by
      simp [Guard.check, hv]
    simp only [firstPresent] at hg
    split at hg
    · obtain rfl := List.mem_singleton.mp hg
      exact hcheck
    · obtain rfl | hg := List.mem_cons.mp hg
      · exact hcheck
      · exact ih g hg

theorem check_accessor (s : Scopes) (index : Nat) (path : List Accessor) (name : String) :
    ∀ g ∈ (accessor (valueAt s index path) name index path).1, g.check s := by
  rw [accessor]
  cases hwalk : s.walk index path with
  | some v =>
    have hvalue : valueAt s index path = v := by rw [valueAt, hwalk]; rfl
    rw [hvalue]
    exact check_firstPresent hwalk _
  | none =>
    -- A fact about a member would fail here, but nothing is tried on what cannot be read.
    have hnull : valueAt s index path = .null := by rw [valueAt, hwalk]; rfl
    have hnone : Accessor.candidates (valueAt s index path) name = [] := by
      rw [hnull]
      simp [Accessor.candidates]
    rw [hnone]
    exact fun _ hg => absurd hg List.not_mem_nil

/-- The shape of what is read along a path is as it is recorded, null if nothing is read. -/
theorem check_dot (s : Scopes) (index : Nat) (path : List Accessor) :
    (Guard.dot index path (valueAt s index path).shape).check s := by
  rw [Guard.check, valueAt]
  cases s.walk index path <;> simp [Value.shape]

theorem check_extendPath (names : List String) :
    ∀ path : List Accessor,
      ∀ g ∈ (extendPath index path (valueAt s index path) names).1, g.check s := by
  induction names with
  | nil => exact fun _ _ hg => absurd hg List.not_mem_nil
  | cons name names ih =>
    intro path g hg
    have haccessor := check_accessor s index path name
    simp only [extendPath] at hg
    split at hg
    · next guards h =>
      rw [h] at haccessor
      obtain rfl | hg := List.mem_cons.mp hg
      · exact check_dot s index path
      · exact haccessor g hg
    · next guards a h =>
      rw [h] at haccessor
      rw [← valueAt_concat] at hg
      obtain rfl | hg := List.mem_cons.mp hg
      · exact check_dot s index path
      obtain hg | hg := List.mem_append.mp hg
      · exact haccessor g hg
      · exact ih (path ++ [a]) g hg

theorem check_search (first : String) (rest : List String) :
    ∀ inner slots : List Value, s.stack = inner ++ slots →
      ∀ g ∈ (search first rest slots).1, g.check s
  | _, [], _ => fun _ hg => absurd hg List.not_mem_nil
  | inner, slot :: outer, hstack => by
    intro g hg
    have hslot : s.get? outer.length = some slot := get?_of_stack hstack
    have hvalue : valueAt s outer.length [] = slot.coerce := by
      simp [valueAt, Scopes.walk, hslot, Accessor.readAlong]
    have hshape : (Guard.slot outer.length slot.coerce.shape).check s := by
      simp [Guard.check, hslot, Value.shape_coerce]
    have haccessor := check_accessor s outer.length [] first
    rw [hvalue] at haccessor
    simp only [search] at hg
    split at hg
    · -- The scope does not have the name: the search goes on outwards.
      next guards h =>
      rw [h] at haccessor
      obtain rfl | hg := List.mem_cons.mp hg
      · exact hshape
      obtain hg | hg := List.mem_append.mp hg
      · exact haccessor g hg
      · exact check_search first rest (inner ++ [slot]) outer (by simp [hstack]) g hg
    · -- The scope has it: the further facts are about what is read from there.
      next guards a h =>
      rw [h] at haccessor
      have hnext : ((a.read slot.coerce).map Value.coerce).getD .null =
          valueAt s outer.length [a] := by
        rw [← hvalue, ← valueAt_concat]
        rfl
      rw [hnext] at hg
      obtain rfl | hg := List.mem_cons.mp hg
      · exact hshape
      obtain hg | hg := List.mem_append.mp hg
      · exact haccessor g hg
      · exact check_extendPath rest [a] g hg

/-- A decision is valid on the stack it was made for. -/
theorem isValid_find_self (name : String) (s : Scopes) : (find name s).isValid s := by
  have hdepth : (Guard.depth s.size).check s := by simp [Guard.check]
  rw [Wrapper.isValid, List.all_eq_true]
  intro g hg
  unfold find at hg
  split at hg
  · obtain rfl := List.mem_singleton.mp hg
    exact hdepth
  · obtain rfl | hg := List.mem_cons.mp hg
    · exact hdepth
    · exact check_search _ _ [] s.stack rfl g hg

/-- **A decision is valid exactly where it would be made again.**  All the facts that a decision on
    one stack rests on are true of another stack if and only if the decision on that stack is the
    same: it rests on the same facts and reads along the same path, or it also finds no such name.
    So every decision is valid on the stack it was made for, misses included. -/
theorem isValid_find_iff (name : String) (s t : Scopes) :
    ((find name s).isValid t ↔
      (find name t).guards = (find name s).guards ∧
        (find name t).target = (find name s).target) ∧
    (find name s).isValid s := by
  refine ⟨⟨fun hvalid => ?_, fun hsame => ?_⟩, isValid_find_self name s⟩
  · rw [find_eq_of_isValid hvalid]
    exact ⟨rfl, rfl⟩
  · -- Validity is about the facts alone, and on its own stack the other decision is valid.
    have hself := isValid_find_self name t
    rwa [Wrapper.isValid, hsame.1, ← Wrapper.isValid] at hself

end Mustache.Lookup
