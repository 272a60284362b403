import Mustache.Lookup.Find

/-! # What guards pin down

The facts that a decision rests on say all that the search has looked at: how many scopes there
are, the shape of every value on the way, and which members were tried and found there or not.  So
on a stack where all of them are true the search takes the same way and comes to the same decision,
on the same facts.

The proof follows the search.  At every step the two stacks have to show values of one shape at the
place that is looked at, and that is what the guard recorded there says.

* `Lookup.firstPresent_congr`, `Lookup.accessor_congr` — the same accessor is chosen.
* `Lookup.extendPath_congr`, `Lookup.search_congr` — the same path, from the same scope.
* `Lookup.find_eq_of_isValid` — the same decision.
-/

namespace Mustache

/-! ## Shapes -/

theorem Value.coerce_coerce : ∀ v : Value, v.coerce.coerce = v.coerce
  | .optional (some v) => by simpa only [coerce] using coerce_coerce v
  | .optional none => rfl
  | .null | .bool _ | .int _ | .float _ | .text _ | .list _ | .map _ | .record _ _ | .object _
  | .lambda _ | .deferred _ => rfl

theorem Value.shape_coerce : ∀ v : Value, v.coerce.shape = v.shape
  | .optional (some v) => by simpa only [coerce, shape] using shape_coerce v
  | .optional none => rfl
  | .null | .bool _ | .int _ | .float _ | .text _ | .list _ | .map _ | .record _ _ | .object _
  | .lambda _ | .deferred _ => rfl

/-- The accessors that are tried for a name on values of a shape. -/
def Accessor.ofShape (name : String) : Shape → List Accessor
  | .map => if name.isEmpty then [] else [.key name]
  | .record _ => if name.isEmpty then [] else (names name).map .key
  | .object _ => if name.isEmpty then [] else (names name).map .member
  | _ => []

/-- The accessors that are tried on a value depend on its shape alone. -/
theorem Accessor.candidates_coerce (name : String) :
    ∀ v : Value, candidates v.coerce name = ofShape name v.shape
  | .optional (some v) => by
    simpa only [Value.coerce, Value.shape] using candidates_coerce name v
  | .optional none | .null | .bool _ | .int _ | .float _ | .text _ | .list _ | .map _
  | .record _ _ | .object _ | .lambda _ | .deferred _ => by
    simp [candidates, Value.coerce, Value.shape, ofShape]

namespace Lookup

variable {t : Scopes} {index : Nat} {path : List Accessor}

/-! ## Accessors -/

/-- If the facts about the accessors tried on one value are true of another, the same accessors
    are tried on it, and the same one is found. -/
theorem firstPresent_congr {v w : Value} (hw : t.walk index path = some w) :
    ∀ as : List Accessor, (∀ g ∈ (firstPresent v index path as).1, g.check t) →
      firstPresent w index path as = firstPresent v index path as
  | [], _ => rfl
  | a :: as, hguards => by
    have ha : a.isPresent w = a.isPresent v := by
      have hmem : Guard.member index path a (a.isPresent v) ∈
          (firstPresent v index path (a :: as)).1 := by
        simp only [firstPresent]
        split <;> simp
      simpa [Guard.check, hw] using hguards _ hmem
    simp only [firstPresent, ha]
    split
    · rfl
    · next hpresent =>
      rw [firstPresent_congr hw as]
      intro g hg
      refine hguards g ?_
      simp only [firstPresent, hpresent]
      exact List.mem_cons_of_mem _ hg

/-! ## Paths -/

/-- What is read from `t` along a path; null stands for what cannot be read. -/
def valueAt (t : Scopes) (index : Nat) (path : List Accessor) : Value :=
  (t.walk index path).getD .null

theorem readAlong_concat (a : Accessor) (p : List Accessor) (u : Value) :
    Accessor.readAlong (p ++ [a]) u =
      (Accessor.readAlong p u).bind fun w => (a.read w).map Value.coerce := by
  induction p generalizing u with
  | nil => cases h : a.read u <;> simp [Accessor.readAlong, h]
  | cons b p ih => simp [Accessor.readAlong, ih, Option.bind_assoc]

/-- What is read one step further from `t` is read from what is there. -/
theorem valueAt_concat (t : Scopes) (index : Nat) (path : List Accessor) (a : Accessor) :
    valueAt t index (path ++ [a]) =
      ((a.read (valueAt t index path)).map Value.coerce).getD .null := by
  have hwalk : t.walk index (path ++ [a]) =
      (t.walk index path).bind fun w => (a.read w).map Value.coerce := by
    simp only [Scopes.walk, readAlong_concat, Option.bind_assoc]
  rw [valueAt, hwalk, valueAt]
  cases t.walk index path with
  | none => cases a <;> rfl
  | some w => rfl

/-- The same accessor is chosen at the end of a path, if there is a value of the same shape there
    and the facts about the accessors tried are true. -/
theorem accessor_congr {v : Value} (hv : v.coerce = v) (name : String)
    (hcoerce : (valueAt t index path).coerce = valueAt t index path)
    (hshape : (valueAt t index path).shape = v.shape)
    (hguards : ∀ g ∈ (accessor v name index path).1, g.check t) :
    accessor (valueAt t index path) name index path = accessor v name index path := by
  have hcandidates : Accessor.candidates (valueAt t index path) name =
      Accessor.candidates v name := by
    rw [← hcoerce, ← hv, Accessor.candidates_coerce, Accessor.candidates_coerce, hshape]
  rw [accessor, hcandidates]
  cases hwalk : t.walk index path with
  | some w =>
    have hw : valueAt t index path = w := by rw [valueAt, hwalk]; rfl
    rw [hw]
    exact firstPresent_congr hwalk _ hguards
  | none =>
    -- Nothing is tried on a value that is read as null, so there is nothing to compare.
    have hnull : valueAt t index path = .null := by rw [valueAt, hwalk]; rfl
    have hnone : Accessor.candidates v name = [] := by
      rw [← hcandidates, hnull]
      simp [Accessor.candidates]
    rw [accessor, hnone]
    rfl

/-- What has been looked through, or null. -/
theorem coerce_getD_map_coerce (v : Option Value) :
    ((v.map Value.coerce).getD .null).coerce = (v.map Value.coerce).getD .null := by
  cases v with
  | none => rfl
  | some v => exact Value.coerce_coerce v

/-- The same way is taken along further segments, if all the facts recorded on it are true. -/
theorem extendPath_congr (names : List String) :
    ∀ (path : List Accessor) (v : Value), v.coerce = v →
      (valueAt t index path).coerce = valueAt t index path →
      (∀ g ∈ (extendPath index path v names).1, g.check t) →
      extendPath index path (valueAt t index path) names = extendPath index path v names := by
  induction names with
  | nil => intro _ _ _ _ _; rfl
  | cons name names ih =>
    intro path v hv hcoerce hguards
    -- The first guard recorded for a segment is about the value that it is looked for on.
    have hshape : (valueAt t index path).shape = v.shape := by
      have hdot : (Guard.dot index path v.shape).check t := by
        refine hguards _ ?_
        simp only [extendPath]
        split <;> exact List.mem_cons_self
      simp only [Guard.check, decide_eq_true_eq] at hdot
      rw [← hdot, valueAt]
      cases t.walk index path <;> rfl
    have haccessor := accessor_congr hv name hcoerce hshape fun g hg => by
      refine hguards g ?_
      simp only [extendPath]
      split
      · next h => simp only [h] at hg; exact List.mem_cons_of_mem _ hg
      · next h => simp only [h] at hg; exact List.mem_cons_of_mem _ (List.mem_append_left _ hg)
    simp only [extendPath, haccessor, hshape]
    split
    · rfl
    · next guards a h =>
      have hnext := ih (path ++ [a]) (((a.read v).map Value.coerce).getD .null)
        (coerce_getD_map_coerce _) (by rw [valueAt_concat]; exact coerce_getD_map_coerce _)
        fun g hg => by
          refine hguards g ?_
          simp only [extendPath, h]
          exact List.mem_cons_of_mem _ (List.mem_append_right _ hg)
      rw [valueAt_concat] at hnext
      rw [hnext]

/-! ## Searches -/

/-- The scope that has so many scopes outside of it. -/
theorem get?_of_stack {before outer : List Value} {slot : Value}
    (h : t.stack = before ++ slot :: outer) : t.get? outer.length = some slot := by
  simp [Scopes.get?, Scopes.toList, h]

/-- The facts about the accessors tried on a scope are recorded, whether or not one is found. -/
theorem mem_search_of_mem_accessor {first : String} {rest : List String} {slot : Value}
    {outer : List Value} {g : Guard}
    (hg : g ∈ (accessor slot.coerce first outer.length []).1) :
    g ∈ (search first rest (slot :: outer)).1 := by
  simp only [search]
  split
  · next h =>
    simp only [h] at hg
    exact List.mem_cons_of_mem _ (List.mem_append_left _ hg)
  · next h =>
    simp only [h] at hg
    exact List.mem_cons_of_mem _ (List.mem_append_left _ hg)

/-- The same way is taken from scope to scope, if all the facts recorded on it are true. -/
theorem search_congr (first : String) (rest : List String) :
    ∀ (slots slots' before : List Value), t.stack = before ++ slots' →
      slots.length = slots'.length →
      (∀ g ∈ (search first rest slots).1, g.check t) →
      search first rest slots' = search first rest slots := by
  intro slots
  induction slots with
  | nil =>
    intro slots' _ _ hlength _
    rw [List.length_nil, eq_comm, List.length_eq_zero_iff] at hlength
    rw [hlength]
  | cons slot outer ih =>
    intro slots' before hstack hlength hguards
    cases slots' with
    | nil => simp at hlength
    | cons slot' outer' =>
      have houter : outer.length = outer'.length := by simpa using hlength
      -- The guard of the scope says that the other stack has a value of that shape there.
      have hslot : t.get? outer.length = some slot' := houter ▸ get?_of_stack hstack
      have hvalue : valueAt t outer.length [] = slot'.coerce := by
        simp [valueAt, Scopes.walk, hslot, Accessor.readAlong]
      have hshape : slot'.coerce.shape = slot.coerce.shape := by
        have hcheck : (Guard.slot outer.length slot.coerce.shape).check t := by
          refine hguards _ ?_
          simp only [search]
          split <;> exact List.mem_cons_self
        simpa [Guard.check, hslot, Value.shape_coerce] using hcheck
      have haccessor := @accessor_congr t outer.length [] _
        (Value.coerce_coerce slot) first (by rw [hvalue]; exact Value.coerce_coerce slot')
        (by rw [hvalue, hshape]) fun g hg => hguards g (mem_search_of_mem_accessor hg)
      rw [hvalue] at haccessor
      simp only [search, ← houter, haccessor, hshape]
      split
      · -- No accessor was found, so the search goes on outwards.
        next guards h =>
        rw [ih outer' (before ++ [slot']) (by simp [hstack]) houter fun g hg => by
          refine hguards g ?_
          simp only [search, h]
          exact List.mem_cons_of_mem _ (List.mem_append_right _ hg)]
      · -- The scope is the one, and the further segments lead on from the same place.
        next guards a h =>
        have hpath : valueAt t outer.length [a] =
            ((a.read slot'.coerce).map Value.coerce).getD .null := by
          rw [← hvalue, ← valueAt_concat]; rfl
        have hnext := extendPath_congr rest [a] (((a.read slot.coerce).map Value.coerce).getD .null)
          (coerce_getD_map_coerce _) (by rw [hpath]; exact coerce_getD_map_coerce _)
          fun g hg => by
            refine hguards g ?_
            simp only [search, h]
            exact List.mem_cons_of_mem _ (List.mem_append_right _ hg)
        rw [hpath] at hnext
        rw [hnext]

/-- **A decision that is valid is the decision that would be made.** -/
theorem find_eq_of_isValid {name : String} {s : Scopes} (h : (find name s).isValid t) :
    find name t = find name s := by
  have hguards : ∀ g ∈ (find name s).guards, g.check t := by
    simpa [Wrapper.isValid] using h
  have hsize : t.size = s.size := by
    have hdepth : (Guard.depth s.size).check t := by
      refine hguards _ ?_
      unfold find
      split <;> exact List.mem_cons_self
    simpa [Guard.check] using hdepth
  unfold find at hguards ⊢
  split
  · have hempty : t.isEmpty = s.isEmpty := by
      have hlength : t.stack.length = s.stack.length := hsize
      rw [Bool.eq_iff_iff, Scopes.isEmpty, Scopes.isEmpty, List.isEmpty_iff_length_eq_zero,
        List.isEmpty_iff_length_eq_zero, hlength]
    rw [hsize, hempty]
  · next hname =>
    simp only [hname, if_false] at hguards
    have hsearch := search_congr (t := t) (segments name).1 (segments name).2 s.stack t.stack []
      rfl hsize.symm fun g hg => hguards g (List.mem_cons_of_mem _ hg)
    simp only [hsize, hsearch]

end Lookup

end Mustache
