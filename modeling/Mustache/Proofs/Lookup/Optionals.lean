import Mustache.Handler
import Mustache.Proofs.Lookup.Guards

/-! # Values without their optionals

Everything that looks at a value looks through the optionals around it, so a value and the same
value without any optional in it look the same: they have the same shape, members, truth, elements
and text, and a name is looked up in the same way on scopes of either kind.

What a deferred computation comes to is the exception.  An inclusion that has waited for it takes
null for no scope, and anything else, an empty optional too, for one.  So one optional is left
around what it comes to, unless that is null.

* `Value.unwrap` — a value without its optionals.
* `Lookup.find_unwrap`, `Wrapper.call_unwrap` — looking a name up.
-/

namespace Mustache

namespace Value

mutual

/-- A value without the optionals in it. -/
def unwrap : Value → Value
  | .null => .null
  | .bool b => .bool b
  | .int n => .int n
  | .float x => .float x
  | .text s => .text s
  | .list items => .list (unwrapAll items)
  | .map entries => .map (unwrapEntries entries)
  | .record type fields => .record type (unwrapEntries fields)
  | .object ⟨id, type, members, phantoms, items⟩ =>
    .object ⟨id, type, unwrapEntries members, phantoms, unwrapItems items⟩
  | .optional (some v) => v.unwrap
  | .optional none => .null
  | .lambda f => .lambda f
  | .deferred ⟨id, outcomes⟩ => .deferred ⟨id, unwrapOutcomes outcomes⟩

def unwrapAll : List Value → List Value
  | [] => []
  | v :: vs => v.unwrap :: unwrapAll vs

def unwrapItems : Option (List Value) → Option (List Value)
  | none => none
  | some items => some (unwrapAll items)

def unwrapEntries : List (String × Value) → List (String × Value)
  | [] => []
  | (k, v) :: es => (k, v.unwrap) :: unwrapEntries es

def unwrapOutcomes : List (Outcome Value) → List (Outcome Value)
  | [] => []
  | .value v :: os =>
    -- Null stays apart from an optional, as an inclusion tells them apart.
    .value (if v.isNull then .null else .optional (some v.unwrap)) :: unwrapOutcomes os
  | .failure message :: os => .failure message :: unwrapOutcomes os
  | .panic message :: os => .panic message :: unwrapOutcomes os

end

/-- A value without the optionals in it, in one optional if it is not null. -/
def veiled (v : Value) : Value :=
  if v.isNull then .null else .optional (some v.unwrap)

theorem unwrapAll_eq_map : ∀ vs : List Value, unwrapAll vs = vs.map unwrap
  | [] => rfl
  | v :: vs => by rw [unwrapAll, unwrapAll_eq_map vs, List.map_cons]

end Value

def Outcome.unwrap : Outcome Value → Outcome Value
  | .value v => .value v.veiled
  | .failure message => .failure message
  | .panic message => .panic message

def Deferred.unwrap (d : Deferred Value) : Deferred Value :=
  ⟨d.id, d.outcomes.map Outcome.unwrap⟩

def Scopes.unwrap (s : Scopes) : Scopes :=
  ⟨s.stack.map Value.unwrap⟩

namespace Value

theorem unwrapOutcomes_eq_map : ∀ os, unwrapOutcomes os = os.map Outcome.unwrap
  | [] => rfl
  | .value _ :: os | .failure _ :: os | .panic _ :: os => by
    rw [unwrapOutcomes, unwrapOutcomes_eq_map os]
    rfl

@[simp] theorem unwrap_deferred (d : Deferred Value) :
    unwrap (.deferred d) = .deferred d.unwrap := by
  rw [unwrap, unwrapOutcomes_eq_map]
  rfl

/-! ## What a value looks like -/

/-- The optionals around a value do not count. -/
theorem unwrap_coerce : ∀ v : Value, v.coerce.unwrap = v.unwrap
  | .optional (some v) => by simpa only [coerce, unwrap] using unwrap_coerce v
  | .optional none => rfl
  | .null | .bool _ | .int _ | .float _ | .text _ | .list _ | .map _ | .record _ _ | .object _
  | .lambda _ | .deferred _ => rfl

/-- There are none left to look through. -/
theorem coerce_unwrap : ∀ v : Value, v.unwrap.coerce = v.unwrap
  | .optional (some v) => by simpa only [unwrap] using coerce_unwrap v
  | .optional none => rfl
  | .null | .bool _ | .int _ | .float _ | .text _ | .list _ | .map _ | .record _ _ | .object _
  | .lambda _ | .deferred _ => rfl

theorem coerce_veiled (v : Value) : v.veiled.coerce = v.coerce.unwrap := by
  rw [unwrap_coerce, veiled]
  cases v with
  | null => rfl
  | _ => exact coerce_unwrap _

theorem isNull_veiled (v : Value) : v.veiled.isNull = v.isNull := by
  cases v <;> rfl

theorem shape_unwrap : ∀ v : Value, v.unwrap.shape = v.shape
  | .optional (some v) => by simpa only [unwrap, shape] using shape_unwrap v
  | .optional none => rfl
  | .null | .bool _ | .int _ | .float _ | .text _ | .list _ | .map _ | .record _ _ | .object _
  | .lambda _ | .deferred _ => rfl

theorem isFalsey_unwrap : ∀ v : Value, v.unwrap.isFalsey = v.isFalsey
  | .optional (some v) => by simpa only [unwrap, isFalsey] using isFalsey_unwrap v
  | .list [] | .list (_ :: _) => rfl
  | .object ⟨_, _, _, _, some []⟩ | .object ⟨_, _, _, _, some (_ :: _)⟩ => rfl
  | .object ⟨_, _, _, _, none⟩ => rfl
  | .optional none | .null | .bool _ | .int _ | .float _ | .text _ | .map _ | .record _ _
  | .lambda _ | .deferred _ => rfl

/-- What is left when optionals are looked through is none. -/
theorem coerce_ne_optional : ∀ (v : Value) (content : Option Value), v.coerce ≠ .optional content
  | .optional (some v), content => by simpa only [coerce] using coerce_ne_optional v content
  | .optional none, _ => nofun
  | .null, _ | .bool _, _ | .int _, _ | .float _, _ | .text _, _ | .list _, _ | .map _, _
  | .record _ _, _ | .object _, _ | .lambda _, _ | .deferred _, _ => nofun

/-- A section over a value goes through the same elements, without their optionals. -/
theorem elements_unwrap (v : Value) :
    v.coerce.unwrap.elements = v.coerce.elements.map unwrap := by
  cases h : v.coerce with
  | optional content => exact absurd h (coerce_ne_optional v content)
  | list items => exact unwrapAll_eq_map items
  | object o =>
    obtain ⟨_, _, _, _, _ | items⟩ := o
    · rfl
    · exact unwrapAll_eq_map items
  | _ => rfl

mutual

theorem display_unwrap : ∀ v : Value, v.unwrap.display = v.display
  | .list items => by
    rw [unwrap, display, display, displayItems_unwrapAll]
  | .map entries => by
    rw [unwrap, display, display, displayEntries_unwrapEntries]
  | .record _ fields => by
    rw [unwrap, display, display, displayEntries_unwrapEntries]
  | .optional (some v) => by
    rw [unwrap, display, display_unwrap v]
  | .optional none => rfl
  | .null | .bool _ | .int _ | .float _ | .text _ | .object _ | .lambda _ | .deferred _ => rfl

theorem displayItems_unwrapAll : ∀ vs : List Value,
    displayItems (unwrapAll vs) = displayItems vs
  | [] => rfl
  | [v] => by
    rw [unwrapAll, unwrapAll, displayItems, displayItems, display_unwrap v]
  | v :: w :: vs => by
    have hmore := displayItems_unwrapAll (w :: vs)
    rw [unwrapAll] at hmore ⊢
    rw [unwrapAll, displayItems, displayItems, display_unwrap v, hmore]

theorem displayEntries_unwrapEntries : ∀ es : List (String × Value),
    displayEntries (unwrapEntries es) = displayEntries es
  | [] => rfl
  | [(k, v)] => by
    rw [unwrapEntries, unwrapEntries, displayEntries, displayEntries, display_unwrap v]
  | (k, v) :: (k', v') :: es => by
    have hmore := displayEntries_unwrapEntries ((k', v') :: es)
    rw [unwrapEntries] at hmore ⊢
    rw [unwrapEntries, displayEntries, displayEntries, display_unwrap v, hmore]

end

/-! ## Members -/

theorem get?_unwrapEntries (key : String) : ∀ es : List (String × Value),
    Table.get? key (unwrapEntries es) = (Table.get? key es).map unwrap
  | [] => rfl
  | (k, v) :: es => by
    rw [unwrapEntries, Table.get?, Table.get?, get?_unwrapEntries key es]
    split <;> rfl

theorem contains_unwrapEntries (key : String) (es : List (String × Value)) :
    Table.contains key (unwrapEntries es) = Table.contains key es := by
  rw [Table.contains, get?_unwrapEntries, Option.isSome_map, Table.contains]

end Value

namespace Accessor

/-- The same is read, without its optionals. -/
theorem read_unwrap (a : Accessor) (v : Value) :
    a.read v.unwrap = (a.read v.coerce).map Value.unwrap := by
  rw [← Value.unwrap_coerce]
  cases h : v.coerce with
  | optional content => exact absurd h (v.coerce_ne_optional content)
  | map entries | record _ fields =>
    cases a with
    | key k => exact Value.get?_unwrapEntries k _
    | member m => rfl
  | object o =>
    cases a with
    | key k => rfl
    | member m => exact Value.get?_unwrapEntries m o.members
  | deferred d =>
    rw [Value.unwrap_deferred]
    cases a <;> rfl
  | _ => cases a <;> rfl

theorem isPresent_unwrap (a : Accessor) (v : Value) : a.isPresent v.unwrap = a.isPresent v.coerce := by
  rw [← Value.unwrap_coerce]
  cases h : v.coerce with
  | optional content => exact absurd h (v.coerce_ne_optional content)
  | map entries | record _ fields =>
    cases a with
    | key k => exact Value.contains_unwrapEntries k _
    | member m => rfl
  | object o =>
    cases a with
    | key k => rfl
    | member m =>
      exact congrArg (· || o.phantoms.contains m) (Value.contains_unwrapEntries m o.members)
  | deferred d =>
    rw [Value.unwrap_deferred]
    cases a <;> rfl
  | _ => cases a <;> rfl

theorem candidates_unwrap (v : Value) (name : String) :
    candidates v.unwrap name = candidates v.coerce name := by
  rw [← Value.coerce_unwrap, candidates_coerce, candidates_coerce, Value.shape_unwrap]

theorem readAlong_unwrap (path : List Accessor) (v : Value) :
    readAlong path v.unwrap = (readAlong path v.coerce).map Value.unwrap := by
  induction path generalizing v with
  | nil => rw [readAlong, readAlong, Option.map_some, Value.unwrap_coerce]
  | cons a path ih =>
    rw [readAlong, readAlong, read_unwrap, Option.map_bind, Option.bind_map]
    refine Option.bind_congr fun w _ => ?_
    rw [Function.comp_apply, Function.comp_apply, Value.coerce_unwrap, ih]

end Accessor

/-! ## Names -/

namespace Lookup

theorem firstPresent_unwrap (v : Value) (index : Nat) (path : List Accessor) :
    ∀ as : List Accessor,
      firstPresent v.unwrap index path as = firstPresent v.coerce index path as
  | [] => rfl
  | a :: as => by
    rw [firstPresent, firstPresent, Accessor.isPresent_unwrap, firstPresent_unwrap v index path as]

theorem accessor_unwrap (v : Value) (name : String) (index : Nat) (path : List Accessor) :
    accessor v.unwrap name index path = accessor v.coerce name index path := by
  rw [accessor, accessor, Accessor.candidates_unwrap, firstPresent_unwrap]

/-- What is read for a segment is the same for the segments after it. -/
theorem next_unwrap (a : Accessor) (v : Value) :
    ((a.read v.unwrap).map Value.coerce).getD .null =
      (((a.read v.coerce).map Value.coerce).getD .null).unwrap := by
  rw [Accessor.read_unwrap]
  cases a.read v.coerce with
  | none => rfl
  | some w => exact (Value.coerce_unwrap w).trans (Value.unwrap_coerce w).symm

theorem extendPath_unwrap (index : Nat) (names : List String) :
    ∀ (path : List Accessor) (v : Value),
      extendPath index path v.unwrap names = extendPath index path v.coerce names := by
  induction names with
  | nil => exact fun _ _ => rfl
  | cons name names ih =>
    intro path v
    simp only [extendPath, Value.shape_unwrap, Value.shape_coerce, accessor_unwrap]
    rcases accessor v.coerce name index path with ⟨guards, _ | a⟩
    · rfl
    · simp only [next_unwrap, ih, coerce_getD_map_coerce]

theorem search_unwrap (first : String) (rest : List String) :
    ∀ stack : List Value, search first rest (stack.map Value.unwrap) = search first rest stack
  | [] => rfl
  | slot :: outer => by
    simp only [List.map_cons, search, List.length_map, Value.coerce_unwrap, Value.shape_unwrap,
      Value.shape_coerce, accessor_unwrap, search_unwrap first rest outer]
    rcases accessor slot.coerce first outer.length [] with ⟨guards, _ | a⟩
    · rfl
    · simp only [next_unwrap, extendPath_unwrap, coerce_getD_map_coerce]

/-- A name is decided in the same way, on the same facts. -/
theorem find_unwrap (name : String) (s : Scopes) : find name s.unwrap = find name s := by
  have hsize : s.unwrap.size = s.size := List.length_map ..
  have hempty : s.unwrap.isEmpty = s.isEmpty := List.isEmpty_map ..
  simp only [find, hsize, hempty]
  rw [show s.unwrap.stack = s.stack.map Value.unwrap from rfl, search_unwrap]

end Lookup

/-- A decision leads to the same value, without its optionals. -/
theorem Wrapper.call_unwrap (w : Wrapper) (s : Scopes) : w.call s.unwrap = (w.call s).unwrap := by
  have hwalk : ∀ t : Target, s.unwrap.walk t.index t.path =
      (s.walk t.index t.path).map Value.unwrap := by
    intro t
    have hget : s.unwrap.get? t.index = (s.get? t.index).map Value.unwrap := by
      simp only [Scopes.get?, Scopes.toList, Scopes.unwrap, ← List.map_reverse, List.getElem?_map]
    rw [Scopes.walk, Scopes.walk, hget, Option.bind_map, Option.map_bind]
    refine Option.bind_congr fun v _ => ?_
    rw [Function.comp_apply, Function.comp_apply, Value.coerce_unwrap, Accessor.readAlong_unwrap]
  rw [Wrapper.call, Wrapper.call]
  cases w.target with
  | none => rfl
  | some t =>
    simp only [hwalk]
    cases s.walk t.index t.path <;> rfl

end Mustache
