import Mustache.Proofs.Lookup.Guards

/-! # Decisions and direct lookups

A decision about a name says where to read, and reading there comes to the value that the name has
when it is looked up straight away.

* `Lookup.member?_eq` — a member is what the first accessor reads that a value has.
* `Lookup.call_search`, `Lookup.call_find` — a decision leads to the value of the name.
* `Lookup.find_resolves` — the two searches agree, wherever a decision is valid.
-/

namespace Mustache.Lookup

open Accessor (readAlong)

/-! ## Members -/

theorem snd_firstPresent (v : Value) (index : Nat) (path : List Accessor) (as : List Accessor) :
    (firstPresent v index path as).2 = as.find? (·.isPresent v) := by
  induction as with
  | nil => rfl
  | cons a as ih =>
    by_cases ha : a.isPresent v = true
    · simp [firstPresent, ha]
    · simp [firstPresent, ha, ih]

/-- The first answer of a list of questions is the answer to the first question that has one. -/
theorem findSome?_eq {α β : Type} [Inhabited β] (f : α → Option β) (as : List α) :
    as.findSome? f = (as.find? fun a => (f a).isSome).map fun a => (f a).getD default := by
  induction as with
  | nil => rfl
  | cons a as ih =>
    cases h : f a with
    | none => simp [h, ih]
    | some b => simp [h]

/-- A member is what is read by the first accessor that a value has; null if nothing is. -/
theorem member?_eq (v : Value) (name : String) (index : Nat) (path : List Accessor) :
    member? v name = (accessor v name index path).2.map fun a => (a.read v).getD .null := by
  rw [accessor, snd_firstPresent]
  by_cases hname : name.isEmpty = true
  · simp [member?, Accessor.candidates, hname]
  · cases v with
    | map entries =>
      cases hget : Table.get? name entries <;>
        simp [member?, Accessor.candidates, hname, Accessor.isPresent, Accessor.read,
          Table.contains, hget]
    | record type fields =>
      simp only [member?, Accessor.candidates, hname, Bool.false_eq_true, if_false,
        findSome?_eq, List.find?_map, Option.map_map]
      rfl
    | object o =>
      simp only [member?, Accessor.candidates, hname, Bool.false_eq_true, if_false,
        List.find?_map, Option.map_map]
      rfl
    | _ => simp [member?, Accessor.candidates, hname]

/-- What comes after a step of a path is what is read there, without the optionals around it. -/
theorem coerce_getD (w : Option Value) :
    (w.map Value.coerce).getD .null = (w.getD .null).coerce := by
  cases w <;> rfl

/-- Optionals around a value do not count on the way along its members. -/
theorem memberAlong_coerce (v : Value) (names : List String) :
    memberAlong v.coerce names = memberAlong v names := by
  cases names <;> simp only [memberAlong, Value.coerce_coerce]

/-! ## Paths -/

/-- What cannot be read is null, and so is all that is read from it. -/
theorem readAlong_cons (a : Accessor) (path : List Accessor) (v : Value) :
    (readAlong (a :: path) v).getD .null =
      (readAlong path ((a.read v).getD .null).coerce).getD .null := by
  rw [Accessor.readAlong]
  cases a.read v with
  | some w => rfl
  | none =>
    cases path with
    | nil => rfl
    | cons b path => cases b <;> rfl

/-- What is read along the path that further segments make is the member they lead to, and if they
    make none there is no such member. -/
theorem extendPath_memberAlong (index : Nat) (names : List String) :
    ∀ (path : List Accessor) (v : Value), v.coerce = v →
      ((extendPath index path v names).2 = none → memberAlong v names = .null) ∧
        ∀ p, (extendPath index path v names).2 = some p →
          ∃ more, p = path ++ more ∧ (readAlong more v).getD .null = memberAlong v names := by
  induction names with
  | nil =>
    intro path v hv
    refine ⟨nofun, fun p hp => ⟨[], ?_, ?_⟩⟩
    · rw [List.append_nil, ← Option.some.inj hp]
    · simp [Accessor.readAlong, memberAlong, hv]
  | cons name names ih =>
    intro path v hv
    have hmember := member?_eq v name index path
    simp only [extendPath, memberAlong, hv]
    rcases haccessor : accessor v name index path with ⟨guards, _ | a⟩
    · rw [haccessor, Option.map_none] at hmember
      simp [hmember]
    · rw [haccessor, Option.map_some] at hmember
      obtain ⟨hnone, hsome⟩ := ih (path ++ [a]) (((a.read v).getD .null).coerce)
        (Value.coerce_coerce _)
      rw [memberAlong_coerce] at hnone hsome
      simp only [hmember, coerce_getD]
      refine ⟨hnone, fun p hp => ?_⟩
      obtain ⟨more, rfl, hread⟩ := hsome p hp
      refine ⟨a :: more, by simp, ?_⟩
      rw [readAlong_cons, hread]

/-! ## Stacks -/

theorem call_search {s : Scopes} (first : String) (rest : List String) (guards : List Guard) :
    ∀ inner stack : List Value, s.stack = inner ++ stack →
      Wrapper.call ⟨guards, (search first rest stack).2⟩ s = resolveIn first rest stack
  | _, [], _ => rfl
  | inner, slot :: outer, hs => by
    have ih := call_search first rest guards (inner ++ [slot]) outer (by simpa using hs)
    have hmember := member?_eq slot.coerce first outer.length []
    simp only [search, resolveIn]
    rcases haccessor : accessor slot.coerce first outer.length [] with ⟨tried, _ | a⟩
    · rw [haccessor, Option.map_none] at hmember
      simpa only [hmember] using ih
    · rw [haccessor, Option.map_some] at hmember
      obtain ⟨hnone, hsome⟩ := extendPath_memberAlong outer.length rest [a]
        (((a.read slot.coerce).getD .null).coerce) (Value.coerce_coerce _)
      rw [memberAlong_coerce] at hnone hsome
      simp only [hmember, coerce_getD]
      cases hpath : (extendPath outer.length [a]
          (((a.read slot.coerce).getD .null).coerce) rest).2 with
      | none => exact (hnone hpath).symm
      | some p =>
        obtain ⟨more, rfl, hread⟩ := hsome p hpath
        simp only [Wrapper.call, Option.map_some, Scopes.walk, get?_of_stack hs, Option.bind_some,
          List.singleton_append, readAlong_cons, hread]

/-- A decision about a name leads to the value of the name. -/
theorem call_find (name : String) (s : Scopes) : (find name s).call s = resolve name s := by
  by_cases hdot : name = "."
  · simp only [find, resolve, hdot, if_true]
    cases hs : s.stack with
    | nil => simp [Scopes.isEmpty, Scopes.top?, hs, Wrapper.call]
    | cons v outer =>
      have hget : s.get? outer.length = some v := @get?_of_stack s [] outer v hs
      simp [Scopes.isEmpty, Scopes.top?, Scopes.size, hs, Wrapper.call, Scopes.walk, hget,
        Accessor.readAlong]
  · simp only [find, resolve, hdot, if_false]
    exact call_search _ _ _ [] s.stack rfl

/-- **Both searches agree.**  Reading where a decision says comes to what the name is when it is
    looked up straight away, and a name that the decision does not find is null.  The same holds on
    any other stack where the decision is valid. -/
theorem find_resolves (name : String) (s : Scopes) :
    (find name s).call s = resolve name s ∧
    ((find name s).isMissing → resolve name s = .null) ∧
    ∀ t, (find name s).isValid t → (find name s).call t = resolve name t := by
  refine ⟨call_find name s, fun hmissing => ?_, fun t hvalid => ?_⟩
  · have htarget : (find name s).target = none := Option.isNone_iff_eq_none.mp hmissing
    rw [← call_find, Wrapper.call, htarget]
  · rw [← find_eq_of_isValid hvalid]
    exact call_find name t

/-- The inner scope has the first segment, under an accessor's name, and lacks the second, so the
    scope further out does not count; nor does it on another stack of these shapes. -/
theorem find_resolves_shadowed :
    let user (member : String) : Value :=
      .record "User" [("getA", .optional (some (.map [(member, .bool true)])))]
    let s := Scopes.ofList [.map [("a", .map [("b", .text "outer")])], user "c"]
    let t := Scopes.ofList [.map [("a", .map [("b", .text "other")])], user "d"]
    ((find "a.b" s).isMissing ∧ (find "a.b" s).isValid t) ∧
      (find "a.b" s).call s = resolve "a.b" s ∧ resolve "a.b" s = .null ∧
      (find "a.b" s).call t = resolve "a.b" t := by
  intro user s t
  have hmissing : (find "a.b" s).isMissing := by decide +kernel
  have hvalid : (find "a.b" s).isValid t := by decide +kernel
  obtain ⟨hcall, hnull, hothers⟩ := find_resolves "a.b" s
  exact ⟨⟨hmissing, hvalid⟩, hcall, hnull hmissing, hothers t hvalid⟩

end Mustache.Lookup
