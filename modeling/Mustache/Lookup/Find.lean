import Mustache.Lookup.Wrapper
import Mustache.Text.Search

/-! # Looking names up

Scopes are searched from the innermost out for the first segment of a dotted name; the other
segments are read from what was found, and from nowhere else.

* `Lookup.find` — the decision about a name on a stack, with the facts it rests on.
* `Lookup.resolve` — the value of a name on a stack, straight away.
-/

namespace Mustache.Lookup

/-- The segments of a dotted name: the first one, and the others. -/
def segments (name : String) : String × List String :=
  match (Text.splitAtChar '.' name.toList).map String.ofList with
  | first :: rest => (first, rest)
  | [] => (name, [])

/-! ## Decisions -/

/-- The first accessor that a value has, with a fact about every one that was tried. -/
def firstPresent (v : Value) (index : Nat) (path : List Accessor) :
    List Accessor → List Guard × Option Accessor
  | [] => ([], none)
  | a :: as =>
    let isPresent := a.isPresent v
    let guard := Guard.member index path a isPresent
    if isPresent then ([guard], some a)
    else
      let (guards, found) := firstPresent v index path as
      (guard :: guards, found)

/-- The accessor of a name on the value at the end of a path. -/
def accessor (v : Value) (name : String) (index : Nat) (path : List Accessor) :
    List Guard × Option Accessor :=
  firstPresent v index path (Accessor.candidates v name)

/-- The path that goes on from the value `v` at the end of `path` through more segments. -/
def extendPath (index : Nat) (path : List Accessor) (v : Value) :
    List String → List Guard × Option (List Accessor)
  | [] => ([], some path)
  | name :: names =>
    let dot := Guard.dot index path v.shape
    match accessor v name index path with
    | (guards, none) => (dot :: guards, none)
    | (guards, some a) =>
      let next := ((a.read v).map Value.coerce).getD .null
      let (more, found) := extendPath index (path ++ [a]) next names
      (dot :: (guards ++ more), found)

/-- The decision about a name on the scopes of a list, innermost first. -/
def search (first : String) (rest : List String) :
    List Value → List Guard × Option Target
  | [] => ([], none)
  | slot :: outer =>
    let index := outer.length
    let v := slot.coerce
    let shape := Guard.slot index v.shape
    match accessor v first index [] with
    | (guards, none) =>
      let (more, found) := search first rest outer
      (shape :: (guards ++ more), found)
    | (guards, some a) =>
      let next := ((a.read v).map Value.coerce).getD .null
      -- The first segment is here, so the scopes further out do not count any more.
      let (more, path) := extendPath index [a] next rest
      (shape :: (guards ++ more), path.map fun p => ⟨index, p⟩)

/-- The decision about a name on a stack.  A lone dot is the innermost scope itself. -/
def find (name : String) (s : Scopes) : Wrapper :=
  let depth := Guard.depth s.size
  if name = "." then
    ⟨[depth], if s.isEmpty then none else some ⟨s.size - 1, []⟩⟩
  else
    let (first, rest) := segments name
    let (guards, target) := search first rest s.stack
    ⟨depth :: guards, target⟩

/-! ## Values -/

/-- The member of a value under a name, with the same names tried in the same order. -/
def member? (v : Value) (name : String) : Option Value :=
  if name.isEmpty then none
  else
    match v with
    | .map entries => Table.get? name entries
    | .record _ fields => (Accessor.names name).findSome? fun n => Table.get? n fields
    | .object o =>
      ((Accessor.names name).find? o.hasMember).map fun n => (o.get? n).getD .null
    | _ => none

/-- The value at the end of a chain of members; null as soon as one is missing. -/
def memberAlong (v : Value) : List String → Value
  | [] => v.coerce
  | name :: names =>
    match member? v.coerce name with
    | some w => memberAlong w names
    | none => .null

/-- The value of a name on the scopes of a list, innermost first. -/
def resolveIn (first : String) (rest : List String) : List Value → Value
  | [] => .null
  | slot :: outer =>
    match member? slot.coerce first with
    | some v => memberAlong v rest
    | none => resolveIn first rest outer

/-- The value of a name on a stack. -/
def resolve (name : String) (s : Scopes) : Value :=
  if name = "." then (s.top?.map Value.coerce).getD .null
  else
    let (first, rest) := segments name
    resolveIn first rest s.stack

end Mustache.Lookup
