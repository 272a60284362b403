import Mustache.Lookup.Accessor

/-! # Guards and wrappers

A lookup comes to a decision: read along this path from that scope, or there is no such name.  A
`Wrapper` keeps the decision together with the `Guard`s it rests on, so that it can be used again
for any stack of scopes on which all of them pass.
-/

namespace Mustache

/-- A fact about a stack of scopes. -/
inductive Guard
  | depth (n : Nat)
  | slot (index : Nat) (shape : Shape)
  /-- What is read along a path has a member, or does not have it. -/
  | member (index : Nat) (path : List Accessor) (accessor : Accessor) (isPresent : Bool)
  /-- What is read along a path has a shape. -/
  | dot (index : Nat) (path : List Accessor) (shape : Shape)
deriving DecidableEq

def Guard.check (g : Guard) (s : Scopes) : Bool :=
  match g with
  | .depth n => s.size = n
  | .slot index shape =>
    match s.get? index with
    | some v => v.shape = shape
    | none => false
  | .member index path accessor isPresent =>
    match s.walk index path with
    | some v => accessor.isPresent v = isPresent
    | none => false
  | .dot index path shape => ((s.walk index path).map Value.shape).getD .null = shape

structure Target where
  /-- The number of the scope, counted from the outermost. -/
  index : Nat
  path : List Accessor
deriving DecidableEq

/-- A decision about a name, and the facts it rests on. -/
structure Wrapper where
  guards : List Guard
  target : Option Target
deriving DecidableEq

namespace Wrapper

def isMissing (w : Wrapper) : Bool :=
  w.target.isNone

def isValid (w : Wrapper) (s : Scopes) : Bool :=
  w.guards.all (·.check s)

/-- The value that the decision leads to on a stack; null if there is no such name. -/
def call (w : Wrapper) (s : Scopes) : Value :=
  match w.target with
  | some t => (s.walk t.index t.path).getD .null
  | none => .null

end Wrapper

end Mustache
