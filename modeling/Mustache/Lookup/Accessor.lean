import Mustache.Scopes
import Mustache.Text.Capital

/-! # Accessors

One step of reading a member, and the names a member may go by.  A map has the name itself; a
record or an object may also have it after `get` or `is`, with a capital.
-/

namespace Mustache

/-- One step of reading a member. -/
inductive Accessor
  /-- What a map has under a key, or a record in a field. -/
  | key (name : String)
  | member (name : String)
deriving DecidableEq

namespace Accessor

def read : Accessor → Value → Option Value
  | .key k, .map entries => Table.get? k entries
  | .key k, .record _ fields => Table.get? k fields
  | .member m, .object o => o.get? m
  | _, _ => none

def isPresent : Accessor → Value → Bool
  | .key k, .map entries => Table.contains k entries
  | .key k, .record _ fields => Table.contains k fields
  | .member m, .object o => o.hasMember m
  | _, _ => false

/-- The names that a member may go by, in the order they are tried. -/
def names (name : String) : List String :=
  let capitalized := String.ofList (Text.capitalize name.toList)
  [name, "get" ++ capitalized, "is" ++ capitalized]

/-- The accessors that are tried on a value for a name, in order.  The empty name has none. -/
def candidates (v : Value) (name : String) : List Accessor :=
  if name.isEmpty then []
  else
    match v with
    | .map _ => [.key name]
    | .record _ _ => (names name).map .key
    | .object _ => (names name).map .member
    | _ => []

/-- What is read along a path, looking through optionals at every step. -/
def readAlong : List Accessor → Value → Option Value
  | [], v => some v
  | a :: path, v => (a.read v).bind fun w => readAlong path w.coerce

end Accessor

/-- What is read along a path from the scope with a number. -/
def Scopes.walk (s : Scopes) (index : Nat) (path : List Accessor) : Option Value :=
  (s.get? index).bind fun v => Accessor.readAlong path v.coerce

end Mustache
