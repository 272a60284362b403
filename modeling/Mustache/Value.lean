import Mustache.Decimal.Double
import Mustache.Table

/-! # Values

The data that templates are rendered against: plain data, records and host objects, optionals,
and two kinds of value that have to be run, lambdas and deferred computations.

Host objects, lambdas and deferred computations are told apart by an identity, as two of them may
look alike and yet be different ones.
-/

namespace Mustache

/-! ## The parts of values -/

/-- What one run of a deferred computation comes to. -/
inductive Outcome (α : Type)
  | value (v : α)
  | failure (message : String)
  /-- An abrupt end of the computation. -/
  | panic (message : String)

instance {α : Type} : Inhabited (Outcome α) := ⟨.failure ""⟩

/-- A computation whose value is spliced into the output when it is there.  Its runs come to the
    outcomes in order; the last one stands for all later runs. -/
structure Deferred (α : Type) where
  id : Nat
  outcomes : List (Outcome α)

/-- The outcome of the run with a number, counted from zero. -/
def Deferred.outcome {α : Type} (d : Deferred α) (run : Nat) : Outcome α :=
  match d.outcomes[run]? with
  | some o => o
  | none => d.outcomes.getLast?.getD (.failure "")

/-- What becomes of the text that a lambda returns. -/
inductive Lambda.Kind
  /-- It stands in the output; the lambda is given a rendered body. -/
  | text
  /-- It is compiled and rendered; the lambda is given the text of a body. -/
  | template
deriving DecidableEq

/-- A function on text among the data. -/
structure Lambda where
  id : Nat
  kind : Lambda.Kind
  apply : String → String

/-- An object of the host program, as far as templates can see it. -/
structure HostObject (α : Type) where
  id : Nat
  type : String
  /-- The members that can be read; the first of a name counts. -/
  members : List (String × α)
  /-- The members that it says it has, but that read as nothing. -/
  phantoms : List String
  items : Option (List α)

namespace HostObject

variable {α : Type}

def get? (o : HostObject α) (member : String) : Option α :=
  Table.get? member o.members

def hasMember (o : HostObject α) (member : String) : Bool :=
  (o.get? member).isSome || o.phantoms.contains member

end HostObject

/-! ## Values -/

inductive Value
  | null
  | bool (b : Bool)
  | int (n : Int64)
  | float (x : Double)
  | text (s : String)
  | list (items : List Value)
  /-- Values under different keys, in order. -/
  | map (entries : List (String × Value))
  /-- Values under different field names, in order, with the name of a type. -/
  | record (type : String) (fields : List (String × Value))
  | object (o : HostObject Value)
  /-- A value that may be absent; it is looked through wherever it is used. -/
  | optional (content : Option Value)
  | lambda (f : Lambda)
  | deferred (d : Deferred Value)

namespace Value

instance : Inhabited Value := ⟨.null⟩

/-- A value without the optionals around it; an empty one is null. -/
def coerce : Value → Value
  | .optional (some v) => v.coerce
  | .optional none => .null
  | v => v

def isNull : Value → Bool
  | .null => true
  | _ => false

/-- Whether a value has to be run. -/
def isCallable : Value → Bool
  | .lambda _ => true
  | .deferred _ => true
  | _ => false

def typeName : Value → String
  | .null => "null"
  | .bool _ => "bool"
  | .int _ => "int"
  | .float _ => "float"
  | .text _ => "string"
  | .list _ => "list"
  | .map _ => "map"
  | .record type _ => type
  | .object o => o.type
  | .optional _ => "optional"
  | .lambda _ => "lambda"
  | .deferred _ => "deferred"

def asBool? : Value → Option Bool
  | .bool b => some b
  | _ => none

def asInt? : Value → Option Int64
  | .int n => some n
  | _ => none

def asText? : Value → Option String
  | .text s => some s
  | _ => none

def asList? : Value → Option (List Value)
  | .list items => some items
  | _ => none

/-- The value under a key of a map or a field name of a record. -/
def get? (v : Value) (key : String) : Option Value :=
  match v with
  | .map entries => Table.get? key entries
  | .record _ fields => Table.get? key fields
  | _ => none

/-! ## Truth and iteration -/

/-- Whether a section over a value is passed over: null, false, and empty text, lists and
    collections. -/
def isFalsey : Value → Bool
  | .null => true
  | .bool b => !b
  | .text s => s.isEmpty
  | .list items => items.isEmpty
  | .object o =>
    match o.items with
    | some items => items.isEmpty
    | none => false
  | .optional (some v) => v.isFalsey
  | .optional none => true
  | _ => false

/-- What a section over a value goes through: the elements of a list or a collection, or the
    value itself. -/
def elements : Value → List Value
  | .list items => items
  | .object o => o.items.getD [.object o]
  | .optional (some v) => v.elements
  | .optional none => []
  | v => [v]

end Value

/-! ## Shapes -/

/-- What kind of value a value is, with the names of record and object types. -/
inductive Shape
  | null
  | bool
  | int
  | float
  | text
  | list
  | map
  | record (type : String)
  | object (type : String)
  | lambda
  | deferred
deriving DecidableEq

/-- The shape of a value, looking through optionals. -/
def Value.shape : Value → Shape
  | .null => .null
  | .bool _ => .bool
  | .int _ => .int
  | .float _ => .float
  | .text _ => .text
  | .list _ => .list
  | .map _ => .map
  | .record type _ => .record type
  | .object o => .object o.type
  | .optional (some v) => v.shape
  | .optional none => .null
  | .lambda _ => .lambda
  | .deferred _ => .deferred

end Mustache
