import Mustache.Value

/-! # Equality of values

Lists agree in order and length; maps and records agree when they have the same keys with equal
values, in whatever order; numbers follow floating-point equality; host objects, lambdas and
deferred computations are equal to themselves alone.
-/

namespace Mustache.Value

mutual

def eq : Value → Value → Bool
  | .null, .null => true
  | .bool a, .bool b => a == b
  | .int a, .int b => a == b
  | .float a, .float b => a.eq b
  | .text a, .text b => a == b
  | .list as, .list bs => eqItems as bs
  -- Keys are different within a map, so equal lengths leave no key over.
  | .map as, .map bs => as.length == bs.length && eqEntries as bs
  | .record t as, .record u bs => t == u && as.length == bs.length && eqEntries as bs
  | .optional none, .optional none => true
  | .optional (some a), .optional (some b) => eq a b
  | .object a, .object b => a.id == b.id
  | .lambda f, .lambda g => f.id == g.id
  | .deferred d, .deferred e => d.id == e.id
  | _, _ => false

def eqItems : List Value → List Value → Bool
  | [], [] => true
  | a :: as, b :: bs => eq a b && eqItems as bs
  | _, _ => false

/-- Whether every entry has its key with an equal value among other entries. -/
def eqEntries : List (String × Value) → List (String × Value) → Bool
  | [], _ => true
  | (k, a) :: as, bs =>
    (match Table.get? k bs with
      | some b => eq a b
      | none => false) && eqEntries as bs

end

end Mustache.Value
