import Mustache.Decimal.Notation
import Mustache.Text.Quoted
import Mustache.Value

/-! # The texts of values

* `Value.display` — the text a value stands for in a render.
* `Value.inspect` — the text that shows a value in diagnostics.
-/

namespace Mustache.Value

def boolWord (b : Bool) : String :=
  if b then "true" else "false"

/-! ## In a render -/

mutual

/-- The text a value stands for in a render.  Null and an empty optional stand for nothing. -/
def display : Value → String
  | .null => ""
  | .bool b => boolWord b
  | .int n => Int.repr n.toInt
  | .float x => Decimal.plain.write x
  | .text s => s
  | .list items => "[" ++ displayItems items ++ "]"
  | .map entries => "\x7b" ++ displayEntries entries ++ "\x7d"
  | .record type fields => type ++ "\x7b" ++ displayEntries fields ++ "\x7d"
  | .object o => "<" ++ o.type ++ ">"
  | .optional (some v) => v.display
  | .optional none => ""
  | .lambda _ => "<lambda>"
  | .deferred _ => "<deferred>"

def displayItems : List Value → String
  | [] => ""
  | [v] => v.display
  | v :: w :: vs => v.display ++ ", " ++ displayItems (w :: vs)

def displayEntries : List (String × Value) → String
  | [] => ""
  | [(k, v)] => k ++ "=" ++ v.display
  | (k, v) :: e :: es => k ++ "=" ++ v.display ++ ", " ++ displayEntries (e :: es)

end

/-! ## In diagnostics -/

def lambdaWord : Lambda.Kind → String
  | .text => "Text"
  | .template => "Template"

mutual

/-- The text that shows a value in diagnostics. -/
def inspect : Value → String
  | .null => "null"
  | .bool b => boolWord b
  | .int n => Int.repr n.toInt
  | .float x => Decimal.exact.write x
  | .text s => Text.quoted s
  | .list items => "[" ++ inspectItems items ++ "]"
  | .map entries => "\x7b" ++ inspectEntries entries ++ "\x7d"
  | .record type [] => type
  | .record type (f :: fs) => type ++ " \x7b " ++ inspectFields (f :: fs) ++ " \x7d"
  | .object o => "Object(" ++ o.type ++ ")"
  | .optional (some v) => "Some(" ++ v.inspect ++ ")"
  | .optional none => "None"
  | .lambda f => "Lambda(" ++ lambdaWord f.kind ++ ")"
  | .deferred _ => "Deferred"

def inspectItems : List Value → String
  | [] => ""
  | [v] => v.inspect
  | v :: w :: vs => v.inspect ++ ", " ++ inspectItems (w :: vs)

def inspectEntries : List (String × Value) → String
  | [] => ""
  | [(k, v)] => Text.quoted k ++ ": " ++ v.inspect
  | (k, v) :: e :: es => Text.quoted k ++ ": " ++ v.inspect ++ ", " ++ inspectEntries (e :: es)

def inspectFields : List (String × Value) → String
  | [] => ""
  | [(k, v)] => k ++ ": " ++ v.inspect
  | (k, v) :: e :: es => k ++ ": " ++ v.inspect ++ ", " ++ inspectFields (e :: es)

end

end Mustache.Value
