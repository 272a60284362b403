import Mustache.Value

/-! # Scopes

The stack of values that names are looked up in.  Sections and inclusions put values on top; the
top is the innermost scope and is searched first.  Scopes are numbered from the outermost.
-/

namespace Mustache

structure Scopes where
  /-- The scopes, innermost first. -/
  stack : List Value

namespace Scopes

/-- The stack with the scopes of a list, outermost first. -/
def ofList (values : List Value) : Scopes :=
  ⟨values.reverse⟩

def toList (s : Scopes) : List Value :=
  s.stack.reverse

def size (s : Scopes) : Nat :=
  s.stack.length

def isEmpty (s : Scopes) : Bool :=
  s.stack.isEmpty

/-- The stack with one more scope on top. -/
def push (v : Value) (s : Scopes) : Scopes :=
  ⟨v :: s.stack⟩

def pop (s : Scopes) : Option Value × Scopes :=
  (s.stack.head?, ⟨s.stack.tail⟩)

def top? (s : Scopes) : Option Value :=
  s.stack.head?

/-- The scope with a number, counted from the outermost. -/
def get? (s : Scopes) (i : Nat) : Option Value :=
  s.toList[i]?

@[simp] theorem toList_ofList (values : List Value) : (ofList values).toList = values :=
  List.reverse_reverse values

@[simp] theorem toList_push (v : Value) (s : Scopes) : (s.push v).toList = s.toList ++ [v] :=
  List.reverse_cons

@[simp] theorem size_push (v : Value) (s : Scopes) : (s.push v).size = s.size + 1 := rfl

@[simp] theorem pop_push (v : Value) (s : Scopes) : (s.push v).pop = (some v, s) := rfl

end Scopes

end Mustache
