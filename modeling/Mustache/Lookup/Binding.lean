import Mustache.Lookup.Find

/-! # Bindings

What a tag remembers about the lookups of its name: the decisions made so far, up to a bound.  A
decision is used again when its facts are true of the stack at hand; otherwise a new one is made.
-/

namespace Mustache.Lookup

/-- How many decisions are remembered for one tag. -/
def capacity : Nat := 32

/-- What a lookup comes to. -/
structure Hit where
  value : Value
  isMissing : Bool

def Hit.ofWrapper (w : Wrapper) (s : Scopes) : Hit :=
  ⟨w.call s, w.isMissing⟩

/-- The remembered decisions and a new one, unless there is one on the same facts or there are
    too many. -/
def remember (w : Wrapper) (cached : List Wrapper) : List Wrapper :=
  if cached.any (fun v => v.guards = w.guards) then cached
  else if capacity ≤ cached.length then cached
  else cached ++ [w]

/-- A lookup that uses what is remembered first, and what is remembered after it.  `decide`
    makes new decisions. -/
def lookup (decide : Scopes → Wrapper) (cached : List Wrapper) (s : Scopes) :
    Hit × List Wrapper :=
  match cached.find? (·.isValid s) with
  | some w => (.ofWrapper w s, cached)
  | none =>
    -- A full memory still answers; the decision is only not kept.
    let w := decide s
    (.ofWrapper w s, remember w cached)

end Mustache.Lookup
