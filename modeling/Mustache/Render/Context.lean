import Mustache.Engine.Options

/-! # Render contexts

What a render knows about where it is: how many inclusions it stands in, and whether deferred
computations have to run where they are met because somebody waits for the text.
-/

namespace Mustache

structure Context where
  depth : Nat
  /-- Whether deferred computations run where they are met, whatever the schedule. -/
  isInline : Bool
deriving DecidableEq

namespace Context

def start : Context :=
  ⟨0, false⟩

/-- The same place, with deferred computations running where they are met. -/
def inline (c : Context) : Context :=
  { c with isInline := true }

/-- The schedule of deferred computations, if there is one here. -/
def schedule? (c : Context) (o : Options) : Option Schedule :=
  if c.isInline then none else o.schedule

/-- The inside of an inclusion that stands here, unless there are too many already. -/
def enter (c : Context) (o : Options) (name file : String) (line : Nat) :
    Except RenderError Context :=
  if o.recursionLimit ≤ c.depth then .error (.recursionLimit name o.recursionLimit file line)
  else .ok { c with depth := c.depth + 1 }

def inspect (c : Context) : String :=
  "RenderContext \x7b depth: " ++ Nat.repr c.depth ++ ", inline: " ++ Value.boolWord c.isInline ++
    " \x7d"

end Context

end Mustache
