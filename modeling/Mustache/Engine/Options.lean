import Mustache.Code.Parser
import Mustache.Handler

/-! # Options

How an engine compiles and renders.
-/

namespace Mustache

/-! ## Schedules -/

/-- When submitted jobs run: at once, inside the submission, or later, from a queue that is
    emptied after the render. -/
structure Schedule where
  /-- Whether the job with a number runs at once. -/
  atOnce : Nat → Bool
  /-- Which job is taken from the queue, counted from the oldest, given how many have been taken
      before and how many wait; the number counts round the queue. -/
  next : Nat → Nat → Nat

namespace Schedule

def immediate : Schedule :=
  ⟨fun _ => true, fun _ _ => 0⟩

def oldestFirst : Schedule :=
  ⟨fun _ => false, fun _ _ => 0⟩

def newestFirst : Schedule :=
  ⟨fun _ => false, fun _ n => n - 1⟩

/-- The places of a list say which job runs next, over and over. -/
def picking (places : List Nat) : Schedule :=
  ⟨fun _ => false, fun k _ => (places[k % places.length]?).getD 0⟩

end Schedule

/-! ## Options -/

/-- How an engine compiles and renders. -/
structure Options where
  handler : Handler
  /-- When deferred computations run; without a schedule they run where they are met. -/
  schedule : Option Schedule
  /-- Whether unknown templates and unmatched replacement blocks are errors. -/
  strict : Bool
  /-- Whether it is an error if no scope has the name of a value or a section. -/
  failOnMiss : Bool
  /-- How many inclusions may stand inside one another. -/
  recursionLimit : Nat
  /-- How many trees each cache holds, if there is a limit. -/
  cacheLimit : Option Nat
  /-- What pragmas are turned into, by their names. -/
  pragmas : Table String PragmaHandler
  /-- Which tree leaves a full cache, by the number of trees that have left a cache before; the
      place counts from the oldest tree, round the cache. -/
  victim : Nat → Nat

namespace Options

def standard : Options where
  handler := .standard
  schedule := none
  strict := false
  failOnMiss := false
  recursionLimit := 100
  cacheLimit := none
  pragmas := []
  victim := fun _ => 0

def inspect (o : Options) : String :=
  let names := (Table.keys o.pragmas).mergeSort (fun a b => a ≤ b)
  "Options \x7b executor: " ++ Value.boolWord o.schedule.isSome ++
    ", strict: " ++ Value.boolWord o.strict ++
    ", fail_on_miss: " ++ Value.boolWord o.failOnMiss ++
    ", recursion_limit: " ++ Nat.repr o.recursionLimit ++
    ", cache_limit: " ++ (match o.cacheLimit with
      | some n => "Some(" ++ Nat.repr n ++ ")"
      | none => "None") ++
    ", pragmas: [" ++ commaSeparated (names.map Text.quoted) ++ "] \x7d"

end Options

end Mustache
