import Mustache.Engine.Store
import Mustache.Output.Streams
import Mustache.Render.Context

/-! # The world of a render

What a render changes while it goes on: the engine's store, its streams, how often each deferred
computation has run, and the jobs that wait.  An action on the world keeps its changes when it
fails.
-/

namespace Mustache

/-! ## Jobs -/

/-- What is to be done with a value once it is there. -/
inductive Awaiting
  | value (v : Interpolation)
  | sect (s : Section Code)
  /-- Render the tree of an inclusion with it as a scope. -/
  | inclusion (codes : List Code)
  /-- Include the template of its text. -/
  | dynamic (p : Inclusion)

/-- Deferred work: a computation to run, and what to do with its value, where, and with which
    scopes; at the end a latch is to be settled. -/
structure Job where
  latch : Nat
  writer : Writer
  deferred : Deferred Value
  name : String
  scopes : Scopes
  context : Context
  awaiting : Awaiting

structure World where
  store : Store
  streams : Streams
  /-- How often each deferred computation has run, by its identity. -/
  runs : Table Nat Nat
  queue : List Job
  submitted : Nat

def World.start (store : Store) (streams : Streams) : World :=
  ⟨store, streams, [], [], 0⟩

/-! ## Actions -/

inductive Stop
  | error (e : Error)
  /-- A deferred computation came to an abrupt end where it was met. -/
  | panic (message : String)
  | blocked
  | exhausted

/-- An action on the world of a render, which keeps its changes when it fails. -/
def Render (α : Type) : Type :=
  World → Except Stop α × World

namespace Render

variable {α β : Type}

instance : Monad Render where
  pure a := fun w => (.ok a, w)
  bind x f := fun w =>
    match x w with
    | (.ok a, w) => f a w
    | (.error e, w) => (.error e, w)

def stop (e : Stop) : Render α := fun w =>
  (.error e, w)

def fail (e : Error) : Render α :=
  stop (.error e)

def ofExcept (r : Except RenderError α) : Render α :=
  match r with
  | .ok a => pure a
  | .error e => fail (.render e)

/-- The outcome of an action, which goes on either way. -/
def attempt (x : Render α) : Render (Except Stop α) := fun w =>
  let (r, w) := x w
  (.ok r, w)

/-- An action that passes a writer on from one element of a list to the next. -/
def thread (f : α → Writer → Render Writer) : List α → Writer → Render Writer
  | [], out => pure out
  | a :: as, out => fun w =>
    match f a out w with
    | (.ok out, w) => thread f as out w
    | (.error e, w) => (.error e, w)

/-! ## The store -/

def withStore (x : Store.Action α) : Render α := fun w =>
  match x w.store with
  | .ok (a, store) => (.ok a, { w with store })
  | .error e => (.error (.error e), w)

def lookup (o : Options) (n : Node) (scopes : Scopes) : Render Lookup.Hit := fun w =>
  let (hit, store) := w.store.lookup o n scopes
  (.ok hit, { w with store })

/-- Looks the name of a tag up, which fails if no scope has it and that is an error. -/
def lookupTag (o : Options) (origin : Origin) (name : String) (scopes : Scopes) :
    Render Value := do
  let hit ← lookup o (origin.node name) scopes
  if hit.isMissing && o.failOnMiss then fail (.render (.missing name origin.file origin.line))
  else return hit.value

/-! ## The streams -/

/-- Goes on, or stops, as an action on the streams did. -/
def ofResult (r : Streams.Result) : Except Stop Unit :=
  match r with
  | .ok => .ok ()
  | .error e => .error (.error e)
  | .blocked => .error .blocked

def write (text : String) (out : Writer) : Render Unit := fun w =>
  let (r, streams) := w.streams.write text out
  (ofResult r, { w with streams })

/-- Waits for the deferred work before a writer, then flushes. -/
def finish (out : Writer) : Render Unit := fun w =>
  (ofResult (w.streams.finish out), w)

def newBuffer : Render Nat := fun w =>
  let (n, streams) := w.streams.openOutput (.buffer "")
  (.ok n, { w with streams })

def textOf (output : Nat) : Render String := fun w =>
  (.ok (w.streams.textOf output), w)

def newLatch : Render Nat := fun w =>
  let (n, streams) := w.streams.newLatch
  (.ok n, { w with streams })

def modifyStreams (f : Streams → Streams) : Render Unit := fun w =>
  (.ok (), { w with streams := f w.streams })

/-! ## Deferred computations -/

def run (d : Deferred Value) : Render (Outcome Value) := fun w =>
  let n := (w.runs.get? d.id).getD 0
  (.ok (d.outcome n), { w with runs := w.runs.insert d.id (n + 1) })

/-- Runs a deferred computation for the tag of a name: its value, or its failure. -/
def runFor (d : Deferred Value) (name : String) : Render Value := do
  match ← run d with
  | .value v => return v
  | .failure message => fail (.render (.deferredFailure name message))
  | .panic message => stop (.panic message)

def nextJob : Render Nat := fun w =>
  (.ok w.submitted, { w with submitted := w.submitted + 1 })

def enqueue (job : Job) : Render Unit := fun w =>
  (.ok (), { w with queue := w.queue ++ [job] })

end Render

end Mustache
