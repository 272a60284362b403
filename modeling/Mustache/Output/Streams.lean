import Mustache.Error
import Mustache.Output.Sink

/-! # Streams

Where rendered text goes.  A `Writer` is a place in the output: a destination, or a `Latch` that
stands in for a destination as long as deferred work in front of it is under way.

What is written to a pending latch is held back.  When the work is done the latch is settled with
the writer that the work ended on: the text held back goes there, and all later text with it.  So
text lands in the order of the template, in whatever order the work is done.

* `Streams.route` — where a writer leads to in the end.
* `Streams.write`, `Streams.finish` — writing at a writer, and waiting for all of it.
* `Streams.complete`, `Streams.fail` — settling a latch.
-/

namespace Mustache

inductive Output
  | buffer (text : String)
  | sink (s : Sink)

/-- Writes to a destination; the answer is why it was refused, if it was. -/
def Output.write (text : String) : Output → Option String × Output
  | .buffer old => (none, .buffer (old ++ text))
  | .sink s =>
    let (refused, s) := s.write text
    (refused, .sink s)

/-- Why flushing a destination is refused, if it is. -/
def Output.flushRefusal : Output → Option String
  | .buffer _ => none
  | .sink s => s.flushRefusal

inductive Writer
  | direct (output : Nat)
  /-- The place after the deferred work of the latch with a number. -/
  | latched (latch : Nat)
deriving DecidableEq

def Writer.isLatched : Writer → Bool
  | .direct _ => false
  | .latched _ => true

inductive Latch.Status
  | pending
  | done (target : Writer)
  | failed (e : Error)

/-- What stands in for a writer while deferred work is under way. -/
structure Latch where
  held : String
  status : Latch.Status

def Latch.isSettled (l : Latch) : Bool :=
  match l.status with
  | .pending => false
  | _ => true

/-- The destinations and the latches of a render, by their numbers. -/
structure Streams where
  outputs : List Output
  latches : List Latch

namespace Streams

def empty : Streams :=
  ⟨[], []⟩

/-- One more destination, and its number. -/
def openOutput (o : Output) (s : Streams) : Nat × Streams :=
  (s.outputs.length, { s with outputs := s.outputs ++ [o] })

/-- One more latch, pending, and its number. -/
def newLatch (s : Streams) : Nat × Streams :=
  (s.latches.length, { s with latches := s.latches ++ [⟨"", .pending⟩] })

def textOf (s : Streams) (output : Nat) : String :=
  match s.outputs[output]? with
  | some (.buffer text) => text
  | some (.sink k) => k.text
  | none => ""

/-! ## Following latches -/

inductive End
  | output (n : Nat)
  | pending (latch : Nat)
  | failed (e : Error)
  /-- Nowhere: the latches on the way make a circle, or there is no such latch. -/
  | nowhere

/-- Where a writer leads to, through at most so many latches. -/
def routeWithin (s : Streams) : Nat → Writer → End
  | _, .direct n => .output n
  | 0, .latched _ => .nowhere
  | fuel + 1, .latched n =>
    match s.latches[n]? with
    | none => .nowhere
    | some l =>
      match l.status with
      | .pending => .pending n
      | .failed e => .failed e
      | .done target => routeWithin s fuel target

/-- Where a writer leads to.  A way that visits no latch twice is no longer than there are
    latches. -/
def route (s : Streams) (w : Writer) : End :=
  s.routeWithin s.latches.length w

/-! ## Writing -/

inductive Result
  | ok
  | error (e : Error)
  | blocked

def refusal (cause : String) : Error :=
  .render (.output cause)

/-- Writes text at a writer: held back by a pending latch, given to the destination otherwise. -/
def write (text : String) (w : Writer) (s : Streams) : Result × Streams :=
  match s.route w with
  | .output n =>
    match s.outputs[n]? with
    | some o =>
      let (refused, o) := o.write text
      (match refused with
        | some cause => .error (refusal cause)
        | none => .ok, { s with outputs := s.outputs.set n o })
    | none => (.blocked, s)
  | .pending n =>
    (.ok, { s with latches := s.latches.modify n fun l => { l with held := l.held ++ text } })
  | .failed e => (.error e, s)
  | .nowhere => (.blocked, s)

def flushOutput (n : Nat) (s : Streams) : Result :=
  match (s.outputs[n]?).bind Output.flushRefusal with
  | some cause => .error (refusal cause)
  | none => .ok

/-- Flushes a writer without waiting for deferred work. -/
def flush (w : Writer) (s : Streams) : Result :=
  match w with
  | .direct n => s.flushOutput n
  | .latched _ => .ok

/-- Waits for all the deferred work before a writer, then flushes.  The first failure on the way
    is the answer. -/
def finish (w : Writer) (s : Streams) : Result :=
  match s.route w with
  | .output n => s.flushOutput n
  | .pending _ => .blocked
  | .failed e => .error e
  | .nowhere => .blocked

/-! ## Settling latches -/

/-- Settles a latch with the writer that its work ended on.  The text held back goes there first;
    if it is refused there, the latch has failed. -/
def complete (latch : Nat) (target : Writer) (s : Streams) : Streams :=
  let held := ((s.latches[latch]?).map Latch.held).getD ""
  -- The target may be a pending latch itself; then the text is held back there.
  let (r, s) := if held.isEmpty then (.ok, s) else s.write held target
  let status : Latch.Status :=
    match r with
    | .error e => .failed e
    | _ => .done target
  { s with latches := s.latches.set latch ⟨"", status⟩ }

/-- Settles a latch as failed; the text held back is lost. -/
def fail (latch : Nat) (e : Error) (s : Streams) : Streams :=
  { s with latches := s.latches.set latch ⟨"", .failed e⟩ }

end Streams

/-! ## Diagnostics -/

def Latch.statusWord (l : Latch) : String :=
  match l.status with
  | .pending => "pending"
  | .done _ => "done"
  | .failed _ => "failed"

def Streams.inspect (s : Streams) : Writer → String
  | .direct n =>
    match s.outputs[n]? with
    | some (.buffer text) => "Writer::Buffer(" ++ Nat.repr text.utf8ByteSize ++ " bytes)"
    | _ => "Writer::Sink"
  | .latched n =>
    match s.latches[n]? with
    | some l =>
      "Writer::Latched(Latch \x7b status: \"" ++ l.statusWord ++ "\", buffered: " ++
        Nat.repr l.held.utf8ByteSize ++ " \x7d)"
    | none => "Writer::Latched"

end Mustache
