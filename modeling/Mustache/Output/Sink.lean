/-! # Sinks

A destination of rendered text outside the program, which may refuse what it is given.  It keeps
the texts it has taken, one for each call.
-/

namespace Mustache

/-- A destination that may refuse text. -/
structure Sink where
  /-- Why a call is refused, if it is: by the number of the call, counted from zero, and the
      number of bytes that would have been taken with it. -/
  refusal : Nat → Nat → Option String
  /-- Why flushing is refused, if it is. -/
  flushRefusal : Option String
  calls : Nat
  /-- The texts that were taken, last first. -/
  taken : List String

namespace Sink

def accepting : Sink :=
  ⟨fun _ _ => none, none, 0, []⟩

def refusing (call : Nat) (cause : String) : Sink :=
  { accepting with refusal := fun n _ => if n = call then some cause else none }

/-- A sink that refuses every text that would make more than `limit` bytes with the texts
    before it. -/
def limited (limit : Nat) (cause : String) : Sink :=
  { accepting with refusal := fun _ size => if limit < size then some cause else none }

def size (s : Sink) : Nat :=
  s.taken.foldr (fun text n => text.utf8ByteSize + n) 0

/-- The texts that were taken, in order. -/
def chunks (s : Sink) : List String :=
  s.taken.reverse

def text (s : Sink) : String :=
  String.join s.chunks

/-- Gives a text to the sink: why it was refused, if it was, and the sink after the call. -/
def write (text : String) (s : Sink) : Option String × Sink :=
  let after := { s with calls := s.calls + 1 }
  match s.refusal s.calls (s.size + text.utf8ByteSize) with
  | some cause => (some cause, after)
  | none => (none, { after with taken := text :: s.taken })

end Sink

end Mustache
