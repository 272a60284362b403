import Mustache.Render.Rules

/-! # Whole renders

A render from its start to the end of all the work it has caused: first the nodes of the template,
then the jobs that wait, then the wait for everything to have been written.

* `World.drain` — doing the jobs that wait, in the order of a schedule.
* `Template.render` — a whole render, and all that can be observed of it.
* `Template.renderText`, `Template.renderWhole` — a render to a text, and one that is delivered in
  one piece.
-/

namespace Mustache

/-- How deep rendering may nest, and how many jobs may wait.  Data without template lambdas cannot
    come near it. -/
def allowance : Nat := 1000000

/-! ## Jobs that wait -/

namespace World

/-- The next job to be done, given how many have been taken before, and the world without it. -/
def takeJob (schedule : Schedule) (k : Nat) (w : World) : Option (Job × World) :=
  let i := schedule.next k w.queue.length % w.queue.length
  (w.queue[i]?).map fun job => (job, { w with queue := w.queue.eraseIdx i })

/-- The worlds after every job that waits, until none does.  Jobs may add jobs; at most `fuel` are
    done. -/
def drain (r : Renderer) (schedule : Schedule) : Nat → Nat → World → List World
  | 0, _, _ => []
  | fuel + 1, k, w =>
    match w.takeJob schedule k with
    | none => []
    | some (job, w) =>
      -- Jobs that this one submits join the queue at its end.
      let after := (r.perform job w).2
      after :: drain r schedule fuel (k + 1) after

end World

/-! ## Renders -/

namespace Template

structure Report where
  /-- The writer that rendering the template handed on, or why it stopped. -/
  handedOn : Except Stop Writer
  after : World
  drained : List World
  /-- Whether all has been written, or why not. -/
  result : Except Stop Unit

def Report.final (r : Report) : World :=
  r.drained.getLastD r.after

/-- Whether a render, or the work of a job, has stopped because its allowance was used up. -/
def ranOut {α : Type} : Except Stop α → Bool
  | .error .exhausted => true
  | _ => false

theorem ne_exhausted_of_ranOut {α : Type} {r : Except Stop α} (h : ranOut r = false) :
    r ≠ .error .exhausted := by
  rintro rfl
  cases h

/-- The destination of a render in one of its worlds. -/
def destination (w : World) : Output :=
  (w.streams.outputs[0]?).getD (.buffer "")

/-- Renders a template to a destination, with an allowance of nesting.  The jobs that wait are done
    when the template has been rendered, whether or not it failed. -/
def renderWithin (n : Nat) (o : Options) (t : Template) (scopes : Scopes) (destination : Output)
    (store : Store) : Report :=
  let r := Renderer.within o n
  let (root, streams) := Streams.empty.openOutput destination
  let (handedOn, after) := r.nodes t.codes scopes .start (.direct root) (.start store streams)
  let drained :=
    match o.schedule with
    -- Jobs submitted before a failure are done all the same.
    | some schedule => after.drain r schedule n 0
    | none => []
  let result :=
    match handedOn with
    | .ok out => (Render.finish out (drained.getLastD after)).1
    | .error e => .error e
  ⟨handedOn, after, drained, result⟩

def render (o : Options) (t : Template) (scopes : Scopes) (destination : Output)
    (store : Store) : Report :=
  renderWithin allowance o t scopes destination store

def renderText (o : Options) (t : Template) (scopes : Scopes) (store : Store) :
    Except Stop String × Store :=
  let r := render o t scopes (.buffer "") store
  (r.result.map fun _ => r.final.streams.textOf 0, r.final.store)

/-- Renders a template to a text, and gives all of it to a destination in one piece. -/
def renderWhole (o : Options) (t : Template) (scopes : Scopes) (destination : Output)
    (store : Store) : Except Stop Unit × Output × Store :=
  let (r, store) := renderText o t scopes store
  match r with
  | .error e => (.error e, destination, store)
  | .ok text =>
    let (refused, destination) := destination.write text
    (match refused with
      | some cause => .error (.error (Streams.refusal cause))
      | none => .ok (), destination, store)

end Template

end Mustache
