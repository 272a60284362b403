import Mustache.Render.Whole

/-! # Sessions

One engine used over time.  Compiled templates are kept under handles, with all that their nodes
remember, while templates in the loader come and go.

* `Step` — what can be done with an engine.
* `Session.perform` — doing one step, and the answer to it.
* `Session.run` — doing steps one after another.
-/

namespace Mustache

/-- How the output of a render is taken. -/
inductive Delivery
  /-- As it is rendered. -/
  | asWritten (destination : Output)
  /-- In one piece, at the end. -/
  | whole (destination : Output)

/-- What can be done with an engine. -/
inductive Step
  | insert (name source : String)
  | remove (name : String)
  /-- Compile a named template and keep it under a handle. -/
  | compile (name handle : String)
  /-- Compile text and keep it under a handle. -/
  | compileText (source file : String) (delimiters : Delimiters) (handle : String)
  | render (handle : String) (scopes : Scopes) (delivery : Delivery)
  | print (handle : String)
  | source (handle : String)
  /-- The data that a kept template renders as a text, and the data rendered again. -/
  | invert (handle text : String)
  | memory (handle : String)
  | invalidate (name : String)
  | clear
  | inspect (handle : String)

inductive Answer
  | stored (size : Nat)
  /-- What was taken out, and how many templates the loader has left. -/
  | removed (source : Option Stored) (size : Nat)
  | compiled (name : String) (nodes : Nat)
  | rendered (report : Template.Report)
  /-- Whether a render in one piece succeeded, and its destination. -/
  | delivered (result : Except Stop Unit) (destination : Output)
  | text (s : String)
  /-- Recovered data, and the text that it renders as. -/
  | inverted (recovered : Option (Value × Except Stop String))
  | memory (nodes : List Memory)
  | done
  | inspected (engine template : String)
  | failed (e : Error)
  /-- There is no template under the handle. -/
  | unknownHandle (handle : String)

/-- One engine over time. -/
structure Session where
  options : Options
  store : Store
  templates : Table String Template

namespace Session

def new (options : Options) (loader : Loader) : Session :=
  ⟨options, .new loader, []⟩

/-- Keeps what was compiled under a handle; a failure leaves everything as it was. -/
def keep (handle : String) (x : Store.Action Template) (s : Session) : Answer × Session :=
  match x s.store with
  | .ok (t, store) =>
    (.compiled t.name t.codes.length,
      { s with store, templates := s.templates.insert handle t })
  | .error e => (.failed e, s)

/-- Goes on with the template under a handle. -/
def withTemplate (handle : String) (s : Session) (f : Template → Answer × Session) :
    Answer × Session :=
  match s.templates.get? handle with
  | some t => f t
  | none => (.unknownHandle handle, s)

def deliver (t : Template) (scopes : Scopes) (delivery : Delivery) (s : Session) :
    Answer × Session :=
  match delivery with
  | .asWritten destination =>
    let r := Template.render s.options t scopes destination s.store
    (.rendered r, { s with store := r.final.store })
  | .whole destination =>
    let (r, destination, store) :=
      Template.renderWhole s.options t scopes destination s.store
    (.delivered r destination, { s with store })

/-- Recovers data from a text, and renders the data again. -/
def recover (t : Template) (text : String) (s : Session) : Answer × Session :=
  match Template.invert t text with
  | none => (.inverted none, s)
  | some v =>
    let (again, store) := Template.renderText s.options t (.ofList [v]) s.store
    (.inverted (some (v, again)), { s with store })

def perform (step : Step) (s : Session) : Answer × Session :=
  match step with
  | .insert name source =>
    let loader := s.store.loader.insert name source
    (.stored loader.templates.length, { s with store := { s.store with loader } })
  | .remove name =>
    let old := s.store.loader.templates.get? name
    let loader := s.store.loader.erase name
    (.removed old loader.templates.length, { s with store := { s.store with loader } })
  | .compile name handle => s.keep handle (Store.named s.options name)
  | .compileText source file d handle =>
    s.keep handle (Store.compileText s.options source file d)
  | .render handle scopes delivery =>
    s.withTemplate handle fun t => s.deliver t scopes delivery
  | .print handle => s.withTemplate handle fun t => (.text (Template.print t), s)
  | .source handle => s.withTemplate handle fun t => (.text t.source, s)
  | .invert handle text => s.withTemplate handle fun t => s.recover t text
  | .memory handle =>
    s.withTemplate handle fun t => (.memory (s.store.memoryOfAll t.codes), s)
  | .invalidate name => (.done, { s with store := s.store.invalidate name })
  | .clear => (.done, { s with store := s.store.clear })
  | .inspect handle =>
    s.withTemplate handle fun t =>
      (.inspected (s.store.inspect s.options) (Template.inspect t), s)

/-- Does steps one after another; every answer comes with the session after its step. -/
def run : List Step → Session → List (Answer × Session)
  | [], _ => []
  | step :: steps, s =>
    let r := s.perform step
    r :: run steps r.2

end Session

end Mustache
