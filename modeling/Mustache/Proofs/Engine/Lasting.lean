import Mustache.Proofs.Engine.Requests

/-! # Changes that last

An action on a store leaves no new store behind when it fails.  An engine takes nothing back: what it
has changed before a failure stays changed.  Here trees are asked for by actions whose changes last,
in the order in which an engine looks, reads, compiles and remembers.  As nothing is remembered
before the last thing that can fail, they come to the same.

* `Store.Lasting` — actions that keep their changes when they fail.
* `Store.Lasting.ask` — asking for a tree, every change made where an engine makes it.
* `Store.Lasting.ask_eq` — an action that leaves no store behind where it fails comes to the same.
-/

namespace Mustache

/-- An action on a store, which keeps its changes when it fails. -/
def Store.Lasting (α : Type) : Type :=
  Store → Except Error α × Store

namespace Store.Lasting

variable {α β : Type} {o : Options}

instance : Monad Lasting where
  pure a := fun s => (.ok a, s)
  bind x f := fun s =>
    match x s with
    | (.ok a, s) => f a s
    | (.error e, s) => (.error e, s)

def fail (e : Error) : Lasting α := fun s =>
  (.error e, s)

def read (path : String) : Lasting String := fun s =>
  match s.loader.read path with
  | .ok source => (.ok source, s)
  | .error e => (.error (.load e), s)

def compile (o : Options) (source name : String) (d : Delimiters) : Lasting Template := fun s =>
  match Code.parse ⟨name, s.compilations, o.pragmas⟩ d source with
  | .ok codes => (.ok ⟨name, source, codes⟩, { s with compilations := s.compilations + 1 })
  | .error e => (.error (.compile e), s)

/-- What stands under the key of a request, or what an action comes to, which is kept there. -/
def cached (o : Options) (q : Request) (x : Lasting Template) : Lasting Template := fun s =>
  match q.standing? s with
  | some t => (.ok t, s)
  | none => (do let t ← x; fun s => (.ok (q.keep o t s).1, (q.keep o t s).2)) s

/-! ## Asking -/

def named (o : Options) (path : String) : Lasting Template :=
  cached o (.named path) do
    let source ← read path
    compile o source path .standard

def indented (o : Options) (path indent : String) : Lasting Template :=
  cached o (.indented path indent) do
    let source ← read path
    compile o (.ofList (Text.indentLines indent.toList source.toList)) path .standard

def compileText (o : Options) (source name : String) (d : Delimiters) : Lasting Template :=
  if d.isValid then compile o source name d
  else fail (.compile ⟨name, 1, 1, .invalidDelimiters d.print⟩)

def linked (o : Options) (name including indent : String) : Lasting Template :=
  let path := Path.resolve name including
  if indent.isEmpty then named o path else indented o path indent

/-- The template that a name in a tag leads to.  Where an unknown name leads to nothing to render,
    what happened before that was found out has happened. -/
def load (o : Options) (name including indent : String) : Lasting Template := fun s =>
  match linked o name including indent s with
  | (.error (.load (.notFound missing)), s) =>
    if o.strict then (.error (.load (.notFound missing)), s) else (.ok (.empty name), s)
  | r => r

def ask (o : Options) : Request → Lasting Template
  | .named path => named o path
  | .indented path indent => indented o path indent
  | .given source name d => compileText o source name d
  | .fragment text d file => cached o (.fragment text d file) (compile o text file d)
  | .included p => cached o (.included p) (load o p.name p.origin.file p.indent)
  | .parent origin name => cached o (.parent origin name) (load o name origin.file "")
  | .target p text => cached o (.target p text) (load o text p.origin.file p.indent)

/-! ## Actions that leave no store behind where they fail -/

/-- The action that comes to the same, and leaves the store that it was given where it fails. -/
def of (x : Action α) : Lasting α := fun s =>
  match x s with
  | .ok (a, s') => (.ok a, s')
  | .error e => (.error e, s)

theorem compile_eq (source name : String) (d : Delimiters) :
    compile o source name d = of (build o source name d) := by
  funext s
  simp only [compile, of, build]
  cases Code.parse ⟨name, s.compilations, o.pragmas⟩ d source <;> rfl

/-- Nothing happens to the store before the text of a template has been read. -/
theorem read_eq (path : String) {x : String → Lasting Template}
    {y : String → Action Template} (h : ∀ source, x source = of (y source)) :
    (do let source ← read path; x source) = of (do let source ← Store.read path; y source) := by
  funext s
  simp only [bind, StateT.bind, Except.bind, of, read, Store.read]
  cases s.loader.read path with
  | error e => rfl
  | ok source => exact congrFun (h source) s

/-- A tree that has been found is kept, and nothing fails any more. -/
theorem cached_eq {q : Request} {x : Lasting Template} (h : x = of (q.seek o)) :
    cached o q x = of (q.ask o) := by
  funext s
  simp only [cached]
  cases hstanding : q.standing? s with
  | some t => simp only [of, Request.ask_of_standing hstanding]
  | none =>
    simp only [bind, h, of, Request.ask_of_none hstanding]
    cases q.seek o s <;> rfl

theorem named_eq (path : String) : named o path = of (Store.named o path) :=
  cached_eq (q := .named path) (read_eq path fun _ => compile_eq _ _ _)

theorem indented_eq (path indent : String) :
    indented o path indent = of (Store.namedIndented o path indent) :=
  cached_eq (q := .indented path indent) (read_eq path fun _ => compile_eq _ _ _)

theorem compileText_eq (source name : String) (d : Delimiters) :
    compileText o source name d = of (Store.compileText o source name d) := by
  unfold compileText Store.compileText
  split
  · exact compile_eq source name d
  · rfl

theorem linked_eq (name including indent : String) :
    linked o name including indent = of (Store.linked o name including indent) := by
  simp only [linked, Store.linked]
  split
  · exact named_eq _
  · exact indented_eq _ _

/-- A name that turns out to be unknown has changed nothing. -/
theorem load_eq (name including indent : String) :
    load o name including indent = of (Store.load o name including indent) := by
  funext s
  simp only [load, linked_eq, of, Store.load]
  cases Store.linked o name including indent s with
  | ok r => rfl
  | error e =>
    cases e with
    | load cause =>
      cases cause with
      | notFound missing => cases o.strict <;> rfl
      | unreadable => rfl
    | _ => rfl

/-- **Nothing is remembered too early.**  Asking for a tree with changes that last comes to what it
    comes to with changes that are taken back where it fails. -/
theorem ask_eq (o : Options) (q : Request) : ask o q = of (q.ask o) := by
  cases q with
  | named path => exact named_eq path
  | indented path indent => exact indented_eq path indent
  | given source name d => exact compileText_eq source name d
  | fragment => exact cached_eq (compile_eq _ _ _)
  | included | parent | target => exact cached_eq (load_eq _ _ _)

/-- A request that fails leaves the store as it is, also where changes last. -/
theorem ask_of_error {q : Request} {s : Store} {e : Error} (h : q.ask o s = .error e) :
    ask o q s = (.error e, s) := by
  rw [ask_eq, of, h]

end Store.Lasting

end Mustache
