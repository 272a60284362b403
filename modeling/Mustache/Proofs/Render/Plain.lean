import Mustache.Proofs.Engine.Faithful
import Mustache.Render.Rules

/-! # Plain rendering

What a template comes to when nothing is remembered and nothing is put off: the texts that are
written, in order, and how it ends.  There are no stores, no writers and no latches here, and trees
have no sites.  The rules are those of `Renderer`, rule for rule, with the same allowance of
nesting.

How deferred computations run is left to an `Oracle`, which may keep a state of its own.

* `Plain` — an action that writes texts and comes to an end.
* `Plain.nodeWithin`, `Plain.resumeWithin` — plain rendering with an allowance of nesting.
-/

namespace Mustache

structure Oracle (σ : Type) where
  run : Deferred Value → σ → Outcome Value × σ

namespace Oracle

/-- Every run of a computation is counted, and comes to the outcome of its number. -/
def counting : Oracle (Table Nat Nat) :=
  ⟨fun d runs =>
    let n := (runs.get? d.id).getD 0
    (d.outcome n, runs.insert d.id (n + 1))⟩

/-- Every run of a computation comes to the outcome of the first one. -/
def steady : Oracle Unit :=
  ⟨fun d _ => (d.outcome 0, ())⟩

end Oracle

/-- An action that writes texts, in order, and comes to an end. -/
def Plain (σ α : Type) : Type :=
  σ → List String × Except Stop α × σ

namespace Plain

variable {σ α β : Type}

instance : Monad (Plain σ) where
  pure a := fun s => ([], .ok a, s)
  bind p q := fun s =>
    match p s with
    | (texts, .ok a, s) =>
      let (more, r, s) := q a s
      (texts ++ more, r, s)
    | (texts, .error e, s) => (texts, .error e, s)

def stop (e : Stop) : Plain σ α := fun s =>
  ([], .error e, s)

/-- Goes on with an answer, or fails as it does. -/
def ofExcept (r : Except Error α) : Plain σ α :=
  match r with
  | .ok a => pure a
  | .error e => stop (.error e)

theorem ok_bind (a : α) (p : α → Plain σ β) : (ofExcept (.ok a) >>= p) = p a := rfl

def write (text : String) : Plain σ Unit := fun s =>
  ([text], .ok (), s)

/-- The texts that an action writes, as one text, instead of writing them. -/
def captured (p : Plain σ Unit) : Plain σ String := fun s =>
  match p s with
  | (texts, .ok _, s) => ([], .ok (.join texts), s)
  | (_, .error e, s) => ([], .error e, s)

theorem fst_captured (p : Plain σ Unit) (s : σ) : (captured p s).1 = [] := by
  rw [captured]
  split <;> rfl

/-- An action for every element of a list, one after another. -/
def each (p : α → Plain σ Unit) : List α → Plain σ Unit
  | [] => pure ()
  | a :: as => do
    p a
    each p as

/-- Runs a deferred computation for the tag of a name. -/
def runFor (q : Oracle σ) (d : Deferred Value) (name : String) : Plain σ Value := fun s =>
  match q.run d s with
  | (.value v, s) => ([], .ok v, s)
  | (.failure message, s) => ([], .error (.error (.render (.deferredFailure name message))), s)
  | (.panic message, s) => ([], .error (.panic message), s)

/-! ## The rules -/

structure Renderer (σ : Type) where
  node : Code → Scopes → Context → Plain σ Unit
  resume : Awaiting → Value → Scopes → Context → Plain σ Unit

variable (o : Options) (l : Loader) (q : Oracle σ) (r : Renderer σ)

namespace Renderer

def nodes (codes : List Code) (scopes : Scopes) (cx : Context) : Plain σ Unit :=
  each (fun c => r.node c scopes cx) codes

def capture (codes : List Code) (scopes : Scopes) (cx : Context) : Plain σ String :=
  captured (r.nodes codes scopes cx.inline)

def await (d : Deferred Value) (name : String) (k : Awaiting) (scopes : Scopes)
    (cx : Context) : Plain σ Unit := do
  let v ← runFor q d name
  r.resume k v scopes cx

end Renderer

/-- What a name comes to on a stack. -/
def hit (name : String) (scopes : Scopes) : Lookup.Hit :=
  .ofWrapper (o.handler.find name scopes) scopes

def lookupTag (origin : Origin) (name : String) (scopes : Scopes) : Plain σ Value :=
  if (hit o name scopes).isMissing && o.failOnMiss then
    stop (.error (.render (.missing name origin.file origin.line)))
  else pure (hit o name scopes).value

def enter (cx : Context) (name : String) (origin : Origin) : Plain σ Context :=
  ofExcept ((cx.enter o name origin.file origin.line).mapError .render)

def writeValue (v : Interpolation) (text : String) : Plain σ Unit :=
  if text.isEmpty then pure ()
  else write (if v.style = .escaped then o.handler.encode text else text)

namespace Renderer

def value (v : Interpolation) (x : Value) (scopes : Scopes) (cx : Context) : Plain σ Unit :=
  match o.handler.coerce x with
  | .null => pure ()
  | .deferred d => r.await q d v.name (.value v) scopes cx
  | .lambda f =>
    match f.kind with
    | .text => writeValue o v (f.apply "")
    | .template => do
      let t ← ofExcept (Loading.compiled o (f.apply "") v.origin.file .standard)
      let text ← r.capture t.codes scopes cx
      writeValue o v text
  | x => writeValue o v (o.handler.display x)

def sectionLambda (s : Section Code) (f : Lambda) (scopes : Scopes) (cx : Context) :
    Plain σ Unit :=
  match f.kind with
  | .text => do
    let body ← r.capture s.body scopes cx
    write (f.apply body)
  | .template => do
    let t ← ofExcept (Loading.compiled o (f.apply s.raw) s.origin.file s.origin.delimiters)
    r.nodes t.codes scopes cx

def sect (s : Section Code) (x : Value) (scopes : Scopes) (cx : Context) : Plain σ Unit :=
  let x := o.handler.coerce x
  match x with
  | .deferred d => r.await q d s.name (.sect s) scopes cx
  | _ =>
    if s.negated then
      if o.handler.isFalsey x then r.nodes s.body scopes cx else pure ()
    else
      match x with
      | .lambda f => r.sectionLambda o s f scopes cx
      | _ =>
        if o.handler.isFalsey x then pure ()
        else each (fun item => r.nodes s.body (scopes.push item) cx) (o.handler.elements x)

def withScope (codes : List Code) (x : Value) (scopes : Scopes) (cx : Context) : Plain σ Unit :=
  if x.isNull then r.nodes codes scopes cx else r.nodes codes (scopes.push x) cx

def inclusion (p : Inclusion) (scopes : Scopes) (cx : Context) : Plain σ Unit := do
  let cx ← enter o cx p.name p.origin
  let t ← ofExcept (Loading.load o l p.name p.origin.file p.indent)
  match o.handler.coerce (hit o p.name scopes).value with
  | .deferred d => r.await q d p.name (.inclusion t.codes) scopes cx
  | x => r.withScope t.codes x scopes cx

def dynamic (p : Inclusion) (x : Value) (scopes : Scopes) (cx : Context) : Plain σ Unit :=
  match o.handler.coerce x with
  | .deferred d => r.await q d p.name (.dynamic p) scopes cx
  | x => do
    let target := o.handler.display x
    if target.isEmpty then pure ()
    else
      let t ← ofExcept (Loading.load o l target p.origin.file p.indent)
      r.nodes t.codes scopes cx

def extend (e : Extension Code) (scopes : Scopes) (cx : Context) : Plain σ Unit := do
  let cx ← enter o cx e.name e.origin
  let parent ← ofExcept (Loading.load o l e.name e.origin.file "")
  let unused := (Mustache.Renderer.extended e parent).2
  if o.strict && !unused.isEmpty then
    stop (.error (.render (.inheritanceMismatch e.origin.file e.name unused)))
  else r.nodes (Code.rebuildAll e.replacements parent.codes) scopes cx

def resumeWith (k : Awaiting) (x : Value) (scopes : Scopes) (cx : Context) : Plain σ Unit :=
  match k with
  | .value v => r.value o q v x scopes cx
  | .sect s => r.sect o q s x scopes cx
  | .inclusion codes => r.withScope codes x scopes cx
  | .dynamic p => r.dynamic o l q p x scopes cx

def nodeWith (c : Code) (scopes : Scopes) (cx : Context) : Plain σ Unit :=
  match c with
  | .text s => write s
  | .value v => do
    let x ← lookupTag o v.origin v.name scopes
    r.value o q v x scopes cx
  | .sect s => do
    let x ← lookupTag o s.origin s.name scopes
    r.sect o q s x scopes cx
  | .inclusion p => r.inclusion o l q p scopes cx
  | .dynamic p => do
    let cx ← enter o cx p.name p.origin
    r.dynamic o l q p (hit o p.name scopes).value scopes cx
  | .extend e => r.extend o l e scopes cx
  | .block b => r.nodes b.body scopes cx
  | .eof => pure ()

end Renderer

mutual

/-- Renders a node plainly, with an allowance of nesting. -/
def nodeWithin : Nat → Code → Scopes → Context → Plain σ Unit
  | 0, _, _, _ => stop .exhausted
  | n + 1, c, scopes, cx =>
    Renderer.nodeWith o l q ⟨nodeWithin n, resumeWithin n⟩ c scopes cx

/-- Goes on with a value plainly, with an allowance of nesting. -/
def resumeWithin : Nat → Awaiting → Value → Scopes → Context → Plain σ Unit
  | 0, _, _, _, _ => stop .exhausted
  | n + 1, k, x, scopes, cx =>
    Renderer.resumeWith o l q ⟨nodeWithin n, resumeWithin n⟩ k x scopes cx

end

/-- The plain renderer with an allowance of nesting. -/
def within (n : Nat) : Renderer σ :=
  ⟨nodeWithin o l q n, resumeWithin o l q n⟩

end Plain

end Mustache
