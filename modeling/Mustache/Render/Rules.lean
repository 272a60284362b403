import Mustache.Code.Substitution
import Mustache.Render.World

/-! # Rendering

How each kind of node is rendered.  Every node is given a writer, writes there, and hands on the
writer that the next node is to use: the same one, or, behind deferred work, a latch.

The rules are stated over a `Renderer`, which renders what is nested in a node.  `Renderer.within`
is the renderer for a given allowance of nesting: rendering that nests deeper, as only a lambda
that keeps returning itself can make it, is stopped.

* `Renderer.node` — rendering a node.
* `Renderer.resume` — going on with a value that a node waited for.
* `Renderer.perform` — doing a job.
-/

namespace Mustache

/-- What renders the things nested in a node. -/
structure Renderer where
  node : Code → Scopes → Context → Writer → Render Writer
  resume : Awaiting → Value → Scopes → Context → Writer → Render Writer

namespace Renderer

variable (o : Options) (r : Renderer)

/-! ## Lists of nodes -/

def nodes (codes : List Code) (scopes : Scopes) (cx : Context) (out : Writer) : Render Writer :=
  Render.thread (fun c out => r.node c scopes cx out) codes out

/-- The text of nodes.  Deferred computations among them run where they are met, as the text is
    needed to go on. -/
def capture (codes : List Code) (scopes : Scopes) (cx : Context) : Render String := do
  let buffer ← Render.newBuffer
  -- Nothing in here is put off, so the writer handed on is never a latch.
  let out ← r.nodes codes scopes cx.inline (.direct buffer)
  Render.finish out
  Render.textOf buffer

/-! ## Deferred computations -/

/-- Does a job and settles its latch: with the writer that the work ended on, or as failed. -/
def perform (job : Job) : Render Unit := do
  let outcome ← Render.attempt do
    let v ← Render.runFor job.deferred job.name
    r.resume job.awaiting v job.scopes job.context job.writer
  match outcome with
  -- However the work ends, its latch is settled, so that nobody waits for it in vain.
  | .ok out => Render.modifyStreams (Streams.complete job.latch out)
  | .error (.error e) => Render.modifyStreams (Streams.fail job.latch e)
  | .error (.panic message) =>
    Render.modifyStreams
      (Streams.fail job.latch (.render (.deferredFailure job.name message)))
  | .error e => Render.stop e

/-- Goes on with the value of a deferred computation: here and now, or in a job that the writer
    handed on waits for. -/
def defer (d : Deferred Value) (name : String) (k : Awaiting) (scopes : Scopes) (cx : Context)
    (out : Writer) : Render Writer :=
  match cx.schedule? o with
  | none => do
    let v ← Render.runFor d name
    r.resume k v scopes cx out
  | some schedule => do
    let latch ← Render.newLatch
    let number ← Render.nextJob
    let job : Job := ⟨latch, out, d, name, scopes, cx, k⟩
    if schedule.atOnce number then r.perform job else Render.enqueue job
    return .latched latch

/-! ## Values -/

/-- Writes the text of a value tag, encoded if the tag says so.  Empty text is not written. -/
def writeValue (v : Interpolation) (text : String) (out : Writer) : Render Writer := do
  if text.isEmpty then return out
  else
    Render.write (if v.style = .escaped then o.handler.encode text else text) out
    return out

/-- Renders a value tag with a value.  A lambda is given no text; what a template lambda returns
    is a template in standard delimiters. -/
def value (v : Interpolation) (x : Value) (scopes : Scopes) (cx : Context) (out : Writer) :
    Render Writer :=
  match o.handler.coerce x with
  | .null => return out
  | .deferred d => r.defer o d v.name (.value v) scopes cx out
  | .lambda f =>
    match f.kind with
    | .text => writeValue o v (f.apply "") out
    | .template => do
      let t ← Render.withStore (Store.fragment o (f.apply "") .standard v.origin.file)
      let text ← r.capture t.codes scopes cx
      writeValue o v text out
  | x => writeValue o v (o.handler.display x) out

/-! ## Sections -/

/-- Renders a section with a lambda.  A text lambda is given the rendered body; a template lambda
    is given the text of the body, and returns a template in the delimiters of the section. -/
def sectionLambda (s : Section Code) (f : Lambda) (scopes : Scopes) (cx : Context)
    (out : Writer) : Render Writer :=
  match f.kind with
  | .text => do
    let body ← r.capture s.body scopes cx
    Render.write (f.apply body) out
    return out
  | .template => do
    let t ← Render.withStore
      (Store.fragment o (f.apply s.raw) s.origin.delimiters s.origin.file)
    r.nodes t.codes scopes cx out

/-- Renders a section over a value.  A negated section renders its body if the value is falsey; a
    section renders it for every element of the value, with the element as innermost scope. -/
def sect (s : Section Code) (x : Value) (scopes : Scopes) (cx : Context) (out : Writer) :
    Render Writer :=
  let x := o.handler.coerce x
  match x with
  | .deferred d => r.defer o d s.name (.sect s) scopes cx out
  | _ =>
    if s.negated then
      -- A lambda is never falsey, so a negated section does not call it.
      if o.handler.isFalsey x then r.nodes s.body scopes cx out else return out
    else
      match x with
      | .lambda f => r.sectionLambda o s f scopes cx out
      | _ =>
        if o.handler.isFalsey x then return out
        else
          Render.thread (fun item out => r.nodes s.body (scopes.push item) cx out)
            (o.handler.elements x) out

/-! ## Inclusions -/

/-- Renders a tree with a value as innermost scope; null is no scope. -/
def withScope (codes : List Code) (x : Value) (scopes : Scopes) (cx : Context) (out : Writer) :
    Render Writer :=
  if x.isNull then r.nodes codes scopes cx out else r.nodes codes (scopes.push x) cx out

/-- Renders an inclusion.  If the name of the template is also a name in the scopes, its value is
    the innermost scope of the template. -/
def inclusion (p : Inclusion) (scopes : Scopes) (cx : Context) (out : Writer) :
    Render Writer := do
  let cx ← Render.ofExcept (cx.enter o p.name p.origin.file p.origin.line)
  let t ← Render.withStore (Store.included o p)
  let hit ← Render.lookup o p.node scopes
  match o.handler.coerce hit.value with
  | .deferred d => r.defer o d p.name (.inclusion t.codes) scopes cx out
  | x => r.withScope t.codes x scopes cx out

/-- Renders the inclusion of the template that a value names; a value without a text names
    none. -/
def dynamic (p : Inclusion) (x : Value) (scopes : Scopes) (cx : Context) (out : Writer) :
    Render Writer :=
  match o.handler.coerce x with
  | .deferred d => r.defer o d p.name (.dynamic p) scopes cx out
  | x => do
    let target := o.handler.display x
    if target.isEmpty then return out
    else
      let t ← Render.withStore (Store.target o p target)
      r.nodes t.codes scopes cx out

/-! ## Extensions -/

/-- The parent's nodes with the blocks of an extension put in, and the names of the blocks that
    found no use. -/
def extended (e : Extension Code) (parent : Template) : List Code × List String :=
  -- The tree of the parent stays as it is; only the copy is changed.
  let s := Code.substitute e.origin.site e.replacements parent.codes
  (s.changed.getD parent.codes,
    (e.replacements.map Block.name).filter fun name => !s.used.contains name)

/-- Renders an extension.  In strict mode every replacement block has to find a use. -/
def extend (e : Extension Code) (scopes : Scopes) (cx : Context) (out : Writer) :
    Render Writer := do
  let cx ← Render.ofExcept (cx.enter o e.name e.origin.file e.origin.line)
  let parent ← Render.withStore (Store.parent o e.origin e.name)
  let (codes, unused) := extended e parent
  if o.strict && !unused.isEmpty then
    Render.fail (.render (.inheritanceMismatch e.origin.file e.name unused))
  else r.nodes codes scopes cx out

/-! ## Any node -/

def resumeWith (k : Awaiting) (x : Value) (scopes : Scopes) (cx : Context) (out : Writer) :
    Render Writer :=
  match k with
  | .value v => r.value o v x scopes cx out
  | .sect s => r.sect o s x scopes cx out
  | .inclusion codes => r.withScope codes x scopes cx out
  | .dynamic p => r.dynamic o p x scopes cx out

def nodeWith (c : Code) (scopes : Scopes) (cx : Context) (out : Writer) : Render Writer :=
  match c with
  | .text s => do
    Render.write s out
    return out
  | .value v => do
    let x ← Render.lookupTag o v.origin v.name scopes
    r.value o v x scopes cx out
  | .sect s => do
    let x ← Render.lookupTag o s.origin s.name scopes
    r.sect o s x scopes cx out
  | .inclusion p => r.inclusion o p scopes cx out
  | .dynamic p => do
    let cx ← Render.ofExcept (cx.enter o p.name p.origin.file p.origin.line)
    let hit ← Render.lookup o p.node scopes
    r.dynamic o p hit.value scopes cx out
  | .extend e => r.extend o e scopes cx out
  | .block b => r.nodes b.body scopes cx out
  | .eof => return out

/-! ## The renderer of an allowance -/

mutual

/-- Renders a node, with an allowance of nesting. -/
def nodeWithin : Nat → Code → Scopes → Context → Writer → Render Writer
  | 0, _, _, _, _ => Render.stop .exhausted
  | n + 1, c, scopes, cx, out =>
    nodeWith o ⟨nodeWithin n, resumeWithin n⟩ c scopes cx out

/-- Goes on with a value, with an allowance of nesting. -/
def resumeWithin : Nat → Awaiting → Value → Scopes → Context → Writer → Render Writer
  | 0, _, _, _, _, _ => Render.stop .exhausted
  | n + 1, k, x, scopes, cx, out =>
    resumeWith o ⟨nodeWithin n, resumeWithin n⟩ k x scopes cx out

end

/-- The renderer with an allowance of nesting. -/
def within (n : Nat) : Renderer :=
  ⟨nodeWithin o n, resumeWithin o n⟩

end Renderer

end Mustache
