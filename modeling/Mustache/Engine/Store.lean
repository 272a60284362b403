import Mustache.Engine.Options
import Mustache.Loader
import Mustache.Lookup.Binding
import Mustache.Path
import Mustache.Template
import Mustache.Text.Lines

/-! # Stores

What an engine keeps between renders: the loader, the templates compiled so far, and what their
nodes remember of lookups and inclusions.

An action on a store either succeeds and answers with the new store, or fails and leaves no new
store behind.  So nothing that fails is ever remembered.

* `Store.named` — the template of a name.
* `Store.included` — the template that an inclusion leads to, indented.
* `Store.fragment` — the template of text that a lambda returned.
-/

namespace Mustache

/-! ## Nodes and keys -/

/-- The node that something is remembered for: its site, and all that what is remembered
    depends on. -/
structure Node where
  site : Site
  name : String
  file : String
  indent : String
deriving DecidableEq

def Origin.node (o : Origin) (name : String) : Node :=
  ⟨o.site, name, o.file, ""⟩

def Inclusion.node (p : Inclusion) : Node :=
  ⟨p.origin.site, p.name, p.origin.file, p.indent⟩

/-- What the template of a piece of text is cached under. -/
structure FragmentKey where
  text : String
  delimiters : Delimiters
  file : String
deriving DecidableEq

/-- What an engine keeps between renders. -/
structure Store where
  loader : Loader
  compilations : Nat
  evictions : Nat
  templates : Table String Template
  /-- Indented templates, by their paths and indents. -/
  indented : Table (String × String) Template
  /-- Templates of text that lambdas returned. -/
  fragments : Table FragmentKey Template
  /-- Decisions about names, by the nodes that look them up. -/
  bindings : Table Node (List Wrapper)
  /-- Included templates, by the nodes that include them. -/
  inclusions : Table Node Template
  /-- Parents, by the nodes that extend them. -/
  parents : Table Node Template
  /-- Included templates by the text of a value, for the nodes that include by one. -/
  targets : Table Node (Table String Template)

namespace Store

def new (loader : Loader) : Store :=
  ⟨loader, 0, 0, [], [], [], [], [], [], []⟩

/-- An action on a store, which changes nothing if it fails. -/
abbrev Action (α : Type) := StateT Store (Except Error) α

/-! ## Bounded tables -/

/-- A table after one more template: which template stands under the key, and whether another
    one left. -/
structure Put (κ : Type) where
  template : Template
  table : Table κ Template
  evicted : Bool

/-- Puts a template into a table of at most `limit` templates, unless the key has one already.  A
    full table lets the template at the place `victim` go; a table for none stays empty. -/
def put {κ : Type} [DecidableEq κ] (limit : Option Nat) (victim : Nat) (key : κ)
    (template : Template) (t : Table κ Template) : Put κ :=
  match limit with
  | some 0 => ⟨template, t, false⟩
  | limit =>
    match t.get? key with
    | some old => ⟨old, t, false⟩
    | none =>
      -- The key is new, so room is made for it first.
      let full := match limit with
        | some n => n ≤ t.length && !t.isEmpty
        | none => false
      let kept := if full then t.eraseIdx (victim % t.length) else t
      ⟨template, kept ++ [(key, template)], full⟩

/-- The store after a template may have left a cache. -/
def countEviction (evicted : Bool) (s : Store) : Store :=
  if evicted then { s with evictions := s.evictions + 1 } else s

/-! ## Compiling -/

def build (o : Options) (source name : String) (d : Delimiters) : Action Template := fun s =>
  match Code.parse ⟨name, s.compilations, o.pragmas⟩ d source with
  | .ok codes => .ok (⟨name, source, codes⟩, { s with compilations := s.compilations + 1 })
  | .error e => .error (.compile e)

/-- The template of text, under a name and with the delimiters in force at its start. -/
def compileText (o : Options) (source name : String) (d : Delimiters) : Action Template :=
  if d.isValid then build o source name d
  else fun _ => .error (.compile ⟨name, 1, 1, .invalidDelimiters d.print⟩)

def read (name : String) : Action String := fun s =>
  match s.loader.read name with
  | .ok text => .ok (text, s)
  | .error e => .error (.load e)

def named (o : Options) (path : String) : Action Template := do
  match (← get).templates.get? path with
  | some t => return t
  | none =>
    let source ← read path
    let t ← build o source path .standard
    modifyGet fun s =>
      let p := put o.cacheLimit (o.victim s.evictions) path t s.templates
      (p.template, countEviction p.evicted { s with templates := p.table })

/-- The template with a path, every line indented. -/
def namedIndented (o : Options) (path indent : String) : Action Template := do
  match (← get).indented.get? (path, indent) with
  | some t => return t
  | none =>
    let source ← read path
    let text := String.ofList (Text.indentLines indent.toList source.toList)
    let t ← build o text path .standard
    modifyGet fun s =>
      let p := put o.cacheLimit (o.victim s.evictions) (path, indent) t s.indented
      (p.template, countEviction p.evicted { s with indented := p.table })

/-- The template that a name in a tag of the template `including` leads to. -/
def linked (o : Options) (name including indent : String) : Action Template :=
  let path := Path.resolve name including
  if indent.isEmpty then named o path else namedIndented o path indent

/-- The template that a name in a tag leads to; outside strict mode an unknown name leads to
    nothing to render. -/
def load (o : Options) (name including indent : String) : Action Template := fun s =>
  match linked o name including indent s with
  | .error (.load (.notFound missing)) =>
    -- A template that does not compile or cannot be read is an error in either mode.
    if o.strict then .error (.load (.notFound missing)) else .ok (.empty name, s)
  | r => r

def fragment (o : Options) (text : String) (d : Delimiters) (file : String) : Action Template := do
  let key : FragmentKey := ⟨text, d, file⟩
  match (← get).fragments.get? key with
  | some t => return t
  | none =>
    let t ← build o text file d
    modifyGet fun s =>
      let p := put o.cacheLimit (o.victim s.evictions) key t s.fragments
      (p.template, countEviction p.evicted { s with fragments := p.table })

/-! ## What nodes remember -/

/-- The template of an inclusion, looked for once for its node. -/
def included (o : Options) (p : Inclusion) : Action Template := do
  match (← get).inclusions.get? p.node with
  | some t => return t
  | none =>
    let t ← load o p.name p.origin.file p.indent
    modifyGet fun s => (t, { s with inclusions := s.inclusions.insert p.node t })

/-- The parent of an extension, looked for once for its node. -/
def parent (o : Options) (origin : Origin) (name : String) : Action Template := do
  match (← get).parents.get? (origin.node name) with
  | some t => return t
  | none =>
    let t ← load o name origin.file ""
    modifyGet fun s => (t, { s with parents := s.parents.insert (origin.node name) t })

/-- The templates that an inclusion by the text of a value has led to so far. -/
def targetsOf (s : Store) (p : Inclusion) : Table String Template :=
  (s.targets.get? p.node).getD []

/-- The template that an inclusion leads to by the text of a value. -/
def target (o : Options) (p : Inclusion) (text : String) : Action Template := do
  match (targetsOf (← get) p).get? text with
  | some t => return t
  | none =>
    let t ← load o text p.origin.file p.indent
    modifyGet fun s =>
      let r := put o.cacheLimit (o.victim s.evictions) text t (s.targetsOf p)
      (r.template, countEviction r.evicted { s with targets := s.targets.insert p.node r.table })

def wrappersOf (s : Store) (n : Node) : List Wrapper :=
  (s.bindings.get? n).getD []

/-- Looks the name of a node up, with what the node remembers. -/
def lookup (o : Options) (n : Node) (scopes : Scopes) (s : Store) : Lookup.Hit × Store :=
  let (hit, wrappers) := Lookup.lookup (o.handler.find n.name) (s.wrappersOf n) scopes
  (hit, { s with bindings := s.bindings.insert n wrappers })

/-! ## Forgetting -/

/-- Forgets what was compiled under a path.  Nodes keep the templates they have. -/
def invalidate (path : String) (s : Store) : Store :=
  { s with
    templates := s.templates.erase path
    indented := s.indented.filter fun e => e.1.1 ≠ path }

/-- Forgets all that was compiled.  Nodes keep the templates they have. -/
def clear (s : Store) : Store :=
  { s with templates := [], indented := [], fragments := [] }

/-! ## Diagnostics -/

def inspect (o : Options) (s : Store) : String :=
  "Engine \x7b options: " ++ o.inspect ++ ", cached: " ++ Nat.repr s.templates.length ++ " \x7d"

end Store

/-- What a node remembers. -/
inductive Memory
  /-- A value tag: how many decisions about its name. -/
  | value (name : String) (wrappers : Nat)
  /-- An inclusion: whether it has looked for its template. -/
  | inclusion (name : String) (isResolved : Bool)
  /-- An inclusion by a value: how many templates it has looked for. -/
  | dynamic (name : String) (targets : Nat)

namespace Store

mutual

/-- What a node and the nodes in its body remember; the insides of extensions do not count. -/
def memoryOf (s : Store) : Code → List Memory
  | .value v => [.value v.name (s.wrappersOf (v.origin.node v.name)).length]
  | .inclusion p => [.inclusion p.name (s.inclusions.get? p.node).isSome]
  | .dynamic p => [.dynamic p.name (s.targetsOf p).length]
  | .sect ⟨_, _, _, _, _, body⟩ => memoryOfAll s body
  | .block ⟨_, _, _, body⟩ => memoryOfAll s body
  | _ => []

def memoryOfAll (s : Store) : List Code → List Memory
  | [] => []
  | c :: cs => memoryOf s c ++ memoryOfAll s cs

end

end Store

end Mustache
