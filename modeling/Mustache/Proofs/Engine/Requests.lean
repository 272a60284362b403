import Mustache.Proofs.Engine.Stock

/-! # Requests

A tree is asked of a store in several ways: by a path, by a piece of text, or on behalf of a node
that includes or extends a template.  All of them go the same way: what stands under the key of the
request is handed out, and otherwise a tree is sought and then kept under the key.

* `Request`, `Request.ask` — the ways to ask for a tree.
* `Request.ask_of_standing`, `Request.ask_of_none` — the way that all of them go.
* `Request.anew`, `Request.seek_eq` — what is sought, but for the number of the compilation a matter
  of the loader alone.
* `Store.Leads` — what the store may become when trees are asked for and names are looked up.
* `Request.leads_ask` — asking leads the store on, and does nothing else to it.
* `Request.exists_ask_of_under` — trees that are cached are not cached once more.
-/

namespace Mustache

/-- What a tree is asked for. -/
inductive Request
  /-- The template with a path. -/
  | named (path : String)
  /-- The template with a path, every line indented. -/
  | indented (path indent : String)
  /-- Text that the caller has, which is compiled and not kept. -/
  | given (source name : String) (d : Delimiters)
  /-- Text that a lambda returned. -/
  | fragment (text : String) (d : Delimiters) (file : String)
  | included (p : Inclusion)
  | parent (origin : Origin) (name : String)
  /-- What an inclusion leads to by the text of a value. -/
  | target (p : Inclusion) (text : String)

/-- A template that is put where none stood stands there. -/
theorem Store.template_put {κ : Type} [DecidableEq κ] {key : κ} {t : Table κ Template}
    (h : t.get? key = none) (limit : Option Nat) (victim : Nat) (template : Template) :
    (Store.put limit victim key template t).template = template := by
  unfold Store.put
  split
  · rfl
  · rw [h]

/-- What a name in a tag leads to, compiled with a number. -/
def Store.linkedAs (o : Options) (l : Loader) (n : Nat) (name including indent : String) :
    Except Error Template :=
  let path := Path.resolve name including
  if indent.isEmpty then namedAs o l n path else indentedAs o l n path indent

namespace Request

variable (o : Options)

def ask : Request → Store.Action Template
  | named path => Store.named o path
  | indented path indent => Store.namedIndented o path indent
  | given source name d => Store.compileText o source name d
  | fragment text d file => Store.fragment o text d file
  | included p => Store.included o p
  | parent origin name => Store.parent o origin name
  | target p text => Store.target o p text

/-- The request for the template that a name in a tag leads to. -/
def linked (name including indent : String) : Request :=
  let path := Path.resolve name including
  if indent.isEmpty then named path else indented path indent

/-- The tree that stands under the key of a request. -/
def standing? (s : Store) : Request → Option Template
  | named path => s.templates.get? path
  | indented path indent => s.indented.get? (path, indent)
  | given _ _ _ => none
  | fragment text d file => s.fragments.get? ⟨text, d, file⟩
  | included p => s.inclusions.get? p.node
  | parent origin name => s.parents.get? (origin.node name)
  | target p text => (s.targetsOf p).get? text

/-- Seeking a tree, where none stands under the key. -/
def seek : Request → Store.Action Template
  | named path => do
    let source ← Store.read path
    Store.build o source path .standard
  | indented path indent => do
    let source ← Store.read path
    Store.build o (.ofList (Text.indentLines indent.toList source.toList)) path .standard
  | given source name d => Store.compileText o source name d
  | fragment text d file => Store.build o text file d
  | included p => Store.load o p.name p.origin.file p.indent
  | parent origin name => Store.load o name origin.file ""
  | target p text => Store.load o text p.origin.file p.indent

/-- Keeping a tree under the key of a request, and the tree that is handed out then. -/
def keep (t : Template) (s : Store) : Request → Template × Store
  | named path =>
    let p := Store.put o.cacheLimit (o.victim s.evictions) path t s.templates
    (p.template, Store.countEviction p.evicted { s with templates := p.table })
  | indented path indent =>
    let p := Store.put o.cacheLimit (o.victim s.evictions) (path, indent) t s.indented
    (p.template, Store.countEviction p.evicted { s with indented := p.table })
  | given _ _ _ => (t, s)
  | fragment text d file =>
    let p := Store.put o.cacheLimit (o.victim s.evictions) ⟨text, d, file⟩ t s.fragments
    (p.template, Store.countEviction p.evicted { s with fragments := p.table })
  | included p => (t, { s with inclusions := s.inclusions.insert p.node t })
  | parent origin name => (t, { s with parents := s.parents.insert (origin.node name) t })
  | target p text =>
    let r := Store.put o.cacheLimit (o.victim s.evictions) text t (s.targetsOf p)
    (r.template, Store.countEviction r.evicted
      { s with targets := s.targets.insert p.node r.table })

variable {o} {q : Request} {s s' : Store} {t : Template}

/-- What stands under the key is handed out, and nothing else happens. -/
theorem ask_of_standing (h : q.standing? s = some t) : q.ask o s = .ok (t, s) := by
  cases q with
  | given => cases h
  | _ =>
    simp only [standing?] at h
    simp only [ask, Store.named, Store.namedIndented, Store.fragment, Store.included,
      Store.parent, Store.target, bind, StateT.bind, get, getThe, MonadStateOf.get, StateT.get,
      pure, Except.pure, Except.bind, h]
    rfl

/-- Where nothing stands under the key, a tree is sought, and then kept there. -/
theorem ask_of_none (h : q.standing? s = none) :
    q.ask o s = (q.seek o s).map fun r => q.keep o r.1 r.2 := by
  have hkept (x : Store.Action Template) (keep : Template → Store → Template × Store) :
      (do let t ← x; modifyGet (keep t)) s = (x s).map fun r => keep r.1 r.2 := by
    simp only [bind, StateT.bind, Except.bind, Except.map]
    cases x s <;> rfl
  rw [← hkept (q.seek o) fun t s => q.keep o t s]
  cases q with
  | given source name d =>
    simp only [ask, seek, bind, StateT.bind, Except.bind]
    cases Store.compileText o source name d s <;> rfl
  | named | indented =>
    simp only [standing?] at h
    simp only [ask, seek, Store.named, Store.namedIndented, bind, StateT.bind, get, getThe,
      MonadStateOf.get, StateT.get, pure, Except.pure, Except.bind, h]
    cases Store.read _ s <;> rfl
  | _ =>
    simp only [standing?] at h
    simp only [ask, seek, Store.fragment, Store.included,
      Store.parent, Store.target, bind, StateT.bind, get, getThe, MonadStateOf.get, StateT.get,
      pure, Except.pure, Except.bind, h]
    rfl

/-- A tree that is kept where none stood is handed out itself. -/
theorem fst_keep (h : q.standing? s = none) (t : Template) : (q.keep o t s).1 = t := by
  cases q with
  | given | included | parent => rfl
  | named | indented | fragment | target => exact Store.template_put h _ _ _

/-! ## Handing a request on -/

/-- The request that a node makes for what it is to remember. -/
def under? : Request → Option Request
  | included p => some (linked p.name p.origin.file p.indent)
  | parent origin name => some (linked name origin.file "")
  | target p text => some (linked text p.origin.file p.indent)
  | _ => none

theorem ask_linked (o : Options) (name including indent : String) :
    (linked name including indent).ask o = Store.linked o name including indent := by
  simp only [linked, Store.linked]
  split <;> rfl

theorem under?_linked (name including indent : String) :
    (linked name including indent).under? = none := by
  simp only [linked]
  split <;> rfl

/-- A request that is handed on is not handed on once more. -/
theorem under?_under {under : Request} (h : q.under? = some under) : under.under? = none := by
  cases q with
  | included | parent | target =>
    obtain rfl := Option.some.inj h
    exact under?_linked _ _ _
  | _ => cases h

/-- A node seeks what the request that it hands on comes to, or, outside strict mode, it has nothing
    to render for an unknown name. -/
theorem seek_cases {under : Request} (h : q.under? = some under) (o : Options) (s : Store) :
    q.seek o s = under.ask o s ∨
      ∃ missing name, under.ask o s = .error (.load (.notFound missing)) ∧ o.strict = false ∧
        q.seek o s = .ok (.empty name, s) := by
  have hload (name including indent : String) :
      Store.load o name including indent s = (linked name including indent).ask o s ∨
        ∃ missing name', (linked name including indent).ask o s =
            .error (.load (.notFound missing)) ∧ o.strict = false ∧
          Store.load o name including indent s = .ok (.empty name', s) := by
    rw [ask_linked]
    unfold Store.load
    split
    · next missing hmissing =>
      cases hstrict : o.strict with
      | true => exact .inl (by rw [hmissing]; rfl)
      | false => exact .inr ⟨missing, name, hmissing, rfl, rfl⟩
    · exact .inl rfl
  cases q with
  | included | parent | target =>
    obtain rfl := Option.some.inj h
    exact hload _ _ _
  | _ => cases h

/-! ## Without a memory -/

/-- What a request comes to if no tree stands for it, compiled with a number. -/
def anew (o : Options) (l : Loader) (n : Nat) : Request → Except Error Template
  | named path => Store.namedAs o l n path
  | indented path indent => Store.indentedAs o l n path indent
  | given source name d =>
    if d.isValid then Store.compiledAs o n source name d
    else .error (.compile ⟨name, 1, 1, .invalidDelimiters d.print⟩)
  | fragment text d file => Store.compiledAs o n text file d
  | included p =>
    Store.orEmpty o p.name (Store.linkedAs o l n p.name p.origin.file p.indent)
  | parent origin name => Store.orEmpty o name (Store.linkedAs o l n name origin.file "")
  | target p text => Store.orEmpty o text (Store.linkedAs o l n text p.origin.file p.indent)

theorem anew_linked (o : Options) (l : Loader) (n : Nat) (name including indent : String) :
    (linked name including indent).anew o l n = Store.linkedAs o l n name including indent := by
  simp only [linked, Store.linkedAs]
  split <;> rfl

/-- What is sought and not handed on is compiled. -/
theorem seek_eq (hunder : q.under? = none) :
    q.seek o s = (q.anew o s.loader s.compilations).map fun t =>
      (t, { s with compilations := s.compilations + 1 }) := by
  cases q with
  | named path =>
    simp only [seek, anew, Store.namedAs, bind, StateT.bind, Except.bind, Store.read]
    cases s.loader.read path with
    | error e => rfl
    | ok source => exact Store.build_eq o source path .standard s
  | indented path indent =>
    simp only [seek, anew, Store.indentedAs, bind, StateT.bind, Except.bind, Store.read]
    cases s.loader.read path with
    | error e => rfl
    | ok source => exact Store.build_eq o _ path .standard s
  | given source name d =>
    simp only [seek, anew, Store.compileText]
    split
    · exact Store.build_eq o source name d s
    · rfl
  | fragment text d file => exact Store.build_eq o text file d s
  | included | parent | target => cases hunder

end Request

/-! ## What happens to a store -/

/-- What a store may become while trees are asked for and names are looked up: compilations are
    counted, trees are kept under the keys of requests, and decisions about names are remembered. -/
inductive Store.Leads (o : Options) (s : Store) : Store → Prop
  | refl : Leads o s s
  | compiled {s' : Store} (h : Leads o s s') :
      Leads o s { s' with compilations := s'.compilations + 1 }
  | kept {s' : Store} (h : Leads o s s') (q : Request) (t : Template) :
      Leads o s (q.keep o t s').2
  | looked {s' : Store} (h : Leads o s s') (n : Node) (scopes : Scopes) :
      Leads o s (s'.lookup o n scopes).2

theorem Store.Leads.trans {o : Options} {s s' s'' : Store} (h : Leads o s s')
    (h' : Leads o s' s'') : Leads o s s'' := by
  induction h' with
  | refl => exact h
  | compiled _ ih => exact ih.compiled
  | kept _ q t ih => exact ih.kept q t
  | looked _ n scopes ih => exact ih.looked n scopes

namespace Request

variable {o : Options} {s s' : Store} {t : Template}

/-- Asking leads the store on if seeking does. -/
theorem leads_ask_of_seek {q : Request}
    (hseek : ∀ t s', q.seek o s = .ok (t, s') → Store.Leads o s s')
    (h : q.ask o s = .ok (t, s')) : Store.Leads o s s' := by
  cases hstanding : q.standing? s with
  | some t' =>
    rw [ask_of_standing hstanding] at h
    cases h
    exact .refl
  | none =>
    rw [ask_of_none hstanding] at h
    obtain ⟨⟨t', s''⟩, hok, heq⟩ := Code.exists_ok_of_map h
    obtain rfl : (q.keep o t' s'').2 = s' := congrArg Prod.snd heq
    exact .kept (hseek t' s'' hok) q t'

theorem leads_seek_of_under {q : Request} (hunder : q.under? = none)
    (h : q.seek o s = .ok (t, s')) : Store.Leads o s s' := by
  rw [seek_eq hunder] at h
  obtain ⟨t', -, heq⟩ := Code.exists_ok_of_map h
  cases heq
  exact .compiled .refl

/-- Asking for a tree leads the store on. -/
theorem leads_ask {q : Request} (h : q.ask o s = .ok (t, s')) : Store.Leads o s s' := by
  refine leads_ask_of_seek (fun t s' hseek => ?_) h
  cases hunder : q.under? with
  | none => exact leads_seek_of_under hunder hseek
  | some under =>
    obtain heq | ⟨_, _, -, -, hempty⟩ := seek_cases hunder o s
    · rw [heq] at hseek
      exact leads_ask_of_seek (fun _ _ => leads_seek_of_under (under?_under hunder)) hseek
    · rw [hempty] at hseek
      cases hseek
      exact .refl

end Request

/-! ## What is cached and what is remembered -/

namespace Request

variable {o : Options} {q under : Request} {s s' : Store} {t : Template}

/-- What a node remembers stands in no cache. -/
theorem caches_keep (hunder : q.under? = some under) (t : Template) (s : Store) :
    (q.keep o t s).2.templates = s.templates ∧ (q.keep o t s).2.indented = s.indented ∧
      (q.keep o t s).2.fragments = s.fragments := by
  cases q with
  | included | parent => exact ⟨rfl, rfl, rfl⟩
  | target p text =>
    simp only [keep, Store.countEviction]
    split <;> exact ⟨rfl, rfl, rfl⟩
  | _ => cases hunder

/-- A node that remembers no tree gets the one that is cached for it, and the caches stay as they
    are. -/
theorem exists_ask_of_under (hunder : q.under? = some under) (hnone : q.standing? s = none)
    (hstanding : under.standing? s = some t) :
    ∃ s', q.ask o s = .ok (t, s') ∧ s'.templates = s.templates ∧ s'.indented = s.indented ∧
      s'.fragments = s.fragments := by
  have hseek : q.seek o s = .ok (t, s) := by
    obtain heq | ⟨_, _, hmissing, -, -⟩ := seek_cases hunder o s
    · rw [heq, ask_of_standing hstanding]
    · rw [ask_of_standing hstanding] at hmissing
      cases hmissing
  have hkept : q.keep o t s = (t, (q.keep o t s).2) := Prod.ext (fst_keep hnone t) rfl
  exact ⟨(q.keep o t s).2, by rw [ask_of_none hnone, hseek, ← hkept]; rfl, caches_keep hunder t s⟩

end Request

end Mustache
