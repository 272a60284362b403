import Mustache.Proofs.Render.Coupling
import Mustache.Proofs.Render.Tidy

/-! # Families of renders

Renders of the same trees by several renderers, without a schedule and without template lambdas.  A
property of the family of what the renderers do, such as that they all do the same, goes through the
rules if it goes through the basic actions.

Each rule is told what it needs of the trees that it renders and of the values that it may have to
wait for, and of nothing else.  So the rules serve an induction over trees as well as one over the
allowance of nesting.

* `Uniform` — a property that goes through the basic actions.
* `Uniform.Renders`, `Uniform.Resumes` — the property of rendering a tree, and of going on with a
  value, at a depth of inclusions.
* `Uniform.nodeWith`, `Uniform.resumeWith` — the rules keep it.
-/

namespace Mustache

/-- A property of families of actions that goes through the basic actions. -/
structure Uniform (ι : Type) (o : Options) (V : Value → Prop)
    (R : (ι → Writer → Render Writer) → Prop) : Prop where
  keeps : o.handler.Keeps V
  unscheduled : o.schedule = none
  text : ∀ f, V (.lambda f) → f.kind = .text
  skip : R fun _ out => pure out
  fail : ∀ e, R fun _ _ => Render.fail e
  seq : ∀ {x y}, R x → R y → R fun i out => x i out >>= y i
  write : ∀ text, R fun _ out => do Render.write text out; return out
  load : ∀ (z : Store.Action Template) {y : Template → ι → Writer → Render Writer},
    (∀ t, R (y t)) → R fun i out => do let t ← Render.withStore z; y t i out
  lookup : ∀ {y : Lookup.Hit → ι → Writer → Render Writer} (n : Node) (scopes : Scopes),
    scopes.All V → (∀ hit, V hit.value → R (y hit)) →
    R fun i out => do let hit ← Render.lookup o n scopes; y hit i out
  captured : ∀ {x} {y : String → ι → Writer → Render Writer}, R x → (∀ text, R (y text)) →
    R fun i out => do let text ← Render.captured (x i); y text i out
  run : ∀ {y : Value → ι → Writer → Render Writer} (d : Deferred Value) (name : String),
    V (.deferred d) → (∀ v n, d.outcome n = .value v → V v → R (y v)) →
    R fun i out => do let v ← Render.runFor d name; y v i out

namespace Uniform

variable {ι : Type} {o : Options} {V : Value → Prop} {R : (ι → Writer → Render Writer) → Prop}

/-- Rendering a tree at a depth of inclusions has the property. -/
def Renders (V : Value → Prop) (R : (ι → Writer → Render Writer) → Prop) (rs : ι → Renderer)
    (depth : Nat) (codes : List Code) : Prop :=
  ∀ (scopes : Scopes) (cx : Context), scopes.All V → cx.depth = depth →
    R fun i => (rs i).nodes codes scopes cx

/-- Going on with a value at a depth of inclusions has the property. -/
def Resumes (V : Value → Prop) (R : (ι → Writer → Render Writer) → Prop) (rs : ι → Renderer)
    (depth : Nat) (k : Awaiting) (v : Value) : Prop :=
  ∀ (scopes : Scopes) (cx : Context), scopes.All V → cx.depth = depth →
    R fun i => (rs i).resume k v scopes cx

/-- Whatever is rendered once a value is there has the property. -/
def Ready (V : Value → Prop) (R : (ι → Writer → Render Writer) → Prop) (rs : ι → Renderer)
    (depth : Nat) : Awaiting → Prop
  | .value _ => True
  | .sect s => Renders V R rs depth s.body
  | .inclusion codes => Renders V R rs depth codes
  | .dynamic _ => ∀ codes, Renders V R rs depth codes

/-- Whatever is done at a depth of inclusions has the property. -/
structure Level (V : Value → Prop) (R : (ι → Writer → Render Writer) → Prop) (rs : ι → Renderer)
    (depth : Nat) : Prop where
  renders : ∀ codes, Renders V R rs depth codes
  resumes : ∀ k v, V v → Resumes V R rs depth k v

theorem Ready.of_renders {rs : ι → Renderer} {depth : Nat}
    (h : ∀ codes, Renders V R rs depth codes) (k : Awaiting) : Ready V R rs depth k := by
  cases k with
  | value v => trivial
  | sect s => exact h s.body
  | inclusion codes => exact h codes
  | dynamic p => exact h

variable (h : Uniform ι o V R) {rs : ι → Renderer} {scopes : Scopes} (hscopes : scopes.All V)
  (cx : Context)
include h

theorem thread {α : Type} {f : ι → α → Writer → Render Writer} {as : List α}
    (hall : ∀ a ∈ as, R fun i => f i a) : R fun i => Render.thread (f i) as := by
  induction as with
  | nil => exact h.skip
  | cons a as ih =>
    simp only [Render.thread_cons]
    exact h.seq (hall a List.mem_cons_self) (ih fun b hb => hall b (List.mem_cons_of_mem _ hb))

theorem nodes {codes : List Code}
    (hall : ∀ c ∈ codes, R fun i out => (rs i).node c scopes cx out) :
    R fun i => (rs i).nodes codes scopes cx :=
  h.thread hall

omit h in
theorem ite {b : Bool} {x y : ι → Writer → Render Writer} (hx : R x) (hy : R y) :
    R fun i out => if b then x i out else y i out := by
  cases b with
  | true => exact hx
  | false => exact hy

theorem writeValue (v : Interpolation) (text : String) :
    R fun _ => Renderer.writeValue o v text :=
  ite h.skip (h.write _)

include hscopes

/-- A deferred computation runs where it is met. -/
theorem defer {d : Deferred Value} {k : Awaiting} (name : String) (hd : V (.deferred d))
    (hresume : ∀ v n, d.outcome n = .value v → V v → Resumes V R rs cx.depth k v) :
    R fun i => (rs i).defer o d name k scopes cx := by
  have hschedule : cx.schedule? o = none :=
    Context.schedule?_eq_none_iff.mpr (.inr h.unscheduled)
  have hrun := h.run d name hd fun v n hv hV => hresume v n hv hV scopes cx hscopes rfl
  simp only [Renderer.defer_inline hschedule]
  exact hrun

section Values

variable {x : Value} (hx : V x)
include hx

theorem value {v : Interpolation} (hresume : ∀ d w n, o.handler.coerce x = .deferred d →
      d.outcome n = .value w → V w → Resumes V R rs cx.depth (.value v) w) :
    R fun i => (rs i).value o v x scopes cx := by
  have hcoerce := h.keeps.coerce hx
  unfold Renderer.value
  cases hc : o.handler.coerce x with
  | null => exact h.skip
  | deferred d =>
    exact h.defer hscopes cx v.name (hc ▸ hcoerce) fun w n => hresume d w n hc
  | lambda f =>
    simp only [h.text f (hc ▸ hcoerce)]
    exact h.writeValue v _
  | _ => exact h.writeValue v _

theorem sect {s : Section Code} (hbody : Renders V R rs cx.depth s.body)
    (hresume : ∀ d w n, o.handler.coerce x = .deferred d → d.outcome n = .value w → V w →
      Resumes V R rs cx.depth (.sect s) w) :
    R fun i => (rs i).sect o s x scopes cx := by
  have hcoerce := h.keeps.coerce hx
  have hhere := hbody scopes cx hscopes rfl
  unfold Renderer.sect
  cases hc : o.handler.coerce x with
  | deferred d =>
    exact h.defer hscopes cx s.name (hc ▸ hcoerce) fun w n => hresume d w n hc
  | lambda f =>
    simp only [Renderer.sectionLambda, h.text f (hc ▸ hcoerce)]
    exact ite (ite hhere h.skip)
      (h.captured (hbody scopes cx.inline hscopes rfl) fun text => h.write _)
  | _ =>
    rw [hc] at hcoerce
    exact ite (ite hhere h.skip) (ite h.skip (h.thread fun item hitem =>
      hbody (scopes.push item) cx (hscopes.push (h.keeps.elements hcoerce hitem)) rfl))

omit h in
theorem withScope {codes : List Code} (hcodes : Renders V R rs cx.depth codes) :
    R fun i => (rs i).withScope codes x scopes cx :=
  ite (hcodes scopes cx hscopes rfl) (hcodes (scopes.push x) cx (hscopes.push hx) rfl)

theorem dynamic {p : Inclusion} (hcodes : ∀ codes, Renders V R rs cx.depth codes)
    (hresume : ∀ d w n, o.handler.coerce x = .deferred d → d.outcome n = .value w → V w →
      Resumes V R rs cx.depth (.dynamic p) w) :
    R fun i => (rs i).dynamic o p x scopes cx := by
  have hcoerce := h.keeps.coerce hx
  unfold Renderer.dynamic
  cases hc : o.handler.coerce x with
  | deferred d =>
    exact h.defer hscopes cx p.name (hc ▸ hcoerce) fun w n => hresume d w n hc
  | _ => exact ite h.skip (h.load _ fun t => hcodes t.codes scopes cx hscopes rfl)

theorem resumeWith {k : Awaiting} (hk : Ready V R rs cx.depth k)
    (hresume : ∀ d w n, o.handler.coerce x = .deferred d → d.outcome n = .value w → V w →
      Resumes V R rs cx.depth k w) :
    R fun i => (rs i).resumeWith o k x scopes cx := by
  cases k with
  | value v => exact h.value hscopes cx hx hresume
  | sect s => exact h.sect hscopes cx hx hk hresume
  | inclusion codes => exact withScope hscopes cx hx hk
  | dynamic p => exact h.dynamic hscopes cx hx hk hresume

end Values

theorem lookupTag (origin : Origin) (name : String) {y : Value → ι → Writer → Render Writer}
    (hy : ∀ v, V v → R (y v)) :
    R (fun i out => do let v ← Render.lookupTag o origin name scopes; y v i out) := by
  simp only [Render.lookupTag_bind]
  exact h.lookup _ scopes hscopes fun hit hhit => ite (h.fail _) (hy hit.value hhit)

section Inclusions

variable (hdeeper : cx.depth < o.recursionLimit → Level V R rs (cx.depth + 1))
include hdeeper

omit hscopes in
/-- An inclusion is entered one deeper, or not at all. -/
theorem enter (name file : String) (line : Nat) {y : Context → ι → Writer → Render Writer}
    (hy : ∀ cx' : Context, Level V R rs cx'.depth → R (y cx')) :
    R (fun i out => do let cx ← Render.ofExcept (cx.enter o name file line); y cx i out) := by
  unfold Context.enter
  split
  · exact h.fail _
  · next hlt => exact hy { cx with depth := cx.depth + 1 } (hdeeper (Nat.lt_of_not_le hlt))

theorem inclusion (p : Inclusion) : R fun i => (rs i).inclusion o p scopes cx := by
  refine h.enter cx hdeeper p.name p.origin.file p.origin.line fun cx' hlevel => ?_
  refine h.load _ fun t => h.lookup p.node scopes hscopes fun hit hhit => ?_
  have hcoerce := h.keeps.coerce hhit
  cases hc : o.handler.coerce hit.value with
  | deferred d =>
    exact h.defer hscopes cx' p.name (hc ▸ hcoerce) fun w _ _ =>
      hlevel.resumes (.inclusion t.codes) w
  | _ => exact withScope hscopes cx' (hc ▸ hcoerce) (hlevel.renders t.codes)

theorem dynamicTag (p : Inclusion) :
    R (fun i out => do
      let cx ← Render.ofExcept (cx.enter o p.name p.origin.file p.origin.line)
      let hit ← Render.lookup o p.node scopes
      (rs i).dynamic o p hit.value scopes cx out) := by
  refine h.enter cx hdeeper p.name p.origin.file p.origin.line fun cx' hlevel => ?_
  exact h.lookup p.node scopes hscopes fun hit hhit =>
    h.dynamic hscopes cx' hhit hlevel.renders fun _ w _ _ _ => hlevel.resumes (.dynamic p) w

theorem extend (e : Extension Code) : R fun i => (rs i).extend o e scopes cx := by
  refine h.enter cx hdeeper e.name e.origin.file e.origin.line fun cx' hlevel => ?_
  exact h.load _ fun t => ite (h.fail _) (hlevel.renders _ scopes cx' hscopes rfl)

/-- Rendering a node has the property, if whatever is done one inclusion deeper has, and rendering
    what stands in the node. -/
theorem nodeWith {c : Code}
    (hresume : ∀ k v, V v → Ready V R rs cx.depth k → Resumes V R rs cx.depth k v)
    (hsect : ∀ s, c = .sect s → Renders V R rs cx.depth s.body)
    (hblock : ∀ b, c = .block b → Renders V R rs cx.depth b.body) :
    R fun i => (rs i).nodeWith o c scopes cx := by
  cases c with
  | text s => exact h.write s
  | value v =>
    exact h.lookupTag hscopes v.origin v.name fun x hx =>
      h.value hscopes cx hx fun _ w _ _ _ hw => hresume (.value v) w hw trivial
  | sect s =>
    have hbody := hsect s rfl
    exact h.lookupTag hscopes s.origin s.name fun x hx =>
      h.sect hscopes cx hx hbody fun _ w _ _ _ hw => hresume (.sect s) w hw hbody
  | inclusion p => exact h.inclusion hscopes cx hdeeper p
  | dynamic p => exact h.dynamicTag hscopes cx hdeeper p
  | extend e => exact h.extend hscopes cx hdeeper e
  | block b => exact hblock b rfl scopes cx hscopes rfl
  | eof => exact h.skip

end Inclusions

end Uniform

end Mustache
