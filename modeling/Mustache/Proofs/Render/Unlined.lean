import Mustache.Proofs.Code.Unlined
import Mustache.Proofs.Render.Plain

/-! # Rendering without lines

The line of a tag is told where the tag is at fault, and shows nowhere else.  Two trees that are the
same but for their lines are rendered to the same texts, and come to the same end, but for the line
that an error tells.

* `Stop.unlined`, `SameButLines` — endings without lines.
* `Plain.Unlined` — plain actions that do the same, but for lines.
* `Plain.Renderer.Unlined.nodes_congr` — rendering two trees that are the same without their lines.
* `Plain.unlined_within` — plain renderers do render them alike.
-/

namespace Mustache

open Code (adjust? adjustAll adjustBlocks)

/-! ## Endings -/

/-- An error without the line of the tag that it is about. -/
def RenderError.unlined : RenderError → RenderError
  | .recursionLimit name limit file _ => .recursionLimit name limit file 0
  | .missing name file _ => .missing name file 0
  | e => e

def Stop.unlined : Stop → Stop
  | .error (.render e) => .error (.render e.unlined)
  | e => e

/-- Only the exhausted allowance is the exhausted allowance without lines. -/
theorem Stop.eq_exhausted {e : Stop} (h : e.unlined = Stop.exhausted.unlined) : e = .exhausted := by
  unfold unlined at h
  split at h
  · cases h
  · exact h

/-- Two answers are the same, but for the line that an error tells. -/
def SameButLines {α : Type} (r r' : Except Stop α) : Prop :=
  (∃ a, r = .ok a ∧ r' = .ok a) ∨ ∃ e e', r = .error e ∧ r' = .error e' ∧ e.unlined = e'.unlined

namespace SameButLines

variable {α : Type} {r r' r'' : Except Stop α}

theorem refl (r : Except Stop α) : SameButLines r r := by
  cases r with
  | ok a => exact .inl ⟨a, rfl, rfl⟩
  | error e => exact .inr ⟨e, e, rfl, rfl, rfl⟩

theorem symm (h : SameButLines r r') : SameButLines r' r := by
  obtain ⟨a, h, h'⟩ | ⟨e, e', h, h', he⟩ := h
  · exact .inl ⟨a, h', h⟩
  · exact .inr ⟨e', e, h', h, he.symm⟩

theorem trans (h : SameButLines r r') (h' : SameButLines r' r'') : SameButLines r r'' := by
  obtain ⟨a, rfl, rfl⟩ | ⟨e, e', rfl, rfl, he⟩ := h
  · exact h'
  · obtain ⟨a, h, -⟩ | ⟨e₁, e₂, h, rfl, he'⟩ := h'
    · cases h
    · cases h
      exact .inr ⟨_, _, rfl, rfl, he.trans he'⟩

end SameButLines

/-! ## Parts of a tree -/

def Interpolation.unlined (v : Interpolation) : Interpolation :=
  { v with origin := v.origin.unlined }

def Inclusion.unlined (p : Inclusion) : Inclusion :=
  { p with origin := p.origin.unlined }

def Section.unlined (s : Section Code) : Section Code :=
  { s with origin := s.origin.unlined, body := adjustAll .unlined s.body }

def Extension.unlined (e : Extension Code) : Extension Code :=
  { e with
    origin := e.origin.unlined
    body := adjustAll .unlined e.body
    replacements := adjustBlocks .unlined e.replacements }

def Awaiting.unlined : Awaiting → Awaiting
  | .value v => .value v.unlined
  | .sect s => .sect s.unlined
  | .inclusion codes => .inclusion (adjustAll .unlined codes)
  | .dynamic p => .dynamic p.unlined

namespace Plain

variable {σ α β : Type}

/-! ## Actions -/

/-- The second action does what the first one does, but for the lines that errors tell. -/
def Unlined (p p' : Plain σ α) : Prop :=
  ∀ s, (p s).1 = (p' s).1 ∧ SameButLines (p s).2.1 (p' s).2.1 ∧ (p s).2.2 = (p' s).2.2

namespace Unlined

variable {p p' p'' : Plain σ α} {q q' : α → Plain σ β}

theorem refl (p : Plain σ α) : Unlined p p := fun _ => ⟨rfl, .refl _, rfl⟩

theorem symm (h : Unlined p p') : Unlined p' p := fun s =>
  ⟨(h s).1.symm, (h s).2.1.symm, (h s).2.2.symm⟩

theorem trans (h : Unlined p p') (h' : Unlined p' p'') : Unlined p p'' := fun s =>
  ⟨(h s).1.trans (h' s).1, (h s).2.1.trans (h' s).2.1, (h s).2.2.trans (h' s).2.2⟩

theorem stop {e e' : Stop} (h : e.unlined = e'.unlined) :
    Unlined (Plain.stop e : Plain σ α) (Plain.stop e') :=
  fun _ => ⟨rfl, .inr ⟨e, e', rfl, rfl, h⟩, rfl⟩

theorem bind (hp : Unlined p p') (hq : ∀ a, Unlined (q a) (q' a)) :
    Unlined (p >>= q) (p' >>= q') := by
  intro s
  have hps := hp s
  rcases hrun : p s with ⟨texts, r, s'⟩
  rcases hrun' : p' s with ⟨texts', r', s''⟩
  rw [hrun, hrun'] at hps
  obtain ⟨rfl, ⟨a, rfl, rfl⟩ | ⟨e, e', rfl, rfl, he⟩, rfl⟩ := hps
  · obtain ⟨htexts, hend, hstate⟩ := hq a s'
    simp only [Bind.bind, hrun, hrun']
    exact ⟨congrArg (texts ++ ·) htexts, hend, hstate⟩
  · simp only [Bind.bind, hrun, hrun']
    exact ⟨trivial, .inr ⟨e, e', rfl, rfl, he⟩, trivial⟩

theorem captured {p p' : Plain σ Unit} (hp : Unlined p p') :
    Unlined (Plain.captured p) (Plain.captured p') := by
  intro s
  have hps := hp s
  rcases hrun : p s with ⟨texts, r, s'⟩
  rcases hrun' : p' s with ⟨texts', r', s''⟩
  rw [hrun, hrun'] at hps
  obtain ⟨rfl, ⟨a, rfl, rfl⟩ | ⟨e, e', rfl, rfl, he⟩, rfl⟩ := hps
  · simp only [Plain.captured, hrun, hrun']
    exact ⟨trivial, .refl _, trivial⟩
  · simp only [Plain.captured, hrun, hrun']
    exact ⟨trivial, .inr ⟨e, e', rfl, rfl, he⟩, trivial⟩

theorem each {p p' : α → Plain σ Unit} (hp : ∀ a, Unlined (p a) (p' a)) (as : List α) :
    Unlined (Plain.each p as) (Plain.each p' as) := by
  induction as with
  | nil => exact refl _
  | cons a as ih => exact (hp a).bind fun _ => ih

theorem ite {c : Prop} [Decidable c] {p p' q q' : Plain σ α} (hp : Unlined p p')
    (hq : Unlined q q') : Unlined (if c then p else q) (if c then p' else q') := by
  split
  · exact hp
  · exact hq

end Unlined

theorem unlined_lookupTag (o : Options) (origin : Origin) (name : String) (scopes : Scopes) :
    Unlined (lookupTag o origin name scopes : Plain σ Value)
      (lookupTag o origin.unlined name scopes) :=
  .ite (.stop rfl) (.refl _)

theorem unlined_enter (o : Options) (cx : Context) (name : String) (origin : Origin) :
    Unlined (enter o cx name origin : Plain σ Context) (enter o cx name origin.unlined) := by
  unfold enter Context.enter
  split
  · exact .stop rfl
  · exact .refl _

/-! ## The rules -/

/-- What is nested in a node is rendered as it is without its lines. -/
structure Renderer.Unlined (r : Renderer σ) : Prop where
  node : ∀ {c c'} (scopes cx), adjust? .unlined c = some c' →
    Plain.Unlined (r.node c scopes cx) (r.node c' scopes cx)
  resume : ∀ k v scopes cx,
    Plain.Unlined (r.resume k v scopes cx) (r.resume k.unlined v scopes cx)

/-- Every node is there without its lines. -/
theorem exists_unlined (c : Code) : ∃ c', adjust? .unlined c = some c' := by
  cases c <;> exact ⟨_, rfl⟩

namespace Renderer.Unlined

variable {o : Options} {l : Loader} {q : Oracle σ} {r : Renderer σ} (h : r.Unlined)
include h

theorem nodes (codes : List Code) (scopes : Scopes) (cx : Context) :
    Plain.Unlined (r.nodes codes scopes cx) (r.nodes (adjustAll .unlined codes) scopes cx) := by
  induction codes with
  | nil => exact .refl _
  | cons c cs ih =>
    obtain ⟨c', hc⟩ := exists_unlined c
    rw [adjustAll, hc]
    exact (h.node scopes cx hc).bind fun _ => ih

/-- Trees that are the same without their lines are rendered alike. -/
theorem nodes_congr {codes codes' : List Code}
    (hcodes : adjustAll .unlined codes = adjustAll .unlined codes') (scopes : Scopes)
    (cx : Context) : Plain.Unlined (r.nodes codes scopes cx) (r.nodes codes' scopes cx) := by
  have hleft := h.nodes codes scopes cx
  rw [hcodes] at hleft
  exact hleft.trans (h.nodes codes' scopes cx).symm

theorem capture (codes : List Code) (scopes : Scopes) (cx : Context) :
    Plain.Unlined (r.capture codes scopes cx) (r.capture (adjustAll .unlined codes) scopes cx) :=
  .captured (h.nodes codes scopes cx.inline)

theorem await (d : Deferred Value) (name : String) (k : Awaiting) (scopes : Scopes)
    (cx : Context) :
    Plain.Unlined (r.await q d name k scopes cx) (r.await q d name k.unlined scopes cx) :=
  .bind (.refl _) fun v => h.resume k v scopes cx

theorem value (v : Interpolation) (x : Value) (scopes : Scopes) (cx : Context) :
    Plain.Unlined (r.value o q v x scopes cx) (r.value o q v.unlined x scopes cx) := by
  simp only [Renderer.value]
  cases o.handler.coerce x with
  | deferred d => exact h.await d v.name (.value v) scopes cx
  | _ => exact .refl _

theorem sectionLambda (s : Section Code) (f : Lambda) (scopes : Scopes) (cx : Context) :
    Plain.Unlined (r.sectionLambda o s f scopes cx) (r.sectionLambda o s.unlined f scopes cx) := by
  simp only [Renderer.sectionLambda]
  cases f.kind with
  | text => exact .bind (h.capture s.body scopes cx) fun _ => .refl _
  | template => exact .refl _

theorem sect (s : Section Code) (x : Value) (scopes : Scopes) (cx : Context) :
    Plain.Unlined (r.sect o q s x scopes cx) (r.sect o q s.unlined x scopes cx) := by
  have hfalsey := Plain.Unlined.ite (c := o.handler.isFalsey (o.handler.coerce x) = true)
    (h.nodes s.body scopes cx) (.refl (pure ()))
  simp only [Renderer.sect]
  cases hx : o.handler.coerce x with
  | deferred d => exact h.await d s.name (.sect s) scopes cx
  | lambda f => exact .ite (hx ▸ hfalsey) (h.sectionLambda s f scopes cx)
  | _ =>
    exact .ite (hx ▸ hfalsey) (.ite (.refl _)
      (.each (fun item => h.nodes s.body (scopes.push item) cx) _))

theorem withScope (codes : List Code) (x : Value) (scopes : Scopes) (cx : Context) :
    Plain.Unlined (r.withScope codes x scopes cx)
      (r.withScope (adjustAll .unlined codes) x scopes cx) :=
  .ite (h.nodes codes scopes cx) (h.nodes codes (scopes.push x) cx)

omit h in
theorem inclusion (p : Inclusion) (scopes : Scopes) (cx : Context) :
    Plain.Unlined (r.inclusion o l q p scopes cx) (r.inclusion o l q p.unlined scopes cx) :=
  .bind (unlined_enter o cx p.name p.origin) fun _ => .refl _

theorem dynamic (p : Inclusion) (x : Value) (scopes : Scopes) (cx : Context) :
    Plain.Unlined (r.dynamic o l q p x scopes cx) (r.dynamic o l q p.unlined x scopes cx) := by
  simp only [Renderer.dynamic]
  cases o.handler.coerce x with
  | deferred d => exact h.await d p.name (.dynamic p) scopes cx
  | _ => exact .refl _

omit h in
/-- Without lines, the same replacements find no use in a parent. -/
theorem extended_unlined (e : Extension Code) (parent : Template) :
    (Mustache.Renderer.extended e.unlined parent).2 = (Mustache.Renderer.extended e parent).2 := by
  -- Which replacements find a use is told by names alone.
  have hused : (Code.substitute e.origin.unlined.site (adjustBlocks .unlined e.replacements)
      parent.codes).used = (Code.substitute e.origin.site e.replacements parent.codes).used := by
    rw [← Code.used_adjustAll .unlined e.origin.unlined.site, Code.adjustBlocks_unlined_unlined,
      Code.used_adjustAll .unlined _ e.origin.site]
  simp only [Mustache.Renderer.extended, Extension.unlined, hused, Code.name_adjustBlocks]

/-- The replacements of an extension are put in without their lines, into the same parent. -/
theorem extend (e : Extension Code) (scopes : Scopes) (cx : Context) :
    Plain.Unlined (r.extend o l e scopes cx) (r.extend o l e.unlined scopes cx) := by
  refine .bind (unlined_enter o cx e.name e.origin) fun cx => .bind (.refl _) fun parent => ?_
  rw [extended_unlined]
  refine .ite (.refl _) (h.nodes_congr ?_ scopes cx)
  rw [Code.adjustAll_rebuildAll, Code.adjustAll_rebuildAll, Extension.unlined,
    Code.adjustBlocks_unlined_unlined]

theorem resumeWith (k : Awaiting) (x : Value) (scopes : Scopes) (cx : Context) :
    Plain.Unlined (r.resumeWith o l q k x scopes cx)
      (r.resumeWith o l q k.unlined x scopes cx) := by
  cases k with
  | value v => exact h.value v x scopes cx
  | sect s => exact h.sect s x scopes cx
  | inclusion codes => exact h.withScope codes x scopes cx
  | dynamic p => exact h.dynamic p x scopes cx

theorem nodeWith {c c' : Code} (scopes : Scopes) (cx : Context)
    (hc : adjust? .unlined c = some c') :
    Plain.Unlined (r.nodeWith o l q c scopes cx) (r.nodeWith o l q c' scopes cx) := by
  cases c with
  | text s => cases hc; exact .refl _
  | value v =>
    cases hc
    exact .bind (unlined_lookupTag o v.origin v.name scopes) fun x => h.value v x scopes cx
  | sect s =>
    cases hc
    exact .bind (unlined_lookupTag o s.origin s.name scopes) fun x => h.sect s x scopes cx
  | inclusion p => cases hc; exact inclusion p scopes cx
  | dynamic p =>
    cases hc
    exact .bind (unlined_enter o cx p.name p.origin) fun cx => h.dynamic p _ scopes cx
  | extend e => cases hc; exact h.extend e scopes cx
  | block b => cases hc; exact h.nodes b.body scopes cx
  | eof => cases hc; exact .refl _

end Renderer.Unlined

/-- **Lines show nowhere but in errors.**  Rendering a tree does what rendering it without its lines
    does, with every allowance of nesting. -/
theorem unlined_within (o : Options) (l : Loader) (q : Oracle σ) (n : Nat) :
    (within o l q n).Unlined := by
  induction n with
  | zero => exact ⟨fun _ _ _ => .refl _, fun _ _ _ _ => .refl _⟩
  | succ n ih =>
    exact ⟨fun scopes cx hc => ih.nodeWith scopes cx hc, fun k v scopes cx =>
      ih.resumeWith k v scopes cx⟩

end Plain

end Mustache
