import Mustache.Proofs.Engine.Requests
import Mustache.Proofs.Render.Invariant
import Mustache.Proofs.Session.Transparency

/-! # What happens to a store

Rendering touches the store of an engine in two ways only: it asks for trees, and it looks names up.
That goes for whatever is rendered, with any handler and any data, however jobs are scheduled, and
also for renders that fail.  So what all such changes keep is kept by whole renders and by the
steps of a session.

* `World.leads_invariant` — all that rendering does leads the store on.
* `Template.leads_renderWithin` — so does a whole render.
* `Session.Changes` — all that a step of a session does to the store.
* `Store.Invariant` — what all of that keeps, and so any steps do (`Store.Invariant.after`).
-/

namespace Mustache

variable {o : Options}

/-! ## Rendering -/

/-- Whatever is loaded for a render is asked for. -/
theorem Store.Loads.exists_request {S : Site → Bool} {z z' : Store.Action Template}
    (h : Store.Loads o S z z') : ∃ q : Request, z = q.ask o := by
  cases h with
  | fragment text d file => exact ⟨.fragment text d file, rfl⟩
  | @included p _ _ => exact ⟨.included p, rfl⟩
  | @parent origin name _ _ => exact ⟨.parent origin name, rfl⟩
  | @target p text _ _ => exact ⟨.target p text, rfl⟩

/-- That a store has been led on is kept by all that a render does. -/
theorem World.leads_invariant (o : Options) (s : Store) :
    World.Invariant o (fun _ _ => true) fun _ w => Store.Leads o s w.store where
  inherited _ := Site.inherited_true
  grows _ _ h := h
  of_eq h hstore _ := hstore ▸ h
  load {m _ _ _ _ _} hz hload h := by
    obtain ⟨q, rfl⟩ := hz.exists_request
    exact ⟨m, Nat.le_refl _, Template.similar_refl _, h.trans (Request.leads_ask hload),
      fun _ h => h⟩
  lookup n scopes h := h.looked n scopes
  queued _ h := h
  taken {m _ _ job _ _} htake h := by
    obtain ⟨-, hstore, -⟩ := World.takeJob_eq htake
    exact ⟨m, Awaiting.Similar.refl_true job.awaiting, hstore ▸ h, fun _ h => h⟩

/-- A whole render leads the store on. -/
theorem Template.leads_renderWithin (n : Nat) (o : Options) (t : Template) (scopes : Scopes)
    (destination : Output) (store : Store) :
    Store.Leads o store (renderWithin n o t scopes destination store).final.store :=
  (World.leads_invariant o store).renderWithin (m := 0) (Code.allSimilar_refl t.codes) scopes .refl

/-! ## Sessions -/

namespace Session

variable {s : Session}

/-- All that a step does to the store of a session: it leads the store on, or the loader has other
    templates, or trees are forgotten. -/
def Changes (s s' : Session) : Prop :=
  s'.options = s.options ∧
    (Store.Leads s.options s.store s'.store ∨
      (∃ loader, s'.store = { s.store with loader }) ∨
      (∃ path, s'.store = s.store.invalidate path) ∨ s'.store = s.store.clear)

theorem Changes.refl (s : Session) : Changes s s := ⟨rfl, .inl .refl⟩

theorem changes_keep (handle : String) (q : Request) (s : Session) :
    Changes s (s.keep handle (q.ask s.options)).2 := by
  simp only [keep]
  cases hask : q.ask s.options s.store with
  | error e => exact .refl s
  | ok r => exact ⟨rfl, .inl (Request.leads_ask hask)⟩

theorem changes_render (s : Session) (t : Template) (scopes : Scopes) (destination : Output) :
    Changes s { s with
      store := (Template.render s.options t scopes destination s.store).final.store } :=
  ⟨rfl, .inl (Template.leads_renderWithin allowance s.options t scopes destination s.store)⟩

theorem changes_deliver (t : Template) (scopes : Scopes) (delivery : Delivery) (s : Session) :
    Changes s (s.deliver t scopes delivery).2 := by
  cases delivery with
  | asWritten destination => exact changes_render s t scopes destination
  | whole destination =>
    have hrender := changes_render s t scopes (.buffer "")
    simp only [deliver, Template.renderWhole]
    cases (Template.renderText s.options t scopes s.store).1 <;> exact hrender

theorem changes_recover (t : Template) (text : String) (s : Session) :
    Changes s (s.recover t text).2 := by
  simp only [recover]
  cases Template.invert t text with
  | none => exact .refl s
  | some v => exact changes_render s t (.ofList [v]) (.buffer "")

theorem changes_withTemplate (handle : String) {f : Template → Answer × Session}
    (hf : ∀ t, Changes s (f t).2) : Changes s (s.withTemplate handle f).2 := by
  simp only [withTemplate]
  cases s.templates.get? handle with
  | none => exact .refl s
  | some t => exact hf t

theorem changes_perform (s : Session) (step : Step) : Changes s (s.perform step).2 := by
  cases step with
  | insert | remove => exact ⟨rfl, .inr (.inl ⟨_, rfl⟩)⟩
  | compile name handle => exact changes_keep handle (.named name) s
  | compileText source file d handle => exact changes_keep handle (.given source file d) s
  | render handle scopes delivery =>
    exact changes_withTemplate handle fun t => changes_deliver t scopes delivery s
  | invert handle text => exact changes_withTemplate handle fun t => changes_recover t text s
  | print handle | source handle | memory handle | inspect handle =>
    exact changes_withTemplate handle fun _ => .refl s
  | invalidate path => exact ⟨rfl, .inr (.inr (.inl ⟨path, rfl⟩))⟩
  | clear => exact ⟨rfl, .inr (.inr (.inr rfl))⟩

end Session

/-- A property of stores that is kept by all that can happen to a store. -/
structure Store.Invariant (o : Options) (P : Store → Prop) : Prop where
  compiled : ∀ s : Store, P s → P { s with compilations := s.compilations + 1 }
  kept : ∀ (q : Request) (t : Template) (s : Store), P s → P (q.keep o t s).2
  looked : ∀ (n : Node) (scopes : Scopes) (s : Store), P s → P (s.lookup o n scopes).2
  supplied : ∀ (loader : Loader) (s : Store), P s → P { s with loader }
  invalidated : ∀ (path : String) (s : Store), P s → P (s.invalidate path)
  cleared : ∀ s : Store, P s → P s.clear

namespace Store.Invariant

variable {P : Store → Prop} (h : Store.Invariant o P)
include h

theorem leads {s s' : Store} (hleads : Store.Leads o s s') (hs : P s) : P s' := by
  induction hleads with
  | refl => exact hs
  | compiled _ ih => exact h.compiled _ ih
  | kept _ q t ih => exact h.kept q t _ ih
  | looked _ n scopes ih => exact h.looked n scopes _ ih

theorem perform {s : Session} (hoptions : s.options = o) (hs : P s.store) (step : Step) :
    P (s.perform step).2.store := by
  obtain ⟨-, hleads | ⟨loader, heq⟩ | ⟨path, heq⟩ | heq⟩ := Session.changes_perform s step
  · exact h.leads (hoptions ▸ hleads) hs
  · exact heq ▸ h.supplied loader s.store hs
  · exact heq ▸ h.invalidated path s.store hs
  · exact heq ▸ h.cleared s.store hs

/-- What all that can happen to a store keeps holds after any steps. -/
theorem after {s : Session} (hoptions : s.options = o) (hs : P s.store) (steps : List Step) :
    P (s.after steps).store := by
  induction steps generalizing s with
  | nil => exact hs
  | cons step steps ih =>
    exact ih ((Session.changes_perform s step).1.trans hoptions) (h.perform hoptions hs step)

end Store.Invariant

end Mustache
