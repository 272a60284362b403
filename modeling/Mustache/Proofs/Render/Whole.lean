import Mustache.Proofs.Render.Inline
import Mustache.Render.Whole

/-! # Whole renders without a schedule

A whole render without a schedule, whatever its store remembers, comes to what the plain render
comes to, and keeps its store faithful.

* `Plain.Report` — what can be seen of a whole render.
* `Template.renderWithin_eq` — a render with any faithful store.
-/

namespace Mustache

/-- What can be seen of a whole render: what was handed on, how it ended, and the destination. -/
structure Plain.Report where
  handedOn : Except Stop Writer
  result : Except Stop Unit
  destination : Output

/-- What can be seen of a render that gave texts to a destination and came to an end. -/
def Plain.report (destination : Output) (texts : List String) (ending : Except Stop Unit) :
    Plain.Report :=
  match destination.feed texts with
  | (some cause, dest) =>
    ⟨.error (.error (Streams.refusal cause)), .error (.error (Streams.refusal cause)), dest⟩
  | (none, dest) =>
    ⟨ending.map fun _ => .direct 0,
      ending.bind fun _ =>
        match dest.flushRefusal with
        | some cause => .error (.error (Streams.refusal cause))
        | none => .ok (),
      dest⟩

/-- What can be seen of the plain render of a tree. -/
def Plain.renderWithin (n : Nat) (o : Options) (l : Loader) (codes : List Code) (scopes : Scopes)
    (destination : Output) : Plain.Report :=
  let (texts, ending, _) := (Plain.within o l .counting n).nodes codes scopes .start []
  Plain.report destination texts ending

/-- How many templates the caches hold, and when deferred computations run, plays no part in plain
    rendering. -/
theorem Plain.within_engine {σ : Type} (o : Options) (l : Loader) (q : Oracle σ)
    (limit : Option Nat) (schedule : Option Schedule) (n : Nat) :
    Plain.within { o with cacheLimit := limit, schedule := schedule } l q n =
      Plain.within o l q n := by
  let o' : Options := { o with cacheLimit := limit, schedule := schedule }
  change Plain.within o' l q n = Plain.within o l q n
  induction n with
  | zero => rfl
  | succ n ih =>
    have hnode : Plain.nodeWithin o' l q (n + 1) = Plain.nodeWithin o l q (n + 1) := by
      funext c scopes cx
      change Plain.Renderer.nodeWith o' l q (Plain.within o' l q n) c scopes cx = _
      rw [ih]
      rfl
    have hresume : Plain.resumeWithin o' l q (n + 1) = Plain.resumeWithin o l q (n + 1) := by
      funext k x scopes cx
      change Plain.Renderer.resumeWith o' l q (Plain.within o' l q n) k x scopes cx = _
      rw [ih]
      rfl
    rw [Plain.within, Plain.within, hnode, hresume]

theorem Plain.renderWithin_cacheLimit (limit : Option Nat) (n : Nat) (o : Options) (l : Loader)
    (codes : List Code) (scopes : Scopes) (dest : Output) :
    Plain.renderWithin n { o with cacheLimit := limit } l codes scopes dest =
      Plain.renderWithin n o l codes scopes dest := by
  rw [Plain.renderWithin, Plain.within_engine o l .counting limit o.schedule]
  rfl

namespace Template

def Report.seen (r : Template.Report) : Plain.Report :=
  ⟨r.handedOn, r.result, destination r.final⟩

variable {o : Options} {l : Loader} {store : Store}

theorem renderWithin_of_none (hschedule : o.schedule = none) (n : Nat) (t : Template)
    (scopes : Scopes) (dest : Output) :
    renderWithin n o t scopes dest store =
      let r := (Renderer.within o n).nodes t.codes scopes .start (.direct 0)
        (.start store ⟨[dest], []⟩)
      ⟨r.1, r.2, [], match r.1 with
        | .ok out => (Render.finish out r.2).1
        | .error e => .error e⟩ := by
  simp only [renderWithin, hschedule]
  rfl

theorem renderWithin_of_some {schedule : Schedule} {n : Nat} {t : Template} {scopes : Scopes}
    (hschedule : o.schedule = some schedule) (dest : Output) :
    renderWithin n o t scopes dest store =
      let r := (Renderer.within o n).nodes t.codes scopes .start (.direct 0)
        (.start store ⟨[dest], []⟩)
      let drained := r.2.drain (Renderer.within o n) schedule n 0
      ⟨r.1, r.2, drained, match r.1 with
        | .ok out => (Render.finish out (drained.getLastD r.2)).1
        | .error e => .error e⟩ := by
  simp only [renderWithin, hschedule]
  rfl

/-- The report of a run with which a render is done, as no job is left behind. -/
def reportOf (r : Except Stop Writer × World) : Report :=
  ⟨r.1, r.2, [], match r.1 with
    | .ok out => (Render.finish out r.2).1
    | .error e => .error e⟩

/-- A run that does what a plain action does is reported as the plain action is. -/
theorem seen_of_ran {σ : Type} {agrees : Table Nat Nat → σ → Prop} {w : World} {dest : Output}
    {texts : List String} {ending : Except Stop Unit} {s : σ} {r : Except Stop Writer × World}
    (hran : Ran o l agrees 0 dest w texts ending s r) :
    (reportOf r).seen = Plain.report dest texts ending ∧
      (reportOf r).final.streams.outputs[0]? = some (reportOf r).seen.destination ∧
      (reportOf r).final.store.Faithful o l := by
  obtain ⟨handedOn, after⟩ := r
  simp only [Ran] at hran
  simp only [Plain.report]
  rcases hfeed : dest.feed texts with ⟨_ | cause, dest'⟩
  · rw [hfeed] at hran
    obtain ⟨rfl, hwrote, -⟩ := hran
    have hdest : destination after = dest' := by
      simp only [destination, hwrote.output, Option.getD_some]
    refine ⟨?_, hwrote.output.trans (congrArg some hdest.symm), hwrote.store⟩
    cases ending with
    | error e =>
      simp only [reportOf, Report.seen, Report.final, List.getLastD_nil, hdest, Except.map,
        Except.bind]
    | ok _ =>
      simp only [reportOf, Report.seen, Report.final, List.getLastD_nil, hdest, Except.map,
        Except.bind, Render.finish, Streams.finish, Streams.route_direct, Streams.flushOutput,
        hwrote.output, Option.bind_some]
      cases dest'.flushRefusal <;> rfl
  · rw [hfeed] at hran
    obtain ⟨rfl, hwrote⟩ := hran
    have hdest : destination after = dest' := by
      simp only [destination, hwrote.output, Option.getD_some]
    refine ⟨?_, hwrote.output.trans (congrArg some hdest.symm), hwrote.store⟩
    simp only [reportOf, Report.seen, Report.final, List.getLastD_nil, hdest]

/-- Whatever is remembered, a render without a schedule is the plain render. -/
theorem renderWithin_eq (hschedule : o.schedule = none)
    (hreuse : ∀ name, Lookup.Reusable (o.handler.find name)) (hstore : store.Faithful o l)
    (n : Nat) (t : Template) (scopes : Scopes) (dest : Output) :
    let r := renderWithin n o t scopes dest store
    r.seen = Plain.renderWithin n o l t.bare.codes scopes dest ∧
      r.final.streams.outputs[0]? = some r.seen.destination ∧ r.final.store.Faithful o l := by
  have hsim : Simulation o l .counting _ n 0 _ :=
    inline_simulation hreuse o.handler.keeps_true Oracle.counting_models
  have hscopes : scopes.All fun _ => True := fun _ _ => trivial
  have hran := hsim.nodes (hsim.simulates (Nat.le_refl n)) hscopes .start t.codes (.inr hschedule)
    (.start store ⟨[dest], []⟩) [] 0 dest hstore rfl rfl
  rw [renderWithin_of_none hschedule]
  exact seen_of_ran hran

/-- A render to a text without a schedule is the plain render to a buffer. -/
theorem renderText_eq (hschedule : o.schedule = none)
    (hreuse : ∀ name, Lookup.Reusable (o.handler.find name)) (hstore : store.Faithful o l)
    (t : Template) (scopes : Scopes) :
    let plain := Plain.renderWithin allowance o l t.bare.codes scopes (.buffer "")
    (renderText o t scopes store).1 = (plain.result.map fun _ =>
        match plain.destination with
        | .buffer text => text
        | .sink k => k.text) ∧
      (renderText o t scopes store).2.Faithful o l := by
  obtain ⟨hseen, houtput, hstore'⟩ :=
    renderWithin_eq hschedule hreuse hstore allowance t scopes (.buffer "")
  refine ⟨?_, hstore'⟩
  simp only [renderText, render, Streams.textOf, houtput, ← hseen]
  cases (renderWithin allowance o t scopes (.buffer "") store).seen.destination <;> rfl

theorem textOf_eq_destination (w : World) :
    w.streams.textOf 0 = Streams.textOf ⟨[destination w], []⟩ 0 := by
  simp only [Streams.textOf, destination]
  cases w.streams.outputs[0]? with
  | none => rfl
  | some output => cases output <;> rfl

/-- Renders to a buffer that look the same come to the same text. -/
theorem renderText_congr {o' : Options} {t t' : Template} {scopes : Scopes} {store' : Store}
    (h : (render o t scopes (.buffer "") store).seen =
      (render o' t' scopes (.buffer "") store').seen) :
    (renderText o t scopes store).1 = (renderText o' t' scopes store').1 := by
  simp only [Report.seen, Plain.Report.mk.injEq] at h
  obtain ⟨-, hresult, hdestination⟩ := h
  simp only [renderText, textOf_eq_destination, hresult, hdestination]

end Template

end Mustache
