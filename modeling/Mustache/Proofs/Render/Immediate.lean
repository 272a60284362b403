import Mustache.Proofs.Lookup.Throughout
import Mustache.Proofs.Render.Recovery

/-! # Renders that put nothing off

Over data without deferred computations nothing is put off, with whatever schedule.  So no job is
left when the nodes of a template have been rendered, and the render is the plain render.

* `Value.Immediate` — data without deferred computations.
* `Template.renderWithin_immediate` — renders of such data.
* `Template.renderWithin_of_writes` — renders of such data that write a text.
-/

namespace Mustache

/-- Nothing in a value is deferred. -/
def Value.Immediate (v : Value) : Prop :=
  v.Throughout (fun _ => True) fun _ => False

theorem Value.Immediate.not_deferred {d : Deferred Value} : ¬ (Value.deferred d).Immediate :=
  fun h => h.of_deferred.1

theorem Handler.standard_keeps_immediate : Handler.standard.Keeps Value.Immediate :=
  standard_keeps_throughout _ _

section

variable {σ : Type} {o : Options} {l : Loader} {agrees : Table Nat Nat → σ → Prop} {q : Oracle σ}
  {store : Store}

/-- Where nothing is deferred, rendering does what plain rendering does. -/
theorem immediate_simulation {top : Nat}
    (hreuse : ∀ name, Lookup.Reusable (o.handler.find name))
    (hkeeps : o.handler.Keeps Value.Immediate) :
    Simulation o l q Value.Immediate top 0 fun _ x p => Inline o l agrees x p where
  keeps := hkeeps
  skip _ := .skip
  stop _ e := .stop e
  seq := .seq
  write _ text := .write text
  load := .load
  lookup n scopes hy := .lookup hreuse n scopes hy
  captured := .captured
  awaiting _ _ _ _ _ _ _ hd := absurd hd Value.Immediate.not_deferred

theorem Ran.queue {k : Nat} {dest : Output} {w : World} {texts : List String}
    {ending : Except Stop Unit} {s : σ} {r : Except Stop Writer × World}
    (h : Ran o l agrees k dest w texts ending s r) : r.2.queue = w.queue := by
  unfold Ran at h
  split at h
  · exact h.2.1.queue
  · exact h.2.queue

theorem World.drain_of_queue {w : World} (hw : w.queue = []) {r : Renderer} {schedule : Schedule}
    {n k : Nat} : w.drain r schedule n k = [] := by
  cases n with
  | zero => rfl
  | succ n => simp [World.drain, World.takeJob, hw]

namespace Template

/-- Without a job that waits, a render is done with its nodes. -/
theorem renderWithin_of_queue {n : Nat} {t : Template} {scopes : Scopes} {dest : Output}
    (hqueue : ((Renderer.within o n).nodes t.codes scopes .start (.direct 0)
      (.start store ⟨[dest], []⟩)).2.queue = []) :
    renderWithin n o t scopes dest store =
      reportOf ((Renderer.within o n).nodes t.codes scopes .start (.direct 0)
        (.start store ⟨[dest], []⟩)) := by
  cases hschedule : o.schedule with
  | none => exact renderWithin_of_none hschedule n t scopes dest
  | some schedule =>
    rw [renderWithin_of_some hschedule]
    simp only [World.drain_of_queue hqueue]
    rfl

/-- A render of data without deferred computations is the plain render. -/
theorem renderWithin_immediate (hreuse : ∀ name, Lookup.Reusable (o.handler.find name))
    (hkeeps : o.handler.Keeps Value.Immediate) (hstore : store.Faithful o l) {scopes : Scopes}
    (hscopes : scopes.All Value.Immediate) (n : Nat) (t : Template) (dest : Output) :
    let r := renderWithin n o t scopes dest store
    r.seen = Plain.renderWithin n o l t.bare.codes scopes dest ∧
      r.final.streams.outputs[0]? = some r.seen.destination ∧ r.final.store.Faithful o l := by
  have hsim : Simulation o l .counting Value.Immediate n 0 fun _ x p => Inline o l Eq x p :=
    immediate_simulation hreuse hkeeps
  have hran := hsim.nodes (hsim.simulates (Nat.le_refl n)) hscopes .start t.codes
    (.start store ⟨[dest], []⟩) [] 0 dest hstore rfl rfl
  intro r
  have hreport : r = reportOf _ := renderWithin_of_queue hran.queue
  rw [hreport]
  exact seen_of_ran hran

/-- A render of data without deferred computations writes what the nodes write. -/
theorem renderWithin_of_writes (hhandler : o.handler = .standard) (hstore : store.Faithful o l)
    {scopes : Scopes} (hscopes : scopes.All Value.Immediate) {n : Nat} {t : Template}
    {text : String}
    (hwrites : ((Plain.within o l .counting n).nodes t.bare.codes scopes .start).Writes text.toList) :
    let r := renderWithin n o t scopes (.buffer "") store
    r.result = .ok () ∧ r.final.streams.textOf 0 = text := by
  intro r
  obtain ⟨hseen, houtput, -⟩ := renderWithin_immediate
    (fun name => hhandler ▸ Lookup.reusable_find name)
    (hhandler ▸ Handler.standard_keeps_immediate) hstore hscopes n t (.buffer "")
  exact Report.of_seen (hseen.trans hwrites.renderWithin) houtput

end Template

end

end Mustache
