import Mathlib.Data.List.Perm.Basic
import Mustache.Proofs.Render.Scheduled
import Mustache.Render.Whole

/-! # Doing all the jobs

Every job that is taken from the queue, from whatever place, leaves the text that is owed as it was.
When no job waits any more, what is owed has been paid: it is the text at the destination.

* `World.Due` — what is owed while jobs wait.
* `World.Due.drain` — it stays due while the jobs are done.
* `World.Due.paid` — it is there when they have been done.
-/

namespace Mustache

open Streams (Owes)

variable {o : Options} {l : Loader} {V : Value → Prop} {top : Nat} {w w' : World} {job : Job}
  {handedOn : Except Stop Writer} {full : String} {good : Bool}

/-- A render has handed a writer on, or failed, and jobs wait.  When they have been done, the first
    destination has a text, and all is well or not. -/
structure World.Due (o : Options) (l : Loader) (V : Value → Prop) (top : Nat)
    (handedOn : Except Stop Writer) (full : String) (good : Bool) (w : World) : Prop where
  store : w.store.Faithful o l
  closed : w.streams.Closed
  out : ∀ out, handedOn = .ok out → w.streams.Has out
  proper : ∀ job ∈ w.queue, job.Proper V
  waiting : w.streams.Waiting (.output 0) w.queue
  owes : Owes (fun job => (job.plain o l top).Means) w.streams (.output 0) w.queue handedOn full
    good

namespace World

theorem takeJob_eq {schedule : Schedule} {k : Nat} (h : w.takeJob schedule k = some (job, w')) :
    w.queue.Perm (job :: w'.queue) ∧ w'.store = w.store ∧ w'.streams = w.streams := by
  obtain ⟨job', hget, heq⟩ := Option.map_eq_some_iff.mp h
  obtain ⟨hlt, rfl⟩ := List.getElem?_eq_some_iff.mp hget
  cases heq
  exact ⟨(List.getElem_cons_eraseIdx_perm hlt).symm, rfl, rfl⟩

namespace Due

variable (hreuse : ∀ name, Lookup.Reusable (o.handler.find name)) (hkeeps : o.handler.Keeps V)
  (hq : Oracle.steady.Models V fun _ _ => True)
include hreuse hkeeps hq

/-- What is due is due after one job more. -/
theorem perform (hproper : job.Proper V) (hqueue : ∀ job ∈ w.queue, job.Proper V)
    (hstore : w.store.Faithful o l) (hclosed : w.streams.Closed)
    (hout : ∀ out, handedOn = .ok out → w.streams.Has out)
    (hwait : w.streams.Waiting (.output 0) (job :: w.queue))
    (howes : Owes (fun job => (job.plain o l top).Means) w.streams (.output 0) (job :: w.queue)
      handedOn full good) :
    Due o l V top handedOn full good ((Renderer.within o top).perform job w).2 := by
  have hsim : Simulation o l .steady V top 0 (Follows o l V top) :=
    scheduled_simulation hreuse hkeeps hq
  have hwork : Scheduled o l V top ((Renderer.within o top).work job) (job.plain o l top) :=
    .work hq hproper.deferred fun v hv =>
      ((hsim.simulates (Nat.le_refl top)).resume job.awaiting v job.scopes job.context hv
        hproper.scopes).scheduled hproper.context
  obtain ⟨jobs, hput, hmeans⟩ :=
    hwork w job.writer hstore hclosed (hwait.has job List.mem_cons_self)
  have hperformed : Streams.Performed (fun job => (job.plain o l top).Means) w.streams _ job jobs _ :=
    ⟨hclosed, hwait.pending job List.mem_cons_self, hput.streams, hmeans⟩
  -- The work of the job is a render at its writer; the settling of its latch comes on top of that.
  rw [Renderer.perform_eq]
  rcases hran : (Renderer.within o top).work job job.writer w with ⟨result, after⟩
  rw [hran] at hput hperformed
  have hqueue' : after.queue = w.queue ++ jobs := hput.queue
  obtain ⟨_, hheld⟩ := howes.exists_content
  refine ⟨hput.store, hperformed.concluded.closed, fun out heq => ?_, fun job' hjob => ?_, ?_, ?_⟩
  · exact hperformed.concluded.has (hput.streams.touches.has (hout out heq))
  · rw [hqueue'] at hjob
    obtain hjob | hjob := List.mem_append.mp hjob
    · exact hqueue job' hjob
    · exact hput.proper job' hjob
  · rw [hqueue']
    exact hperformed.waiting hwait hheld
  · rw [hqueue']
    exact hperformed.owes_after hwait hout howes

theorem step {schedule : Schedule} {k : Nat} (h : Due o l V top handedOn full good w)
    (htake : w.takeJob schedule k = some (job, w')) :
    Due o l V top handedOn full good ((Renderer.within o top).perform job w').2 := by
  obtain ⟨hperm, hstore, hstreams⟩ := takeJob_eq htake
  have hproper : ∀ job' ∈ job :: w'.queue, job'.Proper V := fun job' hjob =>
    h.proper job' (hperm.mem_iff.mpr hjob)
  refine perform hreuse hkeeps hq (hproper job List.mem_cons_self)
    (fun job' hjob => hproper job' (List.mem_cons_of_mem _ hjob)) (hstore ▸ h.store)
    (hstreams ▸ h.closed) (hstreams ▸ h.out) ?_ ?_
  · rw [hstreams]
    exact h.waiting.of_perm hperm
  · rw [hstreams]
    exact h.owes.of_perm hperm.symm

/-- What is due is due while the jobs are done, in whatever order. -/
theorem drain (schedule : Schedule) (h : Due o l V top handedOn full good w) (fuel k : Nat) :
    Due o l V top handedOn full good
      ((w.drain (Renderer.within o top) schedule fuel k).getLastD w) := by
  induction fuel generalizing k w with
  | zero => exact h
  | succ fuel ih =>
    rw [World.drain]
    cases htake : w.takeJob schedule k with
    | none => exact h
    | some taken =>
      obtain ⟨job, w'⟩ := taken
      rw [List.getLastD_cons]
      exact ih (h.step hreuse hkeeps hq htake) (k + 1)

omit hreuse hkeeps hq in
/-- When no job waits any more, what was due is there. -/
theorem paid (h : Due o l V top handedOn full good w) (hqueue : w.queue = []) :
    w.streams.textOf 0 = full ∧
      ((∃ out, handedOn = .ok out ∧ (Render.finish out w).1 = .ok ()) ↔ good = true) := by
  have howes := h.owes
  rw [hqueue] at howes
  cases howes with
  | @intro live rest e' before held more hperm hspells hheld hrest hfull =>
    -- No job waits, so the chain is empty and its text is the one at the destination.
    obtain ⟨rfl, rfl⟩ := List.append_eq_nil_iff.mp hperm.nil_eq.symm
    cases hspells
    have houtput := Streams.content_output.mp hheld
    have htext : w.streams.textOf 0 = held := by
      rw [Streams.textOf, houtput]
    cases hrest with
    | @good out hr hout =>
      refine ⟨by rw [htext, hfull]; simp, fun _ => rfl, fun _ => ⟨out, hr, ?_⟩⟩
      simp only [Render.finish, Streams.finish, hout, Streams.flushOutput, houtput]
      rfl
    | failed _ hr =>
      refine ⟨by rw [htext, hfull]; simp, fun hended => ?_, fun hgood => by cases hgood⟩
      -- The writer handed on is dead, and waiting there is a failure or has no end.
      obtain ⟨out, hok, hfinish⟩ := hended
      have hdead := (hr out hok).2
      simp only [Render.finish, Streams.finish] at hfinish
      cases hroute : w.streams.route out with
      | output k => exact absurd hroute (hdead k)
      | pending n =>
        rw [hroute] at hfinish
        cases hfinish
      | failed cause =>
        rw [hroute] at hfinish
        cases hfinish
      | nowhere =>
        rw [hroute] at hfinish
        cases hfinish

end Due

end World

end Mustache
