import Mustache.Proofs.Render.Schedules
import Mustache.Proofs.Render.Tidy

/-! # Settling latches

Every latch is settled once, by the job that it stands for, however the work of the job comes to an
end: with a writer, with held text that is refused there, with an error, or abruptly.  Nobody waits
for a latch that is pending: texts are captured where nothing is put off, and jobs do not wait at
all.  So when all jobs have been done there is nothing left to wait for.

* `Job.Ends` — how the latch of a job stands when its work has come to an end.
* `World.Settles` — doing a job settles its latch and no other.
* `World.Attended` — the latches that are pending are those of the jobs that wait.
* `World.turns` — the jobs in the order in which they are done.
* `World.orderly_drain`, `Template.induct` — what every job keeps holds in the end.
* `Template.renderWithin_settles` — what this says of a whole render.
-/

namespace Mustache

open Streams (Orderly Lays)

variable {o : Options} {n : Nat} {job : Job} {w w' : World} {outs : List Writer}

/-! ## Doing one job -/

/-- How the latch of a job stands when its work has come to an end. -/
inductive Job.Ends (job : Job) (s : Streams) : Except Stop Writer → Latch.Status → Prop
  | done {out : Writer}
      (taken : ∀ cause, s.heldAt job.latch ≠ "" →
        (s.write (s.heldAt job.latch) out).1 ≠ .error cause) :
      Ends job s (.ok out) (.done out)
  /-- The text held back was refused where the work ended. -/
  | refused {out : Writer} {cause : Error}
      (refused : (s.write (s.heldAt job.latch) out).1 = .error cause) :
      Ends job s (.ok out) (.failed cause)
  | failed (e : Error) : Ends job s (.error (.error e)) (.failed e)
  | panicked (message : String) :
      Ends job s (.error (.panic message)) (.failed (.render (.deferredFailure job.name message)))

/-- Doing a job settles its latch, and no other.  It is pending until the work of the job has come
    to an end. -/
structure World.Settles (r : Renderer) (job : Job) (w : World) : Prop where
  before : w.streams.status? job.latch = some .pending
  worked : (r.work job job.writer w).2.streams.status? job.latch = some .pending
  after : ∃ st, (r.perform job w).2.streams.status? job.latch = some st ∧ st ≠ .pending ∧
    job.Ends (r.work job job.writer w).2.streams (r.work job job.writer w).1 st
  others : ∀ m st, m ≠ job.latch → w.streams.status? m = some st →
    (r.perform job w).2.streams.status? m = some st

theorem Job.exists_ends {s : Streams} {result : Except Stop Writer}
    (hlatch : job.latch < s.latches.length) (hverdict : Job.verdict result = .ok ()) :
    ∃ st, (job.conclude result s).status? job.latch = some st ∧ st ≠ .pending ∧
      job.Ends s result st := by
  cases result with
  | ok out =>
    by_cases hempty : (s.heldAt job.latch).isEmpty = true
    · refine ⟨.done out, ?_, by simp, .done fun _ hne => absurd (String.isEmpty_iff.mp hempty) hne⟩
      rw [Job.conclude, Streams.complete_of_empty hempty]
      exact Streams.status?_settle_self hlatch
    · have hafter : (s.write (s.heldAt job.latch) out).2.latches.length = s.latches.length := by
        have houtline := congrArg (fun t => t.latches.length)
          (Streams.outline_write (s.heldAt job.latch) out s)
        simpa [Streams.outline] using houtline
      have hconclude : (job.conclude (.ok out) s).status? job.latch =
          some (Streams.afterWrite out (s.write (s.heldAt job.latch) out).1) := by
        rw [Job.conclude, Streams.complete_of_held hempty]
        exact Streams.status?_settle_self (hafter ▸ hlatch)
      rw [hconclude]
      cases hwrite : (s.write (s.heldAt job.latch) out).1 with
      | error cause => exact ⟨_, rfl, by rintro ⟨⟩, .refused hwrite⟩
      | ok => exact ⟨_, rfl, by rintro ⟨⟩, .done fun _ _ => by simp [hwrite]⟩
      | blocked => exact ⟨_, rfl, by rintro ⟨⟩, .done fun _ _ => by simp [hwrite]⟩
  | error cause =>
    cases cause with
    | error e => exact ⟨_, Streams.status?_settle_self hlatch, by simp, .failed e⟩
    | panic message => exact ⟨_, Streams.status?_settle_self hlatch, by simp, .panicked message⟩
    | blocked => cases hverdict
    | exhausted => cases hverdict

/-- Doing a job settles its latch, whatever its computation, what is done with the value, and
    writing the held text come to. -/
theorem Renderer.settles (hpending : w.streams.status? job.latch = some .pending)
    (hdone : ((Renderer.within o n).perform job w).1 = .ok ()) :
    w.Settles (.within o n) job := by
  obtain ⟨hstatus, -⟩ := frames_work o n job w job.writer
  have hworked := hstatus _ _ hpending
  rw [perform_eq] at hdone
  refine ⟨hpending, hworked, ?_, fun m st hne hst => ?_⟩
  · rw [perform_eq]
    exact Job.exists_ends (Streams.lt_of_status? hworked) hdone
  · rw [perform_eq]
    exact (Streams.status?_conclude_of_ne hne _ _).trans (hstatus m st hst)

/-! ## Doing all the jobs -/

/-- Jobs wait in order, and all latches that are pending are theirs. -/
structure World.Attended (w : World) (outs : List Writer) : Prop where
  orderly : Orderly w.streams w.queue outs
  attended : ∀ m, w.streams.status? m = some .pending → ∃ job ∈ w.queue, job.latch = m

theorem World.Attended.pending_iff (h : w.Attended outs) (m : Nat) :
    w.streams.status? m = some .pending ↔ ∃ job ∈ w.queue, job.latch = m := by
  refine ⟨h.attended m, ?_⟩
  rintro ⟨job, hjob, rfl⟩
  exact h.orderly.pending job hjob

/-- The jobs that are done, each with the world in which it is. -/
def World.turns (r : Renderer) (schedule : Schedule) : Nat → Nat → World → List (Job × World)
  | 0, _, _ => []
  | fuel + 1, k, w =>
    match w.takeJob schedule k with
    | none => []
    | some (job, w) => (job, w) :: turns r schedule fuel (k + 1) (r.perform job w).2

theorem World.drain_eq (r : Renderer) (schedule : Schedule) (fuel k : Nat) (w : World) :
    w.drain r schedule fuel k =
      (w.turns r schedule fuel k).map fun turn => (r.perform turn.1 turn.2).2 := by
  induction fuel generalizing k w with
  | zero => rfl
  | succ fuel ih =>
    rw [World.drain, World.turns]
    cases w.takeJob schedule k with
    | none => rfl
    | some taken =>
      obtain ⟨job, w'⟩ := taken
      simp only [List.map_cons, ih]

/-- A job that is done leaves the others in order, also one that uses up its allowance. -/
theorem Renderer.orderly_perform (h : Orderly w.streams (job :: w.queue) outs) :
    let after := ((Renderer.within o n).perform job w).2
    Orderly after.streams after.queue outs := by
  obtain ⟨jobs, hjobs⟩ := Renderer.tidy_work o n job w job.writer
    (h.of_out (h.has _ List.mem_cons_self))
  have hlays := hjobs.lays
  have hqueue := hjobs.queue
  rw [Renderer.perform_eq]
  rcases hran : (Renderer.within o n).work job job.writer w with ⟨result, after⟩
  rw [hran] at hlays hqueue
  have hqueue : after.queue = w.queue ++ jobs := hqueue
  simp only [hqueue]
  by_cases hexhausted : result = .error .exhausted
  · -- Nobody is at the writer of the job any more.
    subst hexhausted
    exact h.release.extend hlays
  · obtain ⟨st, hafter, hst, hdone⟩ :=
      Streams.exists_conclude job after.streams hlays.unblocked hexhausted
    exact h.perform hlays hdone hafter hst

/-- A job that is done waits for nobody, and leaves none of the latches unattended. -/
theorem World.Attended.perform (h : w.Attended outs) (hperm : w.queue.Perm (job :: w'.queue))
    (hstreams : w'.streams = w.streams)
    (hended : ((Renderer.within o n).perform job w').1 ≠ .error .exhausted) :
    ((Renderer.within o n).perform job w').1 = .ok () ∧
      ((Renderer.within o n).perform job w').2.Attended outs := by
  have horderly : Orderly w'.streams (job :: w'.queue) outs := by
    rw [hstreams]
    exact h.orderly.of_perm hperm (.refl outs)
  have hafter := Renderer.orderly_perform (o := o) (n := n) horderly
  obtain ⟨jobs, hjobs⟩ := Renderer.tidy_work o n job w' job.writer
    (horderly.of_out (horderly.has _ List.mem_cons_self))
  have hlays := hjobs.lays
  rw [Renderer.perform_eq] at hended hafter ⊢
  rcases hran : (Renderer.within o n).work job job.writer w' with ⟨result, after⟩
  rw [hran] at hjobs hlays hended hafter
  have hblocked : result ≠ .error .blocked := hlays.unblocked
  have hexhausted : result ≠ .error .exhausted := fun heq => hended (by rw [heq]; rfl)
  obtain ⟨st, houtline, hst, -⟩ := Streams.exists_conclude job after.streams hblocked hexhausted
  refine ⟨Streams.verdict_eq_ok hblocked hexhausted, hafter, fun m hm => ?_⟩
  have hqueue : after.queue = w'.queue ++ jobs := hjobs.queue
  obtain ⟨hne, hm⟩ := hlays.pending_of_settled horderly houtline hst hm
  rw [hqueue]
  cases hold : w'.streams.status? m with
  | none =>
    obtain ⟨job', hjob, heq⟩ := (hlays.settled hold hm).resolve_right hexhausted
    exact ⟨job', List.mem_append_right _ hjob, heq⟩
  | some old =>
    -- A latch that was there stands as it stood, so a job waited for it before.
    cases (hlays.adds.status_outline hold).symm.trans hm
    obtain ⟨job', hjob, rfl⟩ := h.attended m (hstreams ▸ hold)
    obtain rfl | hjob := List.mem_cons.mp (hperm.mem_iff.mp hjob)
    · exact absurd rfl hne
    · exact ⟨job', List.mem_append_left _ hjob, rfl⟩

/-- All jobs are done in order, and what every job keeps holds in the end. -/
theorem World.orderly_drain {P : World → Prop} {schedule : Schedule} {fuel k : Nat}
    (h : Orderly w.streams w.queue outs)
    (hstep : ∀ {w v : World} {job : Job}, v.streams.Orderly (job :: v.queue) outs →
      w.queue.Perm (job :: v.queue) → v.store = w.store → v.streams = w.streams → P w →
        P ((Renderer.within o n).perform job v).2) (hw : P w) :
    let final := (w.drain (.within o n) schedule fuel k).getLastD w
    Orderly final.streams final.queue outs ∧ P final := by
  induction fuel generalizing k w with
  | zero => exact ⟨h, hw⟩
  | succ fuel ih =>
    rw [World.drain]
    cases htake : w.takeJob schedule k with
    | none => exact ⟨h, hw⟩
    | some taken =>
      obtain ⟨job, v⟩ := taken
      obtain ⟨hperm, hstore, hstreams⟩ := World.takeJob_eq htake
      have horderly : v.streams.Orderly (job :: v.queue) outs := by
        rw [hstreams]
        exact h.of_perm hperm (.refl outs)
      rw [List.getLastD_cons]
      exact ih (Renderer.orderly_perform horderly) (hstep horderly hperm hstore hstreams hw)

/-- What has been settled is not the latch of any job that is still done. -/
theorem World.Attended.turns {schedule : Schedule} {fuel k : Nat} (h : w.Attended outs)
    (hended : ∀ turn ∈ w.turns (.within o n) schedule fuel k,
      ((Renderer.within o n).perform turn.1 turn.2).1 ≠ .error .exhausted) :
    let turns := w.turns (.within o n) schedule fuel k
    (∀ turn ∈ turns, ((Renderer.within o n).perform turn.1 turn.2).1 = .ok () ∧
      turn.2.Settles (.within o n) turn.1 ∧
      ((Renderer.within o n).perform turn.1 turn.2).2.Attended outs) ∧
    (turns.map fun turn => turn.1.latch).Nodup ∧
    ∀ m st, w.streams.status? m = some st → st ≠ .pending →
      m ∉ turns.map fun turn => turn.1.latch := by
  induction fuel generalizing k w with
  | zero => exact ⟨List.forall_mem_nil _, List.nodup_nil, fun _ _ _ _ => List.not_mem_nil⟩
  | succ fuel ih =>
    rw [World.turns] at hended ⊢
    cases htake : w.takeJob schedule k with
    | none => exact ⟨List.forall_mem_nil _, List.nodup_nil, fun _ _ _ _ => List.not_mem_nil⟩
    | some taken =>
      obtain ⟨job, w'⟩ := taken
      rw [htake] at hended
      obtain ⟨hperm, -, hstreams⟩ := World.takeJob_eq htake
      obtain ⟨hok, hattended⟩ := h.perform hperm hstreams (hended _ List.mem_cons_self)
      have hpending : w'.streams.status? job.latch = some .pending :=
        hstreams ▸ h.orderly.pending job (hperm.mem_iff.mpr List.mem_cons_self)
      have hsettles := Renderer.settles hpending hok
      obtain ⟨hall, hnodup, hnot⟩ :=
        ih hattended fun turn hturn => hended turn (List.mem_cons_of_mem _ hturn)
      obtain ⟨st, hst, hsettled, -⟩ := hsettles.after
      refine ⟨List.forall_mem_cons.mpr ⟨⟨hok, hsettles, hattended⟩, hall⟩,
        List.nodup_cons.mpr ⟨hnot _ st hst hsettled, hnodup⟩, fun m old hold hne hmem => ?_⟩
      have hm : m ≠ job.latch := by
        rintro rfl
        rw [← hstreams, hpending] at hold
        exact hne (Option.some.inj hold).symm
      obtain heq | hmem := List.mem_cons.mp hmem
      · exact hm heq
      · exact hnot m old (hsettles.others m old hm (hstreams ▸ hold)) hne hmem

/-- Latches are attended to when all the jobs have been done. -/
theorem World.Attended.drain {schedule : Schedule} {fuel k : Nat} (h : w.Attended outs)
    (hended : ∀ turn ∈ w.turns (.within o n) schedule fuel k,
      ((Renderer.within o n).perform turn.1 turn.2).1 ≠ .error .exhausted) :
    ((w.drain (.within o n) schedule fuel k).getLastD w).Attended outs := by
  obtain ⟨hall, -⟩ := h.turns hended
  rw [World.drain_eq]
  obtain heq | hmem := List.mem_cons.mp (List.getLastD_mem_cons (a := w)
    (l := (w.turns (.within o n) schedule fuel k).map fun turn =>
      ((Renderer.within o n).perform turn.1 turn.2).2))
  · rw [heq]
    exact h
  · obtain ⟨turn, hturn, heq⟩ := List.mem_map.mp hmem
    rw [← heq]
    exact (hall turn hturn).2.2

/-- Where no job waits, waiting at a writer in use has an end. -/
theorem World.Attended.finish {out : Writer} (h : w.Attended [out]) (hqueue : w.queue = []) :
    (Render.finish out w).1 ≠ .error .blocked := by
  have hpending (m : Nat) : w.streams.route out ≠ .pending m := by
    intro hroute
    obtain ⟨job, hjob, -⟩ := h.attended m (Streams.status?_of_route hroute)
    rw [hqueue] at hjob
    cases hjob
  have hway := h.orderly.way out
    (h.orderly.has out (List.mem_append_right _ (List.mem_singleton_self out)))
  simp only [Render.finish, Streams.finish]
  cases hroute : w.streams.route out with
  | output k =>
    simp only
    obtain hflush | ⟨e, hflush⟩ := Streams.flushOutput_cases k w.streams
    · rw [hflush]
      rintro ⟨⟩
    · rw [hflush]
      rintro ⟨⟩
  | pending m => exact absurd hroute (hpending m)
  | failed e => rintro ⟨⟩
  | nowhere => exact absurd hroute hway

/-! ## Whole renders -/

namespace Template

variable {t : Template} {scopes : Scopes} {destination : Output} {store : Store}

/-- The jobs that a render does after the nodes of the template, each with the world in which it is
    done. -/
def turns (n : Nat) (o : Options) (t : Template) (scopes : Scopes) (destination : Output)
    (store : Store) : List (Job × World) :=
  match o.schedule with
  | some schedule =>
    (renderWithin n o t scopes destination store).after.turns (.within o n) schedule n 0
  | none => []

theorem drained_renderWithin :
    (renderWithin n o t scopes destination store).drained =
      (turns n o t scopes destination store).map fun turn =>
        ((Renderer.within o n).perform turn.1 turn.2).2 := by
  rw [turns]
  cases hschedule : o.schedule with
  | none => simp only [renderWithin, hschedule, List.map_nil]
  | some schedule =>
    rw [← World.drain_eq]
    simp only [renderWithin, hschedule]

theorem final_of_none (hschedule : o.schedule = none) :
    (renderWithin n o t scopes destination store).final =
      (renderWithin n o t scopes destination store).after := by
  rw [Report.final, drained_renderWithin]
  simp only [turns, hschedule, List.map_nil]
  rfl

theorem final_of_some {schedule : Schedule} (hschedule : o.schedule = some schedule) :
    (renderWithin n o t scopes destination store).final =
      let after := (renderWithin n o t scopes destination store).after
      (after.drain (.within o n) schedule n 0).getLastD after := by
  simp only [Report.final, drained_renderWithin, World.drain_eq, turns, hschedule]

theorem turns_of_some {schedule : Schedule} (hschedule : o.schedule = some schedule) :
    turns n o t scopes destination store =
      (renderWithin n o t scopes destination store).after.turns (.within o n) schedule n 0 := by
  simp only [turns, hschedule]

theorem result_renderWithin :
    (renderWithin n o t scopes destination store).result =
      (renderWithin n o t scopes destination store).handedOn.bind fun out =>
        (Render.finish out (renderWithin n o t scopes destination store).final).1 := by
  simp only [Report.final, renderWithin]
  cases ((Renderer.within o n).nodes t.codes scopes .start _ _).1 <;> rfl

theorem Report.final_mem (report : Report) : report.final ∈ report.after :: report.drained := by
  rw [Report.final]
  cases report.drained with
  | nil => exact List.mem_singleton_self _
  | cons w ws =>
    rw [List.getLastD_cons]
    exact List.mem_cons_of_mem _ List.getLastD_mem_cons

/-- A render begins where nothing waits. -/
theorem orderly_start (destination : Output) :
    Orderly ⟨[destination], []⟩ [] [.direct 0] := by
  refine .of_writer nofun (fun out hout => ?_) (Streams.has_outline_direct.mpr Nat.one_pos)
  cases out with
  | direct k =>
    rw [Streams.route_direct]
    nofun
  | latched m =>
    obtain ⟨st, hst⟩ := hout
    cases hst

theorem attended_nodes {result : Except Stop Writer} {after : World}
    (hran : (Renderer.within o n).nodes t.codes scopes .start (.direct 0)
      (.start store ⟨[destination], []⟩) = (result, after)) (hended : result ≠ .error .exhausted) :
    result ≠ .error .blocked ∧ after.Attended (Streams.handed result) ∧
      (o.schedule = none → after.queue = []) := by
  obtain ⟨jobs, hjobs⟩ := Renderer.tidy_within o n t.codes scopes .start
    (.start store ⟨[destination], []⟩) (.direct 0) (orderly_start destination)
  have hlays := hjobs.lays
  rw [hran] at hjobs hlays
  have hqueue : after.queue = jobs := hjobs.queue
  refine ⟨hlays.unblocked, ⟨?_, fun m hm => ?_⟩, fun hschedule => ?_⟩
  · rw [hqueue]
    exact hlays.orderly
  · rw [hqueue]
    exact (hlays.settled rfl hm).resolve_right hended
  · rw [hqueue]
    exact (hjobs.inline (.inr hschedule)).1

/-- After the nodes of a template the jobs wait in order. -/
theorem orderly_after :
    let r := renderWithin n o t scopes destination store
    Orderly r.after.streams r.after.queue (Streams.handed r.handedOn) := by
  intro r
  obtain ⟨jobs, hjobs⟩ := Renderer.tidy_within o n t.codes scopes .start
    (.start store ⟨[destination], []⟩) (.direct 0) (orderly_start destination)
  rw [show r.after.queue = jobs from hjobs.queue]
  exact hjobs.lays.orderly

/-- What holds after the nodes of a template, and is kept by every job, holds in the end. -/
theorem induct {P : World → Prop} (hafter : P (renderWithin n o t scopes destination store).after)
    (hstep : ∀ {w v : World} {job : Job},
      v.streams.Orderly (job :: v.queue)
        (Streams.handed (renderWithin n o t scopes destination store).handedOn) →
      w.queue.Perm (job :: v.queue) → v.store = w.store → v.streams = w.streams → P w →
        P ((Renderer.within o n).perform job v).2) :
    P (renderWithin n o t scopes destination store).final := by
  let r := renderWithin n o t scopes destination store
  cases hschedule : o.schedule with
  | none =>
    rw [show r.final = _ from final_of_none hschedule]
    exact hafter
  | some schedule =>
    rw [show r.final = _ from final_of_some hschedule]
    exact (World.orderly_drain orderly_after hstep hafter).2

/-- **Latches are settled.**  In every render that comes to an end, whatever its data and its
    schedule are and whatever its destination refuses: neither the render nor any job waits for a
    latch that is pending, as the writer at the end of a captured text is never a latch; every latch
    is settled once, by its own job, whatever the work of the job comes to; and when no job waits
    any more, waiting at the writer that has been handed on has an end. -/
theorem renderWithin_settles (o : Options) (t : Template) (scopes : Scopes) (destination : Output)
    (store : Store) (n : Nat)
    (hnodes : (renderWithin n o t scopes destination store).handedOn ≠ .error .exhausted)
    (hturns : ∀ turn ∈ turns n o t scopes destination store,
      ((Renderer.within o n).perform turn.1 turn.2).1 ≠ .error .exhausted) :
    let r := Renderer.within o n
    let report := renderWithin n o t scopes destination store
    let turns := turns n o t scopes destination store
    report.drained = turns.map (fun turn => (r.perform turn.1 turn.2).2) ∧
      report.handedOn ≠ .error .blocked ∧
      (∀ turn ∈ turns, (r.perform turn.1 turn.2).1 = .ok ()) ∧
      (∀ m codes scopes cx k w out,
        ((Renderer.within o m).nodes codes scopes (Context.inline cx) (.direct k) w).1 = .ok out →
          out = .direct k) ∧
      (turns.map fun turn => turn.1.latch).Nodup ∧
      (∀ turn ∈ turns, turn.2.Settles r turn.1) ∧
      (∀ m job w, w.streams.status? job.latch = some .pending →
        ((Renderer.within o m).perform job w).1 = .ok () →
          w.Settles (Renderer.within o m) job) ∧
      (∀ w ∈ report.after :: report.drained, ∀ m,
        w.streams.status? m = some .pending ↔ ∃ job ∈ w.queue, job.latch = m) ∧
      (o.schedule = none ∨ report.final.queue = [] → report.result ≠ .error .blocked) := by
  intro r report turns
  have hran : (Renderer.within o n).nodes t.codes scopes .start (.direct 0)
      (.start store ⟨[destination], []⟩) = (report.handedOn, report.after) := rfl
  obtain ⟨hblocked, hafter, hinline⟩ := attended_nodes hran hnodes
  have hall : (∀ turn ∈ turns, (r.perform turn.1 turn.2).1 = .ok () ∧ turn.2.Settles r turn.1 ∧
      (r.perform turn.1 turn.2).2.Attended (Streams.handed report.handedOn)) ∧
      (turns.map fun turn => turn.1.latch).Nodup := by
    simp only [turns, Template.turns] at hturns ⊢
    cases hschedule : o.schedule with
    | none => exact ⟨List.forall_mem_nil _, List.nodup_nil⟩
    | some schedule =>
      simp only [hschedule] at hturns
      obtain ⟨hall, hnodup, -⟩ := hafter.turns hturns
      exact ⟨hall, hnodup⟩
  obtain ⟨hall, hnodup⟩ := hall
  have hdrained : report.drained = turns.map fun turn => (r.perform turn.1 turn.2).2 :=
    drained_renderWithin
  have hattended : ∀ w ∈ report.after :: report.drained,
      w.Attended (Streams.handed report.handedOn) := by
    intro w hw
    obtain rfl | hw := List.mem_cons.mp hw
    · exact hafter
    · rw [hdrained] at hw
      obtain ⟨turn, hturn, rfl⟩ := List.mem_map.mp hw
      exact (hall turn hturn).2.2
  refine ⟨hdrained, hblocked, fun turn hturn => (hall turn hturn).1, fun m codes scopes cx k w out =>
    (Renderer.frames_within o m codes scopes cx.inline w (.direct k)).2 (.inl rfl) out, hnodup,
    fun turn hturn => (hall turn hturn).2.1, fun m job w => Renderer.settles,
    fun w hw => (hattended w hw).pending_iff, fun hdone => ?_⟩
  have hqueue : report.final.queue = [] := by
    obtain hschedule | hqueue := hdone
    · have hnil : turns = [] := by simp only [turns, Template.turns, hschedule]
      rw [Report.final, hdrained, hnil]
      exact hinline hschedule
    · exact hqueue
  have hfinal := hattended _ report.final_mem
  have hresult : report.result =
      report.handedOn.bind fun out => (Render.finish out report.final).1 := result_renderWithin
  rw [hresult]
  cases hhanded : report.handedOn with
  | error cause =>
    rw [hhanded] at hblocked
    exact fun heq => hblocked (congrArg _ (Except.error.inj heq))
  | ok out =>
    rw [hhanded] at hfinal
    exact hfinal.finish hqueue

/-- A computation that panics, one that fails and one whose text is refused, with one of the jobs
    done at once and the newest of the others first. -/
theorem renderWithin_settles_failing :
    let codes := match Code.parse ⟨"page", 0, []⟩ .standard "<{{a}}{{#b}}{{.}}{{a}}{{/b}}{{c}}>" with
      | .ok codes => codes
      | .error _ => []
    let t : Template := ⟨"page", "", codes⟩
    let scopes : Scopes := .ofList [.map [("a", .deferred ⟨0, [.value (.text "x"), .panic "lost"]⟩),
      ("b", .deferred ⟨1, [.value (.list [.int 1, .text "y"])]⟩), ("c", .deferred ⟨2, [.failure ""]⟩)]]
    let o : Options :=
      { Options.standard with schedule := some ⟨fun k => k == 1, fun _ n => n - 1⟩ }
    let destination : Output := .sink (.refusing 1 "closed")
    let store : Store := .new (.memory [])
    let r := Renderer.within o 9
    let report := renderWithin 9 o t scopes destination store
    let turns := turns 9 o t scopes destination store
    report.handedOn ≠ .error .exhausted ∧
      (∀ turn ∈ turns, (r.perform turn.1 turn.2).1 ≠ .error .exhausted) ∧
      turns.length = 4 ∧ (turns.map fun turn => turn.1.latch).Nodup ∧
      (∀ turn ∈ turns, turn.2.Settles r turn.1) ∧ report.result ≠ .error .blocked := by
  intro codes t scopes o destination store r report turns
  have hnodes : report.handedOn ≠ .error .exhausted :=
    ne_exhausted_of_ranOut (by decide +kernel)
  have hturns : ∀ turn ∈ turns, (r.perform turn.1 turn.2).1 ≠ .error .exhausted := by
    have hended : (turns.all fun turn => !ranOut (r.perform turn.1 turn.2).1) = true := by
      decide +kernel
    intro turn hturn
    have hturn := List.all_eq_true.mp hended turn hturn
    exact ne_exhausted_of_ranOut (Bool.not_eq_true' _ ▸ hturn)
  have hqueue : report.final.queue = [] := List.isEmpty_iff.mp (by decide +kernel)
  obtain ⟨-, -, -, -, hnodup, hsettles, -, -, hfinish⟩ :=
    renderWithin_settles o t scopes destination store 9 hnodes hturns
  exact ⟨hnodes, hturns, by decide +kernel, hnodup, hsettles, hfinish (.inr hqueue)⟩

end Template

end Mustache
