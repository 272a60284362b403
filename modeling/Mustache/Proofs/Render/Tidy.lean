import Mustache.Proofs.Render.Effects
import Mustache.Proofs.Render.Orderly

/-! # Rendering keeps order

What rendering does to the streams, whatever the data, the handler, the schedule and the
destinations are.  A latch that was there stays as it stands, as only the job of a latch settles it.
And all that is put off joins the line of the jobs that wait.

* `Render.Frames` — an action leaves all latches as they stand.
* `Render.Tidy` — an action keeps order.
* `Renderer.frames_within`, `Renderer.tidy_within` — rendering does both.
-/

namespace Mustache

open Streams (Orderly Lays Fills)

variable {o : Options} {job : Job} {w : World} {out : Writer} {i : Prop}
  {x : Writer → Render Writer}

/-! ## Latches that were there -/

theorem Streams.status?_conclude_of_ne {n : Nat} (h : n ≠ job.latch) (result : Except Stop Writer)
    (s : Streams) : (job.conclude result s).status? n = s.status? n := by
  cases result with
  | ok out =>
    obtain ⟨t, st, heq, ht, -, -⟩ := exists_complete job.latch out s
    rw [Job.conclude, heq, status?_settle_of_ne h, ← status?_outline, ht, status?_outline]
  | error cause =>
    cases cause with
    | error e => exact status?_settle_of_ne h
    | panic message => exact status?_settle_of_ne h
    | blocked => rfl
    | exhausted => rfl

/-- An action leaves all latches that were there as they stand.  Where deferred computations run
    where they are met, it hands its writer on. -/
def Render.Frames (i : Prop) (x : Writer → Render Writer) : Prop :=
  ∀ (w : World) (out : Writer),
    (∀ n st, w.streams.status? n = some st → (x out w).2.streams.status? n = some st) ∧
      (i → ∀ out', (x out w).1 = .ok out' → out' = out)

theorem Render.frames_effects (o : Options) :
    Effects o (fun _ => True) (fun _ _ => true) fun _ i w out result w' =>
      (∀ n st, w.streams.status? n = some st → w'.streams.status? n = some st) ∧
        (i = true ∨ o.schedule = none → ∀ out', result = .ok out' → out' = out) where
  keeps := o.handler.keeps_true
  outcome _ _ := trivial
  inherited _ := Site.inherited_true
  grows _ _ h := h
  refl _ _ _ _ := ⟨fun _ _ hst => hst, fun _ _ heq => (Except.ok.inj heq).symm⟩
  fail _ _ _ _ _ := ⟨fun _ _ hst => hst, nofun⟩
  panic _ _ _ _ _ _ := ⟨fun _ _ hst => hst, nofun⟩
  exhausted _ _ _ _ := ⟨fun _ _ hst => hst, nofun⟩
  trans hx hy := by
    obtain ⟨hstatus, hout⟩ := hx
    obtain ⟨hstatus', hout'⟩ := hy
    exact ⟨fun n st hst => hstatus' n st (hstatus n st hst),
      fun hi out heq => (hout' hi out heq).trans (hout hi _ rfl)⟩
  write _ _ w out text :=
    ⟨fun n _ hst => (Streams.status?_write text out w.streams n).trans hst,
      fun _ _ => Render.eq_of_map_eq_ok⟩
  load _ _ hy := hy _ (Nat.le_refl _) (Template.similar_refl _)
  lookup _ _ _ _ _ _ := ⟨fun _ _ hst => hst, fun _ _ heq => (Except.ok.inj heq).symm⟩
  captured _ _ _ _ _ hx := ⟨hx.1, fun _ _ => Render.eq_of_map_eq_ok⟩
  counted _ _ _ _ _ := ⟨fun _ _ hst => hst, fun _ _ heq => (Except.ok.inj heq).symm⟩
  performed hschedule hnew hx := by
    refine ⟨fun n st hst => ?_, fun hi => absurd hi (Context.not_inline hschedule)⟩
    -- The latch of the job is new, so it is none of those that were there.
    have hne := Nat.ne_of_lt (Streams.lt_of_status? hst)
    rw [Streams.status?_conclude_of_ne (hnew ▸ hne)]
    exact hx.1 n st ((Streams.status?_newLatch_of_ne hne).trans hst)
  queued hschedule _ _ := by
    refine ⟨fun n st hst => ?_, fun hi => absurd hi (Context.not_inline hschedule)⟩
    exact (Streams.status?_newLatch_of_ne (Nat.ne_of_lt (Streams.lt_of_status? hst))).trans hst

/-- What was there stays as it stands, whatever is rendered. -/
theorem Renderer.frames_within (o : Options) (n : Nat) (codes : List Code) (scopes : Scopes)
    (cx : Context) : Render.Frames (cx.isInline = true ∨ o.schedule = none)
      ((Renderer.within o n).nodes codes scopes cx) :=
  (Render.frames_effects o).within (m := 0) n (Code.allSimilar_refl codes) (fun _ _ => trivial) cx

theorem Renderer.frames_work (o : Options) (n : Nat) (job : Job) :
    Render.Frames (job.context.isInline = true ∨ o.schedule = none)
      ((Renderer.within o n).work job) :=
  (Render.frames_effects o).work (m := 0) n (Awaiting.Similar.refl_true job.awaiting) trivial
    fun _ _ => trivial

/-! ## Order -/

/-- An action has put jobs off to the end of the queue, and kept order.  Where deferred computations
    run where they are met, it has put nothing off and hands its writer on. -/
structure World.Tidies (i : Prop) (out : Writer) (w w' : World) (jobs : List Job)
    (result : Except Stop Writer) : Prop where
  queue : w'.queue = w.queue ++ jobs
  lays : Lays (w.streams.route out) w.streams w'.streams jobs result
  inline : i → jobs = [] ∧ ∀ out', result = .ok out' → out' = out

/-- An action keeps order. -/
def Render.Tidy (i : Prop) (x : Writer → Render Writer) : Prop :=
  ∀ (w : World) (out : Writer), w.streams.Orderly [] [out] →
    ∃ jobs, World.Tidies i out w (x out w).2 jobs (x out w).1

theorem World.Tidies.nothing {w' : World} {result : Except Stop Writer}
    (h : w.streams.Orderly [] [out]) (hqueue : w'.queue = w.queue)
    (ht : w'.streams.outline = w.streams.outline)
    (hfills : Fills (w.streams.route out) w.streams w'.streams)
    (hout : ∀ out', result = .ok out' → out' = out) (hblocked : result ≠ .error .blocked) :
    World.Tidies i out w w' [] result :=
  ⟨by rw [hqueue, List.append_nil], .nothing h ht hfills hout hblocked, fun _ => ⟨rfl, hout⟩⟩

theorem World.Tidies.refl (h : w.streams.Orderly [] [out]) {result : Except Stop Writer}
    (hout : ∀ out', result = .ok out' → out' = out) (hblocked : result ≠ .error .blocked) :
    World.Tidies i out w w [] result :=
  .nothing h rfl rfl (.refl _ _) hout hblocked

/-- The store and the runs of computations play no part. -/
theorem World.Tidies.of_eq {w₁ w₂ : World} {jobs : List Job} {result : Except Stop Writer}
    (h : World.Tidies i out w₁ w₂ jobs result) (hstreams : w₁.streams = w.streams)
    (hqueue : w₁.queue = w.queue) : World.Tidies i out w w₂ jobs result :=
  ⟨by rw [h.queue, hqueue], hstreams ▸ h.lays, h.inline⟩

theorem Streams.Orderly.write_ne_blocked {s : Streams} (h : s.Orderly [] [out]) (text : String) :
    (s.write text out).1 ≠ .blocked := by
  unfold Streams.write
  cases hroute : s.route out with
  | output k =>
    have hlt := Streams.lt_of_route_output h.closed h.has_out hroute
    simp only [List.getElem?_eq_getElem hlt]
    cases (s.outputs[k].write text).1 <;> simp
  | pending n => simp
  | failed e => simp
  | nowhere => exact absurd hroute (h.way out h.has_out)

theorem Streams.flushOutput_cases (k : Nat) (s : Streams) :
    s.flushOutput k = .ok ∨ ∃ e, s.flushOutput k = .error e := by
  rw [Streams.flushOutput]
  cases (s.outputs[k]?).bind Output.flushRefusal with
  | none => exact .inl rfl
  | some cause => exact .inr ⟨_, rfl⟩

/-- A text is captured at a destination of its own, and nobody is waited for. -/
theorem World.Tidies.captured {p : Prop} (hp : p) (h : w.streams.Orderly [] [out]) {after : World}
    {jobs : List Job} {result : Except Stop Writer}
    (hjobs : World.Tidies p (.direct (w.streams.openOutput (.buffer "")).1)
      { w with streams := (w.streams.openOutput (.buffer "")).2 } after jobs result) :
    World.Tidies i out w after []
      ((result.bind fun out' => Render.ofResult (after.streams.finish out')).map fun _ => out) := by
  obtain ⟨rfl, hout⟩ := hjobs.inline hp
  have hqueue : after.queue = w.queue ++ [] := hjobs.queue
  have hlays := hjobs.lays
  rw [Streams.route_direct] at hlays
  have hadd {r : Except Stop Writer} (hr : ∀ out', r = .ok out' → out' = out)
      (hblocked : r ≠ .error .blocked)
      (hexhausted : result = .error .exhausted → r = .error .exhausted) :
      World.Tidies i out w after [] r :=
    ⟨hqueue, .opened h hlays hr hblocked hexhausted, fun _ => ⟨rfl, hr⟩⟩
  cases result with
  | error cause => exact hadd (by rintro _ ⟨⟩) (fun heq => hlays.unblocked heq) fun heq => heq
  | ok out' =>
    -- The writer handed on is the destination itself, and flushing it waits for nobody.
    obtain rfl := hout out' rfl
    simp only [Except.bind, Streams.finish, Streams.route_direct]
    obtain hflush | ⟨e, hflush⟩ := Streams.flushOutput_cases (w.streams.openOutput (.buffer "")).1
      after.streams
    · rw [hflush]
      exact hadd (fun out' heq => (Except.ok.inj heq).symm) (by rintro ⟨⟩) (by rintro ⟨⟩)
    · rw [hflush]
      exact hadd (by rintro _ ⟨⟩) (by rintro ⟨⟩) (by rintro ⟨⟩)

theorem Render.Tidy.run_captured {p : Prop} (hp : p) (hx : Tidy p x)
    (h : w.streams.Orderly [] [out]) :
    World.Tidies i out w (Render.captured x w).2 []
      ((Render.captured x w).1.map fun _ => out) := by
  obtain ⟨jobs, hjobs⟩ := hx { w with streams := (w.streams.openOutput (.buffer "")).2 }
    (.direct (w.streams.openOutput (.buffer "")).1) (h.opened _)
  have hcaptured := hjobs.captured (i := i) hp h
  simp only [Render.captured_eq]
  rcases hran : x (.direct (w.streams.openOutput (.buffer "")).1)
    { w with streams := (w.streams.openOutput (.buffer "")).2 } with ⟨result, after⟩
  rw [hran] at hcaptured
  simp only at hcaptured ⊢
  cases hfinish : result.bind fun out => Render.ofResult (after.streams.finish out) with
  | error _ =>
    rw [hfinish] at hcaptured
    exact hcaptured
  | ok _ =>
    rw [hfinish] at hcaptured
    exact hcaptured

theorem World.Tidies.write (h : w.streams.Orderly [] [out]) (text : String) :
    World.Tidies i out w { w with streams := (w.streams.write text out).2 } []
      ((Render.ofResult (w.streams.write text out).1).map fun _ => out) := by
  have hblocked := h.write_ne_blocked text
  refine .nothing h rfl (Streams.outline_write text out w.streams)
    (Streams.fills_write text out w.streams) (fun _ => Render.eq_of_map_eq_ok) ?_
  cases hresult : (w.streams.write text out).1 with
  | ok => rintro ⟨⟩
  | error e => rintro ⟨⟩
  | blocked => exact absurd hresult hblocked

theorem World.Tidies.trans {out' : Writer} {w₁ w₂ : World} {jobs jobs' : List Job}
    {result : Except Stop Writer} (hx : World.Tidies i out w w₁ jobs (.ok out'))
    (hy : World.Tidies i out' w₁ w₂ jobs' result) :
    World.Tidies i out w w₂ (jobs ++ jobs') result := by
  refine ⟨?_, hx.lays.seq hy.lays, fun hi => ?_⟩
  · rw [hy.queue, hx.queue, List.append_assoc]
  · obtain ⟨rfl, hout⟩ := hx.inline hi
    obtain ⟨rfl, hout'⟩ := hy.inline hi
    exact ⟨rfl, fun out'' heq => (hout' out'' heq).trans (hout out' rfl)⟩

/-- The writer that is handed on is in use. -/
theorem World.Tidies.orderly {out' : Writer} {w₁ : World} {jobs : List Job}
    (hx : World.Tidies i out w w₁ jobs (.ok out')) : w₁.streams.Orderly [] [out'] :=
  hx.lays.orderly.of_out (hx.lays.adds.writer out' (.inr rfl)).1

theorem Render.tidy_effects (o : Options) :
    Effects o (fun _ => True) (fun _ _ => true) fun _ i w out result w' =>
      w.streams.Orderly [] [out] →
        ∃ jobs, World.Tidies (i = true ∨ o.schedule = none) out w w' jobs result where
  keeps := o.handler.keeps_true
  outcome _ _ := trivial
  inherited _ := Site.inherited_true
  grows _ _ h := h
  refl _ _ _ _ h := ⟨[], .refl h (fun _ heq => (Except.ok.inj heq).symm) nofun⟩
  fail _ _ _ _ _ h := ⟨[], .refl h nofun nofun⟩
  panic _ _ _ _ _ _ h := ⟨[], .refl h nofun nofun⟩
  exhausted _ _ _ _ h := ⟨[], .refl h nofun nofun⟩
  trans hx hy h := by
    obtain ⟨jobs, hjobs⟩ := hx h
    obtain ⟨jobs', hjobs'⟩ := hy hjobs.orderly
    exact ⟨jobs ++ jobs', hjobs.trans hjobs'⟩
  write _ _ _ _ text h := ⟨[], .write h text⟩
  load _ _ hy h := by
    obtain ⟨jobs, hjobs⟩ := hy _ (Nat.le_refl _) (Template.similar_refl _) h
    exact ⟨jobs, hjobs.of_eq rfl rfl⟩
  lookup _ _ _ _ _ _ h :=
    ⟨[], .nothing h rfl rfl (.refl _ _) (fun _ heq => (Except.ok.inj heq).symm) nofun⟩
  captured _ _ _ _ _ hx h := by
    obtain ⟨jobs, hjobs⟩ := hx (h.opened _)
    exact ⟨[], hjobs.captured (.inl rfl) h⟩
  counted _ _ _ _ _ h :=
    ⟨[], .nothing h rfl rfl (.refl _ _) (fun _ heq => (Except.ok.inj heq).symm) nofun⟩
  performed hschedule hnew hx h := by
    have horderly := Orderly.submitted h hnew
    obtain ⟨jobs, hjobs⟩ := hx
      (horderly.of_out (horderly.has _ (List.mem_append_left _ (List.mem_singleton_self _))))
    exact ⟨jobs, hjobs.queue, .at_once h hnew hjobs.lays,
      fun hi => absurd hi (Context.not_inline hschedule)⟩
  queued hschedule hnew _ h :=
    ⟨[_], rfl, .submitted h hnew, fun hi => absurd hi (Context.not_inline hschedule)⟩

/-- Rendering keeps order. -/
theorem Renderer.tidy_within (o : Options) (n : Nat) (codes : List Code) (scopes : Scopes)
    (cx : Context) : Render.Tidy (cx.isInline = true ∨ o.schedule = none)
      ((Renderer.within o n).nodes codes scopes cx) :=
  (Render.tidy_effects o).within (m := 0) n (Code.allSimilar_refl codes) (fun _ _ => trivial) cx

theorem Renderer.tidy_work (o : Options) (n : Nat) (job : Job) :
    Render.Tidy (job.context.isInline = true ∨ o.schedule = none)
      ((Renderer.within o n).work job) :=
  (Render.tidy_effects o).work (m := 0) n (Awaiting.Similar.refl_true job.awaiting) trivial
    fun _ _ => trivial

end Mustache
