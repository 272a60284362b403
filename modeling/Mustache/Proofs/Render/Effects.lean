import Mustache.Proofs.Render.Coupling
import Mustache.Proofs.Render.Inline
import Mustache.Proofs.Render.Jobs

/-! # What rendering does to a world

An action takes a world and a writer, and leaves a result and a world.  What it may leave is told by
a relation of these, its effect.  `Effects` lists what has to be shown of an effect: one fact for
each thing that actions do to a world, and that effects go one after the other.  All that is rendered
then has the effect, and so has the work of a job that has been put off.

* `Render.HasEffect` — an action leaves what an effect tells.
* `Renderer.defer_inline`, `Renderer.defer_performed` — where a deferred computation runs.
* `Effects.coupling` — an effect goes through all the basic actions.
* `Effects.within`, `Effects.work` — what is rendered has the effect.
-/

namespace Mustache

variable {o : Options} {r : Renderer} {job : Job} {w : World} {x y : Writer → Render Writer}

/-! ## Captured texts and deferred computations -/

/-- Capturing a text is rendering to a new buffer, and finishing what was handed on. -/
theorem Render.captured_eq (x : Writer → Render Writer) (w : World) :
    Render.captured x w =
      let opened := w.streams.openOutput (.buffer "")
      let (result, after) := x (.direct opened.1) { w with streams := opened.2 }
      ((result.bind fun out => Render.ofResult (after.streams.finish out)).map fun _ =>
        after.streams.textOf opened.1, after) := by
  simp only [Render.captured, bind, Render.newBuffer]
  rcases x (.direct (w.streams.openOutput (.buffer "")).1)
    { w with streams := (w.streams.openOutput (.buffer "")).2 } with ⟨_ | out, after⟩
  · rfl
  · simp only [Render.finish, Render.textOf, Except.bind]
    cases Render.ofResult (after.streams.finish out) <;> rfl

theorem Render.eq_of_map_eq_ok {α β : Type} {result : Except Stop α} {b b' : β}
    (h : (result.map fun _ => b) = .ok b') : b' = b := by
  cases result with
  | error _ => cases h
  | ok _ => exact (Except.ok.inj h).symm

/-- Where nothing is put off. -/
theorem Context.schedule?_eq_none_iff {cx : Context} :
    cx.schedule? o = none ↔ cx.isInline = true ∨ o.schedule = none := by
  unfold Context.schedule?
  cases cx.isInline <;> simp

theorem Context.not_inline {cx : Context} {schedule : Schedule}
    (hschedule : cx.schedule? o = some schedule) : ¬ (cx.isInline = true ∨ o.schedule = none) :=
  fun h => by cases hschedule.symm.trans (schedule?_eq_none_iff.mpr h)

/-- Where nothing is put off, a deferred computation runs where it is met. -/
theorem Renderer.defer_inline {d : Deferred Value} {name : String} {k : Awaiting} {scopes : Scopes}
    {cx : Context} (h : cx.schedule? o = none) :
    r.defer o d name k scopes cx =
      fun out => Render.runFor d name >>= fun v => r.resume k v scopes cx out := by
  funext out
  simp only [Renderer.defer, h]

/-- A job that is done at once is done in the world in which it has been submitted. -/
theorem Renderer.defer_performed {schedule : Schedule} (hlatch : job.latch = w.streams.newLatch.1)
    (hschedule : job.context.schedule? o = some schedule)
    (honce : schedule.atOnce w.submitted = true) :
    r.defer o job.deferred job.name job.awaiting job.scopes job.context job.writer w =
      ((r.perform job w.opened).1.map fun _ => .latched job.latch,
        (r.perform job w.opened).2) := by
  rw [defer_at_once hlatch hschedule honce, perform_eq]

/-! ## Effects -/

/-- What an action may leave, told by the world and the writer that it is given: a result and a
    world. -/
abbrev Effect : Type :=
  World → Writer → Except Stop Writer → World → Prop

/-- An action leaves what an effect tells, whatever it is given. -/
def Render.HasEffect (E : Effect) (x : Writer → Render Writer) : Prop :=
  ∀ (w : World) (out : Writer), E w out (x out w).1 (x out w).2

/-- An effect that goes through all that actions do to a world, in stages: in a later stage more is
    known of sites, and a tree that is loaded may be of a later stage. -/
structure Effects (o : Options) (V : Value → Prop) (S : Nat → Site → Bool)
    (E : Nat → Bool → Effect) : Prop where
  keeps : o.handler.Keeps V
  outcome : ∀ {d : Deferred Value} {k v}, V (.deferred d) → d.outcome k = .value v → V v
  inherited : ∀ m, Site.Inherited (S m)
  grows : ∀ {m n}, m ≤ n → ∀ site, S m site = true → S n site = true
  refl : ∀ m i w out, E m i w out (.ok out) w
  fail : ∀ m i w out e, E m i w out (.error (.error e)) w
  panic : ∀ {d : Deferred Value} {k message} m i w out, V (.deferred d) →
    d.outcome k = .panic message → E m i w out (.error (.panic message)) w
  exhausted : ∀ m i w out, E m i w out (.error .exhausted) w
  trans : ∀ {m i w w₁ w₂ out out' r}, E m i w out (.ok out') w₁ → E m i w₁ out' r w₂ →
    E m i w out r w₂
  write : ∀ m i w out text,
    E m i w out ((Render.ofResult (w.streams.write text out).1).map fun _ => out)
      { w with streams := (w.streams.write text out).2 }
  load : ∀ {m i w w' out r z z' t store}, Store.Loads o (S m) z z' → z w.store = .ok (t, store) →
    (∀ n, m ≤ n → t.Similar (S n) t → E n i { w with store } out r w') → E m i w out r w'
  lookup : ∀ m i w out n scopes,
    E m i w out (.ok out) { w with store := (w.store.lookup o n scopes).2 }
  captured : ∀ {m} i {w after} out {result}, let opened := w.streams.openOutput (.buffer "")
    E m true { w with streams := opened.2 } (.direct opened.1) result after →
      E m i w out ((result.bind fun out' => Render.ofResult (after.streams.finish out')).map
        fun _ => out) after
  counted : ∀ m i w out d, E m i w out (.ok out) (w.counted d)
  performed : ∀ {m w} {job : Job} {schedule result after}, job.context.schedule? o = some schedule →
    job.latch = w.streams.newLatch.1 →
    E m job.context.isInline w.opened job.writer result after →
      E m job.context.isInline w job.writer ((Job.verdict result).map fun _ => .latched job.latch)
        { after with streams := job.conclude result after.streams }
  queued : ∀ {m w} {job : Job} {schedule}, job.context.schedule? o = some schedule →
    job.latch = w.streams.newLatch.1 → job.awaiting.Similar (S m) job.awaiting →
      E m job.context.isInline w job.writer (.ok (.latched job.latch))
        { w.opened with queue := w.queue ++ [job] }

namespace Effects

variable {V : Value → Prop} {S : Nat → Site → Bool} {E : Nat → Bool → Effect} {m : Nat} {i : Bool}
  (h : Effects o V S E)
include h

theorem seq (hx : Render.HasEffect (E m i) x) (hy : Render.HasEffect (E m i) y) :
    Render.HasEffect (E m i) (fun out => x out >>= y) := by
  intro w out
  have hfirst := hx w out
  simp only [bind]
  rcases hran : x out w with ⟨_ | out', after⟩
  · rw [hran] at hfirst
    exact hfirst
  · rw [hran] at hfirst
    exact h.trans hfirst (hy after out')

theorem written (m : Nat) (i : Bool) (text : String) :
    Render.HasEffect (E m i) (fun out => do Render.write text out; return out) := by
  intro w out
  have hwrite := h.write m i w out text
  simp only [bind, Render.write]
  cases hresult : Render.ofResult (w.streams.write text out).1 with
  | error _ =>
    rw [hresult] at hwrite
    exact hwrite
  | ok _ =>
    rw [hresult] at hwrite
    exact hwrite

theorem loaded {z z' : Store.Action Template} (hz : Store.Loads o (S m) z z')
    {y : Template → Writer → Render Writer}
    (hy : ∀ n, m ≤ n → ∀ t, t.Similar (S n) t → Render.HasEffect (E n i) (y t)) :
    Render.HasEffect (E m i) (fun out => do let t ← Render.withStore z; y t out) := by
  intro w out
  simp only [bind, Render.withStore]
  cases hload : z w.store with
  | error e => exact h.fail m i w out e
  | ok loaded =>
    obtain ⟨t, store⟩ := loaded
    exact h.load hz hload fun n hn ht => hy n hn t ht { w with store } out

theorem looked (n : Node) {scopes : Scopes} (hscopes : scopes.All V)
    {y : Lookup.Hit → Writer → Render Writer}
    (hy : ∀ hit, V hit.value → Render.HasEffect (E m i) (y hit)) :
    Render.HasEffect (E m i) (fun out => do let hit ← Render.lookup o n scopes; y hit out) := by
  intro w out
  have hvalue := Store.lookup_value h.keeps hscopes n w.store
  exact h.trans (h.lookup m i w out n scopes) (hy (w.store.lookup o n scopes).1 hvalue _ out)

/-- What a captured text is used for comes after what was done to capture it. -/
theorem capture (hx : Render.HasEffect (E m true) x) {y : String → Writer → Render Writer}
    (hy : ∀ text, Render.HasEffect (E m i) (y text)) :
    Render.HasEffect (E m i) (fun out => do let text ← Render.captured x; y text out) := by
  intro w out
  have hfirst := h.captured i out (hx { w with streams := (w.streams.openOutput (.buffer "")).2 }
    (.direct (w.streams.openOutput (.buffer "")).1))
  simp only [bind, Render.captured_eq]
  rcases hran : x (.direct (w.streams.openOutput (.buffer "")).1)
    { w with streams := (w.streams.openOutput (.buffer "")).2 } with ⟨result, after⟩
  rw [hran] at hfirst
  simp only at hfirst ⊢
  cases hfinish : result.bind fun out => Render.ofResult (after.streams.finish out) with
  | error _ =>
    rw [hfinish] at hfirst
    exact hfirst
  | ok _ =>
    rw [hfinish] at hfirst
    exact h.trans hfirst (hy _ after out)

theorem run {d : Deferred Value} (hd : V (.deferred d)) (name : String) {k : Awaiting}
    {scopes : Scopes} {cx : Context}
    (hresume : ∀ v, V v → Render.HasEffect (E m i) (r.resume k v scopes cx)) :
    Render.HasEffect (E m i)
      (fun out => Render.runFor d name >>= fun v => r.resume k v scopes cx out) := by
  intro w out
  have hcounted := h.counted m i w out d
  simp only [bind, Render.runFor, Render.run]
  cases houtcome : d.outcome ((w.runs.get? d.id).getD 0) with
  | value v => exact h.trans hcounted (hresume v (h.outcome hd houtcome) (w.counted d) out)
  | failure _ => exact h.trans hcounted (h.fail m i (w.counted d) out _)
  | panic _ => exact h.trans hcounted (h.panic m i (w.counted d) out hd houtcome)

/-- A deferred computation runs where it is met, or its job is done at once or later. -/
theorem defer {d : Deferred Value} (hd : V (.deferred d)) (name : String) {k : Awaiting}
    (hk : k.Similar (S m) k) {scopes : Scopes} {cx : Context}
    (hresume : ∀ v, V v → Render.HasEffect (E m cx.isInline) (r.resume k v scopes cx)) :
    Render.HasEffect (E m cx.isInline) (r.defer o d name k scopes cx) := by
  have hrun := h.run hd name hresume
  cases hschedule : cx.schedule? o with
  | none =>
    rw [Renderer.defer_inline hschedule]
    exact hrun
  | some schedule =>
    intro w out
    let job : Job := ⟨w.streams.newLatch.1, out, d, name, scopes, cx, k⟩
    have hnew : job.latch = w.streams.newLatch.1 := rfl
    have hput : job.context.schedule? o = some schedule := hschedule
    by_cases honce : schedule.atOnce w.submitted = true
    · have hdefer := Renderer.defer_at_once (r := r) hnew hput honce
      rw [show r.defer o d name k scopes cx out w = _ from hdefer]
      exact h.performed hput hnew (hrun w.opened out)
    · have hdefer := Renderer.defer_later (r := r) hnew hput honce
      rw [show r.defer o d name k scopes cx out w = _ from hdefer]
      exact h.queued hput hnew hk

/-- An effect goes through all the basic actions. -/
theorem coupling : Coupling o V S fun m i x _ => Render.HasEffect (E m i) x where
  keeps := h.keeps
  inherited := h.inherited
  grows := h.grows
  skip := h.refl
  fail m i e w out := h.fail m i w out e
  exhausted := h.exhausted
  seq := h.seq
  write := h.written
  load hz hy := h.loaded hz fun n hn t ht => hy n hn t t ht
  lookup n _ _ _ hscopes hy := h.looked n hscopes hy
  captured hx hy := h.capture hx hy
  awaiting _ name _ _ hk hd _ hresume := h.defer hd name hk.left hresume

/-- **Rendering has an effect** that goes through all that actions do to a world. -/
theorem within (n : Nat) {codes : List Code} (hcodes : Code.AllSimilar (S m) codes codes)
    {scopes : Scopes} (hscopes : scopes.All V) (cx : Context) :
    Render.HasEffect (E m cx.isInline) ((Renderer.within o n).nodes codes scopes cx) :=
  h.coupling.nodes (h.coupling.within n) hscopes cx hcodes

/-- So has the work of a job. -/
theorem work (n : Nat) (hjob : job.awaiting.Similar (S m) job.awaiting)
    (hd : V (.deferred job.deferred)) (hscopes : job.scopes.All V) :
    Render.HasEffect (E m job.context.isInline) ((Renderer.within o n).work job) :=
  h.run hd job.name fun _ hv => (h.coupling.within n).resume job.context hjob hv hscopes

end Effects

end Mustache
