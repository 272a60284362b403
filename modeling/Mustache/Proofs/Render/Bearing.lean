import Mustache.Proofs.Render.Enough
import Mustache.Proofs.Render.Schedules
import Mustache.Proofs.Render.Unbroken

/-! # What a render bears out

A render over steady data that has gone well, with all its jobs, goes well plainly.  Each of the jobs
has had all the allowance of nesting, while plain rendering has to make do with one for all, and so
may need more of it.  How much more is told from the last job backwards: what a job goes on to put
off goes well plainly, and then so does the job.

* `Plain.Well` — a plain action goes well.
* `World.Leaves` — what an action that puts jobs off leaves of a world.
* `Render.BearsOut` — an action that has gone well bears out that a plain action does.
* `Template.Completes.well` — a render that has gone well bears out that it goes well plainly.
-/

namespace Mustache

variable {o : Options} {l : Loader} {V : Value → Prop} {top more n : Nat} {w w₁ w₂ : World}
  {x y : Writer → Render Writer} {p q : Plain Unit Unit} {job : Job} {jobs jobs' : List Job}

/-! ## Plain rendering that goes well -/

namespace Plain

/-- A plain action goes well. -/
def Well (p : Plain Unit Unit) : Prop :=
  (p ()).2.1 = .ok ()

variable {α : Type} {a : α} {p : Plain Unit α} {q : α → Plain Unit Unit}

theorem Well.of_bind (h : (p >>= q).Well) : ∃ a, (p ()).2.1 = .ok a ∧ (q a).Well := by
  simp only [Well, bind] at h ⊢
  rcases hp : p () with ⟨texts, _ | a, s⟩
  · rw [hp] at h
    cases h
  · rw [hp] at h
    exact ⟨a, rfl, h⟩

theorem Well.bind (hp : (p ()).2.1 = .ok a) (hq : (q a).Well) : (p >>= q).Well := by
  simp only [Well, Bind.bind] at hq ⊢
  rcases hran : p () with ⟨texts, r, s⟩
  rw [hran] at hp
  obtain rfl : r = .ok a := hp
  exact hq

/-- A greater allowance makes no difference to what goes well. -/
theorem Well.upto {p p' : Plain Unit Unit} (h : p.Well) (hupto : p.Upto p') : p'.Well := by
  obtain hexhausted | heq := hupto ()
  · cases hexhausted.symm.trans h
  · rw [Well, heq]
    exact h

end Plain

theorem Job.well_of_le {m : Nat} (hle : n ≤ m) (h : (job.plain o l n).Well) :
    (job.plain o l m).Well :=
  h.upto ((Plain.within_upto o l .steady hle).await job.deferred job.name job.awaiting.bare
    job.scopes job.context)

theorem World.exists_well_of_queue (hqueue : w.queue = []) :
    ∃ more, ∀ job ∈ w.queue, (job.plain o l more).Well :=
  ⟨0, by rw [hqueue]; exact List.forall_mem_nil _⟩

/-! ## What is left -/

namespace Streams

/-- No latch has failed. -/
def Unfailed (s : Streams) : Prop :=
  ∀ m e, s.status? m ≠ some (.failed e)

/-- If no latch has failed when a job has been done, none had before, nor has the work of the
    job. -/
theorem Unfailed.of_conclude {s : Streams} {r : Except Stop Writer}
    (h : (job.conclude r s).Unfailed) (hlatch : s.status? job.latch = some .pending) :
    s.Unfailed ∧ (Job.verdict r = .ok () → ∃ out, r = .ok out) := by
  refine ⟨fun m e hst => ?_, fun hverdict => ?_⟩
  · have hne : m ≠ job.latch := by
      rintro rfl
      cases hlatch.symm.trans hst
    exact h m e ((status?_conclude_of_ne hne r _).trans hst)
  · have hlt := lt_of_status? hlatch
    cases r with
    | ok out => exact ⟨out, rfl⟩
    | error stop =>
      cases stop with
      | error e => exact absurd (status?_settle_self hlt) (h job.latch e)
      | panic message => exact absurd (status?_settle_self hlt) (h job.latch _)
      | blocked => cases hverdict
      | exhausted => cases hverdict

end Streams

/-- An action has put off jobs over values with a property.  It has left all latches that were
    settled as they stood, and the store is faithful. -/
structure World.Leaves (o : Options) (l : Loader) (V : Value → Prop) (w w' : World)
    (jobs : List Job) : Prop where
  store : w'.store.Faithful o l
  queue : w'.queue = w.queue ++ jobs
  proper : ∀ job ∈ jobs, job.Proper V
  settled : ∀ n st, st ≠ .pending → w.streams.status? n = some st →
    w'.streams.status? n = some st

namespace World.Leaves

theorem nothing {w' : World} (hstore : w'.store.Faithful o l) (hqueue : w'.queue = w.queue)
    (hstatus : ∀ n, w'.streams.status? n = w.streams.status? n) : World.Leaves o l V w w' [] :=
  ⟨hstore, by rw [hqueue, List.append_nil], List.forall_mem_nil _,
    fun n _ _ hst => (hstatus n).trans hst⟩

theorem trans (h : World.Leaves o l V w w₁ jobs) (h' : World.Leaves o l V w₁ w₂ jobs') :
    World.Leaves o l V w w₂ (jobs ++ jobs') :=
  ⟨h'.store, by rw [h'.queue, h.queue, List.append_assoc],
    List.forall_mem_append.mpr ⟨h.proper, h'.proper⟩,
    fun n st hne hst => h'.settled n st hne (h.settled n st hne hst)⟩

/-- Where the action began does not show but by its streams and its queue. -/
theorem of_start (h : World.Leaves o l V w₁ w₂ jobs) (hqueue : w₁.queue = w.queue)
    (hstatus : ∀ n st, w.streams.status? n = some st → w₁.streams.status? n = some st) :
    World.Leaves o l V w w₂ jobs :=
  ⟨h.store, hqueue ▸ h.queue, h.proper, fun n st hne hst => h.settled n st hne (hstatus n st hst)⟩

theorem unfailed (h : World.Leaves o l V w w₁ jobs) (hw : w₁.streams.Unfailed) :
    w.streams.Unfailed :=
  fun m e hst => hw m e (h.settled m _ nofun hst)

/-- Settling the latch of a job. -/
theorem conclude (h : World.Leaves o l V w w₁ jobs)
    (hlatch : w.streams.status? job.latch = some .pending) (r : Except Stop Writer) :
    World.Leaves o l V w { w₁ with streams := job.conclude r w₁.streams } jobs := by
  refine ⟨h.store, h.queue, h.proper, fun n st hne hst => ?_⟩
  have hother : n ≠ job.latch := by
    rintro rfl
    exact hne (Option.some.inj (hst.symm.trans hlatch))
  exact (Streams.status?_conclude_of_ne hother r _).trans (h.settled n st hne hst)

theorem of_opened (h : World.Leaves o l V w.opened w₁ jobs) : World.Leaves o l V w w₁ jobs :=
  h.of_start rfl fun _ _ hst =>
    (Streams.status?_newLatch_of_ne (Nat.ne_of_lt (Streams.lt_of_status? hst))).trans hst

/-- Submitting a job. -/
theorem submitted {schedule : Schedule} (hstore : w.store.Faithful o l)
    (hd : V (.deferred job.deferred)) (hscopes : job.scopes.All V)
    (hschedule : job.context.schedule? o = some schedule) :
    World.Leaves o l V w { w.opened with queue := w.queue ++ [job] } [job] := by
  have hinline : job.context.isInline = false := by
    cases hinline : job.context.isInline with
    | false => rfl
    | true => exact absurd (.inl hinline) (Context.not_inline hschedule)
  exact of_opened ⟨hstore, rfl, List.forall_mem_singleton.mpr ⟨hd, hscopes, hinline⟩,
    fun _ _ _ hst => hst⟩

end World.Leaves

/-! ## Actions -/

/-- An action does what some action does that does what a plain action does, unless it uses up its
    allowance. -/
def InlineUpto (o : Options) (l : Loader) (x : Writer → Render Writer) (p : Plain Unit Unit) :
    Prop :=
  ∃ x', (∀ out, Render.Unless (fun stop => stop = .exhausted) (x out) (x' out)) ∧
    Inline o l (fun _ _ => True) x' p

/-- When an action has gone well, no latch has failed, and all that it has put off goes well plainly
    with some allowance, then so does a plain action. -/
def Render.BearsOut (o : Options) (l : Loader) (V : Value → Prop) (more : Nat)
    (x : Writer → Render Writer) (p : Plain Unit Unit) : Prop :=
  ∀ (w : World) (out : Writer), w.store.Faithful o l →
    ∃ jobs, World.Leaves o l V w (x out w).2 jobs ∧
      ∀ out', (x out w).1 = .ok out' → (x out w).2.streams.Unfailed →
        (∀ job ∈ jobs, (job.plain o l more).Well) → p.Well

namespace InlineUpto

theorem of_inline (h : Inline o l (fun _ _ => True) x p) : InlineUpto o l x p :=
  ⟨x, fun out => .refl (x out), h⟩

theorem seq (hx : InlineUpto o l x p) (hy : InlineUpto o l y q) :
    InlineUpto o l (fun out => x out >>= y) (p >>= fun _ => q) := by
  obtain ⟨x', hx, hp⟩ := hx
  obtain ⟨y', hy, hq⟩ := hy
  exact ⟨fun out => x' out >>= y', fun out => (hx out).bind hy, hp.seq hq⟩

theorem load {z : Store.Action Template} {r : Except Error Template}
    {y : Template → Writer → Render Writer} {p : Template → Plain Unit Unit}
    (hz : Store.Answers o l z r) (hy : ∀ t, InlineUpto o l (y t) (p t.bare)) :
    InlineUpto o l (fun out => do let t ← Render.withStore z; y t out)
      (do let t ← Plain.ofExcept r; p t) := by
  choose y' hsame hp using hy
  exact ⟨fun out => do let t ← Render.withStore z; y' t out,
    fun out => (Render.Unless.refl _).bind fun t => hsame t out, .load hz hp⟩

theorem lookup (hreuse : ∀ name, Lookup.Reusable (o.handler.find name)) (n : Node)
    (scopes : Scopes) {y : Lookup.Hit → Writer → Render Writer}
    (hy : InlineUpto o l (y (Plain.hit o n.name scopes)) p) :
    InlineUpto o l (fun out => do let hit ← Render.lookup o n scopes; y hit out) p := by
  classical
  obtain ⟨y', hsame, hp⟩ := hy
  -- Only for this hit is there another action.
  let z (hit : Lookup.Hit) : Writer → Render Writer :=
    if hit = Plain.hit o n.name scopes then y' else y hit
  refine ⟨fun out => do let hit ← Render.lookup o n scopes; z hit out,
    fun out => (Render.Unless.refl _).bind fun hit => ?_, .lookup hreuse n scopes ?_⟩
  · by_cases hhit : hit = Plain.hit o n.name scopes
    · simp only [z, if_pos hhit]
      exact hhit ▸ hsame out
    · simp only [z, if_neg hhit]
      exact .refl _
  · simp only [z, if_true]
    exact hp

theorem captured (hx : InlineUpto o l x p) {y : String → Writer → Render Writer}
    {p' : String → Plain Unit Unit} (hy : ∀ text, InlineUpto o l (y text) (p' text)) :
    InlineUpto o l (fun out => do let text ← Render.captured x; y text out)
      (do let text ← Plain.captured p; p' text) := by
  obtain ⟨x', hx, hp⟩ := hx
  choose y' hsame hp' using hy
  exact ⟨fun out => do let text ← Render.captured x'; y' text out,
    fun out => (Render.Unless.captured hx).bind fun text => hsame text out, hp.captured hp'⟩

/-- The text that is captured is that of the plain action. -/
theorem eq_of_captured (hx : InlineUpto o l x p) (hstore : w.store.Faithful o l) {text : String}
    (htext : (Render.captured x w).1 = .ok text) : (Plain.captured p ()).2.1 = .ok text := by
  obtain ⟨x', hx, hp⟩ := hx
  have hsame := (Render.Unless.captured hx).eq (w := w) (by rw [htext]; nofun)
  obtain ⟨hresult, -, -⟩ := hp.run_captured hstore (s := ()) trivial
  rw [← hresult, hsame, htext]

end InlineUpto

namespace Render.BearsOut

theorem skip : BearsOut o l V more (fun out => pure out) (pure ()) :=
  fun _ _ hstore => ⟨[], .nothing hstore rfl fun _ => rfl, fun _ _ _ _ => rfl⟩

theorem stop (e : Stop) (p : Plain Unit Unit) : BearsOut o l V more (fun _ => Render.stop e) p :=
  fun _ _ hstore => ⟨[], .nothing hstore rfl fun _ => rfl, nofun⟩

theorem seq (hx : BearsOut o l V more x p) (hy : BearsOut o l V more y q) :
    BearsOut o l V more (fun out => x out >>= y) (p >>= fun _ => q) := by
  intro w out hstore
  obtain ⟨jobs, hleaves, hp⟩ := hx w out hstore
  simp only [bind]
  rcases hran : x out w with ⟨_ | out', after⟩
  · rw [hran] at hleaves
    exact ⟨jobs, hleaves, nofun⟩
  · rw [hran] at hleaves hp
    obtain ⟨jobs', hleaves', hq⟩ := hy after out' hleaves.store
    refine ⟨jobs ++ jobs', hleaves.trans hleaves', fun out'' hout hunfailed hjobs => ?_⟩
    rw [List.forall_mem_append] at hjobs
    exact .bind (hp out' rfl (hleaves'.unfailed hunfailed) hjobs.1) (hq out'' hout hunfailed hjobs.2)

theorem write (text : String) : BearsOut o l V more
    (fun out => do Render.write text out; return out) (Plain.write text) := by
  intro w out hstore
  refine ⟨[], ?_, fun _ _ _ _ => rfl⟩
  have hstatus := Streams.status?_write text out w.streams
  simp only [bind, Render.write]
  cases Render.ofResult (w.streams.write text out).1 <;> exact .nothing hstore rfl hstatus

theorem load {z : Store.Action Template} {r : Except Error Template}
    {y : Template → Writer → Render Writer} {p : Template → Plain Unit Unit}
    (hz : Store.Answers o l z r) (hy : ∀ t, BearsOut o l V more (y t) (p t.bare)) :
    BearsOut o l V more (fun out => do let t ← Render.withStore z; y t out)
      (do let t ← Plain.ofExcept r; p t) := by
  intro w out hstore
  obtain ⟨t, store, hok, rfl, hstore'⟩ | ⟨e, herror, rfl⟩ := hz w.store hstore
  · obtain ⟨jobs, hleaves, hp⟩ := hy t { w with store } out hstore'
    rw [Plain.ok_bind]
    simp only [bind, Render.withStore, hok]
    exact ⟨jobs, hleaves.of_start rfl fun _ _ hst => hst, hp⟩
  · simp only [bind, Render.withStore, herror]
    exact ⟨[], .nothing hstore rfl fun _ => rfl, by rintro _ ⟨⟩⟩

theorem lookup (hreuse : ∀ name, Lookup.Reusable (o.handler.find name)) (n : Node)
    (scopes : Scopes) {y : Lookup.Hit → Writer → Render Writer}
    (hy : BearsOut o l V more (y (Plain.hit o n.name scopes)) p) :
    BearsOut o l V more (fun out => do let hit ← Render.lookup o n scopes; y hit out) p := by
  intro w out hstore
  obtain ⟨hhit, hstore'⟩ := Store.lookup_eq hreuse hstore n scopes
  obtain ⟨jobs, hleaves, hp⟩ := hy { w with store := (w.store.lookup o n scopes).2 } out hstore'
  simp only [bind, Render.lookup, hhit]
  exact ⟨jobs, hleaves.of_start rfl fun _ _ hst => hst, hp⟩

theorem captured (hinline : InlineUpto o l x p) (hx : BearsOut o l V more x p)
    {y : String → Writer → Render Writer} {p' : String → Plain Unit Unit}
    (hy : ∀ text, BearsOut o l V more (y text) (p' text)) :
    BearsOut o l V more (fun out => do let text ← Render.captured x; y text out)
      (do let text ← Plain.captured p; p' text) := by
  intro w out hstore
  obtain ⟨jobs, hleaves, -⟩ := hx { w with streams := (w.streams.openOutput (.buffer "")).2 }
    (.direct (w.streams.openOutput (.buffer "")).1) hstore
  have hcaptured : World.Leaves o l V w (Render.captured x w).2 jobs := by
    rw [Render.captured_eq]
    exact hleaves.of_start rfl fun _ _ hst => hst
  have htext {text : String} : (Render.captured x w).1 = .ok text → _ :=
    hinline.eq_of_captured hstore
  simp only [bind]
  rcases hran : Render.captured x w with ⟨_ | text, after⟩
  · rw [hran] at hcaptured
    exact ⟨jobs, hcaptured, nofun⟩
  · rw [hran] at hcaptured htext
    obtain ⟨jobs', hleaves', hp⟩ := hy text after out hcaptured.store
    refine ⟨jobs ++ jobs', hcaptured.trans hleaves', fun out' hout hunfailed hjobs => ?_⟩
    exact .bind (htext rfl)
      (hp out' hout hunfailed fun job hjob => hjobs job (List.mem_append_right _ hjob))

/-! ### Deferred computations -/

/-- The work of a job whose computation comes to a value. -/
theorem work (hq : Oracle.steady.Models V fun _ _ => True) (hd : V (.deferred job.deferred))
    {m : Nat} (hresume : ∀ v, V v → BearsOut o l V more
      (Renderer.resumeWithin o n job.awaiting v job.scopes job.context)
      (Plain.resumeWithin o l .steady m job.awaiting.bare v job.scopes job.context)) :
    BearsOut o l V more ((Renderer.within o n).work job) (job.plain o l m) := by
  intro w out hstore
  obtain ⟨hrunFor, hvalue, -, -⟩ := hq.runFor (w := w) (s := ()) hd job.name trivial
  simp only [Renderer.work, bind, hrunFor]
  cases hv : (Plain.runFor .steady job.deferred job.name ()).2.1 with
  | error stop => exact ⟨[], .nothing hstore rfl fun _ => rfl, by rintro _ ⟨⟩⟩
  | ok v =>
    obtain ⟨jobs, hleaves, hp⟩ := hresume v (hvalue v hv) (w.counted job.deferred) out hstore
    exact ⟨jobs, hleaves.of_start rfl fun _ _ hst => hst, fun out' hout hunfailed hjobs =>
      .bind hv (hp out' hout hunfailed hjobs)⟩

theorem perform {m : Nat}
    (hwork : BearsOut o l V more ((Renderer.within o n).work job) (job.plain o l m))
    (hstore : w.store.Faithful o l) (hlatch : w.streams.status? job.latch = some .pending) :
    let ran := (Renderer.within o n).perform job w
    ∃ jobs, World.Leaves o l V w ran.2 jobs ∧
      (ran.1 = .ok () → ran.2.streams.Unfailed → (∀ job ∈ jobs, (job.plain o l more).Well) →
        (job.plain o l m).Well) := by
  obtain ⟨jobs, hleaves, hp⟩ := hwork w job.writer hstore
  have hpending := (Renderer.frames_work o n job w job.writer).1 _ _ hlatch
  simp only [Renderer.perform_eq]
  refine ⟨jobs, hleaves.conclude hlatch _, fun hverdict hunfailed hjobs => ?_⟩
  obtain ⟨hafter, hok⟩ := hunfailed.of_conclude hpending
  obtain ⟨out, hout⟩ := hok hverdict
  exact hp out hout hafter hjobs

/-- A computation that is put off. -/
theorem await (hq : Oracle.steady.Models V fun _ _ => True) (d : Deferred Value) (name : String)
    (k : Awaiting) (scopes : Scopes) (cx : Context) (hd : V (.deferred d)) (hscopes : scopes.All V)
    (hresume : ∀ v, V v → BearsOut o l V more (Renderer.resumeWithin o n k v scopes cx)
      (Plain.resumeWithin o l .steady (n + more) k.bare v scopes cx)) :
    BearsOut o l V more ((Renderer.within o n).defer o d name k scopes cx)
      ((Plain.within o l .steady (n + more)).await .steady d name k.bare scopes cx) := by
  intro w out hstore
  let job : Job := ⟨w.streams.newLatch.1, out, d, name, scopes, cx, k⟩
  have hnew : job.latch = w.streams.newLatch.1 := rfl
  have hwork : BearsOut o l V more ((Renderer.within o n).work job) (job.plain o l (n + more)) :=
    work hq hd hresume
  cases hschedule : cx.schedule? o with
  | none =>
    rw [Renderer.defer_inline hschedule]
    exact hwork w out hstore
  | some schedule =>
    by_cases honce : schedule.atOnce w.submitted = true
    · have hdefer := Renderer.defer_performed (r := .within o n) hnew hschedule honce
      rw [show (Renderer.within o n).defer o d name k scopes cx out w = _ from hdefer]
      obtain ⟨jobs, hleaves, hp⟩ := hwork.perform (w := w.opened) hstore
        (Streams.status?_newLatch_self w.streams)
      refine ⟨jobs, hleaves.of_opened, fun out' hout => hp ?_⟩
      cases hresult : ((Renderer.within o n).perform job w.opened).1 with
      | ok _ => rfl
      | error _ =>
        rw [hresult] at hout
        cases hout
    · have hdefer := Renderer.defer_later (r := .within o n) hnew hschedule honce
      rw [show (Renderer.within o n).defer o d name k scopes cx out w = _ from hdefer]
      refine ⟨[job], .submitted hstore hd hscopes hschedule, fun _ _ _ hjobs => ?_⟩
      exact Job.well_of_le (Nat.le_add_left more n) (hjobs job (List.mem_singleton_self job))

end Render.BearsOut

/-! ## Rendering -/

section

variable (l) (more) (hreuse : ∀ name, Lookup.Reusable (o.handler.find name))
  (hkeeps : o.handler.Keeps V) (hq : Oracle.steady.Models V fun _ _ => True)
include hreuse hkeeps hq

/-- Rendering bears out that plain rendering with a greater allowance goes well. -/
theorem Render.bears_simulation (top : Nat) :
    Simulation o l .steady V top more fun i x p =>
      (i = true → InlineUpto o l x p) ∧ Render.BearsOut o l V more x p where
  keeps := hkeeps
  skip _ := ⟨fun _ => .of_inline .skip, .skip⟩
  stop _ e := ⟨fun _ => .of_inline (.stop e), .stop e _⟩
  seq hx hy := ⟨fun h => (hx.1 h).seq (hy.1 h), .seq hx.2 hy.2⟩
  write _ text := ⟨fun _ => .of_inline (.write text), .write text⟩
  load hz hy := ⟨fun h => .load hz fun t => (hy t).1 h, .load hz fun t => (hy t).2⟩
  lookup n scopes hy := ⟨fun h => .lookup hreuse n scopes (hy.1 h), .lookup hreuse n scopes hy.2⟩
  captured hx hy := ⟨fun h => .captured (hx.1 rfl) fun text => (hy text).1 h,
    .captured (hx.1 rfl) hx.2 fun text => (hy text).2⟩
  awaiting n _ d name k scopes cx hd hscopes hresume := by
    refine ⟨fun h => ?_, .await hq d name k scopes cx hd hscopes fun v hv => (hresume v hv).2⟩
    have hsim : Simulation o l .steady V (n + more) 0 _ := inline_simulation hreuse hkeeps hq
    exact ⟨(Renderer.within o (n + more)).defer o d name k scopes cx,
      fun out => (Renderer.more_within o (Nat.le_add_right n more)).defer o.eases_refl scopes cx out
        d name k,
      (hsim.awaiting (n + more) (Nat.le_refl _) d name k scopes cx hd hscopes fun v hv =>
        (hsim.simulates (Nat.le_refl _)).resume k v scopes cx hv hscopes) (.inl h)⟩

theorem Render.bears_simulates (n : Nat) :
    Simulates o l .steady V n more (fun i x p =>
      (i = true → InlineUpto o l x p) ∧ Render.BearsOut o l V more x p) n := by
  have hsim : Simulation o l .steady V more 0 _ := inline_simulation hreuse hkeeps hq
  have hinline := hsim.simulates (Nat.le_refl more)
  have hstopped {i : Bool} {x : Writer → Render Writer} {p : Plain Unit Unit}
      (hx : i = true ∨ o.schedule = none → Inline o l (fun _ _ => True) x p) :
      (i = true → InlineUpto o l (fun _ => Render.stop .exhausted) p) ∧
        Render.BearsOut o l V more (fun _ => Render.stop .exhausted) p :=
    ⟨fun h => ⟨x, fun _ => .stop rfl, hx (.inl h)⟩, .stop .exhausted p⟩
  refine (Render.bears_simulation l more hreuse hkeeps hq n).simulates_from
    ⟨Nat.zero_le n, fun c scopes cx hscopes => ?_, fun k v scopes cx hv hscopes => ?_⟩
    (Nat.le_refl n)
  · rw [Nat.zero_add]
    exact hstopped (hinline.node c scopes cx hscopes)
  · rw [Nat.zero_add]
    exact hstopped (hinline.resume k v scopes cx hv hscopes)

theorem Renderer.bears_within (n : Nat) (codes : List Code) {scopes : Scopes}
    (hscopes : scopes.All V) (cx : Context) :
    Render.BearsOut o l V more ((Renderer.within o n).nodes codes scopes cx)
      ((Plain.within o l .steady (n + more)).nodes (Code.bareAll codes) scopes cx) :=
  ((Render.bears_simulation l more hreuse hkeeps hq n).nodes
    (Render.bears_simulates l more hreuse hkeeps hq n) hscopes cx codes).2

theorem Renderer.bears_work (n : Nat) (hjob : job.Proper V) :
    Render.BearsOut o l V more ((Renderer.within o n).work job) (job.plain o l (n + more)) :=
  .work hq hjob.deferred fun v hv =>
    ((Render.bears_simulates l more hreuse hkeeps hq n).resume job.awaiting v job.scopes job.context
      hv hjob.scopes).2

/-! ## Doing all the jobs -/

/-- If no latch has failed when all jobs have been done, then none had failed before, and with an
    allowance that is great enough all the jobs that waited go well plainly. -/
theorem World.Attended.well {outs : List Writer} (h : w.Attended outs)
    (hstore : w.store.Faithful o l) (hproper : ∀ job ∈ w.queue, job.Proper V) {schedule : Schedule}
    {fuel k : Nat}
    (hended : ∀ turn ∈ w.turns (.within o n) schedule fuel k,
      ((Renderer.within o n).perform turn.1 turn.2).1 ≠ .error .exhausted)
    (hqueue : ((w.drain (.within o n) schedule fuel k).getLastD w).queue = [])
    (hunfailed : ((w.drain (.within o n) schedule fuel k).getLastD w).streams.Unfailed) :
    w.streams.Unfailed ∧ ∃ more, ∀ job ∈ w.queue, (job.plain o l more).Well := by
  induction fuel generalizing k w with
  | zero => exact ⟨hunfailed, World.exists_well_of_queue hqueue⟩
  | succ fuel ih =>
    rw [World.turns] at hended
    rw [World.drain] at hqueue hunfailed
    cases htake : w.takeJob schedule k with
    | none =>
      rw [htake] at hqueue hunfailed
      exact ⟨hunfailed, exists_well_of_queue hqueue⟩
    | some taken =>
      obtain ⟨job, v⟩ := taken
      rw [htake] at hended hqueue hunfailed
      rw [List.getLastD_cons] at hqueue hunfailed
      obtain ⟨hperm, hvstore, hstreams⟩ := World.takeJob_eq htake
      obtain ⟨hok, hattended⟩ := h.perform hperm hstreams (hended _ List.mem_cons_self)
      have hmem : job ∈ w.queue := hperm.mem_iff.mpr List.mem_cons_self
      have hpending : v.streams.status? job.latch = some .pending := by
        rw [hstreams]
        exact h.orderly.pending job hmem
      have hbears (more : Nat) := (Renderer.bears_work l more hreuse hkeeps hq n
        (hproper job hmem)).perform (hvstore ▸ hstore) hpending
      obtain ⟨jobs, hleaves, -⟩ := hbears 0
      have hproper' : ∀ job' ∈ ((Renderer.within o n).perform job v).2.queue, job'.Proper V := by
        rw [hleaves.queue, List.forall_mem_append]
        exact ⟨fun job' hjob' => hproper job' (hperm.mem_iff.mpr (List.mem_cons_of_mem _ hjob')),
          hleaves.proper⟩
      obtain ⟨hafter, more, hwell⟩ := ih hattended hleaves.store hproper'
        (fun turn hturn => hended turn (List.mem_cons_of_mem _ hturn)) hqueue hunfailed
      -- What the job has put off goes well plainly, and so the job itself does.
      obtain ⟨_, hleaves', hp⟩ := hbears more
      obtain rfl := List.append_cancel_left (hleaves.queue.symm.trans hleaves'.queue)
      rw [hleaves.queue, List.forall_mem_append] at hwell
      refine ⟨hstreams ▸ hleaves.unfailed hafter, n + more, fun job' hjob' => ?_⟩
      obtain rfl | hjob' := List.mem_cons.mp (hperm.mem_iff.mp hjob')
      · exact hp hok hafter hwell.2
      · exact Job.well_of_le (Nat.le_add_left more n) (hwell.1 job' hjob')

/-- **A render that has gone well goes well plainly**, with an allowance that is great enough. -/
theorem Template.Completes.well {t : Template} {scopes : Scopes} {dest : Output} {store : Store}
    (h : Completes n o t scopes dest store) (hstore : store.Faithful o l) (hscopes : scopes.All V)
    (hok : (renderWithin n o t scopes dest store).result = .ok ()) :
    ∃ m, ((Plain.within o l .steady m).nodes t.bare.codes scopes .start).Well := by
  let r := renderWithin n o t scopes dest store
  have hbears (more : Nat) := Renderer.bears_within l more hreuse hkeeps hq n t.codes hscopes .start
    (.start store ⟨[dest], []⟩) (.direct 0) hstore
  obtain ⟨jobs, hleaves, -⟩ := hbears 0
  have hqueue : r.after.queue = jobs := hleaves.queue
  have hfinal : r.final.streams.Unfailed := unfailed_of_ok hok
  have hjobs : r.after.streams.Unfailed ∧
      ∃ more, ∀ job ∈ r.after.queue, (job.plain o l more).Well := by
    obtain ⟨-, hattended, hnone⟩ := h.attended
    have hturns := h.turns
    have hdone := h.queue
    cases hschedule : o.schedule with
    | none =>
      rw [show r.final = _ from final_of_none hschedule] at hfinal
      exact ⟨hfinal, World.exists_well_of_queue (hnone hschedule)⟩
    | some schedule =>
      rw [turns_of_some hschedule] at hturns
      rw [show r.final = _ from final_of_some hschedule] at hfinal
      rw [final_of_some hschedule] at hdone
      exact hattended.well l hreuse hkeeps hq hleaves.store (hqueue ▸ hleaves.proper) hturns hdone
        hfinal
  obtain ⟨hafter, more, hwell⟩ := hjobs
  obtain ⟨_, hleaves', hp⟩ := hbears more
  obtain rfl := List.append_cancel_left (hleaves.queue.symm.trans hleaves'.queue)
  have hhanded : ∃ out, r.handedOn = .ok out := by
    have hresult : r.handedOn.bind _ = .ok () := result_renderWithin.symm.trans hok
    cases hhanded : r.handedOn with
    | error stop =>
      rw [hhanded] at hresult
      cases hresult
    | ok out => exact ⟨out, rfl⟩
  obtain ⟨out, hout⟩ := hhanded
  exact ⟨n + more, hp out hout hafter (hqueue ▸ hwell)⟩

end

end Mustache
