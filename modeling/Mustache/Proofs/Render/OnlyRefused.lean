import Mathlib.Logic.Hydra
import Mathlib.Order.Lattice.Nat
import Mustache.Proofs.Render.Bearing

/-! # Nothing but a refusal

Where plain rendering goes well, the only way in which a render can fail is that its destination
refuses a text.  And it comes to its end: a job that goes well plainly needs some allowance of nesting
for that, and all that it puts off needs less.  This is a statement about renders that come to the same
with every schedule, so it is about steady data: deferred computations that came to something else in
other runs could fail of their own, or go on forever.

* `World.Fares` — how an action fares that goes well plainly.
* `Job.rank` — the allowance that a job needs.
* `World.OnlyRefused.drain` — the jobs come to an end.
* `Template.only_refused` — a render that goes well plainly comes to its end, and fails by a refusal
  only.
-/

namespace Mustache

open Streams (Orderly handed refusal)

variable {o : Options} {l : Loader} {V : Value → Prop} {top n : Nat} {cause : String}
  {x y : Writer → Render Writer} {p q : Plain Unit Unit} {w w₁ w₂ : World} {s : Streams}
  {r : Except Stop Writer} {e : Error} {job : Job} {out : Writer}

/-! ## Streams -/

/-- A destination that refuses texts, and to be flushed, for one cause only. -/
def Output.RefusesFor (cause : String) : Output → Prop
  | .buffer _ => True
  | .sink s => (∀ call size other, s.refusal call size = some other → other = cause) ∧
      ∀ other, s.flushRefusal = some other → other = cause

theorem Output.RefusesFor.write {dest : Output} (h : dest.RefusesFor cause) (text : String) :
    (dest.write text).2.RefusesFor cause ∧
      ∀ other, (dest.write text).1 = some other → other = cause := by
  cases dest with
  | buffer old => exact ⟨trivial, by rintro _ ⟨⟩⟩
  | sink s =>
    simp only [Output.write, Sink.write]
    cases hrefusal : s.refusal s.calls (s.size + text.utf8ByteSize) with
    | none => exact ⟨h, by simp⟩
    | some other =>
      refine ⟨h, fun other' heq => ?_⟩
      cases heq
      exact h.1 _ _ other hrefusal

theorem Output.RefusesFor.flush {dest : Output} (h : dest.RefusesFor cause) :
    ∀ other, dest.flushRefusal = some other → other = cause := by
  cases dest with
  | buffer old => rintro _ ⟨⟩
  | sink s => exact h.2

/-- A sink that refuses one call refuses nothing else. -/
theorem Sink.refusesFor_refusing (call : Nat) (cause : String) :
    (Output.sink (.refusing call cause)).RefusesFor cause := by
  refine ⟨fun call' size other heq => ?_, by rintro _ ⟨⟩⟩
  simp only [Sink.refusing] at heq
  split at heq
  · exact (Option.some.inj heq).symm
  · cases heq

/-- Work has ended well, or by a refusal; or it waits in vain. -/
def Render.Refused (cause : String) (r : Except Stop Writer) : Prop :=
  ∀ stop, r = .error stop → stop = .error (refusal cause) ∨ stop = .blocked

namespace Streams

/-- Nothing has failed in some streams but by a refusal. -/
structure OnlyRefused (cause : String) (s : Streams) : Prop where
  failed : ∀ m e, s.status? m = some (.failed e) → e = refusal cause
  dests : ∀ dest ∈ s.outputs, dest.RefusesFor cause

theorem exists_failed {w : Writer} (h : s.route w = .failed e) :
    ∃ m, s.status? m = some (.failed e) := by
  obtain ⟨_, hway⟩ := leads_iff.mpr ⟨h, nofun⟩
  clear h
  generalize hend : End.failed e = target at hway
  induction hway with
  | direct k => cases hend
  | pending _ => cases hend
  | @failed m _ hst =>
    cases hend
    exact ⟨m, hst⟩
  | done _ _ ih => exact ih hend

namespace OnlyRefused

variable (h : s.OnlyRefused cause)
include h

theorem of_latches {t : Streams} (hlatches : t.latches = s.latches)
    (hdests : ∀ dest ∈ t.outputs, dest.RefusesFor cause) : t.OnlyRefused cause :=
  ⟨fun m e hst => h.failed m e (by rwa [status?, ← hlatches]), hdests⟩

theorem openOutput : (s.openOutput (.buffer "")).2.OnlyRefused cause := by
  refine h.of_latches rfl fun dest hdest => ?_
  obtain hdest | hdest := List.mem_append.mp hdest
  · exact h.dests dest hdest
  · obtain rfl := List.mem_singleton.mp hdest
    trivial

theorem newLatch : s.newLatch.2.OnlyRefused cause := by
  refine ⟨fun m e hst => ?_, h.dests⟩
  by_cases hm : m = s.newLatch.1
  · rw [hm, status?_newLatch_self] at hst
    cases hst
  · rw [status?_newLatch_of_ne hm] at hst
    exact h.failed m e hst

theorem settle (m : Nat) {st : Latch.Status} (hst : ∀ e, st = .failed e → e = refusal cause) :
    (s.settle m st).OnlyRefused cause := by
  refine ⟨fun n e hn => ?_, h.dests⟩
  by_cases hm : n = m
  · subst hm
    have hlt := lt_of_status? hn
    rw [Streams.settle, List.length_set] at hlt
    exact hst e (Option.some.inj ((status?_settle_self hlt).symm.trans hn))
  · rw [status?_settle_of_ne hm] at hn
    exact h.failed n e hn

theorem write (text : String) (w : Writer) :
    (s.write text w).2.OnlyRefused cause ∧
      ∀ e, (s.write text w).1 = .error e → e = refusal cause := by
  have hstatus := status?_write text w s
  have hfailed (hdests : ∀ dest ∈ (s.write text w).2.outputs, dest.RefusesFor cause) :
      (s.write text w).2.OnlyRefused cause :=
    ⟨fun m e hst => h.failed m e ((hstatus m).symm.trans hst), hdests⟩
  unfold Streams.write at hfailed ⊢
  cases hroute : s.route w with
  | output k =>
    simp only [hroute] at hfailed ⊢
    cases hdest : s.outputs[k]? with
    | none => exact ⟨h, by simp⟩
    | some dest =>
      simp only [hdest] at hfailed ⊢
      obtain ⟨hafter, hcause⟩ := (h.dests dest (List.mem_of_getElem? hdest)).write text
      refine ⟨hfailed fun dest' hdest' => ?_, ?_⟩
      · obtain hold | rfl := List.mem_or_eq_of_mem_set hdest'
        · exact h.dests dest' hold
        · exact hafter
      · cases hrefused : (dest.write text).1 with
        | none => simp
        | some other =>
          intro e heq
          cases heq
          rw [hcause other hrefused]
  | pending n =>
    simp only [hroute] at hfailed ⊢
    exact ⟨hfailed h.dests, by simp⟩
  | failed e =>
    refine ⟨h, fun e' heq => ?_⟩
    cases heq
    obtain ⟨m, hst⟩ := exists_failed hroute
    exact h.failed m e hst
  | nowhere => exact ⟨h, by simp⟩

/-- Waiting at a writer comes to a refusal, if it fails. -/
theorem finish (w : Writer) : ∀ e, s.finish w = .error e → e = refusal cause := by
  intro e heq
  rw [Streams.finish] at heq
  cases hroute : s.route w with
  | output k =>
    simp only [hroute, flushOutput] at heq
    cases hdest : (s.outputs[k]?).bind Output.flushRefusal with
    | none =>
      rw [hdest] at heq
      cases heq
    | some other =>
      rw [hdest] at heq
      cases heq
      obtain ⟨dest, hmem, hrefusal⟩ := Option.bind_eq_some_iff.mp hdest
      rw [(h.dests dest (List.mem_of_getElem? hmem)).flush other hrefusal]
  | pending m =>
    rw [hroute] at heq
    cases heq
  | failed e' =>
    rw [hroute] at heq
    cases heq
    obtain ⟨m, hst⟩ := exists_failed hroute
    exact h.failed m e hst
  | nowhere =>
    rw [hroute] at heq
    cases heq

theorem conclude (job : Job) (hr : Render.Refused cause r) :
    (job.conclude r s).OnlyRefused cause := by
  cases r with
  | ok out =>
    by_cases hempty : (s.heldAt job.latch).isEmpty = true
    · rw [Job.conclude, complete_of_empty hempty]
      exact h.settle _ (by simp)
    · rw [Job.conclude, complete_of_held hempty]
      obtain ⟨hafter, hcause⟩ := h.write (s.heldAt job.latch) out
      refine hafter.settle _ fun e heq => ?_
      cases hwrite : (s.write (s.heldAt job.latch) out).1 with
      | ok => rw [hwrite] at heq; cases heq
      | blocked => rw [hwrite] at heq; cases heq
      | error e' =>
        rw [hwrite] at heq
        cases heq
        exact hcause e hwrite
  | error stop =>
    obtain rfl | rfl := hr stop rfl
    · exact h.settle _ fun e heq => by cases heq; rfl
    · exact h

end OnlyRefused

end Streams

/-! ## Rendering -/

theorem Render.Refused.ok (out : Writer) : Render.Refused cause (.ok out) := nofun

theorem Render.refused_ofResult {result : Streams.Result} {stop : Stop}
    (h : ∀ e, result = .error e → e = refusal cause) (heq : Render.ofResult result = .error stop) :
    stop = .error (refusal cause) ∨ stop = .blocked := by
  cases result with
  | ok => cases heq
  | error e =>
    cases heq
    rw [h e rfl]
    exact .inl rfl
  | blocked =>
    cases heq
    exact .inr rfl

/-- How an action fares that goes well plainly: nothing has failed but by a refusal, and all that
    has been put off goes well plainly with some allowance. -/
structure World.Fares (o : Options) (l : Loader) (V : Value → Prop) (top : Nat) (cause : String)
    (w w' : World) (r : Except Stop Writer) : Prop where
  jobs : ∃ jobs, World.Leaves o l V w w' jobs ∧ ∀ job ∈ jobs, (job.plain o l top).Well
  streams : w'.streams.OnlyRefused cause
  result : Render.Refused cause r

namespace World.Fares

theorem store (h : World.Fares o l V top cause w w₁ r) : w₁.store.Faithful o l := by
  obtain ⟨_, hleaves, -⟩ := h.jobs
  exact hleaves.store

theorem nothing (hstore : w₁.store.Faithful o l) (hqueue : w₁.queue = w.queue)
    (hstatus : ∀ n, w₁.streams.status? n = w.streams.status? n)
    (hstreams : w₁.streams.OnlyRefused cause) (hr : Render.Refused cause r) :
    World.Fares o l V top cause w w₁ r :=
  ⟨⟨[], .nothing hstore hqueue hstatus, List.forall_mem_nil _⟩, hstreams, hr⟩

theorem trans {r' : Except Stop Writer} (h : World.Fares o l V top cause w w₁ r')
    (h' : World.Fares o l V top cause w₁ w₂ r) : World.Fares o l V top cause w w₂ r := by
  obtain ⟨jobs, hleaves, hwell⟩ := h.jobs
  obtain ⟨jobs', hleaves', hwell'⟩ := h'.jobs
  exact ⟨⟨jobs ++ jobs', hleaves.trans hleaves', List.forall_mem_append.mpr ⟨hwell, hwell'⟩⟩,
    h'.streams, h'.result⟩

theorem of_start (h : World.Fares o l V top cause w₁ w₂ r) (hqueue : w₁.queue = w.queue)
    (hstatus : ∀ n st, w.streams.status? n = some st → w₁.streams.status? n = some st) :
    World.Fares o l V top cause w w₂ r := by
  obtain ⟨jobs, hleaves, hwell⟩ := h.jobs
  exact ⟨⟨jobs, hleaves.of_start hqueue hstatus, hwell⟩, h.streams, h.result⟩

end World.Fares

/-- An action fares well where a plain action goes well. -/
def Render.OnlyRefused (o : Options) (l : Loader) (V : Value → Prop) (top : Nat) (cause : String)
    (x : Writer → Render Writer) (p : Plain Unit Unit) : Prop :=
  p.Well → ∀ (w : World) (out : Writer), w.store.Faithful o l → w.streams.OnlyRefused cause →
    World.Fares o l V top cause w (x out w).2 (x out w).1

namespace Render.OnlyRefused

theorem skip : OnlyRefused o l V top cause (fun out => pure out) (pure ()) :=
  fun _ _ out hstore hs => .nothing hstore rfl (fun _ => rfl) hs (.ok out)

theorem stop (e : Stop) : OnlyRefused o l V top cause (fun _ => Render.stop e) (Plain.stop e) :=
  fun hwell => by cases hwell

theorem seq (hx : OnlyRefused o l V top cause x p) (hy : OnlyRefused o l V top cause y q) :
    OnlyRefused o l V top cause (fun out => x out >>= y) (p >>= fun _ => q) := by
  intro hwell w out hstore hs
  obtain ⟨_, hp, hq⟩ := hwell.of_bind
  have hfirst := hx hp w out hstore hs
  simp only [bind]
  rcases hran : x out w with ⟨_ | out', after⟩
  · rw [hran] at hfirst
    exact hfirst
  · rw [hran] at hfirst
    exact hfirst.trans (hy hq after out' hfirst.store hfirst.streams)

theorem write (text : String) : OnlyRefused o l V top cause
    (fun out => do Render.write text out; return out) (Plain.write text) := by
  intro _ w out hstore hs
  obtain ⟨hafter, hcause⟩ := hs.write text out
  have hstatus := Streams.status?_write text out w.streams
  simp only [bind, Render.write]
  cases hresult : Render.ofResult (w.streams.write text out).1 with
  | ok _ => exact .nothing hstore rfl hstatus hafter (.ok out)
  | error stop =>
    refine .nothing hstore rfl hstatus hafter fun stop' heq => ?_
    cases heq
    exact Render.refused_ofResult hcause hresult

theorem load {z : Store.Action Template} {r : Except Error Template}
    {y : Template → Writer → Render Writer} {p : Template → Plain Unit Unit}
    (hz : Store.Answers o l z r) (hy : ∀ t, OnlyRefused o l V top cause (y t) (p t.bare)) :
    OnlyRefused o l V top cause (fun out => do let t ← Render.withStore z; y t out)
      (do let t ← Plain.ofExcept r; p t) := by
  intro hwell w out hstore hs
  obtain ⟨t, store, hok, rfl, hstore'⟩ | ⟨e, -, rfl⟩ := hz w.store hstore
  · rw [Plain.ok_bind] at hwell
    simp only [bind, Render.withStore, hok]
    exact (hy t hwell { w with store } out hstore' hs).of_start rfl fun _ _ hst => hst
  · obtain ⟨_, hfailed, -⟩ := hwell.of_bind
    cases hfailed

theorem lookup (hreuse : ∀ name, Lookup.Reusable (o.handler.find name)) (n : Node)
    (scopes : Scopes) {y : Lookup.Hit → Writer → Render Writer}
    (hy : OnlyRefused o l V top cause (y (Plain.hit o n.name scopes)) p) :
    OnlyRefused o l V top cause
      (fun out => do let hit ← Render.lookup o n scopes; y hit out) p := by
  intro hwell w out hstore hs
  obtain ⟨hhit, hstore'⟩ := Store.lookup_eq hreuse hstore n scopes
  simp only [bind, Render.lookup, hhit]
  exact (hy hwell { w with store := (w.store.lookup o n scopes).2 } out hstore' hs).of_start rfl
    fun _ _ hst => hst

/-- The text that is captured is that of the plain action, which goes well. -/
theorem captured (hinline : Inline o l (fun _ _ => True) x p)
    (hx : OnlyRefused o l V top cause x p)
    {y : String → Writer → Render Writer} {p' : String → Plain Unit Unit}
    (hy : ∀ text, OnlyRefused o l V top cause (y text) (p' text)) :
    OnlyRefused o l V top cause (fun out => do let text ← Render.captured x; y text out)
      (do let text ← Plain.captured p; p' text) := by
  intro hwell w out hstore hs
  obtain ⟨text, htext, hwell'⟩ := hwell.of_bind
  have hp : p.Well := by
    simp only [Plain.captured] at htext
    rw [Plain.Well]
    rcases hp : p () with ⟨texts, _ | _, _⟩
    · rw [hp] at htext
      cases htext
    · rfl
  have hopened := hx hp { w with streams := (w.streams.openOutput (.buffer "")).2 }
    (.direct (w.streams.openOutput (.buffer "")).1) hstore hs.openOutput
  have hcaptured : World.Fares o l V top cause w (Render.captured x w).2 (.ok out) := by
    obtain ⟨jobs, hleaves, hjobs⟩ := hopened.jobs
    rw [Render.captured_eq]
    exact ⟨⟨jobs, hleaves.of_start rfl fun _ _ hst => hst, hjobs⟩, hopened.streams, .ok out⟩
  obtain ⟨hresult, -, -⟩ := hinline.run_captured hstore (s := ()) trivial
  simp only [bind]
  rcases hran : Render.captured x w with ⟨result, after⟩
  rw [hran] at hresult hcaptured
  obtain rfl : result = .ok text := hresult.trans htext
  exact hcaptured.trans (hy text hwell' after out hcaptured.store hcaptured.streams)

/-- The work of a job whose computation comes to a value. -/
theorem work (hq : Oracle.steady.Models V fun _ _ => True) {n : Nat}
    (hd : V (.deferred job.deferred))
    (hresume : ∀ v, V v → OnlyRefused o l V top cause
      (Renderer.resumeWithin o n job.awaiting v job.scopes job.context)
      (Plain.resumeWithin o l .steady n job.awaiting.bare v job.scopes job.context)) :
    OnlyRefused o l V top cause ((Renderer.within o n).work job) (job.plain o l n) := by
  intro hwell w out hstore hs
  obtain ⟨hrunFor, hvalue, -, -⟩ := hq.runFor (w := w) (s := ()) hd job.name trivial
  obtain ⟨v, hv, hrest⟩ := hwell.of_bind
  rw [hv] at hrunFor
  simp only [Renderer.work, bind, hrunFor]
  exact (hresume v (hvalue v hv) hrest (w.counted job.deferred) out hstore hs).of_start rfl
    fun _ _ hst => hst

/-- Doing a job that goes well plainly. -/
theorem perform
    (hwork : OnlyRefused o l V top cause ((Renderer.within o n).work job) (job.plain o l n))
    (hwell : (job.plain o l n).Well) (hstore : w.store.Faithful o l)
    (hs : w.streams.OnlyRefused cause) (hlatch : w.streams.status? job.latch = some .pending) :
    let ran := (Renderer.within o n).perform job w
    (∃ jobs, World.Leaves o l V w ran.2 jobs ∧ ∀ job ∈ jobs, (job.plain o l top).Well) ∧
      ran.2.streams.OnlyRefused cause ∧ ∀ stop, ran.1 = .error stop → stop = .blocked := by
  have hran := hwork hwell w job.writer hstore hs
  obtain ⟨jobs, hleaves, hjobs⟩ := hran.jobs
  simp only [Renderer.perform_eq]
  refine ⟨⟨jobs, hleaves.conclude hlatch _, hjobs⟩, hran.streams.conclude job hran.result,
    fun stop heq => ?_⟩
  have hresult := hran.result
  cases hwork : ((Renderer.within o n).work job job.writer w).1 with
  | ok _ =>
    rw [hwork] at heq
    cases heq
  | error stop' =>
    rw [hwork] at heq hresult
    obtain rfl | rfl := hresult stop' rfl
    · cases heq
    · cases heq
      rfl

/-- A computation that is put off. -/
theorem await (hq : Oracle.steady.Models V fun _ _ => True) {n : Nat} (hn : n ≤ top)
    (d : Deferred Value) (name : String) (k : Awaiting) (scopes : Scopes) (cx : Context)
    (hd : V (.deferred d)) (hscopes : scopes.All V)
    (hresume : ∀ v, V v → OnlyRefused o l V top cause (Renderer.resumeWithin o n k v scopes cx)
      (Plain.resumeWithin o l .steady n k.bare v scopes cx)) :
    OnlyRefused o l V top cause ((Renderer.within o n).defer o d name k scopes cx)
      ((Plain.within o l .steady n).await .steady d name k.bare scopes cx) := by
  intro hwell w out hstore hs
  let job : Job := ⟨w.streams.newLatch.1, out, d, name, scopes, cx, k⟩
  have hnew : job.latch = w.streams.newLatch.1 := rfl
  have hwork : OnlyRefused o l V top cause ((Renderer.within o n).work job) (job.plain o l n) :=
    work hq hd hresume
  cases hschedule : cx.schedule? o with
  | none =>
    rw [Renderer.defer_inline hschedule]
    exact hwork hwell w out hstore hs
  | some schedule =>
    by_cases honce : schedule.atOnce w.submitted = true
    · have hdefer := Renderer.defer_performed (r := .within o n) hnew hschedule honce
      rw [show (Renderer.within o n).defer o d name k scopes cx out w = _ from hdefer]
      obtain ⟨⟨jobs, hleaves, hjobs⟩, hafter, hblocked⟩ := hwork.perform (w := w.opened) hwell hstore
        hs.newLatch (Streams.status?_newLatch_self w.streams)
      refine ⟨⟨jobs, hleaves.of_opened, hjobs⟩, hafter, fun stop heq => .inr ?_⟩
      cases hresult : ((Renderer.within o n).perform job w.opened).1 with
      | ok _ =>
        rw [hresult] at heq
        cases heq
      | error stop' =>
        rw [hresult] at heq
        cases heq
        exact hblocked _ hresult
    · have hdefer := Renderer.defer_later (r := .within o n) hnew hschedule honce
      rw [show (Renderer.within o n).defer o d name k scopes cx out w = _ from hdefer]
      exact ⟨⟨[job], .submitted hstore hd hscopes hschedule,
        List.forall_mem_singleton.mpr (Job.well_of_le hn hwell)⟩, hs.newLatch, .ok _⟩

end Render.OnlyRefused

section

variable (hreuse : ∀ name, Lookup.Reusable (o.handler.find name)) (hkeeps : o.handler.Keeps V)
  (hq : Oracle.steady.Models V fun _ _ => True)
include hreuse hkeeps hq

/-- Rendering fails by a refusal only, where plain rendering goes well. -/
theorem Render.only_refused_simulation (l : Loader) (top : Nat) (cause : String) :
    Simulation o l .steady V top 0 fun i x p =>
      (i = true → Inline o l (fun _ _ => True) x p) ∧ Render.OnlyRefused o l V top cause x p where
  keeps := hkeeps
  skip _ := ⟨fun _ => .skip, .skip⟩
  stop _ e := ⟨fun _ => .stop e, .stop e⟩
  seq hx hy := ⟨fun h => .seq (hx.1 h) (hy.1 h), .seq hx.2 hy.2⟩
  write _ text := ⟨fun _ => .write text, .write text⟩
  load hz hy := ⟨fun h => .load hz fun t => (hy t).1 h, .load hz fun t => (hy t).2⟩
  lookup n scopes hy := ⟨fun h => .lookup hreuse n scopes (hy.1 h), .lookup hreuse n scopes hy.2⟩
  captured hx hy := ⟨fun h => .captured (hx.1 rfl) fun text => (hy text).1 h,
    .captured (hx.1 rfl) hx.2 fun text => (hy text).2⟩
  awaiting _ hn d name k scopes cx hd hscopes hresume :=
    ⟨fun h => .await hq name k scopes (Context.schedule?_eq_none_iff.mpr (.inl h)) hd
      fun v hv => (hresume v hv).1 h,
    .await hq hn d name k scopes cx hd hscopes fun v hv => (hresume v hv).2⟩

/-- What a job puts off needs less allowance than the job itself. -/
theorem Renderer.only_refused_work (cause : String) (hjob : job.Proper V) :
    Render.OnlyRefused o l V n cause ((Renderer.within o (n + 1)).work job)
      (job.plain o l (n + 1)) := by
  have hsim := Render.only_refused_simulation hreuse hkeeps hq l n cause
  exact .work hq hjob.deferred fun v hv => (hsim.resumeWith (hsim.simulates (Nat.le_refl n))
    hjob.scopes job.context job.awaiting hv).2

/-! ## Doing all the jobs -/

omit hreuse hkeeps hq in
/-- Without any allowance no job goes well. -/
theorem Job.not_well_zero : ¬ (job.plain o l 0).Well := by
  intro h
  obtain ⟨_, -, hstopped⟩ := h.of_bind
  cases hstopped

/-- The least allowance with which a job goes well plainly. -/
noncomputable def Job.rank (o : Options) (l : Loader) (job : Job) : Nat :=
  sInf {n | (job.plain o l n).Well}

omit hreuse hkeeps hq in
theorem Job.rank_le (h : (job.plain o l n).Well) : job.rank o l ≤ n := Nat.sInf_le h

omit hreuse hkeeps hq in
theorem Job.exists_rank (h : (job.plain o l n).Well) :
    ∃ m, job.rank o l = m + 1 ∧ (job.plain o l (m + 1)).Well := by
  have hrank : job.rank o l ∈ {n | (job.plain o l n).Well} := Nat.sInf_mem ⟨n, h⟩
  cases hzero : job.rank o l with
  | zero =>
    rw [hzero] at hrank
    exact absurd hrank Job.not_well_zero
  | succ m => exact ⟨m, rfl, hzero ▸ hrank⟩

/-- Nothing has failed in a world but by a refusal, and all jobs that wait go well plainly. -/
structure World.OnlyRefused (o : Options) (l : Loader) (V : Value → Prop) (top : Nat)
    (cause : String) (w : World) : Prop where
  store : w.store.Faithful o l
  streams : w.streams.OnlyRefused cause
  jobs : ∀ job ∈ w.queue, job.Proper V ∧ (job.plain o l top).Well

/-- A job that goes well plainly does not use up the allowance, and puts off jobs of lower rank. -/
theorem Renderer.perform_of_well (hproper : job.Proper V) (hwell : (job.plain o l top).Well)
    (hstore : w.store.Faithful o l) (hs : w.streams.OnlyRefused cause)
    (hlatch : w.streams.status? job.latch = some .pending) :
    let ran := (Renderer.within o top).perform job w
    (∃ jobs, World.Leaves o l V w ran.2 jobs ∧
        ∀ job' ∈ jobs, (job'.plain o l top).Well ∧ job'.rank o l < job.rank o l) ∧
      ran.2.streams.OnlyRefused cause ∧ ran.1 ≠ .error .exhausted := by
  obtain ⟨m, hrank, hwell'⟩ := Job.exists_rank hwell
  have hle : m + 1 ≤ top := hrank ▸ Job.rank_le hwell
  obtain ⟨⟨jobs, hleaves, hjobs⟩, hafter, hblocked⟩ :=
    (Renderer.only_refused_work hreuse hkeeps hq cause hproper).perform hwell' hstore hs hlatch
  have hended : ((Renderer.within o (m + 1)).perform job w).1 ≠ .error .exhausted :=
    fun heq => by cases hblocked _ heq
  rw [Renderer.perform_more hle hended]
  refine ⟨⟨jobs, hleaves, fun job' hjob' => ?_⟩, hafter, hended⟩
  have hjob := hjobs job' hjob'
  exact ⟨Job.well_of_le (Nat.le_of_succ_le hle) hjob,
    hrank ▸ Nat.lt_succ_of_le (Job.rank_le hjob)⟩

omit hreuse hkeeps hq in
/-- Doing a job takes its rank away, and puts lower ones in its place. -/
theorem Job.cutExpand_ranks {queue rest : List Job} (hperm : queue.Perm (job :: rest))
    (hjobs : ∀ job' ∈ jobs, job'.rank o l < job.rank o l) :
    Relation.CutExpand (· < ·) ((rest ++ jobs).map (Job.rank o l) : Multiset Nat)
      (queue.map (Job.rank o l) : Multiset Nat) := by
  refine ⟨(jobs.map (Job.rank o l) : Multiset Nat), job.rank o l, fun rank hrank => ?_, ?_⟩
  · obtain ⟨job', hjob', rfl⟩ := List.mem_map.mp (Multiset.mem_coe.mp hrank)
    exact hjobs job' hjob'
  · rw [← Multiset.coe_singleton, Multiset.coe_add, Multiset.coe_add, Multiset.coe_eq_coe,
      List.map_append]
    have hold := (hperm.map (Job.rank o l)).append_right (jobs.map (Job.rank o l))
    exact List.perm_append_comm.trans hold.symm

/-- **The jobs come to an end.**  If they all go well plainly, there are allowances of nesting and
    of jobs with which all jobs are done, and with greater ones they are, too. -/
theorem World.OnlyRefused.drain {outs : List Writer} (h : w.OnlyRefused o l V top cause)
    (hw : Orderly w.streams w.queue outs) (schedule : Schedule) (k : Nat) :
    ∃ least, ∀ m fuel, top ≤ m → least ≤ fuel →
      (∀ turn ∈ w.turns (.within o m) schedule fuel k,
        ((Renderer.within o m).perform turn.1 turn.2).1 ≠ .error .exhausted) ∧
      ((w.drain (.within o m) schedule fuel k).getLastD w).queue = [] ∧
      ((w.drain (.within o m) schedule fuel k).getLastD w).streams.OnlyRefused cause := by
  induction hranks : (w.queue.map (Job.rank o l) : Multiset Nat) using
    (wellFounded_lt (α := Nat)).cutExpand.induction generalizing w k with
  | h ranks ih =>
    cases htake : w.takeJob schedule k with
    | none =>
      have hqueue := World.takeJob_eq_none_iff.mp htake
      refine ⟨0, fun m fuel _ _ => ?_⟩
      cases fuel with
      | zero => exact ⟨List.forall_mem_nil _, hqueue, h.streams⟩
      | succ fuel =>
        simp only [World.turns, World.drain, htake]
        exact ⟨List.forall_mem_nil _, hqueue, h.streams⟩
    | some taken =>
      obtain ⟨job, v⟩ := taken
      obtain ⟨hperm, hstore, hstreams⟩ := World.takeJob_eq htake
      have horderly : v.streams.Orderly (job :: v.queue) outs := by
        rw [hstreams]
        exact hw.of_perm hperm (.refl outs)
      obtain ⟨hproper, hwell⟩ := h.jobs job (hperm.mem_iff.mpr List.mem_cons_self)
      obtain ⟨⟨jobs, hleaves, hjobs⟩, hafter, hended⟩ := Renderer.perform_of_well hreuse hkeeps hq
        hproper hwell (hstore ▸ h.store) (hstreams ▸ h.streams)
        (horderly.pending job List.mem_cons_self)
      have hnext : World.OnlyRefused o l V top cause ((Renderer.within o top).perform job v).2 := by
        refine ⟨hleaves.store, hafter, ?_⟩
        rw [hleaves.queue, List.forall_mem_append]
        exact ⟨fun job' hjob' => h.jobs job' (hperm.mem_iff.mpr (List.mem_cons_of_mem _ hjob')),
          fun job' hjob' => ⟨hleaves.proper job' hjob', (hjobs job' hjob').1⟩⟩
      have hcut : Relation.CutExpand (· < ·)
          (((Renderer.within o top).perform job v).2.queue.map (Job.rank o l) : Multiset Nat)
          ranks := by
        rw [hleaves.queue, ← hranks]
        exact Job.cutExpand_ranks hperm fun job' hjob' => (hjobs job' hjob').2
      obtain ⟨least, hleast⟩ := ih _ hcut hnext (Renderer.orderly_perform horderly) (k + 1) rfl
      refine ⟨least + 1, fun m fuel hm hfuel => ?_⟩
      obtain ⟨fuel, rfl⟩ : ∃ f, fuel = f + 1 := ⟨fuel - 1, by omega⟩
      have hsame := Renderer.perform_more hm hended
      simp only [World.turns, World.drain, htake, hsame, List.getLastD_cons, List.forall_mem_cons]
      obtain ⟨hturns, hfinal⟩ := hleast m fuel hm (Nat.le_of_succ_le_succ hfuel)
      exact ⟨⟨hended, hturns⟩, hfinal⟩

/-! ## Whole renders -/

/-- **A render that goes well plainly comes to its end**, with every allowance that is great enough,
    and fails by a refusal only. -/
theorem Template.only_refused {t : Template} {scopes : Scopes} {dest : Output} {store : Store}
    (hstore : store.Faithful o l) (hscopes : scopes.All V) (hdest : dest.RefusesFor cause)
    (hwell : ((Plain.within o l .steady top).nodes t.bare.codes scopes .start).Well) :
    ∃ least, ∀ m, least ≤ m → Completes m o t scopes dest store ∧
      ∀ e, (renderWithin m o t scopes dest store).result = .error (.error e) → e = refusal cause := by
  let r (m : Nat) := renderWithin m o t scopes dest store
  have hsim := Render.only_refused_simulation hreuse hkeeps hq l top cause
  have hran : World.Fares o l V top cause (.start store ⟨[dest], []⟩) (r top).after
      (r top).handedOn :=
    (hsim.nodes (hsim.simulates (Nat.le_refl top)) hscopes .start t.codes).2 hwell _ (.direct 0)
      hstore ⟨nofun, fun _ hmem => List.mem_singleton.mp hmem ▸ hdest⟩
  have hnodes : (r top).handedOn ≠ .error .exhausted := fun heq => by
    obtain hstop | hstop := hran.result _ heq <;> cases hstop
  have hhanded {m : Nat} (hle : top ≤ m) : (r m).handedOn = (r top).handedOn :=
    congrArg Prod.fst (nodes_more hle hnodes)
  have hafter {m : Nat} (hle : top ≤ m) : (r m).after = (r top).after :=
    congrArg Prod.snd (nodes_more hle hnodes)
  suffices ∃ least, top ≤ least ∧ ∀ m, least ≤ m →
      Completes m o t scopes dest store ∧ (r m).final.streams.OnlyRefused cause by
    obtain ⟨least, hle, hleast⟩ := this
    refine ⟨least, fun m hm => ⟨(hleast m hm).1, fun e heq => ?_⟩⟩
    have hresult : (r m).handedOn.bind (fun out => (Render.finish out (r m).final).1) =
        .error (.error e) := result_renderWithin.symm.trans heq
    rw [hhanded (Nat.le_trans hle hm)] at hresult
    cases hout : (r top).handedOn with
    | error stop =>
      rw [hout] at hresult
      cases hresult
      obtain hstop | hstop := hran.result _ hout <;> cases hstop
      rfl
    | ok out =>
      rw [hout] at hresult
      obtain hstop | hstop := Render.refused_ofResult ((hleast m hm).2.finish out) hresult <;>
        cases hstop
      rfl
  cases hschedule : o.schedule with
  | none =>
    refine ⟨top, Nat.le_refl top, fun m hm => ⟨.of_none hschedule (hhanded hm ▸ hnodes), ?_⟩⟩
    rw [show (r m).final = _ from final_of_none hschedule,
      show (renderWithin m o t scopes dest store).after = _ from hafter hm]
    exact hran.streams
  | some schedule =>
    obtain ⟨jobs, hleaves, hjobs⟩ := hran.jobs
    have hqueue : (r top).after.queue = jobs := hleaves.queue
    have hrefused : World.OnlyRefused o l V top cause (r top).after :=
      ⟨hleaves.store, hran.streams,
        hqueue ▸ fun job hjob => ⟨hleaves.proper job hjob, hjobs job hjob⟩⟩
    obtain ⟨least, hleast⟩ := hrefused.drain hreuse hkeeps hq orderly_after schedule 0
    refine ⟨max top least, Nat.le_max_left _ _, fun m hm => ?_⟩
    have hle : top ≤ m := Nat.le_trans (Nat.le_max_left _ _) hm
    obtain ⟨hturns, hdone, hfinal⟩ := hleast m m hle (Nat.le_trans (Nat.le_max_right _ _) hm)
    rw [← hafter hle] at hturns hdone hfinal
    rw [← show (r m).final = _ from final_of_some hschedule] at hdone hfinal
    exact ⟨⟨hhanded hle ▸ hnodes, turns_of_some hschedule ▸ hturns, hdone⟩, hfinal⟩

end

end Mustache
