import Mustache.Proofs.Render.Allowance
import Mustache.Proofs.Render.Inline
import Mustache.Proofs.Render.Jobs

/-! # Rendering with a schedule

With a schedule, deferred computations run at once, or later in jobs.  Either way the text that the
plain render writes is owed at the end where the writer leads, and at no other one does anything
change.

* `Plain.Means` — the text that an action writes, and whether it ends well.
* `Scheduled` — an action owes what a plain action means.
* `scheduled_simulation` — rendering owes what plain rendering means.
-/

namespace Mustache

/-! ## What an action means -/

/-- An action writes a text, and ends well or not; it does not use up its allowance. -/
structure Plain.Means (p : Plain Unit Unit) (text : String) (good : Bool) : Prop where
  text : .join (p ()).1 = text
  within : (p ()).2.1 ≠ .error .exhausted
  good : (p ()).2.1.isOk = good

namespace Plain.Means

variable {p p' q : Plain Unit Unit} {text : String} {good : Bool}

theorem of_eq (h : p.Means text good) (heq : p' () = p ()) : p'.Means text good :=
  ⟨heq ▸ h.text, heq ▸ h.within, heq ▸ h.good⟩

theorem eq_of_upto (h : p.Means text good) (hupto : p.Upto p') : p' () = p () :=
  (hupto ()).resolve_left h.within

theorem of_bind (h : (p >>= fun _ => q).Means text good) :
    p.Means text false ∧ good = false ∨
      ∃ before after, p.Means before true ∧ q.Means after good ∧ text = before ++ after := by
  obtain ⟨htext, hwithin, hgood⟩ := h
  rcases hp : p () with ⟨texts, r, _⟩
  simp only [bind, hp] at htext hwithin hgood
  cases r with
  | error e =>
    refine .inl ⟨⟨?_, ?_, ?_⟩, hgood.symm⟩
    · rw [hp, htext]
    · rw [hp]
      exact hwithin
    · rw [hp]
      rfl
  | ok a =>
    simp only at htext hwithin hgood
    refine .inr ⟨.join texts, .join (q ()).1, ⟨?_, ?_, ?_⟩, ⟨rfl, hwithin, hgood⟩, ?_⟩
    · rw [hp]
    · rw [hp]
      nofun
    · rw [hp]
      rfl
    · rw [← htext, String.join_append]

theorem pure (h : (pure () : Plain Unit Unit).Means text good) : text = "" ∧ good = true :=
  ⟨h.text.symm, h.good.symm⟩

theorem stop {e : Stop} (h : (Plain.stop e : Plain Unit Unit).Means text good) :
    text = "" ∧ good = false :=
  ⟨h.text.symm, h.good.symm⟩

theorem write {written : String} (h : (Plain.write written).Means text good) :
    text = written ∧ good = true :=
  ⟨by rw [← h.text]; simp [Plain.write], h.good.symm⟩

end Plain.Means

/-- What a job means to do, with an allowance of nesting. -/
def Job.plain (o : Options) (l : Loader) (n : Nat) (job : Job) : Plain Unit Unit :=
  (Plain.within o l .steady n).await .steady job.deferred job.name job.awaiting.bare job.scopes
    job.context

/-- A job that was submitted by a render over values with a property. -/
structure Job.Proper (V : Value → Prop) (job : Job) : Prop where
  deferred : V (.deferred job.deferred)
  scopes : job.scopes.All V
  context : job.context.isInline = false

/-! ## Actions -/

open Streams (End Adds Owes)

/-- An action at an end has put jobs off, and done nothing else there is to see. -/
structure World.Put (o : Options) (l : Loader) (V : Value → Prop) (e : End) (w w' : World)
    (jobs : List Job) (r : Except Stop Writer) : Prop where
  store : w'.store.Faithful o l
  queue : w'.queue = w.queue ++ jobs
  streams : Adds e w.streams w'.streams jobs r
  proper : ∀ job ∈ jobs, job.Proper V

/-- After an action at a writer, what a plain action means is owed there, by the jobs that it has put
    off.  These jobs mean what they do with an allowance of nesting. -/
def Scheduled (o : Options) (l : Loader) (V : Value → Prop) (top : Nat)
    (x : Writer → Render Writer) (p : Plain Unit Unit) : Prop :=
  ∀ (w : World) (out : Writer), w.store.Faithful o l → w.streams.Closed → w.streams.Has out →
    ∃ jobs, World.Put o l V (w.streams.route out) w (x out w).2 jobs (x out w).1 ∧
      ∀ {held text good}, w.streams.content (w.streams.route out) = some held →
        p.Means text good →
        Owes (fun job => (job.plain o l top).Means) (x out w).2.streams (w.streams.route out) jobs
          (x out w).1 (held ++ text) good

variable {o : Options} {l : Loader} {V : Value → Prop} {top : Nat}
  {x y : Writer → Render Writer} {p q : Plain Unit Unit} {e : End} {w w' : World}
  {jobs : List Job} {r : Except Stop Writer}

theorem World.Put.none (hstore : w'.store.Faithful o l) (hqueue : w'.queue = w.queue)
    (hadds : Adds e w.streams w'.streams [] r) : World.Put o l V e w w' [] r :=
  ⟨hstore, by rw [hqueue, List.append_nil], hadds, nofun⟩

namespace World.Kept

variable (h : World.Kept o l w w')
include h

/-- Destinations that are opened are at no end that there was. -/
theorem touches (e : End) : Streams.Touches e w.streams w'.streams :=
  Streams.touches_of_outputs e h.latches h.outputs

theorem content {held : String} (hheld : w.streams.content e = some held) :
    w'.streams.content e = some held := by
  refine (h.touches .nowhere).content hheld ?_
  rintro rfl
  cases hheld

theorem adds {out : Writer} (hclosed : w.streams.Closed) (hout : w.streams.Has out)
    (r : Except Stop Writer) (hr : ∀ out', r = .ok out' → out' = out) :
    Adds (w.streams.route out) w.streams w'.streams [] r := by
  have hclosed' : w'.streams.Closed := by
    refine hclosed.of_status (h.touches .nowhere) fun n => ?_
    rw [Streams.status?, h.latches, Streams.status?]
  refine .of_touches (h.touches _) hclosed' fun out' heq => ?_
  rw [hr out' heq]
  exact ⟨(h.touches .nowhere).has hout, (h.touches .nowhere).route_eq hclosed hout⟩

end World.Kept

theorem Streams.Owes.nothing {M : Job → String → Bool → Prop} {s : Streams} {text : String}
    {out : Writer} (hheld : s.content e = some text) (hout : s.route out = e) :
    Owes M s e [] (.ok out) text true :=
  .intro (.refl []) (.nil e) hheld (.good rfl hout) (by simp)

theorem Streams.Owes.failed {M : Job → String → Bool → Prop} {s : Streams} {text : String}
    (cause : Stop) (hheld : s.content e = some text) :
    Owes M s e [] (.error cause) text false :=
  .intro (.refl []) (.nil e) hheld (.failed nofun nofun) (by simp)

/-- When a render has failed, what it has meant is there. -/
theorem Streams.Owes.of_means {M : Job → String → Bool → Prop} {s : Streams} {held text : String}
    {good : Bool} {cause : Stop} (hheld : s.content e = some held) (hmeans : p.Means text good)
    (hp : p () = Plain.stop cause ()) : Owes M s e [] (.error cause) (held ++ text) good := by
  have hstop : (Plain.stop cause : Plain Unit Unit).Means text good := hmeans.of_eq hp.symm
  obtain ⟨rfl, rfl⟩ := hstop.stop
  rw [String.append_empty]
  exact .failed cause hheld

theorem Streams.Owes.ok {M : Job → String → Bool → Prop} {s : Streams} {full : String}
    (h : Owes M s e jobs r full true) : ∃ out, r = .ok out := by
  cases h with
  | intro _ _ _ hrest _ =>
    cases hrest with
    | good hr _ => exact ⟨_, hr⟩

namespace Scheduled

theorem skip : Scheduled o l V top (fun out => pure out) (pure ()) := by
  intro w out hstore hclosed hout
  refine ⟨[], .none hstore rfl (.nil hclosed fun _ heq => ?_), fun hheld hmeans => ?_⟩
  · cases heq
    exact ⟨hout, rfl⟩
  · obtain ⟨rfl, rfl⟩ := hmeans.pure
    rw [String.append_empty]
    exact .nothing hheld rfl

theorem stop (cause : Stop) :
    Scheduled o l V top (fun _ => Render.stop cause) (Plain.stop cause) := by
  intro w out hstore hclosed hout
  exact ⟨[], .none hstore rfl (.nil hclosed nofun), fun hheld hmeans => .of_means hheld hmeans rfl⟩

theorem write (text : String) :
    Scheduled o l V top (fun out => do Render.write text out; return out) (Plain.write text) := by
  intro w out hstore hclosed hout
  have htouches := Streams.touches_write text out w.streams
  have hroute := htouches.route_eq hclosed hout
  have hadds (r : Except Stop Writer) (hr : ∀ out', r = .ok out' → out' = out) :
      Adds (w.streams.route out) w.streams (w.streams.write text out).2 [] r := by
    refine .of_touches htouches (hclosed.write text out) fun out' heq => ?_
    rw [hr out' heq]
    exact ⟨htouches.has hout, hroute⟩
  have hrun : (do Render.write text out; return out : Render Writer) w =
      ((Render.ofResult (w.streams.write text out).1).map fun _ => out,
        { w with streams := (w.streams.write text out).2 }) := by
    simp only [bind, Render.write]
    cases (w.streams.write text out).1 <;> rfl
  simp only [hrun]
  refine ⟨[], .none hstore rfl (hadds _ fun out' hout' => ?_), fun hheld hmeans => ?_⟩
  · cases hresult : (w.streams.write text out).1 <;> rw [hresult] at hout' <;> cases hout'
    rfl
  · obtain ⟨htext, rfl⟩ := hmeans.write
    obtain ⟨hok, hcontent⟩ := Streams.content_write hheld text
    simp only [hok, htext]
    exact .nothing hcontent hroute

theorem seq (hx : Scheduled o l V top x p) (hy : Scheduled o l V top y q) :
    Scheduled o l V top (fun out => x out >>= y) (p >>= fun _ => q) := by
  intro w out hstore hclosed hout
  obtain ⟨jobs, hput, howes⟩ := hx w out hstore hclosed hout
  rcases hxw : x out w with ⟨_ | out', w'⟩
  · -- The first action was stopped, so the second one is not done, here or plainly.
    rw [hxw] at hput howes
    simp only [bind, hxw]
    refine ⟨jobs, hput, fun hheld hmeans => ?_⟩
    obtain ⟨hfailed, rfl⟩ | ⟨before, after, hfirst, -, -⟩ := Plain.Means.of_bind hmeans
    · exact howes hheld hfailed
    · obtain ⟨_, hok⟩ := (howes hheld hfirst).ok
      cases hok
  · -- The second action is at the writer that the first one handed on.
    rw [hxw] at hput howes
    simp only [bind, hxw]
    obtain ⟨jobs', hput', howes'⟩ := hy w' out' hput.store hput.streams.closed
      (hput.streams.writer out' (.inr rfl)).1
    refine ⟨jobs ++ jobs', ⟨hput'.store, ?_, hput.streams.seq hput'.streams, ?_⟩,
      fun hheld hmeans => ?_⟩
    · rw [hput'.queue, hput.queue, List.append_assoc]
    · intro job hjob
      obtain hjob | hjob := List.mem_append.mp hjob
      · exact hput.proper job hjob
      · exact hput'.proper job hjob
    · obtain ⟨hfailed, rfl⟩ | ⟨before, after, hfirst, hsecond, rfl⟩ :=
        Plain.Means.of_bind hmeans
      · exact .seq_failed hheld hput.streams (howes hheld hfailed) hput'.streams
      · rw [← String.append_assoc]
        exact .seq hheld hput.streams (howes hheld hfirst) hput'.streams
          fun hheld' => howes' hheld' hsecond

theorem load {z : Store.Action Template} {r : Except Error Template}
    {y : Template → Writer → Render Writer} {p : Template → Plain Unit Unit}
    (hz : Store.Answers o l z r) (hy : ∀ t, Scheduled o l V top (y t) (p t.bare)) :
    Scheduled o l V top (fun out => do let t ← Render.withStore z; y t out)
      (do let t ← Plain.ofExcept r; p t) := by
  intro w out hstore hclosed hout
  obtain ⟨t, store, hok, rfl, hstore'⟩ | ⟨cause, herror, rfl⟩ := hz w.store hstore
  · obtain ⟨jobs, hput, howes⟩ := hy t { w with store } out hstore' hclosed hout
    simp only [bind, Render.withStore, hok]
    exact ⟨jobs, ⟨hput.store, hput.queue, hput.streams, hput.proper⟩, howes⟩
  · simp only [bind, Render.withStore, herror]
    exact stop (.error cause) w out hstore hclosed hout

theorem lookup (hreuse : ∀ name, Lookup.Reusable (o.handler.find name)) (n : Node)
    (scopes : Scopes) {y : Lookup.Hit → Writer → Render Writer}
    (hy : Scheduled o l V top (y (Plain.hit o n.name scopes)) p) :
    Scheduled o l V top (fun out => do let hit ← Render.lookup o n scopes; y hit out) p := by
  intro w out hstore hclosed hout
  obtain ⟨hhit, hstore'⟩ := Store.lookup_eq hreuse hstore n scopes
  obtain ⟨jobs, hput, howes⟩ :=
    hy { w with store := (w.store.lookup o n scopes).2 } out hstore' hclosed hout
  simp only [bind, Render.lookup, hhit]
  exact ⟨jobs, ⟨hput.store, hput.queue, hput.streams, hput.proper⟩, howes⟩

theorem captured {y : String → Writer → Render Writer} {p' : String → Plain Unit Unit}
    (hx : Inline o l (fun _ _ => True) x p) (hy : ∀ text, Scheduled o l V top (y text) (p' text)) :
    Scheduled o l V top (fun out => do let text ← Render.captured x; y text out)
      (do let text ← Plain.captured p; p' text) := by
  intro w out hstore hclosed hout
  obtain ⟨hresult, hkept, -⟩ := hx.run_captured hstore (s := ()) trivial
  rcases hxw : Render.captured x w with ⟨result, w'⟩
  rw [hxw] at hresult hkept
  have hwritten := Plain.fst_captured p ()
  rcases hp : Plain.captured p () with ⟨texts, _, _⟩
  rw [hp] at hresult hwritten
  obtain rfl : result = _ := hresult
  obtain rfl : texts = [] := hwritten
  cases result with
  | error cause =>
    simp only [bind, hxw]
    have hfirst := hkept.adds hclosed hout (.error cause) fun _ heq => by cases heq
    refine ⟨[], .none hkept.store hkept.queue hfirst, fun hheld hmeans => ?_⟩
    refine .of_means (hkept.content hheld) hmeans ?_
    simp only [hp]
    rfl
  | ok text =>
    simp only [bind, hxw]
    have hfirst := hkept.adds hclosed hout (.ok out) fun _ heq => (Except.ok.inj heq).symm
    obtain ⟨jobs, hput, howes⟩ :=
      hy text w' out hkept.store hfirst.closed (hfirst.writer out (.inr rfl)).1
    refine ⟨jobs, ⟨hput.store, ?_, hfirst.seq hput.streams, hput.proper⟩, fun hheld hmeans => ?_⟩
    · rw [hput.queue, hkept.queue]
    · have hrest : (p' text).Means _ _ := hmeans.of_eq (by simp only [hp]; rfl)
      have hheld' := hkept.content hheld
      rw [← hfirst.touches.route_eq hclosed hout] at hheld' ⊢
      exact howes hheld' hrest

/-- The work of a job, which runs its computation first. -/
theorem work (hq : Oracle.steady.Models V fun _ _ => True) {n : Nat} {job : Job}
    (hd : V (.deferred job.deferred))
    (hresume : ∀ v, V v → Scheduled o l V top
      (Renderer.resumeWithin o n job.awaiting v job.scopes job.context)
      (Plain.resumeWithin o l .steady n job.awaiting.bare v job.scopes job.context)) :
    Scheduled o l V top ((Renderer.within o n).work job) (job.plain o l n) := by
  intro w out hstore hclosed hout
  obtain ⟨hrunFor, hvalue, -, hwritten⟩ := hq.runFor (w := w) (s := ()) hd job.name trivial
  rcases hrun : Plain.runFor .steady job.deferred job.name () with ⟨texts, result, _⟩
  rw [hrun] at hrunFor hvalue hwritten
  obtain rfl : texts = [] := hwritten
  simp only [Renderer.work, bind, hrunFor]
  cases result with
  | error cause =>
    refine ⟨[], .none hstore rfl (.nil hclosed nofun), fun hheld hmeans => ?_⟩
    refine .of_means hheld hmeans ?_
    simp only [Job.plain, Plain.Renderer.await, bind, hrun]
    rfl
  | ok v =>
    obtain ⟨jobs, hput, howes⟩ :=
      hresume v (hvalue v rfl) (w.counted job.deferred) out hstore hclosed hout
    refine ⟨jobs, ⟨hput.store, hput.queue, hput.streams, hput.proper⟩, fun hheld hmeans => ?_⟩
    refine howes hheld (hmeans.of_eq ?_)
    simp only [Job.plain, Plain.Renderer.await, bind, hrun]
    rfl

/-- A job that is done as soon as it is submitted. -/
theorem submit_at_once {n : Nat} {job : Job} {schedule : Schedule}
    (hwork : Scheduled o l V top ((Renderer.within o n).work job) (job.plain o l n))
    (hplain : (job.plain o l n).Upto (job.plain o l top))
    (hstore : w.store.Faithful o l) (hclosed : w.streams.Closed)
    (hout : w.streams.Has job.writer) (hlatch : job.latch = w.streams.newLatch.1)
    (hschedule : job.context.schedule? o = some schedule)
    (honce : schedule.atOnce w.submitted = true) :
    let (r, w') := (Renderer.within o n).defer o job.deferred job.name job.awaiting job.scopes
      job.context job.writer w
    ∃ jobs, World.Put o l V (w.streams.route job.writer) w w' jobs r ∧
      ∀ {held text good}, w.streams.content (w.streams.route job.writer) = some held →
        (job.plain o l n).Means text good →
        Owes (fun job => (job.plain o l top).Means) w'.streams (w.streams.route job.writer) jobs r
          (held ++ text) good := by
  have hnew := Streams.touches_newLatch (w.streams.route job.writer) w.streams
  have hroute : w.opened.streams.route job.writer = w.streams.route job.writer :=
    hnew.route_eq hclosed hout
  have hclosed₁ : w.opened.streams.Closed := hclosed.newLatch
  have hlatch₁ : w.opened.streams.status? job.latch = some .pending :=
    hlatch ▸ Streams.status?_newLatch_self w.streams
  obtain ⟨jobs, hput, howes⟩ := hwork w.opened job.writer hstore hclosed₁ (hnew.has hout)
  rw [Renderer.defer_at_once hlatch hschedule honce]
  rcases hran : (Renderer.within o n).work job job.writer w.opened with ⟨result, after⟩
  rw [hran] at hput howes
  -- To those outside, the job and the submission are one action at the writer.
  have hadds : Adds (w.streams.route job.writer) w.streams (job.conclude result after.streams) jobs
      (.ok (.latched job.latch)) := by
    have hframe : Streams.Performed (fun _ _ _ => False) w.opened.streams after.streams job jobs
        result := ⟨hclosed₁, hlatch₁, hput.streams, fun _ hfalse => hfalse.elim⟩
    rw [← hroute] at hnew ⊢
    exact hframe.adds_at_once hnew (by simp [Streams.status?, hlatch, Streams.newLatch])
  refine ⟨jobs, ⟨hput.store, hput.queue, ?_, hput.proper⟩, fun hheld hmeans => ?_⟩
  · cases Job.verdict result with
    | ok _ => exact hadds
    | error cause => exact hadds.of_error cause
  · rename_i text good
    -- The job is owed when it has been submitted, so what it means is owed when it has been done.
    have hheld₁ := Streams.content_newLatch hheld
    rw [← hroute] at hheld₁
    have hperformed : Streams.Performed (fun job => (job.plain o l top).Means) w.opened.streams
        after.streams job jobs result :=
      ⟨hclosed₁, hlatch₁, hput.streams, fun hheld' htop =>
        howes hheld' (htop.of_eq (hmeans.eq_of_upto hplain).symm)⟩
    have hwait := (Streams.adds_submitted hclosed hout hlatch).waiting hheld
    have hsubmitted := Streams.owes_submitted (M := fun job => (job.plain o l top).Means) hclosed
      hout hlatch hheld (hmeans.of_eq (hmeans.eq_of_upto hplain))
    have hlast : ∀ out, (.ok (.latched job.latch) : Except Stop Writer) = .ok out →
        w.opened.streams.Has out := by
      intro out heq
      cases heq
      exact ⟨_, hlatch₁⟩
    have hall := hperformed.owes_after hwait hlast hsubmitted
    cases hverdict : Job.verdict result with
    | ok _ => exact hall
    | error cause =>
      -- The work itself was stopped, so it did not end well.
      cases good with
      | true =>
        obtain ⟨_, rfl⟩ := (howes hheld₁ hmeans).ok
        cases hverdict
      | false => exact hall.of_error

/-- A computation that is put off. -/
theorem await (hq : Oracle.steady.Models V fun _ _ => True) {n : Nat} (hn : n ≤ top)
    (d : Deferred Value) (name : String) (k : Awaiting) (scopes : Scopes) (cx : Context)
    (hinline : cx.isInline = false) (hd : V (.deferred d)) (hscopes : scopes.All V)
    (hresume : ∀ v, V v → Scheduled o l V top (Renderer.resumeWithin o n k v scopes cx)
      (Plain.resumeWithin o l .steady n k.bare v scopes cx)) :
    Scheduled o l V top ((Renderer.within o n).defer o d name k scopes cx)
      ((Plain.within o l .steady n).await .steady d name k.bare scopes cx) := by
  intro w out hstore hclosed hout
  let job : Job := ⟨w.streams.newLatch.1, out, d, name, scopes, cx, k⟩
  have hjob : w.streams.Has job.writer := hout
  have hwork : Scheduled o l V top ((Renderer.within o n).work job) (job.plain o l n) :=
    work hq hd hresume
  have hplain : (job.plain o l n).Upto (job.plain o l top) :=
    (Plain.within_upto o l .steady hn).await d name k.bare scopes cx
  cases hschedule : o.schedule with
  | none =>
    have hdefer : (Renderer.within o n).defer o d name k scopes cx =
        (Renderer.within o n).work job := by
      funext out
      simp only [Renderer.defer, Context.schedule?, hinline, hschedule, Renderer.work]
      rfl
    rw [hdefer]
    exact hwork w out hstore hclosed hout
  | some schedule =>
    have hlater : job.context.schedule? o = some schedule := by
      rw [Context.schedule?, hinline, hschedule]
      rfl
    by_cases honce : schedule.atOnce w.submitted = true
    · exact submit_at_once hwork hplain hstore hclosed hjob rfl hlater honce
    · have hdefer := Renderer.defer_later (r := Renderer.within o n) rfl hlater honce
      rw [show (Renderer.within o n).defer o d name k scopes cx out w = _ from hdefer]
      refine ⟨[job], ⟨hstore, rfl, Streams.adds_submitted hclosed hjob rfl, fun job' hmem => ?_⟩,
        fun hheld hmeans => Streams.owes_submitted hclosed hjob rfl hheld
          (hmeans.of_eq (hmeans.eq_of_upto hplain))⟩
      obtain rfl := List.mem_singleton.mp hmem
      exact ⟨hd, hscopes, hinline⟩

end Scheduled

/-- What a plain action means is done where computations run at once, and owed where they are put
    off. -/
structure Follows (o : Options) (l : Loader) (V : Value → Prop) (top : Nat) (isInline : Bool)
    (x : Writer → Render Writer) (p : Plain Unit Unit) : Prop where
  inline : isInline = true → Inline o l (fun _ _ => True) x p
  scheduled : isInline = false → Scheduled o l V top x p

/-- Rendering with a schedule follows plain rendering. -/
theorem scheduled_simulation (hreuse : ∀ name, Lookup.Reusable (o.handler.find name))
    (hkeeps : o.handler.Keeps V) (hq : Oracle.steady.Models V fun _ _ => True) :
    Simulation o l .steady V top 0 (Follows o l V top) where
  keeps := hkeeps
  skip _ := ⟨fun _ => .skip, fun _ => .skip⟩
  stop _ e := ⟨fun _ => .stop e, fun _ => .stop e⟩
  seq hx hy := ⟨fun h => .seq (hx.inline h) (hy.inline h),
    fun h => .seq (hx.scheduled h) (hy.scheduled h)⟩
  write _ text := ⟨fun _ => .write text, fun _ => .write text⟩
  load hz hy := ⟨fun h => .load hz fun t => (hy t).inline h,
    fun h => .load hz fun t => (hy t).scheduled h⟩
  lookup n scopes hy := ⟨fun h => .lookup hreuse n scopes (hy.inline h),
    fun h => .lookup hreuse n scopes (hy.scheduled h)⟩
  captured hx hy := ⟨fun h => .captured (hx.inline rfl) fun text => (hy text).inline h,
    fun h => .captured (hx.inline rfl) fun text => (hy text).scheduled h⟩
  awaiting n hn d name k scopes cx hd hscopes hresume := by
    refine ⟨fun h => ?_, fun h => ?_⟩
    · refine .await hq name k scopes ?_ hd fun v hv => (hresume v hv).inline h
      rw [Context.schedule?, h]
      rfl
    · exact .await hq hn d name k scopes cx h hd hscopes fun v hv => (hresume v hv).scheduled h

end Mustache
