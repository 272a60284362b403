import Mustache.Proofs.Render.Owed
import Mustache.Render.Rules

/-! # Doing jobs

A job does its work at its writer, and then its latch is settled.  What is owed stays owed: what the
job has written stands where it was due, and the jobs that it has put off stand in its place.

* `Renderer.perform_eq` — doing a job, in two steps.
* `Streams.Concluded` — what settling the latch of a job does to the streams.
* `Streams.Performed.owes_after` — what is owed is still owed after a job.
-/

namespace Mustache

/-- What becomes of the streams when the work of a job has come to an end. -/
def Job.conclude (job : Job) (r : Except Stop Writer) (s : Streams) : Streams :=
  match r with
  | .ok out => s.complete job.latch out
  | .error (.error e) => s.fail job.latch e
  | .error (.panic message) => s.fail job.latch (.render (.deferredFailure job.name message))
  | .error _ => s

/-- Whether doing a job goes well: a failure of its work is not one of doing it. -/
def Job.verdict (r : Except Stop Writer) : Except Stop Unit :=
  match r with
  | .error .blocked => .error .blocked
  | .error .exhausted => .error .exhausted
  | _ => .ok ()

def Renderer.work (r : Renderer) (job : Job) (out : Writer) : Render Writer := do
  let v ← Render.runFor job.deferred job.name
  r.resume job.awaiting v job.scopes job.context out

/-- A job is done by doing its work and settling its latch. -/
theorem Renderer.perform_eq (r : Renderer) (job : Job) (w : World) :
    r.perform job w =
      let (result, after) := r.work job job.writer w
      (Job.verdict result, { after with streams := job.conclude result after.streams }) := by
  have hperform : r.perform job w =
      (Render.attempt (r.work job job.writer) >>= fun outcome =>
        match outcome with
        | .ok out => Render.modifyStreams (Streams.complete job.latch out)
        | .error (.error e) => Render.modifyStreams (Streams.fail job.latch e)
        | .error (.panic message) =>
          Render.modifyStreams
            (Streams.fail job.latch (.render (.deferredFailure job.name message)))
        | .error e => Render.stop e) w := rfl
  rw [hperform]
  simp only [bind, Render.attempt]
  obtain ⟨result, after⟩ := r.work job job.writer w
  cases result with
  | ok out => rfl
  | error stop => cases stop <;> rfl

/-- The world in which a job that is submitted has its latch and its number. -/
def World.opened (w : World) : World :=
  { w with streams := w.streams.newLatch.2, submitted := w.submitted + 1 }

section

variable {o : Options} {r : Renderer} {job : Job} {schedule : Schedule} {w : World}
  (hlatch : job.latch = w.streams.newLatch.1)
  (hschedule : job.context.schedule? o = some schedule)
include hlatch hschedule

theorem Renderer.defer_eq :
    r.defer o job.deferred job.name job.awaiting job.scopes job.context job.writer w =
      (if schedule.atOnce w.submitted then do
        r.perform job
        return .latched job.latch
      else do
        Render.enqueue job
        return .latched job.latch : Render Writer) w.opened := by
  obtain ⟨latch, out, d, name, scopes, cx, k⟩ := job
  obtain rfl : latch = _ := hlatch
  simp only [Renderer.defer, hschedule]
  rfl

/-- A job that is done at once. -/
theorem Renderer.defer_at_once (honce : schedule.atOnce w.submitted = true) :
    r.defer o job.deferred job.name job.awaiting job.scopes job.context job.writer w =
      let (result, after) := r.work job job.writer w.opened
      ((Job.verdict result).map fun _ => .latched job.latch,
        { after with streams := job.conclude result after.streams }) := by
  rw [defer_eq hlatch hschedule, if_pos honce]
  simp only [bind, perform_eq]
  cases Job.verdict (r.work job job.writer w.opened).1 <;> rfl

/-- A job that is done later. -/
theorem Renderer.defer_later (hlater : ¬ schedule.atOnce w.submitted = true) :
    r.defer o job.deferred job.name job.awaiting job.scopes job.context job.writer w =
      (.ok (.latched job.latch), { w.opened with queue := w.queue ++ [job] }) := by
  rw [defer_eq hlatch hschedule, if_neg hlater]
  rfl

end

namespace Streams

variable {M : Job → String → Bool → Prop} {s s' s₁ t : Streams} {e e' : End} {job : Job}
  {jobs live rest : List Job} {text full more held : String} {good : Bool} {w out : Writer}
  {r r₁ : Except Stop Writer} {m : Nat} {st : Latch.Status}

/-! ## Submitting a job -/

theorem route_newLatch (s : Streams) :
    s.newLatch.2.route (.latched s.newLatch.1) = .pending s.newLatch.1 :=
  Leads.route_eq ⟨_, .pending (status?_newLatch_self s)⟩

/-- The job that a writer handed on waits for. -/
theorem adds_submitted (hs : s.Closed) (hout : s.Has job.writer)
    (hlatch : job.latch = s.newLatch.1) :
    Adds (s.route job.writer) s s.newLatch.2 [job] (.ok (.latched job.latch)) := by
  have htouches := touches_newLatch (s.route job.writer) s
  refine ⟨hs.newLatch, htouches, fun w hw => ?_, fun job' hjob => ?_, List.pairwise_singleton _ _⟩
  · obtain ⟨job', hjob, rfl⟩ | hw := hw
    · obtain rfl := List.mem_singleton.mp hjob
      exact ⟨htouches.has hout, .inl (htouches.route_eq hs hout)⟩
    · cases hw
      rw [hlatch]
      refine ⟨⟨_, status?_newLatch_self s⟩, .inr ⟨?_, ?_⟩⟩
      · rw [route_newLatch]
        exact content_newLatch_none s
      · rw [route_newLatch]
        nofun
  · obtain rfl := List.mem_singleton.mp hjob
    rw [hlatch]
    exact ⟨by simp [status?, newLatch], status?_newLatch_self s⟩

theorem owes_submitted (hs : s.Closed) (hout : s.Has job.writer)
    (hlatch : job.latch = s.newLatch.1) (hheld : s.content (s.route job.writer) = some held)
    (hmeans : M job text good) :
    Owes M s.newLatch.2 (s.route job.writer) [job] (.ok (.latched job.latch)) (held ++ text)
      good := by
  have hheld' := content_newLatch hheld
  have hroute := (touches_newLatch .nowhere s).route_eq hs hout
  have hend := route_newLatch s
  rw [← hlatch] at hend
  cases good with
  | true =>
    have hlast : s.newLatch.2.content (.pending job.latch) = some "" := by
      rw [hlatch]
      exact content_newLatch_self s
    exact .intro (.refl [job]) (.cons hroute hheld' hmeans (.nil _)) hlast (.good rfl hend)
      (by simp)
  | false =>
    refine .intro (.refl [job]) (.nil _) hheld' (.failing hroute hmeans nofun fun out heq => ?_)
      (by simp)
    cases heq
    refine ⟨fun hmem => ?_, by rw [hend]; nofun⟩
    rw [hend] at hmem
    have hsome : s.content (.pending job.latch) = some held :=
      (List.mem_singleton.mp hmem) ▸ hheld
    rw [hlatch, content_newLatch_none] at hsome
    cases hsome

/-! ## Settling the latch of a job -/

/-- Where the work of a job ended. -/
def landing (s : Streams) (r : Except Stop Writer) : End :=
  match r with
  | .ok out => s.route out
  | .error _ => .nowhere

/-- An end that no text gets to. -/
def End.IsVoid : End → Prop
  | .failed _ => True
  | .nowhere => True
  | _ => False

/-- Settling a latch changes the text at one end at most, and where those writers lead that waited
    for the latch. -/
structure Concluded (m : Nat) (x : End) (s t : Streams) : Prop where
  closed : t.Closed
  has : ∀ {w}, s.Has w → t.Has w
  status : ∀ {n st}, s.status? n = some st → n ≠ m → t.status? n = some st
  route_of_ne : ∀ {w}, s.Has w → s.route w ≠ .pending m → t.route w = s.route w
  route_of_eq : ∀ {w}, s.Has w → s.route w = .pending m →
    t.route w = .pending m ∨ t.route w = x ∨ (t.route w).IsVoid
  content : ∀ {y held}, s.content y = some held → y ≠ .pending m → y ≠ x →
    t.content y = some held
  kept : ∀ {y held}, s.content y = some held → y ≠ .pending m → ∃ held, t.content y = some held

theorem Concluded.refl (hs : s.Closed) (m : Nat) (x : End) : Concluded m x s s :=
  ⟨hs, fun h => h, fun h _ => h, fun _ _ => rfl, fun _ h => .inl h, fun h _ _ => h,
    fun h _ => ⟨_, h⟩⟩

theorem Concluded.settle {x : End} (hs : s.Closed) (ht : Touches x s t) (hclosed : t.Closed)
    (hm : s.status? m = some .pending)
    (hst : (∃ out, st = .done out ∧ s.Has out ∧ s.route out = x) ∨ ∃ cause, st = .failed cause) :
    Concluded m x s (t.settle m st) where
  closed := by
    refine hclosed.settle fun out hout => ?_
    obtain ⟨_, rfl, hhas, -⟩ | ⟨_, rfl⟩ := hst
    · cases hout
      exact ht.has hhas
    · cases hout
  has hw := has_settle (ht.has hw)
  status hn hne := (status?_settle_of_ne hne).trans (ht.status hn)
  route_of_ne {w} hw hne := by
    have hroute := ht.route_eq hs hw
    rw [route_settle_of_ne (ht.status hm) (hroute ▸ hne), hroute]
  route_of_eq {w} hw heq := by
    have hroute := (ht.route_eq hs hw).trans heq
    obtain ⟨out, rfl, hhas, rfl⟩ | ⟨cause, rfl⟩ := hst
    · rw [← ht.route_eq hs hhas]
      obtain hdone | hdone : (t.settle m (.done out)).route w = t.route out ∨ _ :=
        route_settle_done_or hroute
      · exact .inr (.inl hdone)
      · rw [hdone]
        exact .inr (.inr trivial)
    · rw [route_settle_failed hroute]
      exact .inr (.inr trivial)
  content hy hne hx := (content_settle_of_ne hne).trans (ht.content hy hx)
  kept hy hne := by
    rw [content_settle_of_ne hne]
    exact ht.exists_content hy

theorem concluded (job : Job) (hs : s.Closed) (hm : s.status? job.latch = some .pending)
    (hr : ∀ out, r = .ok out → s.Has out) :
    Concluded job.latch (s.landing r) s (job.conclude r s) := by
  cases r with
  | ok out =>
    obtain ⟨t, st, heq, htouches, hclosed, hst, -⟩ := complete_eq job.latch out s
    have hsettled : Concluded job.latch (s.route out) s (t.settle job.latch st) := by
      refine .settle hs htouches (hclosed hs) hm ?_
      obtain rfl | hcause := hst
      · exact .inl ⟨out, rfl, hr out rfl, rfl⟩
      · exact .inr hcause
    rw [← heq] at hsettled
    exact hsettled
  | error stop =>
    cases stop with
    | error cause => exact .settle hs (.refl _ s) hs hm (.inr ⟨cause, rfl⟩)
    | panic message => exact .settle hs (.refl _ s) hs hm (.inr ⟨_, rfl⟩)
    | blocked => exact .refl hs _ _
    | exhausted => exact .refl hs _ _

/-- When the work has ended well, the text held back comes after its text, and whoever waited for the
    latch goes on there. -/
theorem concluded_ok (job : Job) (hs : s.Closed) (hout : s.Has out)
    (hheld : s.content (.pending job.latch) = some held) (htext : s.content (s.route out) = some text)
    (hne : s.route out ≠ .pending job.latch) :
    (job.conclude (.ok out) s).content (s.route out) = some (text ++ held) ∧
      ∀ w, s.Has w → s.route w = .pending job.latch →
        (job.conclude (.ok out) s).route w = s.route out := by
  -- The text held back is written first, and then the latch is settled.
  obtain ⟨t, st, heq, htouches, -, -, hdone⟩ := complete_eq job.latch out s
  obtain ⟨rfl, hcontent⟩ := hdone hheld htext
  have hroute := htouches.route_eq hs hout
  simp only [Job.conclude, heq]
  refine ⟨(content_settle_of_ne hne).trans hcontent, fun w hw hpending => ?_⟩
  rw [← hroute]
  exact route_settle_done ((htouches.route_eq hs hw).trans hpending) (hroute ▸ hne)

theorem landing_dead {L : List End} (hr : ∀ out, r = .ok out → Dead s L out)
    (hL : ∀ y ∈ L, ∃ held, s.content y = some held) :
    s.landing r ∉ L ∧ ∀ k, s.landing r ≠ .output k := by
  cases r with
  | ok out => exact hr out rfl
  | error _ =>
    refine ⟨fun hmem => ?_, nofun⟩
    obtain ⟨_, hsome⟩ := hL _ hmem
    cases hsome

/-! ## Chains that the latch is not on -/

namespace Concluded

variable {x : End} (h : Concluded m x s t) (hspells : Spells M s e live e' text)
  (hheld : s.content e' = some held) (hm : .pending m ∉ ends e live)
include h hspells hheld hm

omit hheld in
/-- Text may be added at the end of the chain. -/
theorem frame (hhas : ∀ job ∈ live, s.Has job.writer) (hx : ∀ job ∈ live, s.route job.writer ≠ x) :
    Spells M t e live e' text := by
  have hne {job : Job} (hjob : job ∈ live) : s.route job.writer ≠ .pending m :=
    fun heq => hm (heq ▸ hspells.route_mem hjob)
  exact hspells.congr (fun job hjob => h.route_of_ne (hhas job hjob) (hne hjob))
    fun job hjob _ hsome => h.content hsome (hne hjob) (hx job hjob)

theorem spells (hhas : ∀ job ∈ live, s.Has job.writer) (hx : x ∉ ends e live) :
    Spells M t e live e' text ∧ t.content e' = some held := by
  have hne {y : End} (hy : y ∈ ends e live) : y ≠ x := fun heq => hx (heq ▸ hy)
  refine ⟨h.frame hspells hm hhas fun job hjob => hne (hspells.route_mem hjob), ?_⟩
  exact h.content hheld (fun heq => hm (heq ▸ hspells.last_mem)) (hne hspells.last_mem)

theorem dead (hw : s.Has w) (hx : x ∉ ends e live ∧ ∀ k, x ≠ .output k)
    (hdead : s.route w = .pending m ∨ Dead s (ends e live) w) : Dead t (ends e live) w := by
  by_cases hpending : s.route w = .pending m
  · obtain hroute | hroute | hvoid := h.route_of_eq hw hpending
    · exact ⟨hroute ▸ hm, fun k => by rw [hroute]; nofun⟩
    · exact ⟨hroute ▸ hx.1, fun k => hroute ▸ hx.2 k⟩
    · refine ⟨fun hmem => ?_, fun k heq => by rw [heq] at hvoid; exact hvoid⟩
      obtain ⟨_, hsome⟩ := hspells.exists_content hheld _ hmem
      cases hroute : t.route w with
      | output _ => rw [hroute] at hvoid; cases hvoid
      | pending _ => rw [hroute] at hvoid; cases hvoid
      | failed _ => rw [hroute] at hsome; cases hsome
      | nowhere => rw [hroute] at hsome; cases hsome
  · rw [Dead, h.route_of_ne hw hpending]
    exact hdead.resolve_left hpending

theorem remains (hhas : ∀ w, Awaits rest r w → s.Has w) (hx : x ∉ ends e live ∧ ∀ k, x ≠ .output k)
    (hrest : Rest M s (ends e live) e' r rest more good) :
    Rest M t (ends e live) e' r rest more good := by
  refine hrest.imp (fun w hw heq => ?_) fun w hw hdead =>
    h.dead hspells hheld hm (hhas w hw) hx (.inr hdead)
  have hne : e' ≠ .pending m := fun hpending => hm (hpending ▸ hspells.last_mem)
  rw [h.route_of_ne (hhas w hw) (heq ▸ hne), heq]

end Concluded

/-- The chain behind a latch, when whoever waited for the latch goes on elsewhere. -/
theorem Spells.redirect {x : End} {before old : String}
    (h : Spells M s (.pending m) jobs e' text) (hheld : s.content e' = some held)
    (hm : s.content (.pending m) = some old) (hx : t.content x = some (before ++ old))
    (hwait : s.Waiting (.pending m) jobs)
    (heq : ∀ w, s.Has w → s.route w = .pending m → t.route w = x)
    (hne : ∀ w, s.Has w → s.route w ≠ .pending m → t.route w = s.route w)
    (hcontent : ∀ y ∈ jobs.map fun job => End.pending job.latch, ∀ {held},
      s.content y = some held → t.content y = some held) :
    ∃ e'' later last, Spells M t x jobs e'' later ∧ t.content e'' = some last ∧
      later ++ last = before ++ (text ++ held) ∧
      ∀ w, s.Has w → s.route w = e' → t.route w = e'' := by
  cases h with
  | nil =>
    obtain rfl := Option.some.inj (hm.symm.trans hheld)
    exact ⟨x, "", _, .nil x, hx, by simp, heq⟩
  | @cons job jobs _ _ old' text later hroute hold hmeans hrest =>
    -- Only the first job wrote at the latch; the others wait for each other.
    obtain rfl := Option.some.inj (hm.symm.trans hold)
    have hnodup := hwait.nodup
    have hnext {y : End} (hy : y ∈ ends (.pending job.latch) jobs) : y ≠ .pending m := by
      rintro rfl
      exact (List.nodup_cons.mp hnodup).1 hy
    have hrest' := hrest.congr
      (fun job' hjob => hne _ (hwait.has job' (List.mem_cons_of_mem _ hjob))
        (hnext (hrest.route_mem hjob)))
      fun job' hjob held => hcontent _ (hrest.route_mem hjob)
    refine ⟨e', _, held, .cons (heq _ (hwait.has job List.mem_cons_self) hroute) hx hmeans hrest',
      hcontent _ hrest.last_mem hheld, by simp only [String.append_assoc], fun w hw hlast => ?_⟩
    rw [hne w hw (hlast ▸ hnext hrest.last_mem), hlast]

/-! ## Doing a job -/

/-- The work of a job that waits has been done. -/
structure Performed (M : Job → String → Bool → Prop) (s s₁ : Streams) (job : Job)
    (jobs : List Job) (r₁ : Except Stop Writer) : Prop where
  closed : s.Closed
  latch : s.status? job.latch = some .pending
  adds : Adds (s.route job.writer) s s₁ jobs r₁
  owes : ∀ {held text good}, s.content (s.route job.writer) = some held → M job text good →
    Owes M s₁ (s.route job.writer) jobs r₁ (held ++ text) good

theorem ne_of_content {x y : End} (hx : s.content x = none) (hy : s.content y = some held) :
    y ≠ x := by
  rintro rfl
  cases hx.symm.trans hy

theorem End.IsVoid.beyond {x y : End} (h : y.IsVoid) : s.Beyond x y := by
  cases y with
  | output _ => cases h
  | pending _ => cases h
  | failed _ => exact .inr ⟨rfl, nofun⟩
  | nowhere => exact .inr ⟨rfl, nofun⟩

namespace Performed

variable (h : Performed M s s₁ job jobs r₁)
include h

theorem concluded :
    Concluded job.latch (s₁.landing r₁) s₁ (job.conclude r₁ s₁) :=
  Streams.concluded job h.adds.closed (h.adds.touches.status h.latch)
    fun out hout => (h.adds.writer out (.inr hout)).1

theorem landing_beyond : s.Beyond (s.route job.writer) (s₁.landing r₁) := by
  cases r₁ with
  | ok out => exact (h.adds.writer out (.inr rfl)).2
  | error _ => exact End.IsVoid.beyond (y := .nowhere) trivial

theorem exists_held : ∃ held, s.content (.pending job.latch) = some held :=
  exists_content h.latch

theorem latch_ne {job' : Job} (hjob : job' ∈ jobs) : job'.latch ≠ job.latch := by
  intro heq
  cases (heq ▸ (h.adds.latch job' hjob).1).symm.trans h.latch

theorem route_eq (hw : s.Has w) (hne : s.route w ≠ .pending job.latch) :
    (job.conclude r₁ s₁).route w = s.route w := by
  have hroute := h.adds.touches.route_eq h.closed hw
  rw [h.concluded.route_of_ne (h.adds.touches.has hw) (hroute ▸ hne), hroute]

theorem content {y : End} (hy : s.content y = some held) (hne : y ≠ s.route job.writer)
    (hlatch : y ≠ .pending job.latch) : (job.conclude r₁ s₁).content y = some held := by
  refine h.concluded.content (h.adds.touches.content hy hne) hlatch ?_
  obtain hland | ⟨hnone, -⟩ := h.landing_beyond
  · exact hland ▸ hne
  · exact ne_of_content hnone hy

/-- A writer that waits for the job, or leads to where it writes or to what is new, still does when
    the job has been done. -/
theorem beyond (hw : s₁.Has w)
    (hroute : s₁.route w = .pending job.latch ∨ s.Beyond (s.route job.writer) (s₁.route w)) :
    (job.conclude r₁ s₁).route w = .pending job.latch ∨
      s.Beyond (s.route job.writer) ((job.conclude r₁ s₁).route w) := by
  by_cases hpending : s₁.route w = .pending job.latch
  · obtain hlatch | hland | hvoid := h.concluded.route_of_eq hw hpending
    · exact .inl hlatch
    · exact .inr (hland ▸ h.landing_beyond)
    · exact .inr hvoid.beyond
  · rw [h.concluded.route_of_ne hw hpending]
    exact hroute

theorem waiting (hwait : s.Waiting e (job :: rest)) (he : s.content e = some held) :
    (job.conclude r₁ s₁).Waiting e (rest ++ jobs) := by
  have hnodup := hwait.nodup
  rw [ends, List.map_cons, List.nodup_cons, List.nodup_cons] at hnodup
  refine ⟨fun job' hjob => ?_, fun job' hjob => ?_, ?_⟩
  · obtain hjob | hjob := List.mem_append.mp hjob
    · exact h.concluded.has (h.adds.touches.has (hwait.has job' (List.mem_cons_of_mem _ hjob)))
    · exact h.concluded.has (h.adds.writer _ (.inl ⟨job', hjob, rfl⟩)).1
  · obtain hjob | hjob := List.mem_append.mp hjob
    · refine h.concluded.status
        (h.adds.touches.status (hwait.pending job' (List.mem_cons_of_mem _ hjob))) fun heq => ?_
      exact hnodup.2.1 (List.mem_map.mpr ⟨job', hjob, by rw [heq]⟩)
    · exact h.concluded.status (h.adds.latch job' hjob).2 (h.latch_ne hjob)
  · rw [ends, List.map_append, ← List.cons_append, List.nodup_append]
    refine ⟨hwait.tail.nodup, nodup_pending h.adds.nodup, fun x hx y hy => ?_⟩
    · obtain ⟨job', hjob, rfl⟩ := List.mem_map.mp hy
      have hnone := content_of_status?_none (h.adds.latch job' hjob).1
      obtain rfl | hx := List.mem_cons.mp hx
      · exact ne_of_content hnone he
      · obtain ⟨job'', hjob', rfl⟩ := List.mem_map.mp hx
        obtain ⟨_, hsome⟩ := exists_content (hwait.pending job'' (List.mem_cons_of_mem _ hjob'))
        exact ne_of_content hnone hsome

/-- A job done at a writer as soon as it is submitted is a render at that writer. -/
theorem adds_at_once {s₀ : Streams} (hnew : Touches (s.route job.writer) s₀ s)
    (hnone : s₀.status? job.latch = none) :
    Adds (s.route job.writer) s₀ (job.conclude r₁ s₁) jobs (.ok (.latched job.latch)) := by
  have hafter : Touches (s.route job.writer) s₀ s₁ := hnew.trans (.refl _ _) h.adds.touches
  have hlatch {y : End} {held : String} (hy : s₀.content y = some held) : y ≠ .pending job.latch :=
    ne_of_content (content_of_status?_none hnone) hy
  have hold {y : End} (hy : s.Beyond (s.route job.writer) y) :
      s₀.Beyond (s.route job.writer) y := (Beyond.refl s₀ _).trans hnew hy
  -- What there was has been touched by the work of the job only, as its latch is new.
  refine ⟨h.concluded.closed, ⟨fun hst => ?_, fun hy hne => ?_, fun he => ?_⟩, fun w hw => ?_,
    fun job' hjob => ⟨?_, ?_⟩, h.adds.nodup⟩
  · refine h.concluded.status (hafter.status hst) ?_
    rintro rfl
    cases hnone.symm.trans hst
  · obtain ⟨_, hs⟩ := hnew.exists_content hy
    refine h.concluded.content (hafter.content hy hne) (hlatch hy) ?_
    obtain hland | ⟨hnone, -⟩ := h.landing_beyond
    · exact hland ▸ hne
    · exact ne_of_content hnone hs
  · obtain ⟨_, hs₁⟩ := hafter.exists_content he
    exact h.concluded.kept hs₁ (hlatch he)
  · have hall : s₁.Has w ∧ (s₁.route w = .pending job.latch ∨
        s.Beyond (s.route job.writer) (s₁.route w)) := by
      obtain hjob | hr := hw
      · obtain ⟨hhas, hbeyond⟩ := h.adds.writer w (.inl hjob)
        exact ⟨hhas, .inr hbeyond⟩
      · cases hr
        have hst := h.adds.touches.status h.latch
        exact ⟨⟨_, hst⟩, .inl (Leads.route_eq ⟨_, .pending hst⟩)⟩
    refine ⟨h.concluded.has hall.1, ?_⟩
    obtain hroute | hbeyond := h.beyond hall.1 hall.2
    · rw [hroute]
      exact .inr ⟨content_of_status?_none hnone, nofun⟩
    · exact hold hbeyond
  · cases hst : s₀.status? job'.latch with
    | none => rfl
    | some st => cases (h.adds.latch job' hjob).1.symm.trans (hnew.status hst)
  · exact h.concluded.status (h.adds.latch job' hjob).2 (h.latch_ne hjob)

/-! ### What is owed -/

/-- What is owed after a job that was dead. -/
theorem owes_dead (hspells : Spells M s e live e' text) (hheld : s.content e' = some held)
    (hrest : Rest M s (ends e live) e' r rest more false)
    (hdead : Dead s (ends e live) job.writer) (hwait : s.Waiting e (job :: (live ++ rest)))
    (hr : ∀ out, r = .ok out → s.Has out) :
    Owes M (job.conclude r₁ s₁) e (live ++ (rest ++ jobs)) r (text ++ held ++ more) false := by
  have hhas : ∀ w, Awaits rest r w → s.Has w := by
    rintro w (⟨job', hjob, rfl⟩ | hout)
    · exact hwait.has job' (List.mem_cons_of_mem _ (List.mem_append_right _ hjob))
    · exact hr w hout
  have hlive : ∀ job' ∈ live, s.Has job'.writer := fun job' hjob =>
    hwait.has job' (List.mem_cons_of_mem _ (List.mem_append_left _ hjob))
  have hm : .pending job.latch ∉ ends e live := by
    rw [← List.cons_append] at hwait
    exact hwait.left.not_mem
  have hne {x : End} (hx : x ∈ ends e live) : x ≠ s.route job.writer :=
    fun heq => hdead.1 (heq ▸ hx)
  -- The chain is not touched by the work of the job, nor by the settling of its latch.
  have hspells₁ := hspells.frame h.adds.touches h.closed hlive
    fun job' hjob => hne (hspells.route_mem hjob)
  have hheld₁ := h.adds.touches.content hheld (hne hspells.last_mem)
  obtain ⟨hrest₁, hr₁⟩ := hrest.add_dead hspells hheld h.closed hhas hdead h.adds
  have hland := landing_dead hr₁ (hspells₁.exists_content hheld₁)
  have hhas₁ : ∀ w, Awaits (rest ++ jobs) r w → s₁.Has w := by
    intro w hw
    obtain hnew | hold := awaits_append.mp (hw.of_perm List.perm_append_comm)
    · exact (h.adds.writer w (.inl hnew)).1
    · exact h.adds.touches.has (hhas w hold)
  obtain ⟨hspells₂, hheld₂⟩ := h.concluded.spells hspells₁ hheld₁ hm
    (fun job' hjob => h.adds.touches.has (hlive job' hjob)) hland.1
  exact .intro (.refl _) hspells₂ hheld₂
    (h.concluded.remains hspells₁ hheld₁ hm hhas₁ hland hrest₁) rfl

/-- What is owed after the job that was going to fail. -/
theorem owes_failing {dead : List Job} (hspells : Spells M s e live (s.route job.writer) text)
    (hheld : s.content (s.route job.writer) = some held) (hmeans : M job more false)
    (hdead : ∀ job ∈ dead, Dead s (ends e live) job.writer)
    (hr : ∀ out, r = .ok out → s.Has out ∧ Dead s (ends e live) out)
    (hwait : s.Waiting e (job :: (live ++ dead))) :
    Owes M (job.conclude r₁ s₁) e (live ++ jobs ++ dead) r (text ++ held ++ more) false := by
  have hlive : s.Waiting e (job :: live) := by
    rw [← List.cons_append] at hwait
    exact hwait.left
  have hall := Owes.prepend hspells hheld h.closed hlive.tail h.adds (h.owes hheld hmeans)
  cases hall with
  | @intro live₂ rest₂ e₂ before₂ held₂ more₂ hperm hspells₂ hheld₂ hrest₂ hfull =>
    have hhas : ∀ w, Awaits (live ++ jobs) r₁ w → s₁.Has w := by
      intro w hw
      obtain ⟨job', hjob, rfl⟩ | hnew := awaits_append.mp hw
      · exact h.adds.touches.has (hlive.tail.has job' hjob)
      · exact (h.adds.writer w hnew).1
    have hsub {x : End} (hx : x ∈ ends e live₂) :
        x ∈ ends e live ∨ x ∈ jobs.map fun job => .pending job.latch := by
      exact mem_ends_append.mp
        (((hperm.map _).cons e).mem_iff.mpr (mem_ends_append.mpr (.inl hx)))
    have hm : .pending job.latch ∉ ends e live₂ := by
      intro hmem
      obtain hmem | hmem := hsub hmem
      · exact hlive.not_mem hmem
      · obtain ⟨job', hjob, heq⟩ := List.mem_map.mp hmem
        exact h.latch_ne hjob (End.pending.inj heq)
    have hland := landing_dead (fun _ => hrest₂.dead_of_ok) (hspells₂.exists_content hheld₂)
    -- What was dead before the job led to none of the latches that are new now.
    have hold : ∀ w, s.Has w → Dead s (ends e live) w →
        Dead (job.conclude r₁ s₁) (ends e live₂) w := by
      rintro w hw ⟨hne, houtput⟩
      have hroute := h.adds.touches.route_eq h.closed hw
      refine h.concluded.dead hspells₂ hheld₂ hm (h.adds.touches.has hw) hland (.inr ⟨?_, ?_⟩)
      · rw [hroute]
        intro hmem
        obtain hmem | hmem := hsub hmem
        · exact hne hmem
        · obtain ⟨job', hjob, heq⟩ := List.mem_map.mp hmem
          exact h.adds.route_ne hjob w heq.symm
      · exact fun k => hroute ▸ houtput k
    obtain ⟨hspells₃, hheld₃⟩ := h.concluded.spells hspells₂ hheld₂ hm
      (fun job' hjob => hhas _
        (.inl ⟨job', hperm.mem_iff.mpr (List.mem_append_left _ hjob), rfl⟩)) hland.1
    have hrest₃ := h.concluded.remains hspells₂ hheld₂ hm
      (fun w hw => hhas w ((awaits_append.mpr (.inr hw)).of_perm hperm.symm)) hland hrest₂
    have hrest₄ : Rest M _ (ends e live₂) e₂ r (rest₂ ++ dead) more₂ false :=
      hrest₃.add
        (fun job' hjob => hold _
          (hwait.has job' (List.mem_cons_of_mem _ (List.mem_append_right _ hjob)))
          (hdead job' hjob))
        fun out hout => hold out (hr out hout).1 (hr out hout).2
    refine .intro ?_ hspells₃ hheld₃ hrest₄ ?_
    · rw [← List.append_assoc]
      exact hperm.append_right dead
    · rw [← hfull, String.append_assoc]

/-- The chain before a job of the chain is not touched. -/
theorem spells_front (hspells : Spells M s e live (s.route job.writer) text)
    (hhas : ∀ job' ∈ live, s.Has job'.writer) (hnodup : (ends e live).Nodup)
    (hm : .pending job.latch ∉ ends e live) :
    Spells M (job.conclude r₁ s₁) e live (s.route job.writer) text := by
  have hne {job' : Job} (hjob : job' ∈ live) : s.route job'.writer ≠ .pending job.latch :=
    fun heq => hm (heq ▸ hspells.route_mem hjob)
  exact hspells.congr (fun job' hjob => h.route_eq (hhas job' hjob) (hne hjob))
    fun job' hjob _ hsome => h.content hsome (hspells.route_ne_last hnodup hjob) (hne hjob)

/-- What was dead stays dead when the jobs that are put off take the place of the job. -/
theorem dead_of_subset {L L' : List End} (hw : s.Has w) (hne : s.route w ≠ .pending job.latch)
    (hsub : ∀ x ∈ L', x ∈ L ∨ x ∈ jobs.map fun job => .pending job.latch) (hdead : Dead s L w) :
    Dead (job.conclude r₁ s₁) L' w := by
  rw [Dead, h.route_eq hw hne]
  refine ⟨fun hmem => ?_, hdead.2⟩
  obtain hmem | hmem := hsub _ hmem
  · exact hdead.1 hmem
  · obtain ⟨job', hjob, heq⟩ := List.mem_map.mp hmem
    exact h.adds.route_ne hjob w heq.symm

/-- Jobs that the job has put off, led to from where it wrote, do not wait for the job. -/
theorem not_mem_ends_of_put {live : List Job} (hwriter : s.route job.writer ≠ .pending job.latch)
    (hsub : ∀ job' ∈ live, job' ∈ jobs) :
    .pending job.latch ∉ ends (s.route job.writer) live := by
  intro hmem
  obtain heq | hmem := List.mem_cons.mp hmem
  · exact hwriter heq.symm
  · obtain ⟨job', hjob, heq⟩ := List.mem_map.mp hmem
    exact h.latch_ne (hsub job' hjob) (End.pending.inj heq)

/-- What is left besides the chain stays so when the jobs that are put off take the place of the
    job in it. -/
theorem rest_of_live {front back live : List Job}
    (hrest : Rest M s (ends e (front ++ job :: back)) e' r rest more good)
    (hperm : jobs.Perm live) (hhas : ∀ w, Awaits rest r w → s.Has w)
    (hend : ∀ w, s.Has w → s.route w = e' → (job.conclude r₁ s₁).route w = e'') :
    Rest M (job.conclude r₁ s₁) (ends e (front ++ live ++ back)) e'' r rest more good := by
  refine hrest.imp (fun w hw => hend w (hhas w hw)) fun w hw hdead =>
    h.dead_of_subset (hhas w hw) (fun heq => ?_) (fun x hx => ?_) hdead
  · exact hdead.1 (heq ▸ mem_ends_append.mpr (.inr List.mem_cons_self))
  · obtain hx | hx := mem_ends_append.mp hx
    · obtain hx | hx := mem_ends_append.mp hx
      · exact .inl (mem_ends_append.mpr (.inl hx))
      · exact .inr ((hperm.map _).mem_iff.mpr hx)
    · exact .inl (mem_ends_append.mpr (.inr (List.mem_cons_of_mem _ hx)))

/-- What is owed after a job of the chain. -/
theorem owes_live {front back : List Job} (hspells : Spells M s e (front ++ job :: back) e' text)
    (hheld : s.content e' = some held)
    (hrest : Rest M s (ends e (front ++ job :: back)) e' r rest more good)
    (hwait : s.Waiting e (front ++ job :: back)) (hhas : ∀ w, Awaits rest r w → s.Has w) :
    Owes M (job.conclude r₁ s₁) e (front ++ jobs ++ back ++ rest) r (text ++ held ++ more)
      good := by
  obtain ⟨_, first, _, hfront, hsecond, rfl⟩ := hspells.split
  cases hsecond with
  | @cons _ _ _ _ held₁ text₁ later hroute hheld₁ hmeans hback =>
    subst hroute
    have hnodup := hwait.nodup
    rw [ends, List.map_append, ← List.cons_append, List.map_cons, List.nodup_append] at hnodup
    obtain ⟨hnodupFront, hnodupBack, hapart⟩ := hnodup
    have hwriter : s.route job.writer ≠ .pending job.latch :=
      hapart _ hfront.last_mem _ List.mem_cons_self
    have howes := h.owes hheld₁ hmeans
    cases howes with
    | @intro live₁ rest₁ _ before₂ held₂ more₂ hperm hspells₁ hheld₂ hrest₁ hfull =>
      cases hrest₁ with
      | @good out hr₁ hout =>
        subst hr₁ hout
        rw [List.append_nil] at hperm
        obtain ⟨old, hold⟩ := h.exists_held
        obtain ⟨hout, hbeyond⟩ := h.adds.writer out (.inr rfl)
        have hold₁ := h.adds.touches.content hold hwriter.symm
        have hout' : s₁.route out ≠ .pending job.latch := by
          obtain heq | ⟨hnone, -⟩ := hbeyond
          · exact heq ▸ hwriter
          · exact (ne_of_content hnone hold).symm
        obtain ⟨hcontent₂, hroutes⟩ := concluded_ok job h.adds.closed hout hold₁ hheld₂ hout'
        have hfront' := h.spells_front hfront hwait.left.has hnodupFront
          fun hmem => hapart _ hmem _ List.mem_cons_self rfl
        -- The jobs that it has put off take its place.
        have hwait₁ := (h.adds.waiting hheld₁).of_perm hperm
        have hlatch₁ := h.not_mem_ends_of_put hwriter fun _ => hperm.mem_iff.mpr
        have hmiddle := h.concluded.frame hspells₁ hlatch₁ hwait₁.has
          fun job' hjob => hspells₁.route_ne_last hwait₁.nodup hjob
        -- The text that the latch has held back comes next, and the chain behind it goes on there.
        obtain ⟨e'', later', last, hback', hlast, htext, hend⟩ :=
          hback.redirect hheld hold hcontent₂ hwait.right
            (fun w hw heq => hroutes w (h.adds.touches.has hw)
              ((h.adds.touches.route_eq h.closed hw).trans heq))
            (fun w hw hne => h.route_eq hw hne)
            fun y hy _ hsome => h.content hsome
              (hapart _ hfront.last_mem _ (List.mem_cons_of_mem _ hy)).symm
              fun heq => (List.nodup_cons.mp hnodupBack).1 (heq ▸ hy)
        have hrest' := h.rest_of_live hrest hperm hhas hend
        refine .intro ?_ ((hfront'.append hmiddle).append hback') hlast hrest' ?_
        · exact (((hperm.append_left front).append_right back).append_right rest)
        · rw [String.append_empty] at hfull
          calc first ++ (held₁ ++ text₁ ++ later) ++ held ++ more
            _ = first ++ (held₁ ++ text₁) ++ (later ++ held) ++ more := by
              simp only [String.append_assoc]
            _ = first ++ before₂ ++ (held₂ ++ (later ++ held)) ++ more := by
              rw [hfull]
              simp only [String.append_assoc]
            _ = first ++ before₂ ++ later' ++ last ++ more := by
              rw [← htext]
              simp only [String.append_assoc]

/-- **What is owed stays owed.**  After any job that waits has been done, the same text is owed,
    with the jobs that it has put off in its place. -/
theorem owes_after (hwait : s.Waiting e (job :: rest)) (hr : ∀ out, r = .ok out → s.Has out)
    (howes : Owes M s e (job :: rest) r full good) :
    Owes M (job.conclude r₁ s₁) e (rest ++ jobs) r full good := by
  cases howes with
  | @intro live others e' before held more hperm hspells hheld hrest hfull =>
    have hwait' := hwait.of_perm hperm
    subst hfull
    -- The job is on the chain, or it is dead, or it is the one that was going to fail.
    obtain hjob | hjob := List.mem_append.mp (hperm.mem_iff.mp List.mem_cons_self)
    · obtain ⟨front, back, rfl⟩ := List.append_of_mem hjob
      have hothers : rest.Perm (front ++ (back ++ others)) := by
        rw [List.append_assoc, List.cons_append] at hperm
        exact (hperm.trans List.perm_middle).cons_inv
      have hall : (rest ++ jobs).Perm (front ++ jobs ++ back ++ others) := by
        calc List.Perm (rest ++ jobs) (front ++ (back ++ others) ++ jobs) :=
              hothers.append_right jobs
          _ = front ++ ((back ++ others) ++ jobs) := List.append_assoc _ _ _
          List.Perm _ (front ++ (jobs ++ (back ++ others))) :=
            List.perm_append_comm.append_left front
          _ = front ++ jobs ++ back ++ others := by simp only [List.append_assoc]
      have hhas : ∀ w, Awaits others r w → s.Has w := by
        rintro w (⟨job', hjob', rfl⟩ | hout)
        · exact hwait'.has job' (List.mem_append_right _ hjob')
        · exact hr w hout
      exact (h.owes_live hspells hheld hrest hwait'.left hhas).of_perm hall
    · obtain ⟨rfl, ⟨dead, hdead, hwriter, hrest'⟩ | ⟨dead, rfl, rfl, hmeans, hdead, hr'⟩⟩ :=
        hrest.of_mem hjob
      · have hall := hperm.trans ((hdead.append_left live).trans List.perm_middle)
        refine (h.owes_dead hspells hheld hrest' hwriter (hwait.of_perm hall) hr).of_perm ?_
        rw [← List.append_assoc]
        exact hall.cons_inv.append_right jobs
      · have hall := hperm.trans List.perm_middle
        have hjobs : (rest ++ jobs).Perm (live ++ jobs ++ dead) := by
          calc List.Perm (rest ++ jobs) (live ++ dead ++ jobs) := hall.cons_inv.append_right jobs
            _ = live ++ (dead ++ jobs) := List.append_assoc _ _ _
            List.Perm _ (live ++ (jobs ++ dead)) := List.perm_append_comm.append_left live
            _ = live ++ jobs ++ dead := (List.append_assoc _ _ _).symm
        exact (h.owes_failing hspells hheld hmeans hdead
          (fun out hout => ⟨hr out hout, hr' out hout⟩) (hwait.of_perm hall)).of_perm hjobs

end Performed

end Streams

end Mustache
