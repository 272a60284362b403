import Mustache.Proofs.Render.Abreast
import Mustache.Proofs.Render.Settling

/-! # Two renders of the same template

Two renders that differ in their first destinations only do the same, action for action and job for
job, until the second destination refuses a text.  From then on the second render leaves its
destination alone, as only one writer led there, and this one is not in use any more.

* `World.Linked`, `World.Parted` — the two worlds before and after that.
* `Render.Together` — an action does the same in both.
* `Renderer.together_within`, `World.Linked.drain` — rendering does, and so does doing the jobs.
-/

namespace Mustache

open Streams (Orderly Lays Fills handed refusal)

variable {o : Options} {link split : Output → Output → Prop} {cause : String} {r : Renderer}
  {job : Job} {rest : List Job} {w w' : World} {out : Writer} {outs : List Writer} {i : Prop}
  {x y : Writer → Render Writer}

/-- Worlds that are the same but for their first destinations, which are linked. -/
structure World.Linked (link : Output → Output → Prop) (w w' : World) : Prop where
  streams : Streams.Linked link w.streams w'.streams
  store : w'.store = w.store
  runs : w'.runs = w.runs
  queue : w'.queue = w.queue
  submitted : w'.submitted = w.submitted

/-- Two renders have parted.  The second one began in a world; what it has put off since does not
    lead to its first destination, and neither do some writers. -/
structure World.Parted (split : Output → Output → Prop) (start : World) (outs : List Writer)
    (w w' : World) : Prop where
  split : Streams.Split split w.streams w'.streams
  clear : ∃ jobs, w'.queue = start.queue ++ jobs ∧
    w'.streams.Clear (jobs.map Job.writer ++ outs)

/-- An action at a writer has done the same in two worlds, or they have parted while it was done.
    Where nothing is put off, the action then ends with the refusal. -/
def World.Alongside (link split : Output → Output → Prop) (cause : String) (i : Prop) (out : Writer)
    (w w' : World) (ran ran' : Except Stop Writer × World) : Prop :=
  ran'.1 = ran.1 ∧ ran.2.Linked link ran'.2 ∨
    w.streams.route out = .output 0 ∧ World.Parted split w' (handed ran'.1) ran.2 ran'.2 ∧
      (i → ran'.1 = .error (.error (refusal cause)))

/-- An action does the same in two worlds that differ in their first destinations. -/
def Render.Together (link split : Output → Output → Prop) (cause : String) (i : Prop)
    (x : Writer → Render Writer) : Prop :=
  ∀ (w w' : World) (out : Writer), w.Linked link w' → w.streams.Orderly [] [out] →
    World.Alongside link split cause i out w w' (x out w) (x out w')

namespace World

theorem Linked.withStore (h : w.Linked link w') (store : Store) :
    World.Linked link { w with store } { w' with store } :=
  ⟨h.streams, rfl, h.runs, h.queue, h.submitted⟩

theorem Linked.counted (h : w.Linked link w') (d : Deferred Value) :
    (w.counted d).Linked link (w'.counted d) :=
  ⟨h.streams, h.store, by rw [World.counted, World.counted, h.runs], h.queue, h.submitted⟩

theorem Linked.opened (h : w.Linked link w') : w.opened.Linked link w'.opened :=
  ⟨h.streams.newLatch, h.store, h.runs, h.queue,
    by rw [World.opened, World.opened, h.submitted]⟩

/-- Where the runs began does not show but by their streams and queues. -/
theorem Alongside.of_start {w₁ w₁' : World} {ran ran' : Except Stop Writer × World}
    (h : Alongside link split cause i out w₁ w₁' ran ran')
    (hroute : w₁.streams.route out = w.streams.route out) (hqueue : w₁'.queue = w'.queue) :
    Alongside link split cause i out w w' ran ran' := by
  obtain hsame | ⟨hout, ⟨hsplit, jobs, hjobs, hclear⟩, hrefused⟩ := h
  · exact .inl hsame
  · exact .inr ⟨hroute ▸ hout, ⟨hsplit, jobs, hqueue ▸ hjobs, hclear⟩, hrefused⟩

end World

namespace Render.Together

variable (habreast : Output.Abreast link split cause)

theorem skip : Together link split cause i (fun out => pure out) :=
  fun _ _ _ h _ => .inl ⟨rfl, h⟩

theorem stop (e : Stop) : Together link split cause i (fun _ => Render.stop e) :=
  fun _ _ _ h _ => .inl ⟨rfl, h⟩

include habreast in
/-- The first destination of the first run may be given more texts. -/
theorem left_seq {s' : Streams} (hx : Tidy i x) (hy : Tidy i y)
    (horderly : w.streams.Orderly [] [out])
    (hsplit : Streams.Split split (x out w).2.streams s') :
    Streams.Split split ((x out >>= y : Render Writer) w).2.streams s' := by
  obtain ⟨_, hjobs⟩ := hx w out horderly
  have hlays := hjobs.lays
  simp only [bind]
  rcases hran : x out w with ⟨_ | out', after⟩
  · rw [hran] at hsplit
    exact hsplit
  · rw [hran] at hlays hsplit
    obtain ⟨_, hmore⟩ := hy after out'
      (hlays.orderly.of_out (hlays.adds.writer out' (.inr rfl)).1)
    exact hsplit.left habreast hmore.lays.fills

section

variable (htidy : Tidy i x) (htidy' : Tidy i y) (h : w.Linked link w')
  (horderly : w.streams.Orderly [] [out])

include htidy htidy' h horderly

/-- The first action has done the same in both worlds. -/
theorem seq_linked (hy : Together link split cause i y) (heq : (x out w').1 = (x out w).1)
    (hlinked : (x out w).2.Linked link (x out w').2) :
    World.Alongside link split cause i out w w' ((x out >>= y : Render Writer) w)
      ((x out >>= y : Render Writer) w') := by
  obtain ⟨_, hjobs⟩ := htidy w out horderly
  obtain ⟨jobs', hjobs'⟩ := htidy w' out (h.streams.orderly horderly)
  have hlays := hjobs.lays
  have hlays' := hjobs'.lays
  have hqueue' := hjobs'.queue
  simp only [bind]
  rcases hran : x out w with ⟨result, after⟩
  rcases hran' : x out w' with ⟨result', after'⟩
  rw [hran] at hlays
  rw [hran'] at hlays' hqueue'
  rw [hran, hran'] at heq hlinked
  obtain rfl : result' = result := heq
  cases result' with
  | error e => exact .inl ⟨rfl, hlinked⟩
  | ok out' =>
    have horderly' := hlays.orderly.of_out (hlays.adds.writer out' (.inr rfl)).1
    obtain hsame | ⟨hroute, ⟨hsplit, new, hnew, hclear⟩, hrefused⟩ :=
      hy after after' out' hlinked horderly'
    · exact .inl hsame
    · refine .inr ⟨hlays.of_route_output hroute, ⟨hsplit, jobs' ++ new, ?_, ?_⟩, hrefused⟩
      · exact hnew.trans (hqueue' ▸ List.append_assoc _ _ _)
      · -- What the first action has put off does not lead where its writer does.
        obtain ⟨more, hmore⟩ := htidy' after' out' (hlinked.streams.orderly horderly')
        obtain rfl := List.append_cancel_left (hmore.queue.symm.trans hnew)
        have hfirst : Orderly after'.streams jobs' (out' :: []) := hlays'.orderly
        have hall := hmore.lays.allLead_extend hfirst
          (hfirst.clear ((hlinked.streams.route_eq out').trans hroute)) hclear
        rwa [List.append_nil] at hall

include habreast

/-- The worlds have parted in the first action: the first one goes on, and the second one does no
    more harm. -/
theorem seq_parted (hroute : w.streams.route out = .output 0)
    (hparted : World.Parted split w' (handed (x out w').1) (x out w).2 (x out w').2)
    (hrefused : i → (x out w').1 = .error (.error (refusal cause))) :
    World.Alongside link split cause i out w w' ((x out >>= y : Render Writer) w)
      ((x out >>= y : Render Writer) w') := by
  obtain ⟨jobs', hjobs'⟩ := htidy w' out (h.streams.orderly horderly)
  obtain ⟨hsplit, new, hnew, hclear⟩ := hparted
  have hsplit' := left_seq habreast htidy htidy' horderly hsplit
  have hlays' := hjobs'.lays
  have hqueue' := hjobs'.queue
  simp only [bind] at hsplit' ⊢
  rcases hran' : x out w' with ⟨result', after'⟩
  rw [hran'] at hlays' hqueue' hnew hclear hrefused hsplit'
  obtain rfl := List.append_cancel_left (hqueue'.symm.trans hnew)
  cases result' with
  | error e => exact .inr ⟨hroute, ⟨hsplit', jobs', hnew, hclear⟩, hrefused⟩
  | ok out' =>
    obtain ⟨more, hmore⟩ := htidy' after' out'
      (hlays'.orderly.of_out (hlays'.adds.writer out' (.inr rfl)).1)
    have hout' : after'.streams.route out' ≠ .output 0 :=
      hclear out' (List.mem_append_right _ (List.mem_singleton_self out'))
    have hfirst : Orderly after'.streams jobs' (out' :: []) := hlays'.orderly
    have hall := hmore.lays.allLead_extend hfirst
      (List.append_nil _ ▸ (Streams.allLead_append.mp hclear).1)
      (hmore.lays.allLead (fun h => h 0) hout')
    rw [List.append_nil] at hall
    refine .inr ⟨hroute, ⟨hsplit'.right hmore.lays.fills hout', jobs' ++ more, ?_, hall⟩,
      fun hi => absurd (hrefused hi) nofun⟩
    exact hmore.queue.trans (hqueue' ▸ List.append_assoc _ _ _)

end

include habreast in
theorem seq (hx : Together link split cause i x) (hy : Together link split cause i y)
    (htidy : Tidy i x) (htidy' : Tidy i y) :
    Together link split cause i (fun out => x out >>= y) := by
  intro w w' out h horderly
  obtain ⟨heq, hlinked⟩ | ⟨hroute, hparted, hrefused⟩ := hx w w' out h horderly
  · exact seq_linked htidy htidy' h horderly hy heq hlinked
  · exact seq_parted habreast htidy htidy' h horderly hroute hparted hrefused

include habreast in
theorem write (text : String) :
    Together link split cause i (fun out => do Render.write text out; return out) := by
  intro w w' out h _
  have hafter {s : Streams} {s' : Streams} (hs : Streams.Linked link s s') :
      World.Linked link { w with streams := s } { w' with streams := s' } :=
    ⟨hs, h.store, h.runs, h.queue, h.submitted⟩
  simp only [bind, Render.write]
  obtain ⟨hsame, hlinked⟩ | ⟨hroute, hrefused, hsplit⟩ := h.streams.write habreast text out
  · left
    rw [hsame]
    cases Render.ofResult (w.streams.write text out).1 with
    | error e => exact ⟨rfl, hafter hlinked⟩
    | ok _ => exact ⟨rfl, hafter hlinked⟩
  · right
    rw [hrefused]
    refine ⟨hroute, ⟨?_, [], (List.append_nil _).symm, List.forall_mem_nil _⟩, fun _ => rfl⟩
    cases Render.ofResult (w.streams.write text out).1 with
    | error e => exact hsplit
    | ok _ => exact hsplit

theorem load {z : Store.Action Template} {y : Template → Writer → Render Writer}
    (hy : ∀ t, Together link split cause i (y t)) :
    Together link split cause i (fun out => do let t ← Render.withStore z; y t out) := by
  intro w w' out h horderly
  simp only [bind, Render.withStore, h.store]
  cases z w.store with
  | error e => exact .inl ⟨rfl, h⟩
  | ok loaded => exact (hy loaded.1 _ _ out (h.withStore loaded.2) horderly).of_start rfl rfl

theorem lookup {y : Lookup.Hit → Writer → Render Writer} (n : Node) (scopes : Scopes)
    (hy : ∀ hit, Together link split cause i (y hit)) :
    Together link split cause i (fun out => do let hit ← Render.lookup o n scopes; y hit out) := by
  intro w w' out h horderly
  simp only [bind, Render.lookup, h.store]
  have hran := hy (w.store.lookup o n scopes).1 _ _ out
    (h.withStore (w.store.lookup o n scopes).2) horderly
  exact hran.of_start rfl rfl

include habreast in
theorem run_captured {p : Prop} (hp : p) (hx : Together link split cause p x) (htidy : Tidy p x)
    (h : w.Linked link w') (horderly : w.streams.Orderly [] [out]) :
    (Render.captured x w').1 = (Render.captured x w).1 ∧
      (Render.captured x w).2.Linked link (Render.captured x w').2 := by
  have hopened := h.streams.openOutput (.buffer "")
  have hk : (w'.streams.openOutput (.buffer "")).1 = (w.streams.openOutput (.buffer "")).1 :=
    h.streams.length
  have hne : (w.streams.openOutput (.buffer "")).1 ≠ 0 := Nat.ne_of_gt h.streams.zero_lt
  have hlinked : World.Linked link { w with streams := (w.streams.openOutput (.buffer "")).2 }
      { w' with streams := (w'.streams.openOutput (.buffer "")).2 } :=
    ⟨hopened, h.store, h.runs, h.queue, h.submitted⟩
  obtain ⟨jobs, hjobs⟩ := htidy { w with streams := (w.streams.openOutput (.buffer "")).2 }
    (.direct (w.streams.openOutput (.buffer "")).1) (horderly.opened _)
  obtain ⟨-, hout⟩ := hjobs.inline hp
  have hran := hx _ _ (.direct (w.streams.openOutput (.buffer "")).1) hlinked (horderly.opened _)
  simp only [Render.captured_eq, hk]
  rcases hxw : x (.direct (w.streams.openOutput (.buffer "")).1)
    { w with streams := (w.streams.openOutput (.buffer "")).2 } with ⟨result, after⟩
  rcases hxw' : x (.direct (w.streams.openOutput (.buffer "")).1)
    { w' with streams := (w'.streams.openOutput (.buffer "")).2 } with ⟨result', after'⟩
  rw [hxw] at hout
  rw [hxw, hxw'] at hran
  obtain ⟨heq, hafter⟩ | ⟨hroute, -, -⟩ := hran
  · obtain rfl : result' = result := heq
    refine ⟨?_, hafter⟩
    cases result' with
    | error e => rfl
    | ok out' =>
      simp only [Except.bind, hafter.streams.finish_eq habreast, hafter.streams.textOf_eq hne]
  · -- The text is captured at a destination that is not the first one.
    rw [Streams.route_direct] at hroute
    exact absurd (Streams.End.output.inj hroute) hne

include habreast in
theorem captured {p : Prop} (hp : p) (hx : Together link split cause p x) (htidy : Tidy p x)
    {y : String → Writer → Render Writer} (hy : ∀ text, Together link split cause i (y text)) :
    Together link split cause i (fun out => do let text ← Render.captured x; y text out) := by
  intro w w' out h horderly
  obtain ⟨heq, hlinked⟩ := run_captured habreast hp hx htidy h horderly
  have hcaptured := htidy.run_captured (i := True) hp horderly
  have hcaptured' := htidy.run_captured (i := True) hp (h.streams.orderly horderly)
  simp only [bind]
  rcases hran : Render.captured x w with ⟨result, after⟩
  rcases hran' : Render.captured x w' with ⟨result', after'⟩
  rw [hran] at hcaptured
  rw [hran'] at hcaptured'
  rw [hran, hran'] at heq hlinked
  obtain rfl : result' = result := heq
  cases result' with
  | error e => exact .inl ⟨rfl, hlinked⟩
  | ok text =>
    have hlays := hcaptured.lays
    refine (hy text after after' out hlinked
      (hlays.orderly.of_out (hlays.adds.writer out (.inr rfl)).1)).of_start ?_ ?_
    · exact hlays.adds.route_outline horderly.closed horderly.has_out
    · exact hcaptured'.queue.trans (List.append_nil _)

/-! ### Deferred computations -/

theorem work {k : Awaiting} {scopes : Scopes} {cx : Context}
    (hresume : ∀ v, Together link split cause i (r.resume k v scopes cx)) (d : Deferred Value)
    (name : String) :
    Together link split cause i
      (fun out => Render.runFor d name >>= fun v => r.resume k v scopes cx out) := by
  intro w w' out h horderly
  simp only [bind, Render.runFor, Render.run, h.runs]
  have hcounted := h.counted d
  rw [World.counted, World.counted, h.runs] at hcounted
  cases d.outcome ((w.runs.get? d.id).getD 0) with
  | value v => exact (hresume v _ _ out hcounted horderly).of_start rfl rfl
  | failure message => exact .inl ⟨rfl, hcounted⟩
  | panic message => exact .inl ⟨rfl, hcounted⟩

include habreast in
/-- Doing a job does the same in both worlds, or they part. -/
theorem perform (hwork : Together link split cause i (r.work job)) (htidy : Tidy i (r.work job))
    (h : w.Linked link w') (horderly : w.streams.Orderly (job :: rest) outs) :
    (r.perform job w').1 = (r.perform job w).1 ∧
        (r.perform job w).2.Linked link (r.perform job w').2 ∨
      w.streams.route job.writer = .output 0 ∧
        World.Parted split w' (rest.map Job.writer ++ outs) (r.perform job w).2
          (r.perform job w').2 := by
  have horderly' := h.streams.orderly horderly
  have hat : w.streams.Orderly [] [job.writer] :=
    horderly.of_out (horderly.has _ List.mem_cons_self)
  obtain ⟨jobs, hjobs⟩ := htidy w job.writer hat
  obtain ⟨jobs', hjobs'⟩ := htidy w' job.writer (h.streams.orderly hat)
  have hlays := hjobs.lays
  have hlays' := hjobs'.lays
  have hqueue' := hjobs'.queue
  have hran := hwork w w' job.writer h hat
  simp only [Renderer.perform_eq]
  rcases hxw : r.work job job.writer w with ⟨result, after⟩
  rcases hxw' : r.work job job.writer w' with ⟨result', after'⟩
  rw [hxw] at hlays
  rw [hxw'] at hlays' hqueue'
  rw [hxw, hxw'] at hran
  have hextend := horderly'.release.extend hlays'
  -- The writers of all jobs and those in use, the new ones first.
  have hperm : ((rest ++ jobs').map Job.writer ++ outs).Perm
      (jobs'.map Job.writer ++ (rest.map Job.writer ++ outs)) := by
    rw [List.map_append, ← List.append_assoc]
    exact List.perm_append_comm.append_right outs
  have hall (hclear : (job.conclude result' after'.streams).Clear
      ((rest ++ jobs').map Job.writer ++ outs)) : ∃ jobs, after'.queue = w'.queue ++ jobs ∧
        (job.conclude result' after'.streams).Clear
          (jobs.map Job.writer ++ (rest.map Job.writer ++ outs)) :=
    ⟨jobs', hqueue', fun v hv => hclear v (hperm.mem_iff.mpr hv)⟩
  obtain ⟨heq, hlinked⟩ | ⟨hroute, ⟨hsplit, new, hnew, hclear⟩, -⟩ := hran
  · obtain rfl : result' = result := heq
    obtain hsame | ⟨out, rfl, hroute, hsplit, houtline⟩ :=
      hlinked.streams.conclude habreast job result'
    · exact .inl ⟨rfl, hsame, hlinked.store, hlinked.runs, hlinked.queue, hlinked.submitted⟩
    · -- The text held back is refused where the work has ended.
      refine .inr ⟨hlays.of_route_output hroute, hsplit, hall ?_⟩
      have hredirects := hlays'.redirects horderly' (by rintro _ ⟨⟩) houtline nofun
      exact hredirects.allLead nofun (hextend.clear ((hlinked.streams.route_eq out).trans hroute))
  · obtain rfl := List.append_cancel_left (hqueue'.symm.trans hnew)
    have hold := horderly'.release.clear ((h.streams.route_eq _).trans hroute)
    have hafter := hlays'.allLead_extend horderly'.release hold hclear
    have hhanded := (Streams.allLead_append.mp (Streams.allLead_append.mp hafter).2).1
    refine .inr ⟨hroute, ?_, hall (hlays'.allLead_conclude (fun h => h 0) horderly' hhanded ?_)⟩
    · exact (hsplit.left habreast (Streams.fills_conclude job result after.streams)).right
        (Streams.fills_conclude job result' after'.streams) (Streams.landing_ne hhanded)
    · simp only [Streams.allLead_append] at hafter ⊢
      exact ⟨hafter.1, hafter.2.2⟩

include habreast in
/-- A computation that is put off. -/
theorem defer {k : Awaiting} {scopes : Scopes} {cx : Context}
    (hresume : ∀ v, Together link split cause (cx.isInline = true ∨ o.schedule = none)
      (r.resume k v scopes cx))
    (htidy : ∀ v, Tidy (cx.isInline = true ∨ o.schedule = none) (r.resume k v scopes cx))
    (d : Deferred Value) (name : String) :
    Together link split cause (cx.isInline = true ∨ o.schedule = none)
      (r.defer o d name k scopes cx) := by
  cases hschedule : cx.schedule? o with
  | none =>
    rw [Renderer.defer_inline hschedule]
    exact work hresume d name
  | some schedule =>
    intro w w' out h horderly
    let job : Job := ⟨w.streams.newLatch.1, out, d, name, scopes, cx, k⟩
    have hnew : job.latch = w.streams.newLatch.1 := rfl
    have hnew' : job.latch = w'.streams.newLatch.1 := by
      simp only [job, Streams.newLatch, h.streams.latches]
    have hwork : Tidy (cx.isInline = true ∨ o.schedule = none) (r.work job) :=
      (tidy_effects o).run (m := 0) trivial name fun v _ => htidy v
    by_cases honce : schedule.atOnce w.submitted = true
    · have hdefer := Renderer.defer_performed (r := r) hnew hschedule honce
      have hdefer' := Renderer.defer_performed (r := r) hnew' hschedule
        (h.submitted ▸ honce)
      rw [show r.defer o d name k scopes cx out w = _ from hdefer,
        show r.defer o d name k scopes cx out w' = _ from hdefer']
      obtain ⟨heq, hlinked⟩ | ⟨hroute, hsplit, jobs, hjobs, hclear⟩ :=
        perform habreast (work hresume d name) hwork h.opened
          (Orderly.submitted horderly hnew)
      · exact .inl ⟨by rw [heq], hlinked⟩
      · refine .inr ⟨?_, ⟨hsplit, jobs, hjobs, ?_⟩,
          fun hi => absurd hi (Context.not_inline hschedule)⟩
        · exact (Orderly.adds_submitted horderly hnew).route_outline horderly.closed
            horderly.has_out ▸ hroute
        · cases (r.perform job w'.opened).1 with
          | ok _ => exact hclear
          | error _ =>
            intro v hv
            obtain hv | hv := List.mem_append.mp hv
            · exact hclear v (List.mem_append_left _ hv)
            · cases hv
    · have hdefer := Renderer.defer_later (r := r) hnew hschedule honce
      have hdefer' := Renderer.defer_later (r := r) hnew' hschedule
        (h.submitted ▸ honce)
      rw [show r.defer o d name k scopes cx out w = _ from hdefer,
        show r.defer o d name k scopes cx out w' = _ from hdefer']
      have hopened := h.opened
      exact .inl ⟨rfl, hopened.streams, hopened.store, hopened.runs,
        congrArg (· ++ [job]) h.queue, hopened.submitted⟩

end Render.Together

/-- Rendering does the same over both destinations, up to a refusal, and keeps order. -/
theorem Render.together_coupling (habreast : Output.Abreast link split cause) (o : Options) :
    Coupling o (fun _ => True) (fun _ _ => true) fun _ i x _ =>
      Render.Together link split cause (i = true ∨ o.schedule = none) x ∧
        Render.Tidy (i = true ∨ o.schedule = none) x where
  keeps := o.handler.keeps_true
  inherited _ := Site.inherited_true
  grows _ _ h := h
  skip m i := ⟨.skip, (Render.tidy_effects o).refl m i⟩
  fail m i e := ⟨.stop (.error e), fun w out => (Render.tidy_effects o).fail m i w out e⟩
  exhausted m i := ⟨.stop .exhausted, (Render.tidy_effects o).exhausted m i⟩
  seq {m i _ _ _ _} hx hy := ⟨.seq habreast hx.1 hy.1 hx.2 hy.2,
    (Render.tidy_effects o).seq (m := m) (i := i) hx.2 hy.2⟩
  write m i text := ⟨.write habreast text, (Render.tidy_effects o).written m i text⟩
  load {_ i _ _ _ _} hz hy := ⟨.load fun t => (hy _ (Nat.le_refl _) t t t.similar_refl).1,
    (Render.tidy_effects o).loaded (i := i) hz fun n hn t ht => (hy n hn t t ht).2⟩
  lookup {m i _ _} n _ scopes _ hscopes hy := ⟨.lookup n scopes fun hit => (hy hit trivial).1,
    (Render.tidy_effects o).looked (m := m) (i := i) n hscopes fun hit hv => (hy hit hv).2⟩
  captured {m i _ _ _ _} hx hy :=
    ⟨.captured habreast (.inl rfl) hx.1 hx.2 fun text => (hy text).1,
      (Render.tidy_effects o).capture (m := m) (i := i) hx.2 fun text => (hy text).2⟩
  awaiting {m _ _ _ _} d name _ _ hk hd _ hresume :=
    ⟨.defer habreast (fun v => (hresume v trivial).1) (fun v => (hresume v trivial).2) d name,
      (Render.tidy_effects o).defer (m := m) hd name hk.left fun v hv => (hresume v hv).2⟩

theorem Renderer.together_within (habreast : Output.Abreast link split cause) (o : Options)
    (n : Nat) (codes : List Code) (scopes : Scopes) (cx : Context) :
    Render.Together link split cause (cx.isInline = true ∨ o.schedule = none)
      ((Renderer.within o n).nodes codes scopes cx) :=
  ((Render.together_coupling habreast o).nodes (m := 0)
    ((Render.together_coupling habreast o).within n) (fun _ _ => trivial) cx
    (Code.allSimilar_refl codes)).1

theorem Renderer.together_work (habreast : Output.Abreast link split cause) (o : Options) (n : Nat)
    (job : Job) :
    Render.Together link split cause (job.context.isInline = true ∨ o.schedule = none)
      ((Renderer.within o n).work job) :=
  .work (fun _ => (((Render.together_coupling habreast o).within n).resume (m := 0) job.context
    (Awaiting.Similar.refl_true job.awaiting) trivial fun _ _ => trivial).1) job.deferred job.name

/-! ## Doing all the jobs -/

namespace World

variable {n : Nat} {schedule : Schedule}

theorem Linked.takeJob (h : w.Linked link w') (schedule : Schedule) (k : Nat) :
    w.takeJob schedule k = none ∧ w'.takeJob schedule k = none ∨
      ∃ job v v', w.takeJob schedule k = some (job, v) ∧ w'.takeJob schedule k = some (job, v') ∧
        v.Linked link v' := by
  simp only [World.takeJob, h.queue]
  cases w.queue[schedule.next k w.queue.length % w.queue.length]? with
  | none => exact .inl ⟨rfl, rfl⟩
  | some job => exact .inr ⟨job, _, _, rfl, rfl, h.streams, h.store, h.runs, rfl, h.submitted⟩

variable (habreast : Output.Abreast link split cause)

include habreast in
/-- The first run goes on. -/
theorem left_drain {s' : Streams} (h : Orderly w.streams w.queue outs) {fuel k : Nat}
    (hsplit : Streams.Split split w.streams s') :
    Streams.Split split
      ((w.drain (.within o n) schedule fuel k).getLastD w).streams s' := by
  refine (orderly_drain (P := fun w => Streams.Split split w.streams s') h ?_ hsplit).2
  intro w v job horderly _ _ hstreams hsplit
  obtain ⟨_, hjobs⟩ := Renderer.tidy_work o n job v job.writer
    (horderly.of_out (horderly.has _ List.mem_cons_self))
  rw [← hstreams] at hsplit
  rw [Renderer.perform_eq]
  exact (hsplit.left habreast hjobs.lays.fills).left habreast (Streams.fills_conclude job _ _)

/-- The second run does no more harm to its first destination. -/
theorem right_drain {s : Streams} (h : Orderly w.streams w.queue outs) {fuel k : Nat}
    (hclear : w.streams.Clear (w.queue.map Job.writer ++ outs))
    (hsplit : Streams.Split split s w.streams) :
    let final := (w.drain (.within o n) schedule fuel k).getLastD w
    Streams.Split split s final.streams ∧
      final.streams.Clear (final.queue.map Job.writer ++ outs) := by
  refine (orderly_drain (P := fun w => Streams.Split split s w.streams ∧
    w.streams.Clear (w.queue.map Job.writer ++ outs)) h ?_ ⟨hsplit, hclear⟩).2
  rintro w v job horderly hperm - hstreams ⟨hsplit, hclear⟩
  rw [← hstreams] at hsplit hclear
  have hwriters := (hperm.map Job.writer).append_right outs
  have hclear' : v.streams.Clear ((job :: v.queue).map Job.writer ++ outs) :=
    fun writer hwriter => hclear writer (hwriters.mem_iff.mpr hwriter)
  obtain ⟨jobs, hjobs⟩ := Renderer.tidy_work o n job v job.writer
    (horderly.of_out (horderly.has _ List.mem_cons_self))
  have hqueue := hjobs.queue
  obtain ⟨hhanded, hafter⟩ := hjobs.lays.allLead_perform (fun h => h 0) horderly hclear'
  rw [Renderer.perform_eq]
  simp only [hqueue]
  exact ⟨(hsplit.right hjobs.lays.fills (hclear' _ List.mem_cons_self)).right
    (Streams.fills_conclude job _ _) (Streams.landing_ne hhanded), hafter⟩

include habreast in
/-- **Doing the jobs does the same** in both worlds, or they part. -/
theorem Linked.drain (h : w.Linked link w') (hw : Orderly w.streams w.queue outs)
    (schedule : Schedule) (fuel k : Nat) :
    let verdict (turn : Job × World) := ((Renderer.within o n).perform turn.1 turn.2).1
    let final := (w.drain (.within o n) schedule fuel k).getLastD w
    let final' := (w'.drain (.within o n) schedule fuel k).getLastD w'
    final.Linked link final' ∧
        (w'.turns (.within o n) schedule fuel k).map verdict =
          (w.turns (.within o n) schedule fuel k).map verdict ∨
      Streams.Split split final.streams final'.streams ∧
        final'.streams.Clear (final'.queue.map Job.writer ++ outs) := by
  induction fuel generalizing k w w' with
  | zero => exact .inl ⟨h, rfl⟩
  | succ fuel ih =>
    simp only [World.turns, World.drain]
    obtain ⟨hnone, hnone'⟩ | ⟨job, v, v', htake, htake', hv⟩ := h.takeJob schedule k
    · simp only [hnone, hnone']
      exact .inl ⟨h, trivial⟩
    · obtain ⟨hperm, -, hstreams⟩ := World.takeJob_eq htake
      have horderly : v.streams.Orderly (job :: v.queue) outs := by
        rw [hstreams]
        exact hw.of_perm hperm (.refl outs)
      have horderly' : v'.streams.Orderly (job :: v'.queue) outs := by
        rw [hv.queue]
        exact hv.streams.orderly horderly
      simp only [htake, htake', List.getLastD_cons, List.map_cons]
      obtain ⟨hverdict, hlinked⟩ | ⟨-, hsplit, jobs, hqueue, hclear⟩ :=
        Render.Together.perform habreast (Renderer.together_work habreast o n job)
          (Renderer.tidy_work o n job) hv horderly
      · obtain ⟨hfinal, hturns⟩ | hparted := ih hlinked (Renderer.orderly_perform horderly) (k + 1)
        · exact .inl ⟨hfinal, by rw [hverdict, hturns]⟩
        · exact .inr hparted
      · right
        refine right_drain (Renderer.orderly_perform horderly')
          (fun writer hwriter => hclear writer ?_)
          (left_drain habreast (Renderer.orderly_perform horderly) hsplit)
        rw [hqueue, hv.queue, List.map_append, List.append_assoc] at hwriter
        have hswap : (v.queue.map Job.writer ++ jobs.map Job.writer).Perm
            (jobs.map Job.writer ++ v.queue.map Job.writer) := List.perm_append_comm
        have hmiddle := hswap.append_right outs
        simp only [List.append_assoc] at hmiddle
        exact hmiddle.mem_iff.mp hwriter

end World

end Mustache
