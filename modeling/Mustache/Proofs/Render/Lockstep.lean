import Mustache.Proofs.Engine.Faithful
import Mustache.Proofs.Render.Settling

/-! # Renders in lockstep

Two renders whose stores give them the same trees, up to sites, do the same: they write the same
texts, put the same jobs off and come to the same end, whatever else the stores hold.

* `Store.Agreeing` — stores that give the same trees and decisions.
* `World.Lockstep`, `Render.Lockstep` — worlds that differ in their stores, and in the sites of what
  is put off, only; actions that keep it so.
* `Template.lockstep_renderWithin` — whole renders.
* `Store.agreeing_stock` — stores agree if one is faithful, and the other one is for the nodes with
  a property.
-/

namespace Mustache

variable {o : Options} {S : Site → Bool} {T : Store → Store → Prop} {r r' : Renderer}
  {x x' y y' : Writer → Render Writer}

/-- Related stores give the same trees, up to sites, and the same decisions about names, and stay
    related.  The nodes on the first side have sites with a property. -/
structure Store.Agreeing (o : Options) (S : Site → Bool) (T : Store → Store → Prop) : Prop where
  inherited : Site.Inherited S
  loads : ∀ {z z' : Store.Action Template} {s s' : Store}, Store.Loads o S z z' → T s s' →
    (∃ t t' after after', z s = .ok (t, after) ∧ z' s' = .ok (t', after') ∧ t.Similar S t' ∧
      T after after') ∨
    ∃ e, z s = .error e ∧ z' s' = .error e
  lookup : ∀ {n n' : Node} {s s' : Store} (scopes : Scopes), n.name = n'.name → T s s' →
    (s.lookup o n scopes).1 = (s'.lookup o n' scopes).1 ∧
      T (s.lookup o n scopes).2 (s'.lookup o n' scopes).2

/-- Jobs that differ in sites only. -/
def Job.Similar (S : Site → Bool) (job job' : Job) : Prop :=
  ∃ k, job.awaiting.Similar S k ∧ job' = { job with awaiting := k }

/-- Worlds that differ in their stores, and in the sites of what is put off, only. -/
inductive World.Lockstep (S : Site → Bool) (T : Store → Store → Prop) : World → World → Prop
  | intro {w : World} {store : Store} {queue : List Job} (hstore : T w.store store)
      (hqueue : List.Forall₂ (Job.Similar S) w.queue queue) :
      Lockstep S T w { w with store, queue }

theorem World.Lockstep.streams {w w' : World} (h : World.Lockstep S T w w') :
    w'.streams = w.streams := by
  cases h
  rfl

/-- Two actions come to the same in such worlds, and leave such worlds. -/
def Render.Lockstep (S : Site → Bool) (T : Store → Store → Prop) (x x' : Writer → Render Writer) :
    Prop :=
  ∀ (w w' : World) (out : Writer), World.Lockstep S T w w' →
    (x out w).1 = (x' out w').1 ∧ World.Lockstep S T (x out w).2 (x' out w').2

namespace Render.Lockstep

theorem skip : Lockstep S T (fun out => pure out) (fun out => pure out) :=
  fun _ _ _ h => ⟨rfl, h⟩

theorem stop (e : Stop) : Lockstep S T (fun _ => Render.stop e) (fun _ => Render.stop e) :=
  fun _ _ _ h => ⟨rfl, h⟩

theorem seq (hx : Lockstep S T x x') (hy : Lockstep S T y y') :
    Lockstep S T (fun out => x out >>= y) (fun out => x' out >>= y') := by
  intro w w' out h
  obtain ⟨hresult, hafter⟩ := hx w w' out h
  simp only [bind]
  rcases hran : x out w with ⟨e | out', after⟩
  · rcases hran' : x' out w' with ⟨result', after'⟩
    rw [hran, hran'] at hresult hafter
    obtain rfl : .error e = result' := hresult
    exact ⟨rfl, hafter⟩
  · rcases hran' : x' out w' with ⟨result', after'⟩
    rw [hran, hran'] at hresult hafter
    obtain rfl : .ok out' = result' := hresult
    exact hy after after' out' hafter

theorem write (text : String) :
    Lockstep S T (fun out => do Render.write text out; return out)
      (fun out => do Render.write text out; return out) := by
  intro w w' out h
  cases h with
  | intro hstore hqueue =>
    simp only [bind, Render.write]
    cases Render.ofResult (w.streams.write text out).1 with
    | error e => exact ⟨rfl, .intro hstore hqueue⟩
    | ok _ => exact ⟨rfl, .intro hstore hqueue⟩

theorem load (hagreeing : Store.Agreeing o S T) {z z' : Store.Action Template}
    (hz : Store.Loads o S z z') {y y' : Template → Writer → Render Writer}
    (hy : ∀ t t', t.Similar S t' → Lockstep S T (y t) (y' t')) :
    Lockstep S T (fun out => do let t ← Render.withStore z; y t out)
      (fun out => do let t ← Render.withStore z'; y' t out) := by
  intro w w' out h
  cases h with
  | intro hstore hqueue =>
    simp only [bind, Render.withStore]
    obtain ⟨t, t', after, after', hok, hok', ht, hafter⟩ | ⟨e, herror, herror'⟩ :=
      hagreeing.loads hz hstore
    · simp only [hok, hok']
      exact hy t t' ht _ _ out (.intro hafter hqueue)
    · rw [show z' _ = _ from herror', show z w.store = _ from herror]
      exact ⟨rfl, .intro hstore hqueue⟩

theorem lookup (hagreeing : Store.Agreeing o S T) {n n' : Node} (hname : n.name = n'.name)
    (scopes : Scopes) {y y' : Lookup.Hit → Writer → Render Writer}
    (hy : ∀ hit, Lockstep S T (y hit) (y' hit)) :
    Lockstep S T (fun out => do let hit ← Render.lookup o n scopes; y hit out)
      (fun out => do let hit ← Render.lookup o n' scopes; y' hit out) := by
  intro w w' out h
  cases h with
  | @intro store _ hstore hqueue =>
    obtain ⟨hhit, hafter⟩ := hagreeing.lookup scopes hname hstore
    simp only [bind, Render.lookup]
    rw [← hhit]
    exact hy (w.store.lookup o n scopes).1 _ _ out (.intro hafter hqueue)

theorem captured (hx : Lockstep S T x x') {y y' : String → Writer → Render Writer}
    (hy : ∀ text, Lockstep S T (y text) (y' text)) :
    Lockstep S T (fun out => do let text ← Render.captured x; y text out)
      (fun out => do let text ← Render.captured x'; y' text out) := by
  intro w w' out h
  cases h with
  | @intro store queue hstore hqueue =>
    let opened := w.streams.openOutput (.buffer "")
    obtain ⟨hresult, hafter⟩ := hx { w with streams := opened.2 }
      { w with store, queue, streams := opened.2 } (.direct opened.1) (.intro hstore hqueue)
    simp only [bind, Render.captured_eq]
    rcases hran : x (.direct (w.streams.openOutput (.buffer "")).1)
      { w with streams := (w.streams.openOutput (.buffer "")).2 } with ⟨result, after⟩
    rcases hran' : x' (.direct (w.streams.openOutput (.buffer "")).1)
      { w with store, queue, streams := (w.streams.openOutput (.buffer "")).2 } with
      ⟨result', after'⟩
    rw [hran, hran'] at hresult hafter
    obtain rfl : result = result' := hresult
    have hstreams : after'.streams = after.streams := hafter.streams
    simp only [hstreams]
    cases (result.bind fun out => Render.ofResult (after.streams.finish out)).map fun _ =>
        after.streams.textOf (w.streams.openOutput (.buffer "")).1 with
    | error e => exact ⟨rfl, hafter⟩
    | ok text => exact hy text after after' out hafter

theorem work {k k' : Awaiting} {scopes : Scopes} {cx : Context}
    (hresume : ∀ v, Lockstep S T (r.resume k v scopes cx) (r'.resume k' v scopes cx))
    (d : Deferred Value) (name : String) :
    Lockstep S T (fun out => Render.runFor d name >>= fun v => r.resume k v scopes cx out)
      (fun out => Render.runFor d name >>= fun v => r'.resume k' v scopes cx out) := by
  intro w w' out h
  cases h with
  | intro hstore hqueue =>
    simp only [bind, Render.runFor, Render.run]
    cases d.outcome ((w.runs.get? d.id).getD 0) with
    | value v => exact hresume v _ _ out (.intro hstore hqueue)
    | failure _ => exact ⟨rfl, .intro hstore hqueue⟩
    | panic _ => exact ⟨rfl, .intro hstore hqueue⟩

theorem perform {job job' : Job} (hwork : Lockstep S T (r.work job) (r'.work job'))
    (hjob : job.Similar S job') {w w' : World} (h : World.Lockstep S T w w') :
    (r.perform job w).1 = (r'.perform job' w').1 ∧
      World.Lockstep S T (r.perform job w).2 (r'.perform job' w').2 := by
  obtain ⟨k, -, rfl⟩ := hjob
  obtain ⟨hresult, hafter⟩ := hwork w w' job.writer h
  rw [Renderer.perform_eq, Renderer.perform_eq]
  rcases hran : r.work job job.writer w with ⟨result, after⟩
  rcases hran' : r'.work { job with awaiting := k } job.writer w' with ⟨result', after'⟩
  rw [hran, hran'] at hresult hafter
  obtain rfl : result = result' := hresult
  cases hafter with
  | intro hstore hqueue => exact ⟨rfl, .intro hstore hqueue⟩

theorem defer {k k' : Awaiting} (hk : k.Similar S k') {scopes : Scopes} {cx : Context}
    (hresume : ∀ v, Lockstep S T (r.resume k v scopes cx) (r'.resume k' v scopes cx))
    (d : Deferred Value) (name : String) :
    Lockstep S T (r.defer o d name k scopes cx) (r'.defer o d name k' scopes cx) := by
  have hwork := work hresume d name
  cases hschedule : cx.schedule? o with
  | none =>
    rw [Renderer.defer_inline hschedule, Renderer.defer_inline hschedule]
    exact hwork
  | some schedule =>
    intro w w' out h
    cases h with
    | @intro store queue hstore hqueue =>
      let job : Job := ⟨w.streams.newLatch.1, out, d, name, scopes, cx, k⟩
      let job' : Job := { job with awaiting := k' }
      have hjob : job.Similar S job' := ⟨k', hk, rfl⟩
      have hnew : job.latch = w.streams.newLatch.1 := rfl
      have hnew' : job'.latch = { w with store, queue : World }.streams.newLatch.1 := rfl
      by_cases honce : schedule.atOnce w.submitted = true
      · have hdefer := Renderer.defer_performed (r := r) hnew hschedule honce
        have hdefer' := Renderer.defer_performed (r := r') hnew' hschedule honce
        rw [show r.defer o d name k scopes cx out w = _ from hdefer,
          show r'.defer o d name k' scopes cx out { w with store, queue } = _ from hdefer']
        have hopened : World.Lockstep S T w.opened (World.opened { w with store, queue }) :=
          .intro hstore hqueue
        obtain ⟨hverdict, hafter⟩ := perform hwork hjob hopened
        exact ⟨by rw [hverdict], hafter⟩
      · have hdefer := Renderer.defer_later (r := r) hnew hschedule honce
        have hdefer' := Renderer.defer_later (r := r') hnew' hschedule honce
        rw [show r.defer o d name k scopes cx out w = _ from hdefer,
          show r'.defer o d name k' scopes cx out { w with store, queue } = _ from hdefer']
        exact ⟨rfl, .intro hstore (List.rel_append hqueue (.cons hjob .nil))⟩

end Render.Lockstep

/-- Rendering goes in lockstep where the stores agree. -/
theorem Render.lockstep_coupling (hagreeing : Store.Agreeing o S T) :
    Coupling o (fun _ => True) (fun _ => S) fun _ _ x x' => Render.Lockstep S T x x' where
  keeps := o.handler.keeps_true
  inherited _ := hagreeing.inherited
  grows _ _ h := h
  skip _ _ := .skip
  fail _ _ e := .stop (.error e)
  exhausted _ _ := .stop .exhausted
  seq := .seq
  write _ _ text := .write text
  load hz hy := .load hagreeing hz fun t t' ht => hy _ (Nat.le_refl _) t t' ht
  lookup _ _ scopes hname _ hy := .lookup hagreeing hname scopes fun hit => hy hit trivial
  captured hx hy := .captured hx hy
  awaiting d name _ _ hk _ _ hresume := .defer hk (fun v => hresume v trivial) d name

theorem Renderer.lockstep_work (hagreeing : Store.Agreeing o S T) (n : Nat) {job job' : Job}
    (hjob : job.Similar S job') :
    Render.Lockstep S T ((within o n).work job) ((within o n).work job') := by
  obtain ⟨k, hk, rfl⟩ := hjob
  exact .work (fun _ => ((Render.lockstep_coupling hagreeing).within n).resume (m := 0)
    job.context hk trivial fun _ _ => trivial) job.deferred job.name

/-! ## Whole renders -/

/-- What stands at a place of one of two lists that go together stands there in the other one, and
    the lists without it go together. -/
theorem forall₂_getElem?_eraseIdx {α β : Type} {R : α → β → Prop} {as : List α} {bs : List β}
    (h : List.Forall₂ R as bs) (i : Nat) :
    (as[i]? = none ∧ bs[i]? = none) ∨ ∃ a b, as[i]? = some a ∧ bs[i]? = some b ∧ R a b ∧
      List.Forall₂ R (as.eraseIdx i) (bs.eraseIdx i) := by
  induction h generalizing i with
  | nil => exact .inl ⟨rfl, rfl⟩
  | @cons a b as bs hab h ih =>
    cases i with
    | zero => exact .inr ⟨a, b, rfl, rfl, hab, h⟩
    | succ i =>
      obtain hnone | ⟨a', b', ha, hb, hab', hrest⟩ := ih i
      · exact .inl hnone
      · exact .inr ⟨a', b', ha, hb, hab', .cons hab hrest⟩

theorem World.Lockstep.takeJob {w w' : World} (h : World.Lockstep S T w w') (schedule : Schedule)
    (k : Nat) :
    (w.takeJob schedule k = none ∧ w'.takeJob schedule k = none) ∨
      ∃ job job' v v', w.takeJob schedule k = some (job, v) ∧
        w'.takeJob schedule k = some (job', v') ∧ job.Similar S job' ∧
        World.Lockstep S T v v' := by
  cases h with
  | @intro store queue hstore hqueue =>
    simp only [World.takeJob, ← hqueue.length_eq]
    obtain ⟨hnone, hnone'⟩ | ⟨job, job', hjob, hjob', hsimilar, hrest⟩ :=
      forall₂_getElem?_eraseIdx hqueue (schedule.next k w.queue.length % w.queue.length)
    · rw [hnone, hnone']
      exact .inl ⟨rfl, rfl⟩
    · rw [hjob, hjob']
      exact .inr ⟨job, job', _, _, rfl, rfl, hsimilar, .intro hstore hrest⟩

theorem World.Lockstep.drain (hagreeing : Store.Agreeing o S T) {n : Nat} {schedule : Schedule}
    {fuel k : Nat} {w w' : World} (h : World.Lockstep S T w w') :
    World.Lockstep S T ((w.drain (.within o n) schedule fuel k).getLastD w)
      ((w'.drain (.within o n) schedule fuel k).getLastD w') := by
  induction fuel generalizing k w w' with
  | zero => exact h
  | succ fuel ih =>
    rw [World.drain, World.drain]
    obtain ⟨hnone, hnone'⟩ | ⟨job, job', v, v', htake, htake', hjob, hv⟩ := h.takeJob schedule k
    · rw [hnone, hnone']
      exact h
    · rw [htake, htake', List.getLastD_cons, List.getLastD_cons]
      exact ih (Render.Lockstep.perform (Renderer.lockstep_work hagreeing n hjob) hjob hv).2

/-- Whole renders of the same template, up to sites, go in lockstep where the stores agree. -/
theorem Template.lockstep_renderWithin (hagreeing : Store.Agreeing o S T) {store store' : Store}
    (hstore : T store store') {t t' : Template} (ht : t.Similar S t') (n : Nat) (scopes : Scopes)
    (destination : Output) :
    let r := renderWithin n o t scopes destination store
    let r' := renderWithin n o t' scopes destination store'
    r.handedOn = r'.handedOn ∧ r.result = r'.result ∧ World.Lockstep S T r.final r'.final := by
  intro r r'
  have hcoupling := Render.lockstep_coupling hagreeing
  obtain ⟨hhanded, hafter⟩ : r.handedOn = r'.handedOn ∧ World.Lockstep S T r.after r'.after :=
    hcoupling.nodes (m := 0) (hcoupling.within n) (fun _ _ => trivial) .start ht.codes
      (.start store ⟨[destination], []⟩) (.start store' ⟨[destination], []⟩) (.direct 0)
      (.intro hstore .nil)
  have hfinal : World.Lockstep S T r.final r'.final := by
    cases hschedule : o.schedule with
    | none =>
      rw [show r.final = _ from final_of_none hschedule,
        show r'.final = _ from final_of_none hschedule]
      exact hafter
    | some schedule =>
      rw [show r.final = _ from final_of_some hschedule,
        show r'.final = _ from final_of_some hschedule]
      exact hafter.drain hagreeing
  refine ⟨hhanded, ?_, hfinal⟩
  rw [show r.result = _ from result_renderWithin, show r'.result = _ from result_renderWithin]
  simp only [Render.finish]
  rw [show (renderWithin n o t scopes destination store).handedOn = _ from hhanded]
  exact congrArg _ (funext fun out =>
    congrArg (fun s => Render.ofResult (s.finish out)) hfinal.streams.symm)

/-! ## Stores that agree -/

/-- A store agrees with a faithful one if it holds what loading comes to at present, where what
    nodes remember matters for nodes with a property only. -/
theorem Store.agreeing_stock {l : Loader} {since : Nat} (hinherited : Site.Inherited S)
    (hS : ∀ n offset, since ≤ n → S (.parsed n offset) = true)
    (hreuse : ∀ name, Lookup.Reusable (o.handler.find name)) :
    Store.Agreeing o S fun s s' => s.Holds o (Loading.stock o l since S) ∧ s'.Faithful o l where
  inherited := hinherited
  loads := by
    rintro z z' s s' hz ⟨hs, hs'⟩
    have hsupplied := Loading.supplied_stock (o := o) (l := l) hS
    -- Both sides come to the answer that there is without a memory.
    suffices h : ∃ r, Store.Yields o (Loading.stock o l since S) 0 (Loading.Meets S r) z ∧
        Store.Answers o l z' r by
      obtain ⟨r, hyields, hanswers⟩ := h
      obtain ⟨t, after, hok, ⟨-, ht⟩, hafter, -⟩ | ⟨e, herror, he⟩ := hyields s hs (Nat.zero_le _)
      · obtain ⟨t', after', hok', ht', hafter'⟩ | ⟨e, -, he⟩ := hanswers s' hs'
        · refine .inl ⟨t, t', after, after', hok, hok', ⟨ht.sited t rfl, ?_⟩, hafter, hafter'⟩
          exact Except.ok.inj (ht.same.trans ht')
        · cases ht.same.trans he
      · obtain ⟨t', after', -, ht', -⟩ | ⟨e', herror', he'⟩ := hanswers s' hs'
        · cases he.same.trans ht'
        · cases he.same.trans he'
          exact .inr ⟨e, herror, herror'⟩
    cases hz with
    | fragment text d file =>
      exact ⟨_, Store.yields_fragment hsupplied text d file, Store.answers_fragment text d file⟩
    | included h site =>
      exact ⟨_, (Store.yields_included hsupplied rfl).imp fun _ hr => hr h,
        Store.answers_included _⟩
    | parent name h site =>
      exact ⟨_, (Store.yields_parent hsupplied name rfl).imp fun _ hr => hr h,
        Store.answers_parent _ name⟩
    | target text h site =>
      exact ⟨_, (Store.yields_target hsupplied text rfl).imp fun _ hr => hr h,
        Store.answers_target _ text⟩
  lookup := by
    rintro n n' s s' scopes hname ⟨hs, hs'⟩
    obtain ⟨hhit', hafter'⟩ := Store.lookup_eq hreuse hs' n' scopes
    have hhit := Lookup.fst_lookup (hreuse n.name) (hs.wrappersOf n) scopes
    rw [← hname] at hhit'
    exact ⟨hhit.trans hhit'.symm, hs.lookup n scopes, hafter'⟩

end Mustache
