import Mustache.Proofs.Output.Contents
import Mustache.Render.World

/-! # The text that is owed

Jobs that wait stand in a chain.  The first one writes where the text ends so far; the next one writes
at the latch of the one before it.  If every job writes what it means to, the text at the end of the
chain comes after the text of each job, whatever the order in which the jobs are done.

If a job of the chain is going to fail, the text ends with what that job writes.  All that comes
after it is dead: it waits for a latch that will have failed.

What jobs mean to do is a parameter here: `M job text good` says that a job writes a text, and whether
it ends well.

* `Streams.Spells` — the text of a chain of jobs.
* `Streams.Owes` — the text that there will be when the jobs that wait have been done.
* `Streams.Adds` — what rendering at a writer does to the streams.
* `Streams.Owes.seq` — one render after another.
-/

namespace Mustache.Streams

variable {M : Job → String → Bool → Prop} {s t u : Streams} {e e' : End} {job : Job}
  {jobs jobs' live before after rest : List Job} {text full more : String} {good : Bool} {w : Writer}
  {r r' : Except Stop Writer}

/-! ## Chains -/

/-- The ends that a chain of jobs goes through: the first job writes at the first one, and every
    job puts off what comes at the next one. -/
def ends (e : End) (jobs : List Job) : List End :=
  e :: jobs.map fun job => .pending job.latch

theorem mem_ends_append {x : End} :
    x ∈ ends e (live ++ jobs) ↔
      x ∈ ends e live ∨ x ∈ jobs.map fun job => .pending job.latch := by
  rw [ends, List.map_append, ← List.cons_append]
  exact List.mem_append

/-- The text of a chain of jobs, from an end up to the text at another one. -/
inductive Spells (M : Job → String → Bool → Prop) (s : Streams) :
    End → List Job → End → String → Prop
  | nil (e : End) : Spells M s e [] e ""
  | cons {job : Job} {jobs : List Job} {e e' : End} {held text later : String}
      (hroute : s.route job.writer = e) (hheld : s.content e = some held)
      (hmeans : M job text true) (rest : Spells M s (.pending job.latch) jobs e' later) :
      Spells M s e (job :: jobs) e' (held ++ text ++ later)

namespace Spells

theorem append {e₁ : End} {text' : String} (h : Spells M s e before e₁ text)
    (h' : Spells M s e₁ after e' text') : Spells M s e (before ++ after) e' (text ++ text') := by
  induction h with
  | nil e =>
    rw [String.empty_append]
    exact h'
  | cons hroute hheld hmeans _ ih =>
    rw [String.append_assoc]
    exact .cons hroute hheld hmeans (ih h')

theorem split (h : Spells M s e (before ++ after) e' text) :
    ∃ e₁ first second, Spells M s e before e₁ first ∧ Spells M s e₁ after e' second ∧
      text = first ++ second := by
  induction before generalizing e text with
  | nil => exact ⟨e, "", text, .nil e, h, String.empty_append.symm⟩
  | cons job before ih =>
    cases h with
    | cons hroute hheld hmeans rest =>
      obtain ⟨e₁, first, second, hfirst, hsecond, rfl⟩ := ih rest
      exact ⟨e₁, _, second, .cons hroute hheld hmeans hfirst, hsecond, by
        simp only [String.append_assoc]⟩

/-- The jobs write at all ends of the chain but the last one. -/
theorem routes (h : Spells M s e jobs e' text) :
    (jobs.map fun job => s.route job.writer) ++ [e'] = ends e jobs := by
  induction h with
  | nil e => rfl
  | cons hroute _ _ _ ih =>
    rw [List.map_cons, List.cons_append, ih, hroute]
    rfl

theorem exists_content (h : Spells M s e jobs e' text) {held : String}
    (hheld : s.content e' = some held) : ∀ x ∈ ends e jobs, ∃ held, s.content x = some held := by
  induction h with
  | nil e =>
    intro x hx
    obtain rfl := List.mem_singleton.mp hx
    exact ⟨held, hheld⟩
  | cons _ hold _ _ ih =>
    intro x hx
    obtain rfl | hx := List.mem_cons.mp hx
    · exact ⟨_, hold⟩
    · exact ih hheld x hx

/-- A chain stays as it is when no job of it leads elsewhere and no text is added at the ends they
    write at. -/
theorem congr (h : Spells M s e jobs e' text)
    (hroute : ∀ job ∈ jobs, t.route job.writer = s.route job.writer)
    (hcontent : ∀ job ∈ jobs, ∀ held, s.content (s.route job.writer) = some held →
      t.content (s.route job.writer) = some held) : Spells M t e jobs e' text := by
  induction h with
  | nil e => exact .nil e
  | @cons job jobs e _ held text later hwriter hheld hmeans _ ih =>
    refine .cons ((hroute job List.mem_cons_self).trans hwriter) ?_ hmeans
      (ih (fun job h => hroute job (List.mem_cons_of_mem _ h))
        fun job h => hcontent job (List.mem_cons_of_mem _ h))
    rw [← hwriter] at hheld ⊢
    exact hcontent job List.mem_cons_self held hheld

theorem last_mem (h : Spells M s e jobs e' text) : e' ∈ ends e jobs := by
  rw [← h.routes]
  exact List.mem_append_right _ (List.mem_singleton_self e')

theorem route_mem (h : Spells M s e jobs e' text) (hjob : job ∈ jobs) :
    s.route job.writer ∈ ends e jobs := by
  rw [← h.routes]
  exact List.mem_append_left _ (List.mem_map_of_mem hjob)

theorem route_ne_last (h : Spells M s e jobs e' text) (hnodup : (ends e jobs).Nodup)
    (hjob : job ∈ jobs) : s.route job.writer ≠ e' := by
  rw [← h.routes, List.nodup_append] at hnodup
  exact hnodup.2.2 _ (List.mem_map_of_mem hjob) e' (List.mem_singleton_self e')

/-- A chain stays as it is when something changes at an end that its jobs do not write at. -/
theorem frame (h : Spells M s e jobs e' text) {x : End} (ht : Touches x s t) (hs : s.Closed)
    (hhas : ∀ job ∈ jobs, s.Has job.writer) (hx : ∀ job ∈ jobs, s.route job.writer ≠ x) :
    Spells M t e jobs e' text :=
  h.congr (fun job hjob => ht.route_eq hs (hhas job hjob))
    fun job hjob _ hheld => ht.content hheld (hx job hjob)

end Spells

/-! ## What is owed -/

/-- A writer leads to no end of a list, and to no destination. -/
def Dead (s : Streams) (ends : List End) (w : Writer) : Prop :=
  s.route w ∉ ends ∧ ∀ k, s.route w ≠ .output k

/-- What comes after the chain, whose ends are given with the last one: nothing, and the render went
    on there; or a failure, from which on everything is dead. -/
inductive Rest (M : Job → String → Bool → Prop) (s : Streams) (ends : List End) (e' : End)
    (r : Except Stop Writer) : List Job → String → Bool → Prop
  | good {out : Writer} (hr : r = .ok out) (hout : s.route out = e') : Rest M s ends e' r [] "" true
  /-- The render itself has failed, or a job that is done already. -/
  | failed {dead : List Job} (hdead : ∀ job ∈ dead, Dead s ends job.writer)
      (hr : ∀ out, r = .ok out → Dead s ends out) : Rest M s ends e' r dead "" false
  /-- A job is going to fail. -/
  | failing {job : Job} {dead : List Job} {text : String} (hroute : s.route job.writer = e')
      (hmeans : M job text false) (hdead : ∀ job ∈ dead, Dead s ends job.writer)
      (hr : ∀ out, r = .ok out → Dead s ends out) : Rest M s ends e' r (job :: dead) text false

/-- A writer that something is still to be written at. -/
def Awaits (jobs : List Job) (r : Except Stop Writer) (w : Writer) : Prop :=
  (∃ job ∈ jobs, job.writer = w) ∨ r = .ok w

theorem Rest.imp {L L' : List End} {e'' : End} (h : Rest M s L e' r jobs text good)
    (hroute : ∀ w, Awaits jobs r w → s.route w = e' → t.route w = e'')
    (hdead : ∀ w, Awaits jobs r w → Dead s L w → Dead t L' w) :
    Rest M t L' e'' r jobs text good := by
  cases h with
  | good hr hout => exact .good hr (hroute _ (.inr hr) hout)
  | failed hjobs hr =>
    exact .failed (fun job hjob => hdead _ (.inl ⟨job, hjob, rfl⟩) (hjobs job hjob))
      fun out hout => hdead _ (.inr hout) (hr out hout)
  | failing hwriter hmeans hjobs hr =>
    exact .failing (hroute _ (.inl ⟨_, List.mem_cons_self, rfl⟩) hwriter) hmeans
      (fun job hjob =>
        hdead _ (.inl ⟨job, List.mem_cons_of_mem _ hjob, rfl⟩) (hjobs job hjob))
      fun out hout => hdead _ (.inr hout) (hr out hout)

/-- When the jobs that wait have been done, there is a text at an end, and all is well or not.  The
    jobs are a chain from there and the rest. -/
inductive Owes (M : Job → String → Bool → Prop) (s : Streams) (e : End) (jobs : List Job)
    (r : Except Stop Writer) (full : String) (good : Bool) : Prop
  | intro {live rest : List Job} {e' : End} {before held more : String}
      (hperm : jobs.Perm (live ++ rest)) (hspells : Spells M s e live e' before)
      (hheld : s.content e' = some held) (hrest : Rest M s (ends e live) e' r rest more good)
      (hfull : full = before ++ held ++ more)

/-- Jobs wait, each of them at a latch of its own. -/
structure Waiting (s : Streams) (e : End) (jobs : List Job) : Prop where
  has : ∀ job ∈ jobs, s.Has job.writer
  pending : ∀ job ∈ jobs, s.status? job.latch = some .pending
  nodup : (ends e jobs).Nodup

/-- What rendering at an end does to the streams: it changes nothing else, and all that is put off
    is put off to new latches. -/
structure Adds (e : End) (s t : Streams) (jobs : List Job) (r : Except Stop Writer) : Prop where
  closed : t.Closed
  touches : Touches e s t
  writer : ∀ w, Awaits jobs r w → t.Has w ∧ s.Beyond e (t.route w)
  latch : ∀ job ∈ jobs, s.status? job.latch = none ∧ t.status? job.latch = some .pending
  nodup : (jobs.map Job.latch).Nodup

theorem Waiting.of_perm (h : s.Waiting e jobs) (hperm : jobs.Perm jobs') : s.Waiting e jobs' :=
  ⟨fun job hjob => h.has job (hperm.mem_iff.mpr hjob),
    fun job hjob => h.pending job (hperm.mem_iff.mpr hjob),
    ((hperm.map _).cons e).nodup_iff.mp h.nodup⟩

theorem Waiting.not_mem (h : s.Waiting e (job :: jobs)) : .pending job.latch ∉ ends e jobs := by
  have hnodup := h.nodup
  rw [ends, List.map_cons, List.nodup_cons, List.nodup_cons] at hnodup
  intro hmem
  obtain heq | hmem := List.mem_cons.mp hmem
  · exact hnodup.1 (heq ▸ List.mem_cons_self)
  · exact hnodup.2.1 hmem

theorem Waiting.tail (h : s.Waiting e (job :: jobs)) : s.Waiting e jobs :=
  ⟨fun job' hjob => h.has job' (List.mem_cons_of_mem _ hjob),
    fun job' hjob => h.pending job' (List.mem_cons_of_mem _ hjob),
    h.nodup.sublist ((List.sublist_cons_self _ _).cons_cons e)⟩

theorem Waiting.left (h : s.Waiting e (live ++ rest)) : s.Waiting e live := by
  refine ⟨fun job hjob => h.has job (List.mem_append_left _ hjob),
    fun job hjob => h.pending job (List.mem_append_left _ hjob), ?_⟩
  have hnodup := h.nodup
  rw [ends, List.map_append, ← List.cons_append] at hnodup
  exact (List.nodup_append.mp hnodup).1

/-- The jobs behind a job of the chain wait for its latch. -/
theorem Waiting.right (h : s.Waiting e (live ++ job :: rest)) :
    s.Waiting (.pending job.latch) rest := by
  refine ⟨fun job' hjob => h.has job' (List.mem_append_right _ (List.mem_cons_of_mem _ hjob)),
    fun job' hjob => h.pending job' (List.mem_append_right _ (List.mem_cons_of_mem _ hjob)), ?_⟩
  have hnodup := h.nodup
  rw [ends, List.map_append, ← List.cons_append] at hnodup
  exact (List.nodup_append.mp hnodup).2.1

theorem Awaits.of_perm (h : Awaits jobs r w) (hperm : jobs.Perm jobs') : Awaits jobs' r w := by
  obtain ⟨job, hjob, hw⟩ | hr := h
  · exact .inl ⟨job, hperm.mem_iff.mp hjob, hw⟩
  · exact .inr hr

theorem awaits_append :
    Awaits (live ++ rest) r w ↔ (∃ job ∈ live, job.writer = w) ∨ Awaits rest r w := by
  simp only [Awaits, List.mem_append, or_and_right, exists_or, or_assoc]

theorem content_of_status?_none {n : Nat} (h : s.status? n = none) :
    s.content (.pending n) = none := by
  cases hcontent : s.content (.pending n) with
  | none => rfl
  | some held => cases h.symm.trans (status?_of_content hcontent)

theorem nodup_pending (h : (jobs.map Job.latch).Nodup) :
    (jobs.map fun job => End.pending job.latch).Nodup := by
  rw [List.Nodup, List.pairwise_map] at h ⊢
  exact h.imp fun hne heq => hne (End.pending.inj heq)

namespace Adds

/-- No writer led to a latch that is new. -/
theorem route_ne (h : Adds e s t jobs r) (hjob : job ∈ jobs) (w : Writer) :
    s.route w ≠ .pending job.latch := by
  intro heq
  cases (h.latch job hjob).1.symm.trans (status?_of_route heq)

theorem waiting (h : Adds e s t jobs r) {held : String} (he : s.content e = some held) :
    t.Waiting e jobs := by
  refine ⟨fun job hjob => (h.writer _ (.inl ⟨job, hjob, rfl⟩)).1,
    fun job hjob => (h.latch job hjob).2,
    List.nodup_cons.mpr ⟨fun hmem => ?_, nodup_pending h.nodup⟩⟩
  obtain ⟨job, hjob, rfl⟩ := List.mem_map.mp hmem
  cases (content_of_status?_none (h.latch job hjob).1).symm.trans he

theorem of_touches (ht : Touches e s t) (hclosed : t.Closed)
    (hr : ∀ out, r = .ok out → t.Has out ∧ t.route out = e) : Adds e s t [] r := by
  refine ⟨hclosed, ht, fun w hw => ?_, List.forall_mem_nil _, List.nodup_nil⟩
  obtain ⟨_, hjob, -⟩ | hr' := hw
  · cases hjob
  · obtain ⟨hhas, hroute⟩ := hr w hr'
    exact ⟨hhas, .inl hroute⟩

theorem nil (hs : s.Closed) (hr : ∀ out, r = .ok out → s.Has out ∧ s.route out = e) :
    Adds e s s [] r :=
  .of_touches (.refl e s) hs hr

theorem of_error (h : Adds e s t jobs r) (cause : Stop) : Adds e s t jobs (.error cause) := by
  refine ⟨h.closed, h.touches, fun w hw => ?_, h.latch, h.nodup⟩
  obtain hjob | hr := hw
  · exact h.writer w (.inl hjob)
  · cases hr

theorem seq {out : Writer} (h : Adds e s t jobs (.ok out))
    (h' : Adds (t.route out) t u jobs' r') : Adds e s u (jobs ++ jobs') r' := by
  have hbeyond := (h.writer out (.inr rfl)).2
  have hlatch : ∀ job ∈ jobs', s.status? job.latch = none := by
    intro job hjob
    cases hst : s.status? job.latch with
    | none => rfl
    | some st => cases (h'.latch job hjob).1.symm.trans (h.touches.status hst)
  have hwriter : ∀ w, Awaits jobs' r' w → u.Has w ∧ s.Beyond e (u.route w) := by
    intro w hw
    obtain ⟨hhas, hnew⟩ := h'.writer w hw
    exact ⟨hhas, hbeyond.trans h.touches hnew⟩
  refine ⟨h'.closed, h.touches.trans hbeyond h'.touches, fun w hw => ?_, fun job hjob => ?_, ?_⟩
  · obtain hold | hw := awaits_append.mp hw
    · obtain ⟨hhas, hnew⟩ := h.writer w (.inl hold)
      rw [h'.touches.route_eq h.closed hhas]
      exact ⟨h'.touches.has hhas, hnew⟩
    · exact hwriter w hw
  · obtain hjob | hjob := List.mem_append.mp hjob
    · exact ⟨(h.latch job hjob).1, h'.touches.status (h.latch job hjob).2⟩
    · exact ⟨hlatch job hjob, (h'.latch job hjob).2⟩
  · rw [List.map_append, List.nodup_append]
    refine ⟨h.nodup, h'.nodup, fun n hn m hm => ?_⟩
    obtain ⟨job, hjob, rfl⟩ := List.mem_map.mp hn
    obtain ⟨job', hjob', rfl⟩ := List.mem_map.mp hm
    intro heq
    cases (h'.latch job' hjob').1.symm.trans (heq ▸ (h.latch job hjob).2)

end Adds

/-! ## One render after another -/

/-- A writer that leads to an end that is new, or to one that is not on the chain, is dead. -/
theorem Dead.of_beyond {x : End} {L : List End} (hx : x ∉ L) (houtput : ∀ k, x ≠ .output k)
    (hL : ∀ y ∈ L, ∃ held, s.content y = some held) (h : s.Beyond x (t.route w)) : Dead t L w := by
  obtain hroute | ⟨hnone, hne⟩ := h
  · exact ⟨hroute ▸ hx, fun k => hroute ▸ houtput k⟩
  · refine ⟨fun hmem => ?_, hne⟩
    obtain ⟨held, hheld⟩ := hL _ hmem
    cases hnone.symm.trans hheld

namespace Owes

theorem exists_content (h : Owes M s e jobs r full good) : ∃ held, s.content e = some held := by
  cases h with
  | intro _ hspells hheld _ _ => exact hspells.exists_content hheld e List.mem_cons_self

/-- What is owed at the end of a chain is owed at its beginning. -/
theorem prepend {held : String} (hspells : Spells M s e live e' text)
    (hheld : s.content e' = some held) (hs : s.Closed) (hwait : s.Waiting e live)
    (hadds : Adds e' s t jobs r) (h : Owes M t e' jobs r full good) :
    Owes M t e (live ++ jobs) r (text ++ full) good := by
  cases h with
  | @intro live' rest e'' before held' more hperm hspells' hheld' hrest hfull =>
    have hframe := hspells.frame hadds.touches hs hwait.has
      fun job hjob => hspells.route_ne_last hwait.nodup hjob
    refine .intro ?_ (hframe.append hspells') hheld' (hrest.imp (fun _ _ h => h) ?_) ?_
    · rw [List.append_assoc]
      exact hperm.append_left live
    · -- What is dead at the end of the chain is new, so it leads to none of the ends on the way.
      rintro w hw ⟨hdead, houtput⟩
      refine ⟨fun hmem => ?_, houtput⟩
      obtain hmem | hmem := mem_ends_append.mp hmem
      · obtain ⟨_, hsome⟩ := hspells.exists_content hheld _ hmem
        have hw' := (awaits_append.mpr (.inr hw)).of_perm hperm.symm
        obtain hroute | ⟨hnone, -⟩ := (hadds.writer w hw').2
        · exact hdead (hroute ▸ List.mem_cons_self)
        · cases hnone.symm.trans hsome
      · exact hdead (List.mem_cons_of_mem _ hmem)
    · rw [hfull]
      simp only [String.append_assoc]

theorem of_perm (h : Owes M s e jobs r full good) (hperm : jobs'.Perm jobs) :
    Owes M s e jobs' r full good := by
  cases h with
  | intro hperm' hspells hheld hrest hfull =>
    exact .intro (hperm.trans hperm') hspells hheld hrest hfull

/-- A render that comes after a good one. -/
theorem seq {out : Writer} {held : String} (he : s.content e = some held)
    (hfirst : Adds e s t jobs (.ok out)) (h : Owes M t e jobs (.ok out) full true)
    (hsecond : Adds (t.route out) t u jobs' r')
    (h' : ∀ {held}, t.content (t.route out) = some held →
      Owes M u (t.route out) jobs' r' (held ++ text) good) :
    Owes M u e (jobs ++ jobs') r' (full ++ text) good := by
  cases h with
  | @intro live rest e' before held' more hperm hspells hheld hrest hfull =>
    cases hrest with
    | good hr hout =>
      cases hr
      subst hout
      rw [List.append_nil] at hperm
      have hwait := (hfirst.waiting he).of_perm hperm
      have hall := prepend hspells hheld hfirst.closed hwait hsecond (h' hheld)
      rw [hfull, String.append_empty, String.append_assoc]
      exact hall.of_perm (hperm.append_right jobs')

end Owes

namespace Rest

variable {L : List End}

theorem add (h : Rest M s L e' r rest more false) (hjobs : ∀ job ∈ jobs, Dead s L job.writer)
    (hr : ∀ out, r' = .ok out → Dead s L out) : Rest M s L e' r' (rest ++ jobs) more false := by
  have hboth {dead : List Job} (hdead : ∀ job ∈ dead, Dead s L job.writer) :
      ∀ job ∈ dead ++ jobs, Dead s L job.writer := by
    intro job hjob
    obtain hjob | hjob := List.mem_append.mp hjob
    · exact hdead job hjob
    · exact hjobs job hjob
  cases h with
  | failed hdead _ => exact .failed (hboth hdead) hr
  | failing hroute hmeans hdead _ => exact .failing hroute hmeans (hboth hdead) hr

theorem of_failed (h : Rest M s L e' r rest more false)
    (hr : ∀ out, r' = .ok out → Dead s L out) : Rest M s L e' r' rest more false := by
  cases h with
  | failed hdead _ => exact .failed hdead hr
  | failing hroute hmeans hdead _ => exact .failing hroute hmeans hdead hr

theorem dead_of_ok (h : Rest M s L e' r rest more false) {out : Writer} (hr : r = .ok out) :
    Dead s L out := by
  cases h with
  | failed _ hout => exact hout out hr
  | failing _ _ _ hout => exact hout out hr

/-- A job of the rest is dead, or it is the one that is going to fail. -/
theorem of_mem (h : Rest M s L e' r rest more good) (hjob : job ∈ rest) :
    good = false ∧
      ((∃ others, rest.Perm (job :: others) ∧ Dead s L job.writer ∧
          Rest M s L e' r others more false) ∨
        ∃ dead, rest = job :: dead ∧ s.route job.writer = e' ∧ M job more false ∧
          (∀ job ∈ dead, Dead s L job.writer) ∧ ∀ out, r = .ok out → Dead s L out) := by
  cases h with
  | good _ _ => cases hjob
  | failed hdead hr =>
    obtain ⟨front, back, rfl⟩ := List.append_of_mem hjob
    refine ⟨rfl, .inl ⟨front ++ back, List.perm_middle, hdead job hjob, .failed ?_ hr⟩⟩
    exact fun job' hjob' => hdead job' (List.perm_middle.mem_iff.mpr (List.mem_cons_of_mem _ hjob'))
  | @failing first dead _ hroute hmeans hdead hr =>
    obtain rfl | hjob := List.mem_cons.mp hjob
    · exact ⟨rfl, .inr ⟨dead, rfl, hroute, hmeans, hdead, hr⟩⟩
    · obtain ⟨front, back, rfl⟩ := List.append_of_mem hjob
      refine ⟨rfl, .inl ⟨first :: (front ++ back), ?_, hdead job hjob,
        .failing hroute hmeans ?_ hr⟩⟩
      · exact (List.perm_middle.cons first).trans (.swap job first _)
      · exact fun job' hjob' =>
          hdead job' (List.perm_middle.mem_iff.mpr (List.mem_cons_of_mem _ hjob'))

/-- Rendering at a dead writer adds dead jobs. -/
theorem add_dead (h : Rest M s (ends e live) e' r rest more false) {held : String}
    (hspells : Spells M s e live e' text) (hheld : s.content e' = some held) (hs : s.Closed)
    (hhas : ∀ w, Awaits rest r w → s.Has w) (hw : Dead s (ends e live) w)
    (hadds : Adds (s.route w) s t jobs r') :
    Rest M t (ends e live) e' r (rest ++ jobs) more false ∧
      ∀ out, r' = .ok out → Dead t (ends e live) out := by
  have hdead : ∀ v, Awaits jobs r' v → Dead t (ends e live) v := fun v hv =>
    .of_beyond hw.1 hw.2 (hspells.exists_content hheld) (hadds.writer v hv).2
  have hroute : ∀ v, Awaits rest r v → t.route v = s.route v := fun v hv =>
    hadds.touches.route_eq hs (hhas v hv)
  have hframe : Rest M t (ends e live) e' r rest more false := by
    refine h.imp (fun v hv heq => (hroute v hv).trans heq) fun v hv hold => ?_
    rw [Dead, hroute v hv]
    exact hold
  exact ⟨hframe.add (fun job hjob => hdead _ (.inl ⟨job, hjob, rfl⟩)) fun out => hframe.dead_of_ok,
    fun out hout => hdead out (.inr hout)⟩

end Rest

namespace Owes

/-- Whatever comes after a failure is dead. -/
theorem seq_failed {out : Writer} {held : String} (he : s.content e = some held)
    (hfirst : Adds e s t jobs (.ok out)) (h : Owes M t e jobs (.ok out) full false)
    (hsecond : Adds (t.route out) t u jobs' r') : Owes M u e (jobs ++ jobs') r' full false := by
  cases h with
  | @intro live rest e' before held' more hperm hspells hheld hrest hfull =>
    have hdead := hrest.dead_of_ok rfl
    have hwait := ((hfirst.waiting he).of_perm hperm).left
    have hne {x : End} (hx : x ∈ ends e live) : x ≠ t.route out := fun heq => hdead.1 (heq ▸ hx)
    have hhas : ∀ w, Awaits rest (.ok out) w → t.Has w := fun w hw =>
      (hfirst.writer w ((awaits_append.mpr (.inr hw)).of_perm hperm.symm)).1
    obtain ⟨hrest', hr'⟩ := hrest.add_dead hspells hheld hfirst.closed hhas hdead hsecond
    refine .intro ?_ (hspells.frame hsecond.touches hfirst.closed hwait.has
      fun job hjob => hne (hspells.route_mem hjob))
      (hsecond.touches.content hheld (hne hspells.last_mem)) (hrest'.of_failed hr') hfull
    rw [← List.append_assoc]
    exact hperm.append_right jobs'

theorem of_error {x : Stop} (h : Owes M s e jobs r full false) :
    Owes M s e jobs (.error x) full false := by
  cases h with
  | intro hperm hspells hheld hrest hfull =>
    exact .intro hperm hspells hheld (hrest.of_failed nofun) hfull

end Owes

end Mustache.Streams
