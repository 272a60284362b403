import Mathlib.Data.List.Perm.Basic
import Mustache.Proofs.Output.Outline
import Mustache.Proofs.Render.Jobs

/-! # Order among jobs

Jobs that wait stand in a line in which none waits for itself or for one behind it, and no two of
them write at the same place.  So there is always one that waits for nobody, and no writer is led in
a circle.  This holds of any data and any destinations: nothing is said of texts here.

* `Streams.Orderly` — jobs in a line, and writers apart.
* `Streams.Lays` — what an action at an end does to the streams.
* `Streams.Orderly.extend`, `Streams.Orderly.perform` — order is kept when jobs are put off, and
  when any of them is done.
-/

namespace Mustache.Streams

variable {s s₁ t u : Streams} {e x y : End} {job : Job} {jobs new rest line front back : List Job}
  {outs : List Writer} {out w : Writer} {r r₁ : Except Stop Writer} {st : Latch.Status} {m n : Nat}

/-! ## Jobs in a line -/

/-- A job does not wait for another one. -/
def Ahead (s : Streams) (job job' : Job) : Prop :=
  s.route job.writer ≠ .pending job'.latch

/-- Jobs stand in a line: none waits for itself or for one behind it. -/
structure InLine (s : Streams) (jobs : List Job) : Prop where
  ahead : jobs.Pairwise (Ahead s)
  self : ∀ job ∈ jobs, Ahead s job job

theorem inLine_append :
    InLine s (front ++ back) ↔
      InLine s front ∧ InLine s back ∧ ∀ a ∈ front, ∀ b ∈ back, Ahead s a b := by
  constructor
  · rintro ⟨hahead, hself⟩
    obtain ⟨hfront, hback, hcross⟩ := List.pairwise_append.mp hahead
    exact ⟨⟨hfront, fun a ha => hself a (List.mem_append_left _ ha)⟩,
      ⟨hback, fun b hb => hself b (List.mem_append_right _ hb)⟩, hcross⟩
  · rintro ⟨hfront, hback, hcross⟩
    refine ⟨List.pairwise_append.mpr ⟨hfront.ahead, hback.ahead, hcross⟩, fun a ha => ?_⟩
    obtain ha | ha := List.mem_append.mp ha
    · exact hfront.self a ha
    · exact hback.self a ha

/-- A line stays one as long as its jobs write where they wrote. -/
theorem InLine.congr (h : InLine s line) (heq : ∀ a ∈ line, t.route a.writer = s.route a.writer) :
    InLine t line := by
  refine ⟨h.ahead.imp_of_mem fun {a b} ha _ hab => ?_, fun a ha => ?_⟩
  · rw [Ahead, heq a ha]
    exact hab
  · rw [Ahead, heq a ha]
    exact h.self a ha

/-! ## Writers apart -/

/-- Two ends are different, unless no text gets there. -/
def End.Apart (x y : End) : Prop :=
  x = y → x.IsVoid

theorem End.Apart.symm (h : x.Apart y) : y.Apart x :=
  fun heq => heq ▸ h heq.symm

theorem End.apart_perm {xs ys : List End} (h : xs.Perm ys) :
    xs.Pairwise End.Apart ↔ ys.Pairwise End.Apart :=
  h.pairwise_iff fun h => h.symm

/-- The writer that an action has handed on, if it has. -/
def handed : Except Stop Writer → List Writer
  | .ok out => [out]
  | .error _ => []

theorem awaits_iff : Awaits jobs r w ↔ w ∈ jobs.map Job.writer ++ handed r := by
  rw [List.mem_append, List.mem_map, Awaits]
  cases r with
  | ok out => simp [handed, eq_comm]
  | error _ => simp [handed]

/-- An end of the outline that was not there is none that a text gets to. -/
theorem isVoid_of_new (hnone : s.outline.content (s.route w) = none)
    (houtput : ∀ k, s.route w ≠ .output k) : (s.route w).IsVoid := by
  cases hroute : s.route w with
  | output k => exact absurd hroute (houtput k)
  | pending n =>
    obtain ⟨_, hheld⟩ := exists_content ((status?_outline s n).trans (status?_of_route hroute))
    rw [hroute] at hnone
    cases hnone.symm.trans hheld
  | failed _ => trivial
  | nowhere => trivial

/-! ## Order -/

/-- Jobs wait, each at a latch of its own, and writers besides theirs are in use.  Every writer
    leads somewhere, the jobs stand in a line, and no two writers lead to the same place. -/
structure Orderly (s : Streams) (jobs : List Job) (outs : List Writer) : Prop where
  closed : s.outline.Closed
  way : ∀ w, s.outline.Has w → s.route w ≠ .nowhere
  has : ∀ w ∈ jobs.map Job.writer ++ outs, s.outline.Has w
  pending : ∀ job ∈ jobs, s.status? job.latch = some .pending
  nodup : (jobs.map Job.latch).Nodup
  line : ∃ line, jobs.Perm line ∧ InLine s line
  apart : ((jobs.map Job.writer ++ outs).map s.route).Pairwise End.Apart

/-- What an action at an end does to the streams.  Nothing else changes; all that is put off is put
    off to new latches, and a new latch that is pending is one of those, unless the action has used
    up its allowance. -/
structure Lays (e : End) (s t : Streams) (jobs : List Job) (r : Except Stop Writer) : Prop where
  adds : Adds e s.outline t.outline jobs r
  orderly : Orderly t jobs (handed r)
  settled : ∀ {n}, s.status? n = none → t.status? n = some .pending →
    (∃ job ∈ jobs, job.latch = n) ∨ r = .error .exhausted
  fills : Fills e s t
  unblocked : r ≠ .error .blocked

theorem Orderly.of_perm {outs' : List Writer} (h : Orderly s jobs outs) (hjobs : jobs.Perm new)
    (houts : outs.Perm outs') : Orderly s new outs' := by
  have hall := (hjobs.map Job.writer).append houts
  obtain ⟨line, hperm, hline⟩ := h.line
  exact ⟨h.closed, h.way, fun w hw => h.has w (hall.mem_iff.mpr hw),
    fun job hjob => h.pending job (hjobs.mem_iff.mpr hjob),
    (hjobs.map Job.latch).nodup_iff.mp h.nodup,
    ⟨line, hjobs.symm.trans hperm, hline⟩, (End.apart_perm (hall.map s.route)).mp h.apart⟩

/-- A job that is taken out of the line is at its writer. -/
theorem Orderly.release (h : Orderly s (job :: rest) outs) :
    Orderly s rest (job.writer :: outs) := by
  have hall : ((job :: rest).map Job.writer ++ outs).Perm
      (rest.map Job.writer ++ job.writer :: outs) := List.perm_middle.symm
  obtain ⟨line, hperm, hline⟩ := h.line
  obtain ⟨front, back, rfl⟩ := List.append_of_mem (hperm.mem_iff.mp List.mem_cons_self)
  have hrest : rest.Perm (front ++ back) := (hperm.trans List.perm_middle).cons_inv
  have hsub : (front ++ back).Sublist (front ++ job :: back) :=
    (List.sublist_cons_self job back).append_left front
  exact ⟨h.closed, h.way, fun w hw => h.has w (hall.mem_iff.mpr hw),
    fun job' hjob => h.pending job' (List.mem_cons_of_mem _ hjob), (List.nodup_cons.mp h.nodup).2,
    ⟨front ++ back, hrest, hline.ahead.sublist hsub, fun a ha => hline.self a (hsub.subset ha)⟩,
    (End.apart_perm (hall.map s.route)).mp h.apart⟩

/-- The writers in use may be fewer. -/
theorem Orderly.drop {outs' : List Writer} (h : Orderly s jobs outs) (hsub : outs'.Sublist outs) :
    Orderly s jobs outs' := by
  have hall := (List.Sublist.refl (jobs.map Job.writer)).append hsub
  exact { h with
    has := fun w hw => h.has w (hall.subset hw)
    apart := h.apart.sublist (hall.map s.route) }

/-! ## Putting jobs off -/

theorem Adds.route_outline (h : Adds e s.outline t.outline jobs r) (hs : s.outline.Closed)
    (hw : s.outline.Has w) : t.route w = s.route w := by
  have hroute := h.touches.route_eq hs hw
  rwa [Streams.route_outline, Streams.route_outline] at hroute

theorem Adds.status_outline (h : Adds e s.outline t.outline jobs r)
    (hst : s.status? n = some st) : t.status? n = some st := by
  have hstatus := h.touches.status ((status?_outline s n).trans hst)
  rwa [status?_outline] at hstatus

theorem Adds.latch_outline (h : Adds e s.outline t.outline jobs r) (hjob : job ∈ jobs) :
    s.status? job.latch = none := by
  have hnone := (h.latch job hjob).1
  rwa [status?_outline] at hnone

/-- **Putting jobs off keeps order.**  What an action at a writer puts off comes behind all that
    waits. -/
theorem Orderly.extend (h : Orderly s jobs (out :: outs)) (h' : Lays (s.route out) s t new r) :
    Orderly t (jobs ++ new) (handed r ++ outs) := by
  have hroute : ∀ w ∈ jobs.map Job.writer ++ outs, t.route w = s.route w := fun w hw =>
    h'.adds.route_outline h.closed
      (h.has w (((List.sublist_cons_self out outs).append_left _).subset hw))
  obtain ⟨line, hperm, hline⟩ := h.line
  obtain ⟨line', hperm', hline'⟩ := h'.orderly.line
  have hwriters : ((jobs ++ new).map Job.writer ++ (handed r ++ outs)).Perm
      (jobs.map Job.writer ++ outs ++ (new.map Job.writer ++ handed r)) := by
    rw [List.map_append, List.append_assoc, List.append_assoc, ← List.append_assoc (new.map _)]
    exact List.perm_append_comm.append_left _
  refine ⟨h'.orderly.closed, h'.orderly.way, fun w hw => ?_, fun job hjob => ?_, ?_,
    ⟨line ++ line', hperm.append hperm', inLine_append.mpr ⟨?_, hline', ?_⟩⟩, ?_⟩
  · obtain hw | hw := List.mem_append.mp (hwriters.mem_iff.mp hw)
    · exact h'.adds.touches.has
        (h.has w (((List.sublist_cons_self out outs).append_left _).subset hw))
    · exact h'.orderly.has w hw
  · obtain hjob | hjob := List.mem_append.mp hjob
    · exact h'.adds.status_outline (h.pending job hjob)
    · exact h'.orderly.pending job hjob
  · rw [List.map_append, List.nodup_append]
    refine ⟨h.nodup, h'.orderly.nodup, fun n hn m hm => ?_⟩
    obtain ⟨job, hjob, rfl⟩ := List.mem_map.mp hn
    obtain ⟨job', hjob', rfl⟩ := List.mem_map.mp hm
    intro heq
    cases (h'.adds.latch_outline hjob').symm.trans (heq ▸ h.pending job hjob)
  · refine hline.congr fun a ha => hroute _ (List.mem_append_left _ ?_)
    exact List.mem_map_of_mem (hperm.mem_iff.mpr ha)
  · -- Those that were there wait for nothing that is new.
    intro a ha b hb
    have hwriter := List.mem_map_of_mem (f := Job.writer) (hperm.mem_iff.mpr ha)
    rw [Ahead, hroute _ (List.mem_append_left _ hwriter)]
    have hne := h'.adds.route_ne (hperm'.mem_iff.mpr hb) a.writer
    rwa [Streams.route_outline] at hne
  · rw [End.apart_perm (hwriters.map t.route), List.map_append, List.map_congr_left hroute,
      List.pairwise_append]
    have hmiddle : ((jobs.map Job.writer ++ out :: outs).map s.route).Perm
        (s.route out :: (jobs.map Job.writer ++ outs).map s.route) :=
      (List.perm_middle).map s.route
    obtain ⟨hout, hold⟩ := List.pairwise_cons.mp ((End.apart_perm hmiddle).mp h.apart)
    refine ⟨hold, h'.orderly.apart, fun x hx y hy => ?_⟩
    obtain ⟨w, hw, rfl⟩ := List.mem_map.mp hx
    obtain ⟨w', hw', rfl⟩ := List.mem_map.mp hy
    -- What is new leads where the action was, or to where nothing led.
    obtain heq | ⟨hnone, houtput⟩ := (h'.adds.writer w' (awaits_iff.mpr hw')).2
    · rw [Streams.route_outline] at heq
      rw [heq]
      exact (hout _ (List.mem_map_of_mem hw)).symm
    · rw [Streams.route_outline] at hnone houtput
      intro heq
      rw [← heq] at hnone houtput
      exact isVoid_of_new hnone houtput

/-! ## Settling a latch -/

/-- A latch has been settled: writers that waited for it lead to an end, and all others where they
    did. -/
structure Redirects (m : Nat) (y : End) (s t : Streams) : Prop where
  same : ∀ {w}, s.route w ≠ .pending m → t.route w = s.route w
  moved : ∀ {w}, s.route w = .pending m → t.route w = y

/-- Where those lead that waited for a latch when the latch is settled. -/
def destined (s : Streams) : Latch.Status → End
  | .pending => .nowhere
  | .done out => s.route out
  | .failed e => .failed e

theorem redirects_settle (hm : s.status? m = some .pending)
    (hout : ∀ out, st = .done out → s.route out ≠ .pending m) (hst : st ≠ .pending) :
    Redirects m (s.destined st) s (s.settle m st) := by
  refine ⟨fun hw => route_settle_of_ne hm hw, fun hw => ?_⟩
  cases st with
  | pending => exact absurd rfl hst
  | done out => exact route_settle_done hw (hout out rfl)
  | failed e => exact route_settle_failed hw

/-- Only the outline counts. -/
theorem Redirects.of_outline (h : Redirects m y s t) (ht : t.outline = u.outline) :
    Redirects m y s u := by
  have hroute (w : Writer) : u.route w = t.route w := by
    rw [← Streams.route_outline u, ← ht, Streams.route_outline]
  exact ⟨fun hw => (hroute _).trans (h.same hw), fun hw => (hroute _).trans (h.moved hw)⟩

/-- Writers stay apart, if nothing else leads to where those lead that waited for the latch. -/
theorem Redirects.apart (h : Redirects m y s t) {ws : List Writer}
    (hapart : (ws.map s.route).Pairwise End.Apart) (hy : ∀ w ∈ ws, y.Apart (s.route w)) :
    (ws.map t.route).Pairwise End.Apart := by
  rw [List.pairwise_map] at hapart ⊢
  refine hapart.imp_of_mem fun {a b} ha hb hab => ?_
  by_cases hawaits : s.route a = .pending m
  · by_cases hbwaits : s.route b = .pending m
    · -- No two writers wait for the same latch.
      have hvoid := hab (hawaits.trans hbwaits.symm)
      rw [hawaits] at hvoid
      cases hvoid
    · rw [h.moved hawaits, h.same hbwaits]
      exact hy b hb
  · by_cases hbwaits : s.route b = .pending m
    · rw [h.same hawaits, h.moved hbwaits]
      exact (hy a ha).symm
    · rw [h.same hawaits, h.same hbwaits]
      exact hab

theorem has_settle_iff : (s.settle m st).Has w ↔ s.Has w := by
  refine ⟨fun hw => ?_, has_settle⟩
  cases w with
  | direct k => exact hw
  | latched n =>
    obtain ⟨old, hold⟩ := hw
    have hlt := lt_of_status? hold
    rw [settle, List.length_set] at hlt
    exact ⟨_, by rw [status?, List.getElem?_eq_getElem hlt]; rfl⟩

section Perform

variable (h : Orderly s (job :: rest) outs) (h' : Lays (s.route job.writer) s s₁ new r₁)
include h h'

theorem Lays.latch_pending : s₁.status? job.latch = some .pending :=
  h'.adds.status_outline (h.pending job List.mem_cons_self)

theorem Lays.latch_ne {job' : Job} (hjob : job' ∈ new) : job'.latch ≠ job.latch := by
  intro heq
  cases (heq ▸ h'.adds.latch_outline hjob).symm.trans (h.pending job List.mem_cons_self)

/-- What is pending when the latch of a job has been settled was pending before. -/
theorem Lays.pending_of_settled (ht : t.outline = (s₁.settle job.latch st).outline)
    (hst : st ≠ .pending) {n : Nat} (hn : t.status? n = some .pending) :
    n ≠ job.latch ∧ s₁.status? n = some .pending := by
  rw [← status?_outline, ht, status?_outline] at hn
  have hne : n ≠ job.latch := by
    rintro rfl
    rw [status?_settle_self (lt_of_status? (h'.latch_pending h))] at hn
    exact hst (Option.some.inj hn)
  exact ⟨hne, status?_settle_of_ne hne ▸ hn⟩

/-- What the work of a job puts off, and where it ends, comes after what the job stands behind. -/
theorem Lays.beyond (hw : w ∈ new.map Job.writer ++ handed r₁) {a : Job} (ha : a ∈ job :: rest)
    (hahead : Ahead s job a) : s₁.route w ≠ .pending a.latch := by
  obtain heq | ⟨hnone, -⟩ := (h'.adds.writer w (awaits_iff.mpr hw)).2
  · rw [Streams.route_outline] at heq
    rw [heq]
    exact hahead
  · intro heq
    obtain ⟨_, hheld⟩ := exists_content ((status?_outline s _).trans (h.pending a ha))
    rw [Streams.route_outline, heq] at hnone
    cases hnone.symm.trans hheld

/-- What the job has put off stands in its place. -/
theorem Lays.inLine (hroute : Redirects job.latch y s₁ t) (hperm : rest.Perm (front ++ back))
    (hline : InLine s (front ++ job :: back)) (hperm' : new.Perm line) (hline' : InLine s₁ line)
    (hy : ∀ b ∈ back, y ≠ .pending b.latch) : InLine t (front ++ line ++ back) := by
  obtain ⟨hfront, hback, hcross⟩ := inLine_append.mp hline
  obtain ⟨hahead, hbehind⟩ := List.pairwise_cons.mp hback.ahead
  have hself := hback.self job List.mem_cons_self
  have hmem {b : Job} (hb : b ∈ back) : b ∈ job :: rest :=
    List.mem_cons_of_mem _ (hperm.mem_iff.mpr (List.mem_append_right _ hb))
  have hold {a : Job} (ha : a ∈ job :: rest) : s₁.route a.writer = s.route a.writer :=
    h'.adds.route_outline h.closed (h.has _ (List.mem_append_left _ (List.mem_map_of_mem ha)))
  have hnew {a : Job} (ha : a ∈ line) : a.writer ∈ new.map Job.writer ++ handed r₁ :=
    List.mem_append_left _ (List.mem_map_of_mem (hperm'.mem_iff.mpr ha))
  have hfront' {a : Job} (ha : a ∈ front) : t.route a.writer = s.route a.writer := by
    have hsame := hold (List.mem_cons_of_mem job (hperm.mem_iff.mpr (List.mem_append_left back ha)))
    rw [hroute.same (hsame ▸ hcross a ha job List.mem_cons_self), hsame]
  have hnew' {a : Job} (ha : a ∈ line) : t.route a.writer = s₁.route a.writer :=
    hroute.same (h'.beyond h (hnew ha) List.mem_cons_self hself)
  -- Those behind the job may have waited for it; where they lead now, none behind it is met.
  have hback' {a b : Job} (ha : a ∈ back) (hb : b ∈ back) (hab : Ahead s a b) : Ahead t a b := by
    by_cases hwaits : s₁.route a.writer = .pending job.latch
    · rw [Ahead, hroute.moved hwaits]
      exact hy b hb
    · rw [Ahead, hroute.same hwaits, hold (hmem ha)]
      exact hab
  refine inLine_append.mpr ⟨inLine_append.mpr ⟨hfront.congr fun a ha => hfront' ha,
    hline'.congr fun a ha => hnew' ha, fun a ha b hb => ?_⟩, ⟨?_, fun a ha => ?_⟩,
    fun a ha b hb => ?_⟩
  · rw [Ahead, hfront' ha]
    have hne := h'.adds.route_ne (hperm'.mem_iff.mpr hb) a.writer
    rwa [Streams.route_outline] at hne
  · exact hbehind.imp_of_mem fun ha hb hab => hback' ha hb hab
  · exact hback' ha ha (hback.self a (List.mem_cons_of_mem _ ha))
  · obtain ha | ha := List.mem_append.mp ha
    · rw [Ahead, hfront' ha]
      exact hcross a ha b (List.mem_cons_of_mem _ hb)
    · rw [Ahead, hnew' ha]
      exact h'.beyond h (hnew ha) (hmem hb) (hahead b hb)

omit h' in
theorem Orderly.ahead_self : Ahead s job job := by
  obtain ⟨line, hperm, hline⟩ := h.line
  exact hline.self job (hperm.mem_iff.mp List.mem_cons_self)

section

variable (hdone : ∀ out, st = .done out → r₁ = .ok out)
include hdone

omit h h' in
theorem mem_of_done {out : Writer} (heq : st = .done out) :
    out ∈ new.map Job.writer ++ handed r₁ := by
  rw [hdone out heq]
  exact List.mem_append_right _ (List.mem_singleton_self out)

/-- Those that waited for the job do not come to wait for a job that stood behind it. -/
theorem Lays.destined_ne (hst : st ≠ .pending) {b : Job} (hb : b ∈ job :: rest)
    (hahead : Ahead s job b) : s₁.destined st ≠ .pending b.latch := by
  cases st with
  | pending => exact absurd rfl hst
  | done out => exact h'.beyond h (mem_of_done hdone rfl) hb hahead
  | failed e => nofun

omit h in
theorem Lays.destined_ne_nowhere (hst : st ≠ .pending) : s₁.destined st ≠ .nowhere := by
  cases st with
  | pending => exact absurd rfl hst
  | done out => exact h'.orderly.way out (h'.orderly.has out (mem_of_done hdone rfl))
  | failed e => nofun

/-- Where the work ended is not in use any more. -/
theorem Lays.destined_apart (hst : st ≠ .pending) (hw : w ∈ (rest ++ new).map Job.writer ++ outs) :
    (s₁.destined st).Apart (s₁.route w) := by
  cases st with
  | pending => exact absurd rfl hst
  | failed e => exact fun _ => trivial
  | done out =>
    have hall := (h.release.extend h').apart
    rw [hdone out rfl] at hall
    have hmiddle : (((rest ++ new).map Job.writer ++ out :: outs).map s₁.route).Perm
        (s₁.route out :: ((rest ++ new).map Job.writer ++ outs).map s₁.route) :=
      List.perm_middle.map s₁.route
    exact (List.pairwise_cons.mp ((End.apart_perm hmiddle).mp hall)).1 _ (List.mem_map_of_mem hw)

/-- Those that waited for the job lead to where its work ended, or fail. -/
theorem Lays.redirects (ht : t.outline = (s₁.settle job.latch st).outline) (hst : st ≠ .pending) :
    Redirects job.latch (s₁.destined st) s₁ t := by
  refine (redirects_settle (h'.latch_pending h) (fun out heq => ?_) hst).of_outline ht.symm
  exact h'.beyond h (mem_of_done hdone heq) List.mem_cons_self h.ahead_self

/-- **Doing a job keeps order.**  Any job that waits has been done and its latch has been settled;
    what it has put off stands in its place. -/
theorem Orderly.perform (ht : t.outline = (s₁.settle job.latch st).outline) (hst : st ≠ .pending) :
    Orderly t (rest ++ new) outs := by
  have hs₁ : Orderly s₁ (rest ++ new) (handed r₁ ++ outs) := h.release.extend h'
  have hroute := h'.redirects h hdone ht hst
  obtain ⟨line, hperm, hline⟩ := h.line
  obtain ⟨front, back, rfl⟩ := List.append_of_mem (hperm.mem_iff.mp List.mem_cons_self)
  obtain ⟨line', hperm', hline'⟩ := h'.orderly.line
  have hrest : rest.Perm (front ++ back) := (hperm.trans List.perm_middle).cons_inv
  obtain ⟨-, hback, -⟩ := inLine_append.mp hline
  have hdestined : ∀ b ∈ back, s₁.destined st ≠ .pending b.latch := fun b hb =>
    h'.destined_ne h hdone hst
      (List.mem_cons_of_mem _ (hrest.mem_iff.mpr (List.mem_append_right _ hb)))
      (List.rel_of_pairwise_cons hback.ahead hb)
  have hhas (w : Writer) : t.outline.Has w ↔ s₁.outline.Has w := by
    rw [ht, outline_settle, has_settle_iff]
  refine ⟨?_, fun w hw => ?_, fun w hw => ?_, fun job' hjob => ?_, hs₁.nodup,
    ⟨front ++ line' ++ back, ?_, h'.inLine h hroute hrest hline hperm' hline' hdestined⟩, ?_⟩
  · rw [ht, outline_settle]
    exact hs₁.closed.settle fun out heq => h'.orderly.has out (mem_of_done hdone heq)
  · by_cases hwaits : s₁.route w = .pending job.latch
    · rw [hroute.moved hwaits]
      exact h'.destined_ne_nowhere hdone hst
    · rw [hroute.same hwaits]
      exact hs₁.way w ((hhas w).mp hw)
  · exact (hhas w).mpr
      (hs₁.has w (((List.sublist_append_right _ outs).append_left _).subset hw))
  · have hne : job'.latch ≠ job.latch := by
      obtain hjob | hjob := List.mem_append.mp hjob
      · intro heq
        exact (List.nodup_cons.mp h.nodup).1 (heq ▸ List.mem_map_of_mem hjob)
      · exact h'.latch_ne h hjob
    rw [← status?_outline, ht, status?_outline, status?_settle_of_ne hne]
    exact hs₁.pending job' hjob
  · calc (rest ++ new).Perm (front ++ back ++ line') := hrest.append hperm'
      _ = front ++ (back ++ line') := List.append_assoc _ _ _
      List.Perm _ (front ++ (line' ++ back)) := List.perm_append_comm.append_left front
      _ = front ++ line' ++ back := (List.append_assoc _ _ _).symm
  · exact hroute.apart (hs₁.drop (List.sublist_append_right _ outs)).apart
      fun w hw => h'.destined_apart h hdone hst hw

end

end Perform

/-! ## Actions -/

/-- An outline holds no text that could change. -/
theorem Touches.anywhere (h : Touches e s.outline t.outline) (x : End) :
    Touches x s.outline t.outline := by
  have hall {y : End} {text : String} (hy : s.outline.content y = some text) :
      t.outline.content y = some text := by
    obtain ⟨text', hy'⟩ := h.exists_content hy
    rw [hy', content_outline hy', content_outline hy]
  exact ⟨h.status, fun hy _ => hall hy, fun hy => ⟨_, hall hy⟩⟩

/-- Streams without jobs that wait. -/
theorem Orderly.of_writer (hclosed : s.outline.Closed)
    (hway : ∀ w, s.outline.Has w → s.route w ≠ .nowhere) (hout : s.outline.Has out) :
    Orderly s [] [out] where
  closed := hclosed
  way := hway
  has _ hw := List.mem_singleton.mp hw ▸ hout
  pending := List.forall_mem_nil _
  nodup := List.nodup_nil
  line := ⟨[], .refl [], .nil, List.forall_mem_nil _⟩
  apart := List.pairwise_singleton _ _

theorem Orderly.of_out (h : Orderly s jobs outs) (hout : s.outline.Has out) :
    Orderly s [] [out] :=
  .of_writer h.closed h.way hout

section Actions

variable (h : Orderly s [] [out])
include h

theorem Orderly.has_out : s.outline.Has out :=
  h.has out (List.mem_singleton_self out)

/-- An action that puts nothing off, and hands its writer on. -/
theorem Lays.of_touches (hclosed : t.outline.Closed)
    (hway : ∀ w', t.outline.Has w' → t.route w' ≠ .nowhere)
    (ht : Touches (s.route out) s.outline t.outline)
    (hsettled : ∀ {n}, s.status? n = none → t.status? n = some .pending → r = .error .exhausted)
    (hfills : Fills (s.route out) s t) (hr : ∀ out', r = .ok out' → out' = out)
    (hblocked : r ≠ .error .blocked) : Lays (s.route out) s t [] r := by
  have hout := ht.has h.has_out
  refine ⟨.of_touches ht hclosed fun out' heq => ?_, ?_, fun hn ht => .inr (hsettled hn ht), hfills,
    hblocked⟩
  · rw [hr out' heq, ht.route_eq h.closed h.has_out, Streams.route_outline]
    exact ⟨hout, rfl⟩
  · have hall : Orderly t [] [out] := .of_writer hclosed hway hout
    cases r with
    | ok out' => exact hr out' rfl ▸ hall
    | error _ => exact hall.drop (List.nil_sublist _)

/-- An action that leaves the outline as it is. -/
theorem Lays.nothing (ht : t.outline = s.outline) (hfills : Fills (s.route out) s t)
    (hr : ∀ out', r = .ok out' → out' = out) (hblocked : r ≠ .error .blocked) :
    Lays (s.route out) s t [] r := by
  have hstatus (n : Nat) : t.status? n = s.status? n := by
    rw [← status?_outline, ht, status?_outline]
  refine .of_touches h (ht ▸ h.closed) (fun w hw => ?_) (ht ▸ .refl _ _) (fun hn hpending => ?_)
    hfills hr hblocked
  · rw [← Streams.route_outline, ht, Streams.route_outline]
    exact h.way w (ht ▸ hw)
  · rw [hstatus, hn] at hpending
    cases hpending

omit h in
/-- One action after another. -/
theorem Lays.seq (hx : Lays (s.route out) s t jobs (.ok w)) (hy : Lays (t.route w) t u new r) :
    Lays (s.route out) s u (jobs ++ new) r := by
  have hall := hx.orderly.extend hy
  rw [List.append_nil] at hall
  have hbeyond := (hx.adds.writer w (.inr rfl)).2
  rw [Streams.route_outline] at hbeyond
  have hadds : Adds (t.outline.route w) t.outline u.outline new r := by
    rw [Streams.route_outline]
    exact hy.adds
  refine ⟨hx.adds.seq hadds, hall, fun {n} hn hpending => ?_,
    hx.fills.trans (hbeyond.imp id And.right) hy.fills, hy.unblocked⟩
  cases hst : t.status? n with
  | none =>
    obtain ⟨job, hjob, heq⟩ | hexhausted := hy.settled hst hpending
    · exact .inl ⟨job, List.mem_append_right _ hjob, heq⟩
    · exact .inr hexhausted
  | some st =>
    cases (hy.adds.status_outline hst).symm.trans hpending
    obtain ⟨job, hjob, heq⟩ | hexhausted := hx.settled hn hst
    · exact .inl ⟨job, List.mem_append_left _ hjob, heq⟩
    · cases hexhausted

omit h in
theorem touches_opened (s : Streams) (dest : Output) (e : End) :
    Touches e s.outline (s.openOutput dest).2.outline := by
  refine touches_of_outputs _ rfl fun k hk => ?_
  simp only [outline, openOutput, List.map_append]
  exact List.getElem?_append_left hk

/-- An action at a destination that has been opened for it. -/
theorem Orderly.opened (dest : Output) :
    Orderly (s.openOutput dest).2 [] [.direct s.outputs.length] := by
  have hstatus (n : Nat) : (s.openOutput dest).2.outline.status? n = s.outline.status? n := rfl
  have htouches := touches_opened s dest .nowhere
  refine .of_writer (h.closed.of_status htouches hstatus) (fun w hw => ?_) ?_
  · cases w with
    | direct k =>
      rw [← Streams.route_outline, Leads.route_eq ⟨_, .direct k⟩]
      nofun
    | latched n =>
      have hold : s.outline.Has (.latched n) := hw
      rw [← Streams.route_outline, htouches.route_eq h.closed hold, Streams.route_outline]
      exact h.way _ hold
  · exact has_outline_direct.mpr (by simp [openOutput])

theorem Lays.opened {dest : Output}
    (h' : Lays (.output s.outputs.length) (s.openOutput dest).2 t [] r₁)
    (hr : ∀ out', r = .ok out' → out' = out) (hblocked : r ≠ .error .blocked)
    (hexhausted : r₁ = .error .exhausted → r = .error .exhausted) :
    Lays (s.route out) s t [] r := by
  have hnew := touches_opened s dest (.output s.outputs.length)
  refine .of_touches h h'.orderly.closed h'.orderly.way
    ((hnew.trans (.refl _ _) h'.adds.touches).anywhere _) (fun hn hpending => ?_)
    (h'.fills.of_opened dest _) hr hblocked
  obtain ⟨_, hjob, -⟩ | heq := h'.settled hn hpending
  · cases hjob
  · exact hexhausted heq

end Actions

/-! ## Submitting a job -/

theorem status?_newLatch_of_ne (h : n ≠ s.newLatch.1) :
    s.newLatch.2.status? n = s.status? n := by
  rw [status?, status?, newLatch]
  obtain hlt | heq | hgt := Nat.lt_trichotomy n s.latches.length
  · rw [List.getElem?_append_left hlt]
  · exact absurd heq h
  · rw [List.getElem?_eq_none (by simp; omega), List.getElem?_eq_none (Nat.le_of_lt hgt)]

theorem Orderly.adds_submitted (h : Orderly s [] [job.writer])
    (hlatch : job.latch = s.newLatch.1) :
    Adds (s.route job.writer) s.outline s.newLatch.2.outline [job] (.ok (.latched job.latch)) := by
  rw [outline_newLatch, ← Streams.route_outline]
  exact Streams.adds_submitted h.closed h.has_out (hlatch.trans (newLatch_outline s).symm)

/-- A job that has been submitted waits at its latch. -/
theorem Orderly.submitted (h : Orderly s [] [job.writer]) (hlatch : job.latch = s.newLatch.1) :
    Orderly s.newLatch.2 [job] [.latched job.latch] := by
  have hadds := h.adds_submitted hlatch
  have hroute : s.newLatch.2.route job.writer = s.route job.writer :=
    hadds.route_outline h.closed h.has_out
  have hnew : s.newLatch.2.route (.latched job.latch) = .pending job.latch := by
    rw [hlatch, route_newLatch]
  have hne : s.route job.writer ≠ .pending job.latch := by
    have hne := hadds.route_ne List.mem_cons_self job.writer
    rwa [Streams.route_outline] at hne
  have hself : Ahead s.newLatch.2 job job := by
    rw [Ahead, hroute]
    exact hne
  refine ⟨hadds.closed, fun w hw => ?_, fun w hw => ?_, fun job' hjob => ?_,
    List.pairwise_singleton _ _,
    ⟨[job], .refl _, List.pairwise_singleton _ _, fun a ha => List.mem_singleton.mp ha ▸ hself⟩,
    ?_⟩
  · cases w with
    | direct k =>
      rw [← Streams.route_outline, Leads.route_eq ⟨_, .direct k⟩]
      nofun
    | latched n =>
      by_cases hn : n = job.latch
      · rw [hn, hnew]
        nofun
      · have hold : s.outline.Has (.latched n) := by
          obtain ⟨st, hst⟩ := hw
          rw [status?_outline, status?_newLatch_of_ne (hlatch ▸ hn)] at hst
          exact ⟨st, (status?_outline s n).trans hst⟩
        rw [hadds.route_outline h.closed hold]
        exact h.way _ hold
  · obtain rfl | hw := List.mem_cons.mp hw
    · exact (hadds.writer _ (.inl ⟨job, List.mem_cons_self, rfl⟩)).1
    · exact (hadds.writer _ (.inr (congrArg _ (List.mem_singleton.mp hw).symm))).1
  · obtain rfl := List.mem_singleton.mp hjob
    rw [hlatch]
    exact status?_newLatch_self s
  · simp only [List.map_cons, List.map_nil, List.singleton_append, hroute, hnew]
    refine List.pairwise_cons.mpr ⟨fun y hy => ?_, List.pairwise_singleton _ _⟩
    obtain rfl := List.mem_singleton.mp hy
    exact fun heq => absurd heq hne

theorem Lays.submitted (h : Orderly s [] [job.writer]) (hlatch : job.latch = s.newLatch.1) :
    Lays (s.route job.writer) s s.newLatch.2 [job] (.ok (.latched job.latch)) := by
  refine ⟨h.adds_submitted hlatch, h.submitted hlatch, fun {n} hn hpending => .inl ?_,
    fills_newLatch _ s, nofun⟩
  by_cases heq : n = s.newLatch.1
  · exact ⟨job, List.mem_cons_self, hlatch.trans heq.symm⟩
  · rw [status?_newLatch_of_ne heq, hn] at hpending
    cases hpending

/-! ## Settling the latch of a job -/

theorem complete_outline (s : Streams) (m : Nat) (out : Writer) :
    s.outline.complete m out = s.outline.settle m (.done out) := by
  have hheld : ((s.outline.latches[m]?).map Latch.held).getD "" = "" := by
    simp only [outline, List.getElem?_map, Option.map_map]
    cases s.latches[m]? <;> rfl
  simp only [complete, hheld]
  rfl

/-- How the latch of a job is settled when its work has ended, with a writer or a failure. -/
theorem exists_conclude (job : Job) (s : Streams) (hblocked : r ≠ .error .blocked)
    (hexhausted : r ≠ .error .exhausted) :
    ∃ st, (job.conclude r s).outline = (s.settle job.latch st).outline ∧ st ≠ .pending ∧
      ∀ out, st = .done out → r = .ok out := by
  cases r with
  | ok out =>
    obtain ⟨t, st, heq, ht, -, hst⟩ := exists_complete job.latch out s
    refine ⟨st, ?_, ?_, fun out' hdone => ?_⟩
    · rw [Job.conclude, heq, outline_settle, outline_settle, ht]
    · obtain rfl | ⟨_, rfl⟩ := hst <;> simp
    · obtain rfl | ⟨_, rfl⟩ := hst
      · cases hdone
        rfl
      · cases hdone
  | error cause =>
    cases cause with
    | error e => exact ⟨.failed e, rfl, by simp, by simp⟩
    | panic message => exact ⟨.failed _, rfl, by simp, by simp⟩
    | blocked => exact absurd rfl hblocked
    | exhausted => exact absurd rfl hexhausted

theorem fills_conclude (job : Job) (r : Except Stop Writer) (s : Streams) :
    Fills (s.landing r) s (job.conclude r s) := by
  cases r with
  | ok out =>
    obtain ⟨t, st, heq, -, hfills, -⟩ := exists_complete job.latch out s
    rw [Job.conclude, heq]
    exact hfills.trans (.inl rfl) (fills_settle _ _ _ _)
  | error cause =>
    cases cause with
    | error e => exact fills_settle _ _ (.failed e) s
    | panic message => exact fills_settle _ _ (.failed _) s
    | blocked => exact .refl _ s
    | exhausted => exact .refl _ s

/-- In the outline, a job concludes as in the streams, or fails. -/
theorem exists_conclude_outline (job : Job) (s : Streams) (r : Except Stop Writer) :
    ∃ r', (job.conclude r s).outline = job.conclude r' s.outline ∧
      (r' = r ∨ ∃ cause, r' = .error cause) := by
  cases r with
  | ok out =>
    obtain ⟨t, st, heq, ht, -, rfl | ⟨e, rfl⟩⟩ := exists_complete job.latch out s
    · refine ⟨.ok out, ?_, .inl rfl⟩
      rw [Job.conclude, heq, outline_settle, ht, Job.conclude, complete_outline]
    · refine ⟨.error (.error e), ?_, .inr ⟨_, rfl⟩⟩
      rw [Job.conclude, heq, outline_settle, ht]
      rfl
  | error cause =>
    refine ⟨.error cause, ?_, .inl rfl⟩
    cases cause with
    | error e => exact outline_settle s job.latch (.failed e)
    | panic message => exact outline_settle s job.latch (.failed _)
    | blocked => rfl
    | exhausted => rfl

theorem verdict_eq_ok {r : Except Stop Writer} (hblocked : r ≠ .error .blocked)
    (hexhausted : r ≠ .error .exhausted) : Job.verdict r = .ok () := by
  cases r with
  | ok _ => rfl
  | error cause =>
    cases cause with
    | error _ => rfl
    | panic _ => rfl
    | blocked => exact absurd rfl hblocked
    | exhausted => exact absurd rfl hexhausted

section AtOnce

variable (h : Orderly s [] [job.writer]) (hlatch : job.latch = s.newLatch.1)
  (h' : Lays (s.newLatch.2.route job.writer) s.newLatch.2 s₁ jobs r₁)
include h hlatch

omit hlatch in
theorem Orderly.route_newLatch : s.newLatch.2.route job.writer = s.route job.writer := by
  have htouches : Touches (s.newLatch.2.route job.writer) s.outline s.newLatch.2.outline := by
    rw [outline_newLatch]
    exact touches_newLatch _ _
  rw [← Streams.route_outline, htouches.route_eq h.closed h.has_out, Streams.route_outline]

include h'

/-- To those outside, the job and the submission are one action at the writer. -/
theorem Lays.adds_at_once : Adds (s.route job.writer) s.outline (job.conclude r₁ s₁).outline jobs
    (.ok (.latched job.latch)) := by
  have hnew := h.submitted hlatch
  have hnone : s.status? job.latch = none := by
    simp [status?, hlatch, newLatch]
  obtain ⟨r', heq, hr'⟩ := exists_conclude_outline job s₁ r₁
  have hadds : Adds (s.newLatch.2.outline.route job.writer) s.newLatch.2.outline s₁.outline jobs
      r' := by
    rw [Streams.route_outline]
    obtain rfl | ⟨cause, rfl⟩ := hr'
    · exact h'.adds
    · exact h'.adds.of_error cause
  have hperformed : Performed (fun _ _ _ => False) s.newLatch.2.outline s₁.outline job jobs r' :=
    ⟨hnew.closed, (status?_outline _ _).trans (hnew.pending job List.mem_cons_self), hadds,
      fun _ hfalse => hfalse.elim⟩
  rw [heq, ← h.route_newLatch, ← Streams.route_outline]
  refine hperformed.adds_at_once ?_ ((status?_outline s _).trans hnone)
  rw [Streams.route_outline, outline_newLatch]
  exact touches_newLatch _ _

omit hlatch in
/-- So they are to what is written. -/
theorem Lays.fills_at_once : Fills (s.route job.writer) s (job.conclude r₁ s₁) := by
  have hland : s₁.landing r₁ = s.route job.writer ∨ ∀ k, s₁.landing r₁ ≠ .output k := by
    cases hr : r₁ with
    | ok out =>
      obtain heq | ⟨-, hne⟩ := (h'.adds.writer out (.inr hr)).2
      · rw [Streams.route_outline] at heq
        exact .inl (heq.trans h.route_newLatch)
      · rw [Streams.route_outline] at hne
        exact .inr hne
    | error _ => exact .inr (by rintro _ ⟨⟩)
  exact ((fills_newLatch _ s).trans (.inl h.route_newLatch) h'.fills).trans hland
    (fills_conclude job r₁ s₁)

/-- A job that is done as soon as it is submitted is an action at its writer. -/
theorem Lays.at_once : Lays (s.route job.writer) s (job.conclude r₁ s₁) jobs
    ((Job.verdict r₁).map fun _ => .latched job.latch) := by
  have hnew := h.submitted hlatch
  have hadds := h'.adds_at_once h hlatch
  have hfills := h'.fills_at_once h
  by_cases hexhausted : r₁ = .error .exhausted
  · subst hexhausted
    exact ⟨hadds.of_error _, h'.orderly, fun _ _ => .inr rfl, hfills, by rintro ⟨⟩⟩
  · obtain ⟨st, heq, hst, hdone⟩ := exists_conclude job s₁ h'.unblocked hexhausted
    rw [verdict_eq_ok h'.unblocked hexhausted]
    refine ⟨hadds, hnew.perform h' hdone heq hst, fun {n} hn hpending => ?_, hfills, by rintro ⟨⟩⟩
    obtain ⟨hne, hpending⟩ := h'.pending_of_settled hnew heq hst hpending
    have hnew' : s.newLatch.2.status? n = none := by
      rw [status?_newLatch_of_ne (hlatch ▸ hne), hn]
    exact .inl ((h'.settled hnew' hpending).resolve_right hexhausted)

end AtOnce

end Mustache.Streams
