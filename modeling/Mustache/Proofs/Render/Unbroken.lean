import Mustache.Proofs.Render.Settling

/-! # No failure is lost

The jobs that wait stand in a chain from the destination of a render to the writer that it has
handed on.  When the work of one of them fails, the chain ends there, and whatever is done
afterwards, the writer that has been handed on is behind the gap.  So if waiting at that writer goes
well in the end, no latch has failed.

The chain is the one of `Streams.Owes`, over the outline of the streams: texts play no part.

* `Streams.Chain` — the jobs that wait stand in a chain, up to where it ends.
* `Streams.Chain.conclude` — the chain after one of the jobs has been done.
* `Render.chain_effects` — rendering makes chains.
* `Template.unfailed_of_ok` — a render that has gone well has no latch that has failed.
-/

namespace Mustache

open Streams (Orderly Lays Owes Adds Performed handed)

variable {o : Options} {job : Job} {e : Streams.End} {jobs jobs' rest new : List Job}
  {r r₁ : Except Stop Writer} {good good₁ : Bool} {s s₁ t u : Streams} {out : Writer}

namespace Streams

variable {M M' : Job → String → Bool → Prop} {full text more : String} {e' : End}
  {live : List Job} {L : List End} {bad : Option Nat}

/-! ## Chains -/

theorem Spells.imp_of_mem (h : Spells M s e live e' text)
    (hM : ∀ job ∈ live, ∀ {text}, M job text true → M' job text true) :
    Spells M' s e live e' text := by
  induction h with
  | nil e => exact .nil e
  | cons hroute hheld hmeans _ ih =>
    exact .cons hroute hheld (hM _ List.mem_cons_self hmeans)
      (ih fun job hjob => hM job (List.mem_cons_of_mem _ hjob))

theorem Rest.imp_of_mem (h : Rest M s L e' r rest more good)
    (hM : ∀ job ∈ rest, ∀ {text}, M job text false → M' job text false) :
    Rest M' s L e' r rest more good := by
  cases h with
  | good hr hout => exact .good hr hout
  | failed hdead hr => exact .failed hdead hr
  | failing hroute hmeans hdead hr =>
    exact .failing hroute (hM _ List.mem_cons_self hmeans) hdead hr

/-- What is owed depends on what the jobs that wait mean to do, and on no other ones. -/
theorem Owes.imp_of_mem (h : Owes M s e jobs r full good)
    (hM : ∀ job ∈ jobs, ∀ {text good}, M job text good → M' job text good) :
    Owes M' s e jobs r full good := by
  cases h with
  | intro hperm hspells hheld hrest hfull =>
    refine .intro hperm (hspells.imp_of_mem fun job hjob => ?_) hheld
      (hrest.imp_of_mem fun job hjob => ?_) hfull
    · exact hM job (hperm.mem_iff.mpr (List.mem_append_left _ hjob))
    · exact hM job (hperm.mem_iff.mpr (List.mem_append_right _ hjob))

/-- Whatever comes after the chain writes at its end, or is dead. -/
theorem Rest.at_or_dead (h : Rest M s L e' r rest more good) {w : Writer}
    (hw : Awaits rest r w) : s.route w = e' ∨ Dead s L w := by
  cases h with
  | good hr hout =>
    obtain ⟨_, hjob, -⟩ | hw := hw
    · cases hjob
    · cases hr.symm.trans hw
      exact .inl hout
  | failed hdead hr =>
    obtain ⟨job, hjob, rfl⟩ | hw := hw
    · exact .inr (hdead job hjob)
    · exact .inr (hr w hw)
  | failing hroute _ hdead hr =>
    obtain ⟨job, hjob, rfl⟩ | hw := hw
    · obtain rfl | hjob := List.mem_cons.mp hjob
      · exact .inl hroute
      · exact .inr (hdead job hjob)
    · exact .inr (hr w hw)

/-- A render that has stopped behind a chain of jobs. -/
theorem Owes.stopped (h : Owes M s e jobs r full good) (cause : Stop) :
    Owes M s e jobs (.error cause) full false := by
  cases good with
  | false => exact h.of_error
  | true =>
    cases h with
    | intro hperm hspells hheld hrest hfull =>
      cases hrest with
      | good _ _ =>
        exact .intro hperm hspells hheld (.failed (List.forall_mem_nil _) (by rintro _ ⟨⟩)) hfull

/-- Texts play no part, and all jobs are expected to go well but one, if there is such a one. -/
def Expects (bad : Option Nat) (job : Job) (text : String) (good : Bool) : Prop :=
  text = "" ∧ (good = false ↔ bad = some job.latch)

/-- The jobs that wait stand in a chain from an end to where a render has handed a writer on, or up
    to where something has failed or is going to fail. -/
def Chain (bad : Option Nat) (s : Streams) (e : End) (jobs : List Job) (r : Except Stop Writer)
    (good : Bool) : Prop :=
  Owes (Expects bad) s.outline e jobs r "" good

namespace Chain

theorem spells_eq (h : Spells (Expects bad) s.outline e live e' text) : text = "" := by
  induction h with
  | nil e => rfl
  | cons _ hheld hmeans _ ih =>
    rw [content_outline hheld, hmeans.1, ih]
    rfl

/-- There is no text to be owed. -/
theorem of_owes (h : Owes (Expects bad) s.outline e jobs r full good) :
    s.Chain bad e jobs r good := by
  have hempty : full = "" := by
    cases h with
    | intro _ hspells hheld hrest hfull =>
      rw [hfull, spells_eq hspells, content_outline hheld]
      cases hrest with
      | good _ _ => rfl
      | failed _ _ => rfl
      | failing _ hmeans _ _ =>
        rw [hmeans.1]
        rfl
  rw [Chain, ← hempty]
  exact h

/-- Jobs at other latches. -/
theorem of_latch_ne {bad' : Option Nat} (h : s.Chain bad e jobs r good)
    (hbad : ∀ job ∈ jobs, bad ≠ some job.latch) (hbad' : ∀ job ∈ jobs, bad' ≠ some job.latch) :
    s.Chain bad' e jobs r good := by
  refine h.imp_of_mem fun job hjob {text good} hmeans => ⟨hmeans.1, ?_⟩
  rw [hmeans.2]
  exact iff_of_false (hbad job hjob) (hbad' job hjob)

/-- Where the writer that is handed on leads to a destination, the chain is whole. -/
theorem good_of_route {k : Nat} (h : s.Chain bad e jobs (.ok out) good)
    (hroute : s.route out = .output k) : good = true := by
  cases good with
  | true => rfl
  | false =>
    cases h with
    | intro _ _ _ hrest _ =>
      exact absurd ((Streams.route_outline s out).trans hroute) ((hrest.dead_of_ok rfl).2 k)

/-- A job that has been submitted is a chain. -/
theorem submitted (h : Orderly s [] [job.writer]) (hlatch : job.latch = s.newLatch.1) {held : String}
    (hheld : s.outline.content (s.route job.writer) = some held) :
    s.newLatch.2.Chain none (s.route job.writer) [job] (.ok (.latched job.latch)) true := by
  have hmeans : Expects none job "" true := ⟨rfl, iff_of_false nofun nofun⟩
  rw [← Streams.route_outline] at hheld ⊢
  have howes := owes_submitted h.closed h.has_out (hlatch.trans (newLatch_outline s).symm) hheld
    hmeans
  rw [← outline_newLatch] at howes
  exact of_owes howes

/-- If a job that waits is going to fail, the chain ends where it writes. -/
theorem doom (h : s.Chain none e (job :: rest) r good)
    (hwait : s.outline.Waiting e (job :: rest)) :
    s.Chain (some job.latch) e (job :: rest) r false := by
  cases h with
  | @intro live others e' _ _ _ hperm hspells hheld hrest hfull =>
    have hwait' := hwait.of_perm hperm
    obtain hjob | hjob := List.mem_append.mp (hperm.mem_iff.mp List.mem_cons_self)
    · obtain ⟨front, back, rfl⟩ := List.append_of_mem hjob
      obtain ⟨_, _, _, hfront, hsecond, -⟩ := hspells.split
      cases hsecond with
      | cons hroute hheld₁ _ hback =>
        have hnodup := hwait'.left.nodup
        rw [ends, List.map_append, ← List.cons_append, List.nodup_append] at hnodup
        obtain ⟨-, -, hapart⟩ := hnodup
        -- What was on the chain behind the job is cut off from what comes before it.
        have hgap {w : Writer} (hw : s.outline.route w ∈ ends (.pending job.latch) back) :
            Dead s.outline (ends e front) w := by
          refine ⟨fun hmem => hapart _ hmem _ hw rfl, fun k heq => ?_⟩
          rw [heq] at hw
          change .output k ∈ (job :: back).map fun job => End.pending job.latch at hw
          obtain ⟨_, -, hpending⟩ := List.mem_map.mp hw
          cases hpending
        have hothers {w : Writer} (hw : Awaits others r w) : Dead s.outline (ends e front) w := by
          obtain heq | ⟨hne, houtput⟩ := hrest.at_or_dead hw
          · exact hgap (heq ▸ hback.last_mem)
          · exact ⟨fun hmem => hne (mem_ends_append.mpr (.inl hmem)), houtput⟩
        have hall : (job :: rest).Perm (front ++ job :: (back ++ others)) := by
          rw [← List.cons_append, ← List.append_assoc]
          exact hperm
        refine of_owes (.intro hall (hfront.imp_of_mem fun job' hjob' {text} hmeans => ?_) hheld₁
          (.failing hroute ⟨rfl, iff_of_true rfl rfl⟩ (fun job' hjob' => ?_) fun out hout =>
            hothers (.inr hout)) rfl)
        · refine ⟨hmeans.1, iff_of_false (by rintro ⟨⟩) fun heq => ?_⟩
          exact hapart _ (List.mem_cons_of_mem _ (List.mem_map_of_mem hjob')) _ List.mem_cons_self
            (congrArg End.pending (Option.some.inj heq).symm)
        · obtain hjob' | hjob' := List.mem_append.mp hjob'
          · exact hgap (hback.route_mem hjob')
          · exact hothers (.inl ⟨job', hjob', rfl⟩)
    · cases hrest with
      | good _ _ => cases hjob
      | failing _ hmeans _ _ => cases hmeans.2.mp rfl
      | failed hdead hr =>
        have hnodup := hwait'.nodup
        rw [ends, List.map_append, ← List.cons_append, List.nodup_append] at hnodup
        refine .intro hperm (hspells.imp_of_mem fun job' hjob' {text} hmeans => ?_) hheld
          (.failed hdead hr) hfull
        refine ⟨hmeans.1, iff_of_false (by rintro ⟨⟩) fun heq => ?_⟩
        exact hnodup.2.2 _ (List.mem_cons_of_mem _ (List.mem_map_of_mem hjob')) _
          (List.mem_map_of_mem hjob) (congrArg End.pending (Option.some.inj heq).symm)

section

variable {outs : List Writer} (hs : Orderly s (job :: rest) outs)
  (hwait : s.outline.Waiting e (job :: rest)) (hr : ∀ out, r = .ok out → s.outline.Has out)
  (h : s.Chain none e (job :: rest) r good)

include hs hwait hr h

/-- The work of a job of the chain has gone well. -/
theorem conclude_well {out' : Writer} (hlays : Lays (s.route job.writer) s s₁ new (.ok out'))
    (hwork : ∀ {held}, s.outline.content (s.route job.writer) = some held →
      s₁.Chain none (s.route job.writer) new (.ok out') true)
    (houtline : (job.conclude (.ok out') s₁).outline = job.conclude (.ok out') s₁.outline) :
    (job.conclude (.ok out') s₁).Chain none e (rest ++ new) r good ∧
      ∀ n e, (job.conclude (.ok out') s₁).status? n = some (.failed e) →
        s₁.status? n = some (.failed e) := by
  have hlatch : s.outline.status? job.latch = some .pending :=
    (status?_outline s _).trans (hs.pending job List.mem_cons_self)
  have hadds : Adds (s.outline.route job.writer) s.outline s₁.outline new (.ok out') := by
    rw [Streams.route_outline]
    exact hlays.adds
  have hperformed : Performed (Expects none) s.outline s₁.outline job new (.ok out') := by
    refine ⟨hs.closed, hlatch, hadds, fun {held text good} hheld hmeans => ?_⟩
    obtain ⟨rfl, hgood⟩ := hmeans
    obtain rfl : good = true := by
      cases good with
      | true => rfl
      | false => cases hgood.mp rfl
    rw [Streams.route_outline] at hheld ⊢
    rw [content_outline hheld]
    exact hwork hheld
  refine ⟨?_, fun n e hn => ?_⟩
  · rw [Chain, houtline]
    exact hperformed.owes_after hwait hr h
  · rw [← status?_outline, houtline, Job.conclude, complete_outline] at hn
    by_cases hne : n = job.latch
    · subst hne
      rw [status?_settle_self (lt_of_status? (hadds.touches.status hlatch))] at hn
      cases hn
    · rw [status?_settle_of_ne hne, status?_outline] at hn
      exact hn

/-- The work of a job of the chain has failed, or what it has put off has, whatever it is that the
    job ends with. -/
theorem conclude_failing {r' : Except Stop Writer} (hlays : Lays (s.route job.writer) s s₁ new r₁)
    (hadds : Adds (s.outline.route job.writer) s.outline s₁.outline new r')
    (hwork : ∀ {held}, s.outline.content (s.route job.writer) = some held →
      s₁.Chain none (s.route job.writer) new r' false)
    (houtline : (job.conclude r₁ s₁).outline = job.conclude r' s₁.outline) :
    (job.conclude r₁ s₁).Chain none e (rest ++ new) r false := by
  have hlatch : s.outline.status? job.latch = some .pending :=
    (status?_outline s _).trans (hs.pending job List.mem_cons_self)
  have hnew : ∀ job' ∈ new, some job.latch ≠ some job'.latch := fun job' hjob' heq =>
    hlays.latch_ne hs hjob' (Option.some.inj heq).symm
  have hperformed : Performed (Expects (some job.latch)) s.outline s₁.outline job new r' := by
    refine ⟨hs.closed, hlatch, hadds, fun {held text good} hheld hmeans => ?_⟩
    obtain ⟨rfl, hgood⟩ := hmeans
    obtain rfl := hgood.mpr rfl
    rw [Streams.route_outline] at hheld ⊢
    rw [content_outline hheld]
    exact (hwork hheld).of_latch_ne (fun _ _ => (Option.some_ne_none _).symm) hnew
  have hafter : (job.conclude r₁ s₁).Chain (some job.latch) e (rest ++ new) r false := by
    rw [Chain, houtline]
    exact hperformed.owes_after hwait hr (h.doom hwait)
  refine hafter.of_latch_ne (fun job' hjob' => ?_) fun _ _ => (Option.some_ne_none _).symm
  obtain hjob' | hjob' := List.mem_append.mp hjob'
  · intro heq
    exact (List.nodup_cons.mp hs.nodup).1 (Option.some.inj heq ▸ List.mem_map_of_mem hjob')
  · exact hnew job' hjob'

end

/-- **A chain stays broken.**  After a job of the chain has been done, what it has put off stands in
    its place; if its work has failed, the chain ends there. -/
theorem conclude {outs : List Writer} (hs : Orderly s (job :: rest) outs)
    (hlays : Lays (s.route job.writer) s s₁ new r₁)
    (hwait : s.outline.Waiting e (job :: rest)) (hr : ∀ out, r = .ok out → s.outline.Has out)
    (hwork : ∀ {held}, s.outline.content (s.route job.writer) = some held →
      s₁.Chain none (s.route job.writer) new r₁ good₁)
    (h : s.Chain none e (job :: rest) r good) :
    ∃ good', (job.conclude r₁ s₁).Chain none e (rest ++ new) r good' ∧
      (good' = true → good = true ∧ good₁ = true ∧
        ∀ n e, (job.conclude r₁ s₁).status? n = some (.failed e) →
          s₁.status? n = some (.failed e)) := by
  -- In the outline a job that has not been able to hand its text on has failed.
  obtain ⟨r', houtline, hr'⟩ := exists_conclude_outline job s₁ r₁
  by_cases hwell : good₁ = true ∧ ∃ out, r' = .ok out
  · obtain ⟨rfl, out, rfl⟩ := hwell
    obtain rfl : r₁ = .ok out := (hr'.resolve_right (by rintro ⟨_, ⟨⟩⟩)).symm
    obtain ⟨hchain, hsound⟩ := conclude_well hs hwait hr h hlays hwork houtline
    exact ⟨good, hchain, fun hgood => ⟨hgood, rfl, hsound⟩⟩
  · have hadds : Adds (s.outline.route job.writer) s.outline s₁.outline new r' := by
      rw [Streams.route_outline]
      obtain rfl | ⟨cause, rfl⟩ := hr'
      · exact hlays.adds
      · exact hlays.adds.of_error cause
    refine ⟨false, conclude_failing hs hwait hr h hlays hadds (fun hheld => ?_) houtline,
      by rintro ⟨⟩⟩
    obtain rfl | ⟨cause, rfl⟩ := hr'
    · cases hgood : good₁ with
      | false => exact hgood ▸ hwork hheld
      | true =>
        cases r' with
        | ok out => exact absurd ⟨hgood, out, rfl⟩ hwell
        | error cause => exact (hwork hheld).stopped cause
    · exact (hwork hheld).stopped cause

end Chain

end Streams

namespace Streams

/-- Jobs in order wait, whatever destination they are seen from. -/
theorem Orderly.waiting {outs : List Writer} (h : s.Orderly jobs outs) (k : Nat) :
    s.outline.Waiting (.output k) jobs := by
  refine ⟨fun job hjob => h.has _ (List.mem_append_left _ (List.mem_map_of_mem hjob)),
    fun job hjob => (status?_outline s _).trans (h.pending job hjob),
    List.nodup_cons.mpr ⟨fun hmem => ?_, nodup_pending h.nodup⟩⟩
  obtain ⟨_, -, hpending⟩ := List.mem_map.mp hmem
  cases hpending

theorem exists_output_of_finish (h : Render.ofResult (s.finish out) = .ok ()) :
    ∃ k, s.route out = .output k := by
  rw [finish] at h
  cases hroute : s.route out with
  | output k => exact ⟨k, rfl⟩
  | pending m =>
    rw [hroute] at h
    cases h
  | failed e =>
    rw [hroute] at h
    cases h
  | nowhere =>
    rw [hroute] at h
    cases h

end Streams

/-! ## Rendering -/

/-- What an action has done stands in a chain.  If the chain is whole, no latch has failed that had
    not failed before. -/
structure World.Chains (out : Writer) (w w' : World) (jobs : List Job) (r : Except Stop Writer)
    (good : Bool) : Prop where
  chain : ∀ {held}, w.streams.outline.content (w.streams.route out) = some held →
    w'.streams.Chain none (w.streams.route out) jobs r good
  sound : good = true → ∀ n e, w'.streams.status? n = some (.failed e) →
    w.streams.status? n = some (.failed e)

namespace World.Chains

variable {w w' w₁ w₂ : World} {i : Prop} {out' : Writer} {good' : Bool}

/-- An action that puts nothing off. -/
theorem nothing (h : w.streams.Orderly [] [out]) (hjobs : World.Tidies i out w w' [] r)
    (hr : ∀ out', r = .ok out' → out' = out ∧ ∀ n e, w'.streams.status? n = some (.failed e) →
      w.streams.status? n = some (.failed e)) :
    World.Tidies i out w w' [] r ∧ ∃ good, World.Chains out w w' [] r good := by
  refine ⟨hjobs, ?_⟩
  have hadds := hjobs.lays.adds
  have hcontent {held : String}
      (hheld : w.streams.outline.content (w.streams.route out) = some held) :
      w'.streams.outline.content (w.streams.route out) = some "" := by
    obtain ⟨text, htext⟩ := hadds.touches.exists_content hheld
    rw [htext, Streams.content_outline htext]
  cases r with
  | error cause => exact ⟨false, fun hheld => .failed cause (hcontent hheld), nofun⟩
  | ok out' =>
    obtain ⟨rfl, hsound⟩ := hr out' rfl
    refine ⟨true, fun hheld => .nothing (hcontent hheld) ?_, fun _ => hsound⟩
    rw [Streams.route_outline, hadds.route_outline h.closed h.has_out]

theorem trans (hx : World.Chains out w w₁ jobs (.ok out') good)
    (hlays : Lays (w.streams.route out) w.streams w₁.streams jobs (.ok out'))
    (hlays' : Lays (w₁.streams.route out') w₁.streams w₂.streams jobs' r)
    (hy : World.Chains out' w₁ w₂ jobs' r good') :
    ∃ good, World.Chains out w w₂ (jobs ++ jobs') r good := by
  have hadds := hlays'.adds
  rw [← Streams.route_outline] at hadds
  cases good with
  | false => exact ⟨false, fun hheld => .seq_failed hheld hlays.adds (hx.chain hheld) hadds, nofun⟩
  | true =>
    have hsecond {held : String}
        (hheld : w₁.streams.outline.content (w₁.streams.outline.route out') = some held) :
        Owes (Streams.Expects none) w₂.streams.outline (w₁.streams.outline.route out') jobs' r
          (held ++ "") good' := by
      rw [Streams.route_outline] at hheld ⊢
      rw [Streams.content_outline hheld]
      exact hy.chain hheld
    exact ⟨good', fun hheld => .of_owes (.seq hheld hlays.adds (hx.chain hheld) hadds hsecond),
      fun hgood n e hn => hx.sound rfl n e (hy.sound hgood n e hn)⟩

/-- A text is captured where nothing is put off. -/
theorem captured (hopened : World.Chains (.direct (w.streams.openOutput (.buffer "")).1)
      { w with streams := (w.streams.openOutput (.buffer "")).2 } w' [] r good)
    (hout : ∀ out', r = .ok out' → out' = .direct (w.streams.openOutput (.buffer "")).1)
    (hr : (r.bind fun out' => Render.ofResult (w'.streams.finish out')).map (fun _ => out) =
      .ok out') (n : Nat) (e : Error) (hn : w'.streams.status? n = some (.failed e)) :
    w.streams.status? n = some (.failed e) := by
  obtain ⟨out', rfl⟩ : ∃ out', r = .ok out' := by
    cases r with
    | error _ => cases hr
    | ok out' => exact ⟨out', rfl⟩
  obtain rfl := hout out' rfl
  have hheld : (w.streams.openOutput (.buffer "")).2.outline.content
      (.output (w.streams.openOutput (.buffer "")).1) = some "" := by
    rw [Streams.content_output]
    simp [Streams.outline, Streams.openOutput]
  have hchain := hopened.chain (by rw [Streams.route_direct]; exact hheld)
  exact hopened.sound (hchain.good_of_route (Streams.route_direct _ _)) n e hn

theorem failed_of_newLatch {n : Nat} {e : Error}
    (hn : s.newLatch.2.status? n = some (.failed e)) : s.status? n = some (.failed e) := by
  by_cases hne : n = s.newLatch.1
  · rw [hne, Streams.status?_newLatch_self] at hn
    cases hn
  · rwa [Streams.status?_newLatch_of_ne hne] at hn

/-- A job that is done as soon as it is submitted. -/
theorem performed (h : w.streams.Orderly [] [job.writer])
    (hlatch : job.latch = w.streams.newLatch.1)
    (hlays : Lays (w.opened.streams.route job.writer) w.opened.streams w'.streams jobs r)
    (hwork : World.Chains job.writer w.opened w' jobs r good) :
    ∃ good, World.Chains job.writer w { w' with streams := job.conclude r w'.streams } jobs
      ((Job.verdict r).map fun _ => .latched job.latch) good := by
  cases hheld : w.streams.outline.content (w.streams.route job.writer) with
  | none => exact ⟨false, ⟨fun hsome => (by cases hheld.symm.trans hsome), nofun⟩⟩
  | some held =>
    have hsubmitted := h.submitted hlatch
    have hwait := (h.adds_submitted hlatch).waiting hheld
    have hlatched : ∀ out, (.ok (.latched job.latch) : Except Stop Writer) = .ok out →
        w.opened.streams.outline.Has out := by
      rintro _ ⟨⟩
      exact hsubmitted.has _ (by simp)
    obtain ⟨good', hchain, hgood⟩ := Streams.Chain.conclude hsubmitted hlays hwait hlatched
      hwork.chain (.submitted h hlatch hheld)
    cases hverdict : Job.verdict r with
    | error cause => exact ⟨false, fun _ => hchain.stopped cause, nofun⟩
    | ok _ =>
      refine ⟨good', fun _ => hchain, fun heq n e hn => ?_⟩
      obtain ⟨-, hwell, hsettled⟩ := hgood heq
      exact failed_of_newLatch (hwork.sound hwell n e (hsettled n e hn))

end World.Chains

/-- Rendering makes chains. -/
theorem Render.chain_effects (o : Options) :
    Effects o (fun _ => True) (fun _ _ => true) fun _ i w out result w' =>
      w.streams.Orderly [] [out] → ∃ jobs,
        World.Tidies (i = true ∨ o.schedule = none) out w w' jobs result ∧
          ∃ good, World.Chains out w w' jobs result good where
  keeps := o.handler.keeps_true
  outcome _ _ := trivial
  inherited _ := Site.inherited_true
  grows _ _ h := h
  refl _ _ _ _ h := ⟨[],
    World.Chains.nothing h (.refl h (fun _ heq => (Except.ok.inj heq).symm) nofun)
    fun _ heq => ⟨(Except.ok.inj heq).symm, fun _ _ hn => hn⟩⟩
  fail _ _ _ _ _ h := ⟨[], World.Chains.nothing h (.refl h nofun nofun) nofun⟩
  panic _ _ _ _ _ _ h := ⟨[], World.Chains.nothing h (.refl h nofun nofun) nofun⟩
  exhausted _ _ _ _ h := ⟨[], World.Chains.nothing h (.refl h nofun nofun) nofun⟩
  trans hx hy h := by
    obtain ⟨jobs, hjobs, good, hchain⟩ := hx h
    obtain ⟨jobs', hjobs', good', hchain'⟩ := hy hjobs.orderly
    exact ⟨jobs ++ jobs', hjobs.trans hjobs', hchain.trans hjobs.lays hjobs'.lays hchain'⟩
  write _ _ _ _ text h := ⟨[], World.Chains.nothing h (.write h text) fun _ heq =>
    ⟨Render.eq_of_map_eq_ok heq, fun n _ hn => (Streams.status?_write text _ _ n).symm.trans hn⟩⟩
  load _ _ hy h := by
    obtain ⟨jobs, hjobs, good, hchain⟩ := hy _ (Nat.le_refl _) (Template.similar_refl _) h
    exact ⟨jobs, hjobs.of_eq rfl rfl, good, hchain.chain, hchain.sound⟩
  lookup _ _ _ _ _ _ h := ⟨[], World.Chains.nothing h
    (.nothing h rfl rfl (.refl _ _) (fun _ heq => (Except.ok.inj heq).symm) nofun)
    fun _ heq => ⟨(Except.ok.inj heq).symm, fun _ _ hn => hn⟩⟩
  captured _ _ _ _ _ hx h := by
    obtain ⟨jobs, hjobs, good, hchain⟩ := hx (h.opened _)
    obtain ⟨rfl, hout⟩ := hjobs.inline (.inl rfl)
    exact ⟨[], World.Chains.nothing h (hjobs.captured (.inl rfl) h) fun _ heq =>
      ⟨Render.eq_of_map_eq_ok heq, hchain.captured hout heq⟩⟩
  counted _ _ _ _ _ h := ⟨[], World.Chains.nothing h
    (.nothing h rfl rfl (.refl _ _) (fun _ heq => (Except.ok.inj heq).symm) nofun)
    fun _ heq => ⟨(Except.ok.inj heq).symm, fun _ _ hn => hn⟩⟩
  performed hschedule hnew hx h := by
    have horderly := Orderly.submitted h hnew
    obtain ⟨jobs, hjobs, good, hchain⟩ := hx
      (horderly.of_out (horderly.has _ (List.mem_append_left _ (List.mem_singleton_self _))))
    exact ⟨jobs, ⟨hjobs.queue, .at_once h hnew hjobs.lays,
      fun hi => absurd hi (Context.not_inline hschedule)⟩, hchain.performed h hnew hjobs.lays⟩
  queued hschedule hnew _ h :=
    ⟨[_], ⟨rfl, .submitted h hnew, fun hi => absurd hi (Context.not_inline hschedule)⟩, true,
      fun hheld => .submitted h hnew hheld, fun _ _ _ hn => World.Chains.failed_of_newLatch hn⟩

namespace Template

variable {n : Nat} {t : Template} {scopes : Scopes} {dest : Output} {store : Store}

/-- **No failure is lost.**  A render that has gone well has no latch that has failed. -/
theorem unfailed_of_ok (hok : (renderWithin n o t scopes dest store).result = .ok ()) (m : Nat)
    (e : Error) :
    (renderWithin n o t scopes dest store).final.streams.status? m ≠ some (.failed e) := by
  let r := renderWithin n o t scopes dest store
  let P (w : World) : Prop := ∃ good, w.streams.Chain none (.output 0) w.queue r.handedOn good ∧
    (good = true → ∀ m e, w.streams.status? m ≠ some (.failed e))
  have hafter : P r.after := by
    obtain ⟨jobs, hjobs, good, hchain⟩ := (Render.chain_effects o).within (m := 0) n
      (Code.allSimilar_refl t.codes) (fun _ _ => trivial) .start (.start store ⟨[dest], []⟩)
      (.direct 0) (orderly_start dest)
    have hheld : (World.start store ⟨[dest], []⟩).streams.outline.content (.output 0) = some "" := by
      rw [Streams.content_output]
      rfl
    rw [← Streams.route_direct (World.start store ⟨[dest], []⟩).streams 0] at hheld
    have hstart := hchain.chain hheld
    rw [Streams.route_direct] at hstart
    refine ⟨good, ?_, fun hgood m e hm => by cases hchain.sound hgood m e hm⟩
    rw [show r.after.queue = jobs from hjobs.queue]
    exact hstart
  obtain ⟨good, hchain, hgood⟩ : P r.final := induct hafter (by
    rintro w v job horderly hperm - hstreams ⟨good, hchain, hgood⟩
    rw [← hstreams] at hchain hgood
    have hchain := hchain.of_perm hperm.symm
    obtain ⟨held, hheld⟩ := hchain.exists_content
    obtain ⟨jobs, hjobs, good₁, hwork⟩ := (Render.chain_effects o).work (m := 0) n
      (Awaiting.Similar.refl_true job.awaiting) trivial (fun _ _ => trivial) v job.writer
      (horderly.of_out (horderly.has _ List.mem_cons_self))
    obtain ⟨good', hafter, hwell⟩ := Streams.Chain.conclude horderly hjobs.lays
      (horderly.waiting 0) (fun out hout => horderly.has _ (List.mem_append_right _ (by
        change out ∈ handed r.handedOn
        rw [hout]
        exact List.mem_singleton_self out))) hwork.chain hchain
    rw [Renderer.perform_eq]
    refine ⟨good', ?_, fun hgood' m e hm => ?_⟩
    · simp only [hjobs.queue]
      exact hafter
    · obtain ⟨rfl, rfl, hsettled⟩ := hwell hgood'
      exact hgood rfl m e (hwork.sound rfl m e (hsettled m e hm)))
  have hfinish : r.handedOn.bind (fun out => (Render.finish out r.final).1) = .ok () :=
    result_renderWithin.symm.trans hok
  cases hhanded : r.handedOn with
  | error stop =>
    rw [hhanded] at hfinish
    cases hfinish
  | ok out =>
    rw [hhanded] at hfinish hchain
    obtain ⟨k, hroute⟩ := Streams.exists_output_of_finish hfinish
    exact hgood (hchain.good_of_route hroute) m e

end Template

end Mustache
