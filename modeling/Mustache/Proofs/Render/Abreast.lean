import Mustache.Proofs.Output.Outline
import Mustache.Proofs.Render.Orderly

/-! # Two runs over different destinations

Streams that are the same but for their first destinations.  They stay so as long as both
destinations take the texts that they are given.  When the second one refuses a text, the two runs
part; from then on the first destination of the second run is left alone, if no writer in use leads
there.

* `Output.Abreast` — two destinations that go together until the second one refuses a text.
* `Streams.Linked`, `Streams.Split` — streams before and after that.
* `Streams.Clear` — writers that do not lead to the first destination.
-/

namespace Mustache

/-- Two destinations that go together until the second one refuses a text, for a cause.  Before they
    are linked, and afterwards they are split, whatever the first one is given. -/
structure Output.Abreast (link split : Output → Output → Prop) (cause : String) : Prop where
  write : ∀ {dest dest' : Output} (text : String), link dest dest' →
    (dest.write text).1 = none ∧
      ((dest'.write text).1 = none ∧ link (dest.write text).2 (dest'.write text).2 ∨
        (dest'.write text).1 = some cause ∧ split (dest.write text).2 (dest'.write text).2)
  flush : ∀ {dest dest' : Output}, link dest dest' →
    dest.flushRefusal = none ∧ dest'.flushRefusal = none
  later : ∀ {dest dest' : Output} (text : String), split dest dest' →
    split (dest.write text).2 dest'

namespace Streams

variable {link split : Output → Output → Prop} {cause : String} {s s' t t' : Streams} {e : End}
  {job : Job} {jobs new rest : List Job} {outs ws : List Writer} {w out : Writer} {k : Nat}
  {r : Except Stop Writer}

/-- Streams that are the same but for their first destinations, which are linked. -/
structure Linked (link : Output → Output → Prop) (s s' : Streams) : Prop where
  latches : s'.latches = s.latches
  length : s'.outputs.length = s.outputs.length
  others : ∀ k, k ≠ 0 → s'.outputs[k]? = s.outputs[k]?
  first : ∃ dest dest', s.outputs[0]? = some dest ∧ s'.outputs[0]? = some dest' ∧ link dest dest'

/-- Streams whose first destinations are split. -/
def Split (split : Output → Output → Prop) (s s' : Streams) : Prop :=
  ∃ dest dest', s.outputs[0]? = some dest ∧ s'.outputs[0]? = some dest' ∧ split dest dest'

namespace Linked

variable (h : Linked link s s')
include h

theorem outline_eq : s'.outline = s.outline :=
  Streams.outline_eq h.length (by rw [h.latches])

theorem route_eq (w : Writer) : s'.route w = s.route w := by
  rw [← route_outline, h.outline_eq, route_outline]

theorem orderly (hs : Orderly s jobs outs) : Orderly s' jobs outs := by
  have hroute := h.route_eq
  have hahead (line : List Job) (hline : InLine s line) : InLine s' line :=
    hline.congr fun a _ => hroute a.writer
  obtain ⟨line, hperm, hline⟩ := hs.line
  refine ⟨h.outline_eq ▸ hs.closed, fun w hw => ?_, fun w hw => ?_, fun job hjob => ?_, hs.nodup,
    ⟨line, hperm, hahead line hline⟩, ?_⟩
  · rw [hroute]
    exact hs.way w (h.outline_eq ▸ hw)
  · rw [h.outline_eq]
    exact hs.has w hw
  · rw [status?, h.latches]
    exact hs.pending job hjob
  · rw [List.map_congr_left fun w _ => hroute w]
    exact hs.apart

theorem of_outputs (hlatches : t'.latches = t.latches) (houtputs : t.outputs = s.outputs)
    (houtputs' : t'.outputs = s'.outputs) : Linked link t t' :=
  ⟨hlatches, by rw [houtputs, houtputs', h.length],
    fun k hk => by rw [houtputs, houtputs', h.others k hk], houtputs ▸ houtputs' ▸ h.first⟩

theorem newLatch : Linked link s.newLatch.2 s'.newLatch.2 :=
  h.of_outputs (by simp only [Streams.newLatch, h.latches]) rfl rfl

theorem settle (m : Nat) (st : Latch.Status) : Linked link (s.settle m st) (s'.settle m st) :=
  h.of_outputs (by simp only [Streams.settle, h.latches]) rfl rfl

theorem openOutput (dest : Output) :
    Linked link (s.openOutput dest).2 (s'.openOutput dest).2 := by
  obtain ⟨first, first', hfirst, hfirst', hlink⟩ := h.first
  have hget {s : Streams} {dest' : Output} (hdest : s.outputs[0]? = some dest') :
      (s.openOutput dest).2.outputs[0]? = some dest' :=
    (List.getElem?_append_left (List.getElem?_eq_some_iff.mp hdest).1).trans hdest
  refine ⟨h.latches, ?_, fun k hk => ?_, first, first', hget hfirst, hget hfirst', hlink⟩
  · simp only [Streams.openOutput, List.length_append, h.length]
  · simp only [Streams.openOutput, List.getElem?_append, h.length, h.others k hk]

theorem zero_lt : 0 < s.outputs.length := by
  obtain ⟨_, _, hfirst, -⟩ := h.first
  exact (List.getElem?_eq_some_iff.mp hfirst).1

theorem flushOutput_eq (habreast : Output.Abreast link split cause) (k : Nat) :
    s'.flushOutput k = s.flushOutput k := by
  by_cases hk : k = 0
  · obtain ⟨dest, dest', hdest, hdest', hlink⟩ := h.first
    obtain ⟨hflush, hflush'⟩ := habreast.flush hlink
    subst hk
    simp only [flushOutput, hdest, hdest', Option.bind_some, hflush, hflush']
  · simp only [flushOutput, h.others k hk]

theorem finish_eq (habreast : Output.Abreast link split cause) (w : Writer) :
    s'.finish w = s.finish w := by
  rw [finish, finish, h.route_eq]
  cases s.route w with
  | output k => exact h.flushOutput_eq habreast k
  | _ => rfl

theorem textOf_eq (hk : k ≠ 0) : s'.textOf k = s.textOf k := by
  rw [textOf, textOf, h.others k hk]

/-- Writing a text, up to the one that is refused. -/
theorem write (habreast : Output.Abreast link split cause) (text : String) (w : Writer) :
    (s'.write text w).1 = (s.write text w).1 ∧
        Linked link (s.write text w).2 (s'.write text w).2 ∨
      s.route w = .output 0 ∧ (s'.write text w).1 = .error (refusal cause) ∧
        Split split (s.write text w).2 (s'.write text w).2 := by
  simp only [Streams.write, h.route_eq w]
  cases s.route w with
  | output k =>
    by_cases hk : k = 0
    · subst hk
      obtain ⟨dest, dest', hdest, hdest', hlink⟩ := h.first
      obtain ⟨htook, ⟨htook', hlinked⟩ | ⟨hrefused, hsplit⟩⟩ := habreast.write text hlink
      · left
        simp only [hdest, hdest', htook, htook', true_and]
        refine ⟨h.latches, by simp only [List.length_set, h.length], fun k hk => ?_,
          _, _, List.getElem?_set_self h.zero_lt, List.getElem?_set_self ?_, hlinked⟩
        · rw [List.getElem?_set_ne hk.symm, List.getElem?_set_ne hk.symm, h.others k hk]
        · rw [h.length]
          exact h.zero_lt
      · right
        simp only [hdest, hdest', hrefused, true_and]
        refine ⟨_, _, List.getElem?_set_self h.zero_lt, List.getElem?_set_self ?_, hsplit⟩
        rw [h.length]
        exact h.zero_lt
    · left
      simp only [h.others k hk]
      cases s.outputs[k]? with
      | none => exact ⟨rfl, h⟩
      | some dest =>
        refine ⟨rfl, h.latches, by simp only [List.length_set, h.length], fun j hj => ?_, ?_⟩
        · simp only [List.getElem?_set, h.length, h.others j hj]
        · simp only [List.getElem?_set_ne hk]
          exact h.first
  | pending n =>
    exact .inl ⟨rfl, h.of_outputs (by simp only [h.latches]) rfl rfl⟩
  | failed e => exact .inl ⟨rfl, h⟩
  | nowhere => exact .inl ⟨rfl, h⟩

/-- Settling the latch of a job, up to the text that is refused. -/
theorem conclude (habreast : Output.Abreast link split cause) (job : Job) (r : Except Stop Writer) :
    Linked link (job.conclude r s) (job.conclude r s') ∨
      ∃ out, r = .ok out ∧ s.route out = .output 0 ∧
        Split split (job.conclude r s) (job.conclude r s') ∧
        (job.conclude r s').outline = (s'.settle job.latch (.failed (refusal cause))).outline := by
  cases r with
  | ok out =>
    have hheld : s'.heldAt job.latch = s.heldAt job.latch := by rw [heldAt, heldAt, h.latches]
    by_cases hempty : (s.heldAt job.latch).isEmpty = true
    · left
      simp only [Job.conclude, complete_of_empty hempty, complete_of_empty (hheld ▸ hempty)]
      exact h.settle _ _
    · simp only [Job.conclude, complete_of_held hempty, complete_of_held (hheld ▸ hempty), hheld]
      obtain ⟨hsame, hlinked⟩ | ⟨hroute, hrefused, hsplit⟩ :=
        h.write habreast (s.heldAt job.latch) out
      · left
        rw [hsame]
        exact hlinked.settle _ _
      · right
        refine ⟨out, rfl, hroute, hsplit, ?_⟩
        rw [hrefused, outline_settle, outline_settle, outline_write]
        rfl
  | error cause' =>
    left
    cases cause' with
    | error e => exact h.settle _ _
    | panic message => exact h.settle _ _
    | blocked => exact h
    | exhausted => exact h

end Linked

/-! ## After a text has been refused -/

theorem Split.left (habreast : Output.Abreast link split cause) (h : Split split s s')
    (hfills : Fills e s t) : Split split t s' := by
  obtain ⟨dest, dest', hdest, hdest', hsplit⟩ := h
  obtain ⟨after, hafter, hlater, -⟩ := hfills 0 dest hdest
  refine ⟨after, dest', hafter, hdest', ?_⟩
  clear hafter
  induction hlater with
  | refl => exact hsplit
  | write _ text ih => exact habreast.later text ih

theorem Split.right (h : Split split s s') (hfills : Fills e s' t') (he : e ≠ .output 0) :
    Split split s t' := by
  obtain ⟨dest, dest', hdest, hdest', hsplit⟩ := h
  obtain ⟨after, hafter, -, hsame⟩ := hfills 0 dest' hdest'
  exact ⟨dest, dest', hdest, hsame he ▸ hafter, hsplit⟩

/-! ## Where writers lead -/

/-- All of some writers lead to ends with a property. -/
def AllLead (s : Streams) (P : End → Prop) (ws : List Writer) : Prop :=
  ∀ w ∈ ws, P (s.route w)

/-- None of some writers leads to the first destination. -/
abbrev Clear (s : Streams) (ws : List Writer) : Prop :=
  s.AllLead (fun e => e ≠ .output 0) ws

variable {P : End → Prop}

theorem allLead_append {ws' : List Writer} :
    s.AllLead P (ws ++ ws') ↔ s.AllLead P ws ∧ s.AllLead P ws' :=
  List.forall_mem_append

/-- The writers besides the one that leads to the first destination. -/
theorem Orderly.clear (h : Orderly s jobs (out :: outs)) (hout : s.route out = .output 0) :
    s.Clear (jobs.map Job.writer ++ outs) := by
  have hmiddle : ((jobs.map Job.writer ++ out :: outs).map s.route).Perm
      (s.route out :: (jobs.map Job.writer ++ outs).map s.route) := List.perm_middle.map s.route
  have hall := (List.pairwise_cons.mp ((End.apart_perm hmiddle).mp h.apart)).1
  intro w hw heq
  have hvoid := hall _ (List.mem_map_of_mem hw) (hout.trans heq.symm)
  rw [hout] at hvoid
  cases hvoid

/-- Where the writer that is handed on leads to a destination, the writer before it did. -/
theorem Lays.of_route_output (h : Lays e s t new (.ok w)) (hroute : t.route w = .output k) :
    e = .output k := by
  obtain heq | ⟨-, houtput⟩ := (h.adds.writer w (.inr rfl)).2
  · rw [Streams.route_outline] at heq
    exact heq.symm.trans hroute
  · rw [Streams.route_outline] at houtput
    exact absurd hroute (houtput k)

theorem Lays.allLead_old (h : Orderly s jobs (out :: outs)) (h' : Lays (s.route out) s t new r)
    (hall : s.AllLead P (jobs.map Job.writer ++ outs)) :
    t.AllLead P (jobs.map Job.writer ++ outs) := by
  intro w hw
  have hsub := (List.sublist_cons_self out outs).append_left (jobs.map Job.writer)
  rw [h'.adds.route_outline h.closed (h.has w (hsub.subset hw))]
  exact hall w hw

theorem Lays.allLead_extend (h : Orderly s jobs (out :: outs)) (h' : Lays (s.route out) s t new r)
    (hall : s.AllLead P (jobs.map Job.writer ++ outs))
    (hnew : t.AllLead P (new.map Job.writer ++ handed r)) :
    t.AllLead P ((jobs ++ new).map Job.writer ++ (handed r ++ outs)) := by
  have hold := h'.allLead_old h hall
  rw [List.map_append]
  simp only [allLead_append] at hold hnew ⊢
  exact ⟨⟨hold.1, hnew.1⟩, hnew.2, hold.2⟩

theorem Redirects.allLead {m : Nat} {y : End} (h : Redirects m y s t) (hy : P y)
    (hall : s.AllLead P ws) : t.AllLead P ws := by
  intro w hw
  by_cases hwaits : s.route w = .pending m
  · rw [h.moved hwaits]
    exact hy
  · rw [h.same hwaits]
    exact hall w hw

/-- The first destination is not where the work of a job has ended, if no writer in use leads
    there. -/
theorem landing_ne (hhanded : s.Clear (handed r)) : s.landing r ≠ .output 0 := by
  cases r with
  | ok out => exact hhanded out (List.mem_singleton_self out)
  | error _ => nofun

section

variable (hP : ∀ {e : End}, (∀ k, e ≠ .output k) → P e)
include hP

/-- What is put off at a writer leads where the writer leads, or to where nothing led. -/
theorem Lays.allLead (h : Lays (s.route out) s t new r) (hout : P (s.route out)) :
    t.AllLead P (new.map Job.writer ++ handed r) := by
  intro w hw
  obtain heq | ⟨-, houtput⟩ := (h.adds.writer w (awaits_iff.mpr hw)).2
  · rw [Streams.route_outline] at heq
    exact heq ▸ hout
  · rw [Streams.route_outline] at houtput
    exact hP houtput

/-- Settling the latch of a job leads those who waited for it to where the work of the job has
    ended. -/
theorem Lays.allLead_conclude (h : Orderly s (job :: rest) outs)
    (h' : Lays (s.route job.writer) s t new r) (hhanded : t.AllLead P (handed r))
    (hall : t.AllLead P ws) : (job.conclude r t).AllLead P ws := by
  by_cases hexhausted : r = .error .exhausted
  · subst hexhausted
    exact hall
  · obtain ⟨st, heq, hst, hdone⟩ := exists_conclude job t h'.unblocked hexhausted
    refine (h'.redirects h hdone heq hst).allLead ?_ hall
    cases st with
    | pending => exact absurd rfl hst
    | failed e => exact hP nofun
    | done out =>
      refine hhanded out ?_
      rw [hdone out rfl]
      exact List.mem_singleton_self out

/-- Doing a job leads no writer to ends without the property. -/
theorem Lays.allLead_perform (h : Orderly s (job :: rest) outs)
    (h' : Lays (s.route job.writer) s t new r)
    (hall : s.AllLead P ((job :: rest).map Job.writer ++ outs)) :
    t.AllLead P (handed r) ∧
      (job.conclude r t).AllLead P ((rest ++ new).map Job.writer ++ outs) := by
  obtain ⟨hout, hrest⟩ := List.forall_mem_cons.mp hall
  have hafter := h'.allLead_extend h.release hrest (h'.allLead hP hout)
  simp only [allLead_append] at hafter
  obtain ⟨hjobs, hhanded, houts⟩ := hafter
  exact ⟨hhanded, h'.allLead_conclude hP h hhanded (allLead_append.mpr ⟨hjobs, houts⟩)⟩

end

end Streams

end Mustache
