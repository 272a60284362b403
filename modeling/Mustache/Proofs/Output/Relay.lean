import Mathlib.Logic.Relation
import Mustache.Proofs.Output.Contents

/-! # Relays

A renderer puts off one task after another.  Each task is handed the writer that the renderer was
using, and the renderer goes on behind the latch of the task, so the writers of all of them make one
chain that ends at the destination.  The parties take their steps in any order.

What makes the order irrelevant is that text never overtakes text: whatever is still held back at
some latch, or not written yet, has a fixed place in the text that the destination will have.

* `Relay.Step` — one step of the renderer or of a task.
* `Relay.arrival` — what the destination will have, if all that is under way before a place of the
  chain is done and then a given text is written at that place.
* `Relay.Wrote`, `Relay.Moved` — what writing at a place of the chain, and a step of a task, does.
-/

namespace Mustache.Relay

/-! ## Parties and steps -/

/-- Deferred work: the texts that it writes, and the error it fails with after them, if it does. -/
structure Task where
  texts : List String
  failure : Option Error

/-- A task that the renderer puts off, and the texts it goes on with behind the task's latch. -/
structure Turn where
  task : Task
  after : List String

/-- What a turn adds to the text of the destination when its task does not fail. -/
def Turn.text (turn : Turn) : String :=
  String.join turn.task.texts ++ String.join turn.after

structure Job where
  latch : Nat
  writer : Writer
  /-- The texts that are not written yet. -/
  texts : List String
  /-- The error that the latch is going to fail with, if it is. -/
  failure : Option Error
  settled : Bool

structure State where
  streams : Streams
  /-- The writer that the renderer uses. -/
  writer : Writer
  /-- The texts that the renderer has to write there before it puts off the next task. -/
  texts : List String
  turns : List Turn
  /-- The tasks put off so far, in order. -/
  jobs : List Job

/-- An empty buffer, and all still to be done. -/
def start (texts : List String) (turns : List Turn) : State :=
  ⟨⟨[.buffer ""], []⟩, .direct 0, texts, turns, []⟩

/-- One step of one party.  The renderer goes on when its text is refused; a task does not, and
    fails its latch with the error. -/
inductive Step (s : State) : State → Prop
  | write {text : String} {texts : List String} (htexts : s.texts = text :: texts)
      (hresult : (s.streams.write text s.writer).1 ≠ .blocked) :
      Step s { s with streams := (s.streams.write text s.writer).2, texts }
  | putOff {turn : Turn} {turns : List Turn} (htexts : s.texts = [])
      (hturns : s.turns = turn :: turns) :
      Step s {
        streams := s.streams.newLatch.2
        writer := .latched s.streams.newLatch.1
        texts := turn.after
        turns
        jobs := s.jobs ++
          [⟨s.streams.newLatch.1, s.writer, turn.task.texts, turn.task.failure, false⟩] }
  | jobWrites {k : Nat} {j : Job} {text : String} {texts : List String}
      (hjob : s.jobs[k]? = some j) (htexts : j.texts = text :: texts)
      (hresult : (s.streams.write text j.writer).1 = .ok) :
      Step s { s with
        streams := (s.streams.write text j.writer).2
        jobs := s.jobs.set k { j with texts } }
  | jobRefused {k : Nat} {j : Job} {text : String} {texts : List String} {e : Error}
      (hjob : s.jobs[k]? = some j) (htexts : j.texts = text :: texts)
      (hresult : (s.streams.write text j.writer).1 = .error e) :
      Step s { s with
        streams := (s.streams.write text j.writer).2
        jobs := s.jobs.set k { j with texts := [], failure := some e } }
  | jobCompletes {k : Nat} {j : Job} (hjob : s.jobs[k]? = some j) (htexts : j.texts = [])
      (hopen : j.settled = false) (hfailure : j.failure = none) :
      Step s { s with
        streams := s.streams.complete j.latch j.writer
        jobs := s.jobs.set k { j with settled := true } }
  | jobFails {k : Nat} {j : Job} {e : Error} (hjob : s.jobs[k]? = some j) (htexts : j.texts = [])
      (hopen : j.settled = false) (hfailure : j.failure = some e) :
      Step s { s with
        streams := s.streams.fail j.latch e
        jobs := s.jobs.set k { j with settled := true } }

def State.Done (s : State) : Prop :=
  s.texts = [] ∧ s.turns = [] ∧ ∀ j ∈ s.jobs, j.settled = true

abbrev Steps : State → State → Prop :=
  Relation.ReflTransGen Step

/-! ## The chain -/

variable {s t : Streams} {jobs jobs' : List Job} {j j' : Job} {k m n : Nat} {text : String}

/-- The writer that the task with a number is handed. -/
def writerAt : Nat → Writer
  | 0 => .direct 0
  | k + 1 => .latched k

/-- One of the first so many tasks has failed or is going to. -/
def Cut (jobs : List Job) (k : Nat) : Prop :=
  ∃ i j, i < k ∧ jobs[i]? = some j ∧ j.failure.isSome = true

theorem Cut.mono (h : Cut jobs k) (hkm : k ≤ m) : Cut jobs m := by
  obtain ⟨i, j, hi, hj⟩ := h
  exact ⟨i, j, by omega, hj⟩

/-- A chain with one more place at its end is cut where it was, or there. -/
theorem cut_concat_iff (jobs : List Job) (j : Job) :
    Cut (jobs ++ [j]) (jobs.length + 1) ↔ Cut jobs jobs.length ∨ j.failure.isSome = true := by
  constructor
  · rintro ⟨i, j', hi, hj, hfails⟩
    by_cases hlt : i < jobs.length
    · exact .inl ⟨i, j', hlt, by rwa [List.getElem?_append_left hlt] at hj, hfails⟩
    · obtain rfl : i = jobs.length := by omega
      rw [List.getElem?_concat_length] at hj
      exact .inr (Option.some.inj hj ▸ hfails)
  · rintro (⟨i, j', hi, hj, hfails⟩ | hfails)
    · exact ⟨i, j', by omega, by rwa [List.getElem?_append_left hi], hfails⟩
    · exact ⟨jobs.length, j, by omega, List.getElem?_concat_length, hfails⟩

theorem Cut.set (h : Cut jobs m) (hj : jobs[k]? = some j)
    (hfailure : j.failure.isSome = true → j'.failure.isSome = true) : Cut (jobs.set k j') m := by
  obtain ⟨i, old, hi, hold, hfails⟩ := h
  by_cases hik : k = i
  · subst hik
    obtain rfl := Option.some.inj (hj.symm.trans hold)
    refine ⟨k, j', hi, ?_, hfailure hfails⟩
    simp [(List.getElem?_eq_some_iff.mp hj).1]
  · exact ⟨i, old, hi, by rwa [List.getElem?_set_ne hik], hfails⟩

/-- How a task and its latch stand together. -/
inductive Stands (s : Streams) (jobs : List Job) (k : Nat) : Job → Prop
  | pending {held : String} {texts : List String} {failure : Option Error}
      (h : s.latches[k]? = some ⟨held, .pending⟩) :
      Stands s jobs k ⟨k, writerAt k, texts, failure, false⟩
  | done (h : s.latches[k]? = some ⟨"", .done (writerAt k)⟩) :
      Stands s jobs k ⟨k, writerAt k, [], none, true⟩
  | failed {failure : Option Error} {e : Error} (h : s.latches[k]? = some ⟨"", .failed e⟩)
      (hcut : Cut jobs (k + 1)) :
      Stands s jobs k ⟨k, writerAt k, [], failure, true⟩

/-- Every task has its latch, and there is one destination, a buffer. -/
structure Linked (s : Streams) (jobs : List Job) : Prop where
  length_eq : s.latches.length = jobs.length
  buffer : ∃ text, s.outputs = [.buffer text]
  stands : ∀ {k j}, jobs[k]? = some j → Stands s jobs k j

theorem Stands.congr (h : Stands s jobs k j) (hlatch : t.latches[k]? = s.latches[k]?)
    (hcut : Cut jobs (k + 1) → Cut jobs' (k + 1)) : Stands t jobs' k j := by
  cases h with
  | pending h => exact .pending (hlatch.trans h)
  | done h => exact .done (hlatch.trans h)
  | failed h hc => exact .failed (hlatch.trans h) (hcut hc)

theorem Linked.set (h : Linked s jobs) (hj : jobs[k]? = some j)
    (hlength : t.latches.length = s.latches.length) (houtputs : t.outputs = s.outputs)
    (hlatches : ∀ i, i ≠ k → t.latches[i]? = s.latches[i]?)
    (hfailure : j.failure.isSome = true → j'.failure.isSome = true)
    (hk : Stands t (jobs.set k j') k j') : Linked t (jobs.set k j') := by
  refine ⟨by rw [hlength, List.length_set, h.length_eq], by rw [houtputs]; exact h.buffer, ?_⟩
  intro i old hold
  by_cases hik : k = i
  · subst hik
    have hlt := (List.getElem?_eq_some_iff.mp hj).1
    simp only [List.getElem?_set_self hlt, Option.some.injEq] at hold
    exact hold ▸ hk
  · rw [List.getElem?_set_ne hik] at hold
    exact (h.stands hold).congr (hlatches i (Ne.symm hik)) fun hcut => hcut.set hj hfailure

/-! ## The text that arrives -/

/-- What the destination will have if all the tasks before a place go on to their ends and then
    a text is written at that place.  What comes behind a task that fails is lost. -/
def arrival (s : Streams) (jobs : List Job) : Nat → String → String
  | 0, text => s.textOf 0 ++ text
  | k + 1, text =>
    match jobs[k]?, s.latches[k]? with
    | some j, some l =>
      arrival s jobs k
        (String.join j.texts ++ if j.failure.isSome then "" else l.held ++ text)
    | _, _ => ""

theorem arrival_succ {l : Latch} (hj : jobs[k]? = some j) (hl : s.latches[k]? = some l)
    (text : String) :
    arrival s jobs (k + 1) text =
      arrival s jobs k
        (String.join j.texts ++ if j.failure.isSome then "" else l.held ++ text) := by
  rw [arrival, hj, hl]

/-- Behind a task that fails it does not matter what is written. -/
theorem arrival_of_cut (h : Cut jobs k) (text text' : String) :
    arrival s jobs k text = arrival s jobs k text' := by
  induction k generalizing text text' with
  | zero =>
    obtain ⟨i, j, hi, -⟩ := h
    omega
  | succ k ih =>
    obtain ⟨i, j, hi, hj, hfails⟩ := h
    rw [arrival, arrival]
    by_cases hik : i = k
    · subst hik
      cases s.latches[i]? <;> simp [hj, hfails]
    · have hcut : Cut jobs k := ⟨i, j, by omega, hj, hfails⟩
      cases jobs[k]? <;> cases s.latches[k]? <;> simp only
      exact ih hcut _ _

/-- Two chains that bring the same to the destination from one place, and are the same behind it,
    do so from every place behind it. -/
theorem arrival_congr (hmn : m ≤ n)
    (h : ∀ text, arrival t jobs' m text = arrival s jobs m text)
    (hrest : ∀ i, m ≤ i → i < n → jobs'[i]? = jobs[i]? ∧ t.latches[i]? = s.latches[i]?) :
    arrival t jobs' n text = arrival s jobs n text := by
  induction hmn generalizing text with
  | refl => exact h text
  | @step n hmn ih =>
    obtain ⟨hjob, hlatch⟩ := hrest n hmn (Nat.lt_succ_self n)
    rw [arrival, arrival, hjob, hlatch]
    split
    · exact ih fun i hi hin => hrest i hi (by omega)
    · rfl

theorem arrival_eq_of_before (houtputs : t.outputs = s.outputs)
    (h : ∀ i, i < n → jobs'[i]? = jobs[i]? ∧ t.latches[i]? = s.latches[i]?) :
    arrival t jobs' n text = arrival s jobs n text := by
  refine arrival_congr (Nat.zero_le n) (fun more => ?_) fun i _ hi => h i hi
  rw [arrival, arrival, Streams.textOf, Streams.textOf, houtputs]

theorem arrival_set (hmk : m ≤ k) : arrival s (jobs.set k j) m text = arrival s jobs m text :=
  arrival_eq_of_before rfl fun _ _ => ⟨List.getElem?_set_ne (by omega), rfl⟩

theorem arrival_settle {st : Latch.Status} (hmk : m ≤ k) :
    arrival (s.settle k st) jobs m text = arrival s jobs m text :=
  arrival_eq_of_before rfl fun _ _ => ⟨rfl, List.getElem?_set_ne (by omega)⟩

/-! ## Writing at a place of the chain -/

/-- What writing a text at a place of the chain comes to: the text arrives right after what is under
    way before that place.  It is refused only behind a task that fails. -/
structure Wrote (s : Streams) (jobs : List Job) (k : Nat) (text : String)
    (r : Streams.Result × Streams) : Prop where
  result : r.1 = .ok ∨ (∃ e, r.1 = .error e) ∧ Cut jobs k
  linked : Linked r.2 jobs
  behind : ∀ i, k ≤ i → r.2.latches[i]? = s.latches[i]?
  arrives : ∀ more, arrival r.2 jobs k more = arrival s jobs k (text ++ more)

theorem write_congr {w w' : Writer} (h : s.route w = s.route w') (text : String) :
    s.write text w = s.write text w' := by
  unfold Streams.write
  rw [h]

theorem status?_of_getElem? {l : Latch} (h : s.latches[k]? = some l) :
    s.status? k = some l.status := by
  rw [Streams.status?, h]
  rfl

theorem wrote_root (h : Linked s jobs) (text : String) :
    Wrote s jobs 0 text (s.write text (.direct 0)) := by
  obtain ⟨old, hold⟩ := h.buffer
  have hwrite : s.write text (.direct 0) =
      (.ok, { s with outputs := [.buffer (old ++ text)] }) := by
    simp [Streams.write, Streams.route, Streams.routeWithin, hold, Output.write]
  rw [hwrite]
  refine ⟨.inl rfl, ⟨h.length_eq, ⟨_, rfl⟩, fun hj => ?_⟩, fun _ _ => rfl, fun more => ?_⟩
  · exact (h.stands hj).congr rfl id
  · simp [arrival, Streams.textOf, hold, String.append_assoc]

theorem wrote_pending {held : String} (h : Linked s jobs) (hj : jobs[k]? = some j)
    (hlatch : s.latches[k]? = some ⟨held, .pending⟩) (text : String) :
    Wrote s jobs (k + 1) text (s.write text (.latched k)) := by
  have hroute : s.route (.latched k) = .pending k :=
    Streams.Leads.route_eq ⟨_, .pending (status?_of_getElem? hlatch)⟩
  have hwrite : s.write text (.latched k) =
      (.ok, { s with latches := s.latches.modify k fun l => { l with held := l.held ++ text } }) := by
    rw [Streams.write, hroute]
  have hne : ∀ i, k ≠ i → ({ s with
      latches := s.latches.modify k fun l => { l with held := l.held ++ text } } :
        Streams).latches[i]? = s.latches[i]? :=
    fun i hi => List.getElem?_modify_ne _ _ hi
  have hself : ({ s with
      latches := s.latches.modify k fun l => { l with held := l.held ++ text } } :
        Streams).latches[k]? = some ⟨held ++ text, .pending⟩ := by
    simp [hlatch]
  rw [hwrite]
  refine ⟨.inl rfl, ⟨by simp [h.length_eq], h.buffer, fun {i old} hold => ?_⟩,
    fun i hi => hne i (by omega), fun more => ?_⟩
  · by_cases hik : k = i
    · subst hik
      cases h.stands hold with
      | pending _ => exact .pending hself
      | done hdone => simp [hdone] at hlatch
      | failed hfailed _ => simp [hfailed] at hlatch
    · exact (h.stands hold).congr (hne i hik) id
  · rw [arrival_succ hj hself, arrival_succ hj hlatch, String.append_assoc]
    exact arrival_eq_of_before rfl fun i hi => ⟨rfl, hne i (by omega)⟩

/-- Writing at a place of the chain.  The induction is on the place: a latch that is done passes the
    text on to the place before it. -/
theorem wrote (h : Linked s jobs) (text : String) :
    ∀ {k}, k ≤ jobs.length →
      (∃ e, s.Leads (writerAt k) e) ∧ Wrote s jobs k text (s.write text (writerAt k)) := by
  intro k hk
  induction k with
  | zero => exact ⟨⟨_, _, .direct 0⟩, wrote_root h text⟩
  | succ k ih =>
    obtain ⟨⟨e, hleads⟩, hwrote⟩ := ih (by omega)
    have hj := List.getElem?_eq_getElem (l := jobs) (i := k) (by omega)
    generalize jobs[k] = j at hj
    cases h.stands hj with
    | pending hlatch =>
      exact ⟨⟨_, _, .pending (status?_of_getElem? hlatch)⟩, wrote_pending h hj hlatch text⟩
    | done hlatch =>
      obtain ⟨ns, hway⟩ := hleads
      have hway' : s.Leads (writerAt (k + 1)) e := ⟨_, .done (status?_of_getElem? hlatch) hway⟩
      have hroute : s.route (writerAt (k + 1)) = s.route (writerAt k) :=
        hway'.route_eq.trans (Streams.Leads.route_eq ⟨ns, hway⟩).symm
      refine ⟨⟨e, hway'⟩, ?_⟩
      rw [write_congr hroute]
      refine ⟨hwrote.result.imp_right fun hr => ⟨hr.1, hr.2.mono (Nat.le_succ k)⟩, hwrote.linked,
        fun i hi => hwrote.behind i (by omega), fun more => ?_⟩
      have hlatch' := (hwrote.behind k (Nat.le_refl k)).trans hlatch
      rw [arrival_succ hj hlatch', arrival_succ hj hlatch]
      simpa using hwrote.arrives more
    | @failed _ cause hlatch hcut =>
      have hleads : s.Leads (writerAt (k + 1)) (.failed cause) :=
        ⟨_, .failed (status?_of_getElem? hlatch)⟩
      have hwrite : s.write text (writerAt (k + 1)) = (.error cause, s) := by
        rw [Streams.write, hleads.route_eq]
      refine ⟨⟨_, hleads⟩, ?_⟩
      rw [hwrite]
      exact ⟨.inr ⟨⟨_, rfl⟩, hcut⟩, h, fun _ _ => rfl, fun more => arrival_of_cut hcut _ _⟩

/-! ## What a task's step does -/

theorem cut_set_iff (hj : jobs[k]? = some j) (hfailure : j'.failure = j.failure) :
    Cut (jobs.set k j') n ↔ Cut jobs n := by
  constructor
  · rintro ⟨i, old, hi, hold, hfails⟩
    by_cases hik : k = i
    · subst hik
      simp only [List.getElem?_set_self (List.getElem?_eq_some_iff.mp hj).1,
        Option.some.injEq] at hold
      exact ⟨k, j, hi, hj, by rw [← hfailure, hold, hfails]⟩
    · rw [List.getElem?_set_ne hik] at hold
      exact ⟨i, old, hi, hold, hfails⟩
  · exact fun h => h.set hj (by simp [hfailure])

/-- A step of the task with a number: the same arrives from the place behind its latch. -/
structure Moved (s : Streams) (jobs : List Job) (k : Nat) (t : Streams) (jobs' : List Job) :
    Prop where
  linked : Linked t jobs'
  length_eq : jobs'.length = jobs.length
  cut : Cut jobs' jobs.length ↔ Cut jobs jobs.length
  arrives : ∀ more, arrival t jobs' (k + 1) more = arrival s jobs (k + 1) more
  behind : ∀ i, k < i → jobs'[i]? = jobs[i]? ∧ t.latches[i]? = s.latches[i]?

theorem moved_write (h : Linked s jobs) (hj : jobs[k]? = some j) {texts : List String}
    (htexts : j.texts = text :: texts) :
    Moved s jobs k (s.write text j.writer).2 (jobs.set k { j with texts }) := by
  have hlt := (List.getElem?_eq_some_iff.mp hj).1
  cases h.stands hj with
  | done _ => cases htexts
  | failed _ _ => cases htexts
  | @pending held _ failure hlatch =>
    obtain ⟨-, hwrote⟩ := wrote h text (Nat.le_of_lt hlt)
    obtain rfl : _ = text :: texts := htexts
    have hlatch' := (hwrote.behind k (Nat.le_refl k)).trans hlatch
    refine ⟨hwrote.linked.set hj rfl rfl (fun _ _ => rfl) id (.pending hlatch'), List.length_set,
      cut_set_iff hj rfl, fun more => ?_, fun i hi => ⟨List.getElem?_set_ne (by omega),
        hwrote.behind i (by omega)⟩⟩
    rw [arrival_succ (List.getElem?_set_self hlt) hlatch', arrival_succ hj hlatch,
      arrival_set (Nat.le_refl k), hwrote.arrives]
    simp [String.append_assoc]

theorem moved_refused (h : Linked s jobs) (hj : jobs[k]? = some j) {texts : List String}
    {e : Error} (htexts : j.texts = text :: texts)
    (hresult : (s.write text j.writer).1 = .error e) :
    Moved s jobs k (s.write text j.writer).2
      (jobs.set k { j with texts := [], failure := some e }) := by
  have hlt := (List.getElem?_eq_some_iff.mp hj).1
  cases h.stands hj with
  | done _ => cases htexts
  | failed _ _ => cases htexts
  | @pending held _ failure hlatch =>
    obtain ⟨-, hwrote⟩ := wrote h text (Nat.le_of_lt hlt)
    obtain hok | ⟨-, hcut⟩ := hwrote.result
    · cases hok.symm.trans hresult
    have hlatch' := (hwrote.behind k (Nat.le_refl k)).trans hlatch
    have hcut' := hcut.mono (Nat.le_of_lt hlt)
    refine ⟨hwrote.linked.set hj rfl rfl (fun _ _ => rfl) (fun _ => rfl) (.pending hlatch'),
      List.length_set, iff_of_true (hcut'.set hj fun _ => rfl) hcut', fun more => ?_,
      fun i hi => ⟨List.getElem?_set_ne (by omega), hwrote.behind i (by omega)⟩⟩
    -- What this task writes is lost in any case.
    rw [arrival_succ (List.getElem?_set_self hlt) hlatch', arrival_succ hj hlatch,
      arrival_set (Nat.le_refl k), hwrote.arrives]
    exact arrival_of_cut hcut _ _

theorem moved_settle {held : String} {failure : Option Error} {st : Latch.Status}
    (ht : Linked t jobs) (hj : jobs[k]? = some ⟨k, writerAt k, [], failure, false⟩)
    (hlatch : s.latches[k]? = some ⟨held, .pending⟩)
    (hbehind : ∀ i, k ≤ i → t.latches[i]? = s.latches[i]?)
    (harrival : ∀ more, arrival t jobs k (if failure.isSome then "" else more) =
      arrival s jobs k (if failure.isSome then "" else held ++ more))
    (hst : st = .done (writerAt k) ∧ failure = none ∨
      (∃ e, st = .failed e) ∧ (failure.isSome = true ∨ Cut jobs k)) :
    Moved s jobs k (t.settle k st) (jobs.set k ⟨k, writerAt k, [], failure, true⟩) := by
  have hlt := (List.getElem?_eq_some_iff.mp hj).1
  have hlt' : k < t.latches.length := by rw [ht.length_eq]; exact hlt
  have hself : (t.settle k st).latches[k]? = some ⟨"", st⟩ := List.getElem?_set_self hlt'
  have hstands : Stands (t.settle k st) (jobs.set k ⟨k, writerAt k, [], failure, true⟩) k
      ⟨k, writerAt k, [], failure, true⟩ := by
    obtain ⟨rfl, rfl⟩ | ⟨⟨e, rfl⟩, hfails | hcut⟩ := hst
    · exact .done hself
    · exact .failed hself ⟨k, _, Nat.lt_succ_self k, List.getElem?_set_self hlt, hfails⟩
    · exact .failed hself ((hcut.mono (Nat.le_succ k)).set hj id)
  refine ⟨ht.set hj List.length_set rfl (fun i hi => List.getElem?_set_ne (Ne.symm hi)) id hstands,
    List.length_set, cut_set_iff hj rfl, fun more => ?_, fun i hi =>
      ⟨List.getElem?_set_ne (by omega), ?_⟩⟩
  · rw [arrival_succ (List.getElem?_set_self hlt) hself, arrival_succ hj hlatch,
      arrival_set (Nat.le_refl k), arrival_settle (Nat.le_refl k)]
    simpa using harrival more
  · rw [← hbehind i (by omega)]
    exact List.getElem?_set_ne (by omega)

theorem moved_complete (h : Linked s jobs) (hj : jobs[k]? = some j) (htexts : j.texts = [])
    (hopen : j.settled = false) (hfailure : j.failure = none) :
    Moved s jobs k (s.complete j.latch j.writer) (jobs.set k { j with settled := true }) := by
  have hlt := (List.getElem?_eq_some_iff.mp hj).1
  cases h.stands hj with
  | done _ => cases hopen
  | failed _ _ => cases hopen
  | @pending held _ failure hlatch =>
    obtain rfl : _ = [] := htexts
    obtain rfl : failure = none := hfailure
    have hheld : ((s.latches[k]?).map Latch.held).getD "" = held := by simp [hlatch]
    by_cases hempty : held.isEmpty = true
    · have hcomplete : s.complete k (writerAt k) = s.settle k (.done (writerAt k)) := by
        simp only [Streams.complete, hheld, if_pos hempty]
        rfl
      obtain rfl := String.isEmpty_iff.mp hempty
      simp only [hcomplete]
      exact moved_settle h hj hlatch (fun _ _ => rfl) (by simp) (.inl ⟨rfl, rfl⟩)
    · obtain ⟨-, hwrote⟩ := wrote h held (Nat.le_of_lt hlt)
      have hcomplete : s.complete k (writerAt k) = (s.write held (writerAt k)).2.settle k
          (Streams.afterWrite (writerAt k) (s.write held (writerAt k)).1) := by
        simp only [Streams.complete, hheld, if_neg hempty]
        rfl
      simp only [hcomplete]
      refine moved_settle hwrote.linked hj hlatch hwrote.behind (by simpa using hwrote.arrives) ?_
      obtain hok | ⟨⟨e, he⟩, hcut⟩ := hwrote.result
      · exact .inl ⟨by rw [hok]; rfl, rfl⟩
      · exact .inr ⟨⟨e, by rw [he]; rfl⟩, .inr hcut⟩

theorem moved_fail {e : Error} (h : Linked s jobs) (hj : jobs[k]? = some j)
    (htexts : j.texts = []) (hopen : j.settled = false) (hfailure : j.failure = some e) :
    Moved s jobs k (s.fail j.latch e) (jobs.set k { j with settled := true }) := by
  cases h.stands hj with
  | done _ => cases hopen
  | failed _ _ => cases hopen
  | pending hlatch =>
    obtain rfl : _ = [] := htexts
    obtain rfl : _ = some e := hfailure
    exact moved_settle h hj hlatch (fun _ _ => rfl) (by simp) (.inr ⟨⟨e, rfl⟩, .inl rfl⟩)

end Mustache.Relay
