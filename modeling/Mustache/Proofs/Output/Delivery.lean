import Mustache.Proofs.Output.Relay

/-! # Delivery

Every step of a relay leaves alone what the destination is going to have, and every relay that is
not done can take a step.  So all orders of steps come to the same end, and it can be read off the
texts and the tasks that the relay was started with.

* `Relay.Sound` — what all states of a run have in common.
* `Relay.Sound.step`, `Relay.Sound.exists_done` — a step keeps it, and no state is a dead end.
* `Relay.delivers` — the text of the destination in the end, and the answer of the last latch.
-/

namespace Mustache.Relay

variable {s t : Streams} {jobs jobs' : List Job} {j j' : Job} {k : Nat} {text : String}

/-! ## Any step -/

/-- What the turns still to come add to the text of the destination. -/
def outcome : List Turn → String
  | [] => ""
  | ⟨task, after⟩ :: turns =>
    String.join task.texts ++
      if task.failure.isSome then "" else String.join after ++ outcome turns

/-- Some task has failed or is going to. -/
def State.Fails (s : State) : Prop :=
  Cut s.jobs s.jobs.length ∨ ∃ turn ∈ s.turns, turn.task.failure.isSome = true

/-- What holds after every step: the destination is going to have a text, and whether some task
    fails is settled from the beginning. -/
structure Sound (text : String) (fails : Prop) (s : State) : Prop where
  linked : Linked s.streams s.jobs
  writer : s.writer = writerAt s.jobs.length
  arrives : arrival s.streams s.jobs s.jobs.length (String.join s.texts ++ outcome s.turns) = text
  fails : s.Fails ↔ fails

variable {p q : State} {fails : Prop}

theorem sound_start (texts : List String) (turns : List Turn) :
    Sound (String.join texts ++ outcome turns) (∃ turn ∈ turns, turn.task.failure.isSome = true)
      (start texts turns) := by
  refine ⟨⟨rfl, ⟨"", rfl⟩, fun hj => by simp [start] at hj⟩, rfl, ?_, ?_⟩
  · simp [start, arrival, Streams.textOf]
  · simp [State.Fails, start, Cut]

theorem Sound.moved (h : Sound text fails p)
    (hmoved : Moved p.streams p.jobs k t jobs') (hk : k < p.jobs.length) :
    Sound text fails { p with streams := t, jobs := jobs' } := by
  refine ⟨hmoved.linked, by rw [h.writer, hmoved.length_eq], ?_, ?_⟩
  · rw [← h.arrives]
    simp only [hmoved.length_eq]
    exact arrival_congr hk hmoved.arrives fun i hi _ => hmoved.behind i (by omega)
  · rw [← h.fails, State.Fails, State.Fails]
    simp only [hmoved.length_eq, hmoved.cut]

theorem Sound.write (h : Sound text fails p) {head : String} {texts : List String}
    (htexts : p.texts = head :: texts) :
    Sound text fails { p with streams := (p.streams.write head p.writer).2, texts } := by
  obtain ⟨-, hwrote⟩ := wrote h.linked head (Nat.le_refl _)
  rw [← h.writer] at hwrote
  refine ⟨hwrote.linked, h.writer, ?_, h.fails⟩
  rw [← h.arrives, hwrote.arrives, htexts, String.join_cons, String.append_assoc]

theorem Sound.putOff (h : Sound text fails p) {turn : Turn} {turns : List Turn}
    (htexts : p.texts = []) (hturns : p.turns = turn :: turns) :
    Sound text fails {
      streams := p.streams.newLatch.2
      writer := .latched p.streams.newLatch.1
      texts := turn.after
      turns
      jobs := p.jobs ++
        [⟨p.streams.newLatch.1, p.writer, turn.task.texts, turn.task.failure, false⟩] } := by
  have hlength := h.linked.length_eq
  -- The chain is the old one with one more place at its end.
  have hold : ∀ {i}, i < p.jobs.length → ∀ j,
      (p.jobs ++ [j])[i]? = p.jobs[i]? ∧
        p.streams.newLatch.2.latches[i]? = p.streams.latches[i]? := by
    intro i hi j
    exact ⟨List.getElem?_append_left hi, List.getElem?_append_left (by omega)⟩
  have hlatch : p.streams.newLatch.2.latches[p.jobs.length]? = some ⟨"", .pending⟩ := by
    simp [Streams.newLatch, ← hlength]
  have hnew : p.streams.newLatch.1 = p.jobs.length := hlength
  rw [hnew, h.writer]
  refine ⟨⟨by simp [Streams.newLatch, hlength], h.linked.buffer, ?_⟩, by simp [writerAt], ?_, ?_⟩
  · intro i j hj
    by_cases hi : i < p.jobs.length
    · obtain ⟨hjob, hlatch⟩ := hold hi ⟨_, _, _, _, false⟩
      refine (h.linked.stands (hjob.symm.trans hj)).congr hlatch ?_
      rintro ⟨i', j', hi', hj', hfails⟩
      exact ⟨i', j', hi', by rwa [(hold (by omega) _).1], hfails⟩
    · obtain rfl : i = p.jobs.length := by
        have hlt := (List.getElem?_eq_some_iff.mp hj).1
        simp only [List.length_append, List.length_singleton] at hlt
        omega
      simp only [List.getElem?_concat_length, Option.some.injEq] at hj
      exact hj ▸ .pending hlatch
  · have hbefore : ∀ j more, arrival p.streams.newLatch.2 (p.jobs ++ [j]) p.jobs.length more =
        arrival p.streams p.jobs p.jobs.length more :=
      fun j more => arrival_eq_of_before rfl fun i hi => hold hi j
    rw [← h.arrives, List.length_append, List.length_singleton,
      arrival_succ List.getElem?_concat_length hlatch, hbefore]
    obtain ⟨task, after⟩ := turn
    simp [htexts, hturns, outcome]
  · rw [← h.fails, State.Fails, State.Fails]
    simp only [hturns, List.mem_cons, exists_eq_or_imp, List.length_append, List.length_singleton,
      cut_concat_iff]
    exact or_assoc

theorem Sound.step (h : Sound text fails p) (hstep : Step p q) : Sound text fails q := by
  cases hstep with
  | write htexts _ => exact h.write htexts
  | putOff htexts hturns => exact h.putOff htexts hturns
  | jobWrites hj htexts _ =>
    exact h.moved (moved_write h.linked hj htexts) (List.getElem?_eq_some_iff.mp hj).1
  | jobRefused hj htexts hresult =>
    exact h.moved (moved_refused h.linked hj htexts hresult) (List.getElem?_eq_some_iff.mp hj).1
  | jobCompletes hj htexts hopen hfailure =>
    exact h.moved (moved_complete h.linked hj htexts hopen hfailure)
      (List.getElem?_eq_some_iff.mp hj).1
  | jobFails hj htexts hopen hfailure =>
    exact h.moved (moved_fail h.linked hj htexts hopen hfailure)
      (List.getElem?_eq_some_iff.mp hj).1

theorem Sound.steps (h : Sound text fails p) (hsteps : Steps p q) : Sound text fails q := by
  induction hsteps with
  | refl => exact h
  | tail _ hstep ih => exact ih.step hstep

/-! ## All runs end -/

def stepsOf : List Job → Nat
  | [] => 0
  | j :: jobs => (if j.settled then 0 else j.texts.length + 1) + stepsOf jobs

def stepsToCome : List Turn → Nat
  | [] => 0
  | turn :: turns => turn.task.texts.length + turn.after.length + 2 + stepsToCome turns

def State.left (s : State) : Nat :=
  s.texts.length + stepsToCome s.turns + stepsOf s.jobs

theorem stepsOf_append (jobs jobs' : List Job) :
    stepsOf (jobs ++ jobs') = stepsOf jobs + stepsOf jobs' := by
  induction jobs with
  | nil => simp [stepsOf]
  | cons j jobs ih => simp only [List.cons_append, stepsOf, ih]; omega

theorem stepsOf_set_lt (hj : jobs[k]? = some j) (hopen : j.settled = false)
    (hless : j'.settled = true ∨ j'.texts.length < j.texts.length) :
    stepsOf (jobs.set k j') < stepsOf jobs := by
  induction jobs generalizing k with
  | nil => simp at hj
  | cons a jobs ih =>
    cases k with
    | zero =>
      obtain rfl : a = j := by simpa using hj
      simp only [List.set_cons_zero, stepsOf, hopen, Bool.false_eq_true, if_false]
      obtain hsettled | hless := hless
      · rw [if_pos hsettled]
        omega
      · split <;> omega
    | succ k =>
      simp only [List.set_cons_succ, stepsOf]
      have := ih (by simpa using hj)
      omega

theorem Step.left_lt (h : Linked p.streams p.jobs) (hstep : Step p q) : q.left < p.left := by
  have hopen_of {k : Nat} {j : Job} {text : String} {texts : List String}
      (hj : p.jobs[k]? = some j) (htexts : j.texts = text :: texts) : j.settled = false := by
    cases h.stands hj with
    | pending _ => rfl
    | done _ => cases htexts
    | failed _ _ => cases htexts
  cases hstep with
  | write htexts _ =>
    simp only [State.left, htexts, List.length_cons]
    omega
  | putOff htexts hturns =>
    simp only [State.left, htexts, hturns, stepsToCome, stepsOf_append, stepsOf, List.length_nil]
    simp
    omega
  | jobWrites hj htexts _ =>
    apply Nat.add_lt_add_left
    exact stepsOf_set_lt hj (hopen_of hj htexts) (.inr (by simp [htexts]))
  | jobRefused hj htexts _ =>
    apply Nat.add_lt_add_left
    exact stepsOf_set_lt hj (hopen_of hj htexts) (.inr (by simp [htexts]))
  | jobCompletes hj _ hopen _ | jobFails hj _ hopen _ =>
    apply Nat.add_lt_add_left
    exact stepsOf_set_lt hj hopen (.inl rfl)

theorem Sound.exists_step (h : Sound text fails p) (hdone : ¬ p.Done) : ∃ q, Step p q := by
  cases htexts : p.texts with
  | cons head texts =>
    obtain ⟨-, hwrote⟩ := wrote h.linked head (Nat.le_refl _)
    rw [← h.writer] at hwrote
    refine ⟨_, .write htexts fun hblocked => ?_⟩
    obtain hok | ⟨⟨e, he⟩, -⟩ := hwrote.result
    · cases hok.symm.trans hblocked
    · cases he.symm.trans hblocked
  | nil =>
    cases hturns : p.turns with
    | cons turn turns => exact ⟨_, .putOff htexts hturns⟩
    | nil =>
      have hjob : ∃ j ∈ p.jobs, j.settled = false := by
        apply Classical.byContradiction
        intro hall
        exact hdone ⟨htexts, hturns, by simpa using hall⟩
      obtain ⟨j, hmem, hopen⟩ := hjob
      obtain ⟨k, hlt, rfl⟩ := List.mem_iff_getElem.mp hmem
      have hj := List.getElem?_eq_getElem hlt
      generalize p.jobs[k] = j at hj hopen
      cases hj' : j.texts with
      | nil =>
        cases hfailure : j.failure with
        | none => exact ⟨_, .jobCompletes hj hj' hopen hfailure⟩
        | some e => exact ⟨_, .jobFails hj hj' hopen hfailure⟩
      | cons head texts =>
        obtain ⟨-, hwrote⟩ := wrote h.linked head (Nat.le_of_lt hlt)
        have hwriter : j.writer = writerAt k := by cases h.linked.stands hj <;> rfl
        rw [← hwriter] at hwrote
        obtain hok | ⟨⟨e, he⟩, -⟩ := hwrote.result
        · exact ⟨_, .jobWrites hj hj' hok⟩
        · exact ⟨_, .jobRefused hj hj' he⟩

/-- No order of steps is a dead end. -/
theorem Sound.exists_done (h : Sound text fails p) : ∃ q, Steps p q ∧ q.Done := by
  induction hleft : p.left using Nat.strongRecOn generalizing p with
  | _ n ih =>
    by_cases hdone : p.Done
    · exact ⟨p, .refl, hdone⟩
    · obtain ⟨q, hstep⟩ := h.exists_step hdone
      obtain ⟨r, hsteps, hr⟩ := ih q.left (hleft ▸ hstep.left_lt h.linked) (h.step hstep) rfl
      exact ⟨r, .head hstep hsteps, hr⟩

/-! ## The end of a run -/

theorem Stands.of_settled (h : Stands s jobs k j) (hsettled : j.settled = true) :
    j.texts = [] ∧ (s.latches[k]? = some ⟨"", .done (writerAt k)⟩ ∧ j.failure = none ∨
      (∃ e, s.latches[k]? = some ⟨"", .failed e⟩) ∧ Cut jobs (k + 1)) := by
  cases h with
  | pending _ => cases hsettled
  | done hlatch => exact ⟨rfl, .inl ⟨hlatch, rfl⟩⟩
  | failed hlatch hcut => exact ⟨rfl, .inr ⟨⟨_, hlatch⟩, hcut⟩⟩

section Settled

variable (h : Linked s jobs) (hsettled : ∀ j ∈ jobs, j.settled = true)
include h hsettled

theorem of_settled (hk : k < jobs.length) :
    ∃ j, jobs[k]? = some j ∧ j.texts = [] ∧
      (s.latches[k]? = some ⟨"", .done (writerAt k)⟩ ∧ j.failure = none ∨
        (∃ e, s.latches[k]? = some ⟨"", .failed e⟩) ∧ Cut jobs (k + 1)) := by
  have hj := List.getElem?_eq_getElem hk
  exact ⟨_, hj, (h.stands hj).of_settled (hsettled _ (List.getElem_mem hk))⟩

theorem held_of_settled : ∀ l ∈ s.latches, l.held = "" := by
  intro l hl
  obtain ⟨k, hk, rfl⟩ := List.mem_iff_getElem.mp hl
  have hlatch := List.getElem?_eq_getElem hk
  obtain ⟨j, -, -, ⟨hdone, -⟩ | ⟨⟨e, hfailed⟩, -⟩⟩ :=
    of_settled h hsettled (k := k) (by rw [← h.length_eq]; exact hk)
  · rw [hdone, Option.some.injEq] at hlatch
    rw [← hlatch]
  · rw [hfailed, Option.some.injEq] at hlatch
    rw [← hlatch]

theorem arrival_of_settled (hk : k ≤ jobs.length) : arrival s jobs k "" = s.textOf 0 := by
  induction k with
  | zero => rw [arrival, String.append_empty]
  | succ k ih =>
    obtain ⟨j, hj, htexts, ⟨hlatch, -⟩ | ⟨⟨e, hlatch⟩, -⟩⟩ := of_settled h hsettled hk
    · rw [arrival_succ hj hlatch, htexts]
      simpa using ih (by omega)
    · rw [arrival_succ hj hlatch, htexts]
      simpa using ih (by omega)

/-- Once all is settled, a writer leads to the buffer, or to a failure if it is behind one. -/
theorem leads_of_settled (hk : k ≤ jobs.length) :
    Cut jobs k ∧ (∃ e, s.Leads (writerAt k) (.failed e)) ∨
      ¬ Cut jobs k ∧ s.Leads (writerAt k) (.output 0) := by
  induction k with
  | zero => exact .inr ⟨fun ⟨i, _, hi, _⟩ => by omega, _, .direct 0⟩
  | succ k ih =>
    obtain ⟨j, hj, -, ⟨hlatch, hfailure⟩ | ⟨⟨e, hlatch⟩, hcut⟩⟩ := of_settled h hsettled hk
    · have hstatus := status?_of_getElem? hlatch
      have hcut_iff : Cut jobs (k + 1) → Cut jobs k := by
        rintro ⟨i, a, hi, ha, hfails⟩
        refine ⟨i, a, ?_, ha, hfails⟩
        -- The task itself does not fail.
        have hne : i ≠ k := by
          rintro rfl
          obtain rfl := Option.some.inj (hj.symm.trans ha)
          simp [hfailure] at hfails
        omega
      obtain ⟨hcut, e, ns, hway⟩ | ⟨hcut, ns, hway⟩ := ih (by omega)
      · exact .inl ⟨hcut.mono (Nat.le_succ k), e, _, .done hstatus hway⟩
      · exact .inr ⟨fun hc => hcut (hcut_iff hc), _, .done hstatus hway⟩
    · exact .inl ⟨hcut, e, _, .failed (status?_of_getElem? hlatch)⟩

end Settled

theorem outcome_append {before : List Turn}
    (hbefore : ∀ turn ∈ before, turn.task.failure = none) (later : List Turn) :
    outcome (before ++ later) = String.join (before.map Turn.text) ++ outcome later := by
  induction before with
  | nil => simp
  | cons turn before ih =>
    have hturn := hbefore turn List.mem_cons_self
    have hrest := ih fun other hother => hbefore other (List.mem_cons_of_mem _ hother)
    obtain ⟨task, after⟩ := turn
    simp only at hturn
    simp [outcome, hturn, hrest, Turn.text, String.append_assoc]

/-- Whatever the order in which the renderer and the tasks take their steps, it can be continued
    until all is done.  Then the destination has all the texts in the order of the renderer, or,
    if tasks fail, those up to the last one that the first of these has written; and waiting for the
    last latch tells whether any has failed. -/
theorem delivers {texts : List String} {turns : List Turn} {s : State}
    (h : Steps (start texts turns) s) :
    (∃ t, Steps s t ∧ t.Done) ∧
    (s.Done →
      (∀ l ∈ s.streams.latches, l.held = "") ∧
      ((∀ turn ∈ turns, turn.task.failure = none) →
        s.streams.textOf 0 = String.join texts ++ String.join (turns.map Turn.text) ∧
          s.streams.finish s.writer = .ok) ∧
      ∀ before turn later, turns = before ++ turn :: later →
        (∀ earlier ∈ before, earlier.task.failure = none) → turn.task.failure ≠ none →
        s.streams.textOf 0 = String.join texts ++ String.join (before.map Turn.text) ++
            String.join turn.task.texts ∧
          ∃ e, s.streams.finish s.writer = .error e) := by
  have hs := (sound_start texts turns).steps h
  refine ⟨hs.exists_done, fun ⟨htexts, hturns, hsettled⟩ => ?_⟩
  have hfails : Cut s.jobs s.jobs.length ↔ ∃ turn ∈ turns, turn.task.failure.isSome = true := by
    rw [← hs.fails, State.Fails, hturns]
    simp
  have htext : s.streams.textOf 0 = String.join texts ++ outcome turns := by
    rw [← hs.arrives, htexts, hturns]
    exact (arrival_of_settled hs.linked hsettled (Nat.le_refl _)).symm
  have hleads := leads_of_settled hs.linked hsettled (Nat.le_refl _)
  rw [← hs.writer] at hleads
  refine ⟨held_of_settled hs.linked hsettled, fun hall => ?_, ?_⟩
  · obtain ⟨hcut, -⟩ | ⟨-, hleads⟩ := hleads
    · obtain ⟨turn, hturn, hfails⟩ := hfails.mp hcut
      simp [hall turn hturn] at hfails
    · obtain ⟨text, hbuffer⟩ := hs.linked.buffer
      have hturns := outcome_append hall []
      rw [List.append_nil] at hturns
      exact ⟨by rw [htext, hturns, outcome, String.append_empty], by
        simp [Streams.finish, hleads.route_eq, Streams.flushOutput, hbuffer, Output.flushRefusal]⟩
  · intro before turn later heq hbefore hfailure
    have hsome : turn.task.failure.isSome = true := Option.isSome_iff_ne_none.mpr hfailure
    obtain ⟨-, e, hleads⟩ | ⟨hcut, -⟩ := hleads
    · refine ⟨?_, e, by rw [Streams.finish, hleads.route_eq]⟩
      obtain ⟨task, after⟩ := turn
      simp only at hsome
      rw [htext, heq, outcome_append hbefore, outcome, if_pos hsome, String.append_empty,
        String.append_assoc]
    · exact absurd (hfails.mpr ⟨turn, by simp [heq], hsome⟩) hcut

theorem delivers_failing : ∃ s, Steps
      (start ["a"] [⟨⟨["b"], none⟩, ["c"]⟩, ⟨⟨["d"], some (.load (.notFound "x"))⟩, ["e"]⟩]) s ∧
    s.Done ∧ s.streams.textOf 0 = "abcd" ∧ ∃ e, s.streams.finish s.writer = .error e := by
  -- The second task ends before the first one has written anything.
  have hrun : ∃ s, Steps
      (start ["a"] [⟨⟨["b"], none⟩, ["c"]⟩, ⟨⟨["d"], some (.load (.notFound "x"))⟩, ["e"]⟩]) s ∧
      s.Done :=
    ⟨_, .head (.write rfl (by intro h; cases h)) <| .head (.putOff rfl rfl) <|
      .head (.write rfl (by intro h; cases h)) <| .head (.putOff rfl rfl) <|
      .head (.jobWrites (k := 1) rfl rfl rfl) <| .head (.write rfl (by intro h; cases h)) <|
      .head (.jobFails (k := 1) rfl rfl rfl rfl) <| .head (.jobWrites (k := 0) rfl rfl rfl) <|
      .head (.jobCompletes (k := 0) rfl rfl rfl rfl) .refl, rfl, rfl, by simp [start]⟩
  obtain ⟨s, hsteps, hdone⟩ := hrun
  obtain ⟨-, -, hfailing⟩ := (delivers hsteps).2 hdone
  exact ⟨s, hsteps, hdone, hfailing [_] _ [] rfl (by simp) (by simp)⟩

end Mustache.Relay
