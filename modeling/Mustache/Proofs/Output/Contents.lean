import Mustache.Proofs.Output.Routes

/-! # What actions on the streams change

An action at a writer adds to the text at the end the writer leads to, and may open more
destinations and latches.  Nothing else that there was changes; in particular all writers lead where
they did.

* `Streams.content` — the text at an end.
* `Streams.Touches` — at most the text at one end has changed.
* `Streams.touches_write`, `Streams.complete_eq` — writing, and settling a latch that is done.
-/

namespace Mustache.Streams

variable {s t u : Streams} {w out : Writer} {e e' e'' : End} {m n : Nat} {st : Latch.Status}
  {text held : String}

/-! ## The text at an end -/

/-- The text in a buffer, or the text that a pending latch holds back. -/
def content (s : Streams) : End → Option String
  | .output k =>
    match s.outputs[k]? with
    | some (.buffer text) => some text
    | _ => none
  | .pending n =>
    match s.latches[n]? with
    | some ⟨held, .pending⟩ => some held
    | _ => none
  | _ => none

theorem content_output {k : Nat} :
    s.content (.output k) = some text ↔ s.outputs[k]? = some (.buffer text) := by
  rw [content]
  cases s.outputs[k]? with
  | none => simp
  | some dest => cases dest <;> simp

theorem content_pending :
    s.content (.pending n) = some held ↔ s.latches[n]? = some ⟨held, .pending⟩ := by
  rw [content]
  cases s.latches[n]? with
  | none => simp
  | some l =>
    obtain ⟨_, st⟩ := l
    cases st <;> simp

theorem status?_of_content (h : s.content (.pending n) = some held) :
    s.status? n = some .pending := by
  rw [status?, content_pending.mp h]
  rfl

theorem exists_content (h : s.status? n = some .pending) :
    ∃ held, s.content (.pending n) = some held := by
  obtain ⟨⟨held, st⟩, hl, rfl⟩ := Option.map_eq_some_iff.mp h
  exact ⟨held, content_pending.mpr hl⟩

/-- A writer leads to a buffer or is latched on a latch that there is. -/
def Has (s : Streams) : Writer → Prop
  | .direct k => ∃ text, s.content (.output k) = some text
  | .latched n => ∃ st, s.status? n = some st

/-- The work behind every latch that is done ended on a writer that there is. -/
def Closed (s : Streams) : Prop :=
  ∀ n target, s.status? n = some (.done target) → s.Has target

/-! ## Changes at one end -/

/-- Nothing that there was has changed, but for the text at an end. -/
structure Touches (e : End) (s t : Streams) : Prop where
  status : ∀ {n st}, s.status? n = some st → t.status? n = some st
  content : ∀ {e' text}, s.content e' = some text → e' ≠ e → t.content e' = some text
  kept : ∀ {text}, s.content e = some text → ∃ text, t.content e = some text

namespace Touches

theorem refl (e : End) (s : Streams) : Touches e s s :=
  ⟨fun h => h, fun h _ => h, fun h => ⟨_, h⟩⟩

theorem exists_content (h : Touches e s t) (he : s.content e' = some text) :
    ∃ text, t.content e' = some text := by
  by_cases heq : e' = e
  · subst heq
    exact h.kept he
  · exact ⟨text, h.content he heq⟩

theorem has (h : Touches e s t) (hw : s.Has w) : t.Has w := by
  cases w with
  | direct k =>
    obtain ⟨text, htext⟩ := hw
    exact h.exists_content htext
  | latched n =>
    obtain ⟨st, hst⟩ := hw
    exact ⟨st, h.status hst⟩

theorem passes (h : Touches e s t) {ns : List Nat} (hway : s.Passes w ns e') :
    t.Passes w ns e' := by
  induction hway with
  | direct k => exact .direct k
  | pending hst => exact .pending (h.status hst)
  | failed hst => exact .failed (h.status hst)
  | done hst _ ih => exact .done (h.status hst) ih

theorem of_passes (h : Touches e s t) (hs : s.Closed) {ns : List Nat} (hway : t.Passes w ns e')
    (hw : s.Has w) : s.Passes w ns e' := by
  -- The way meets only latches that there were: the first one, and the targets of old ones.
  have hstatus {n : Nat} {st : Latch.Status} (hn : s.Has (.latched n))
      (hst : t.status? n = some st) : s.status? n = some st := by
    obtain ⟨old, hold⟩ := hn
    rw [hold, ← hst, h.status hold]
  induction hway with
  | direct k => exact .direct k
  | pending hst => exact .pending (hstatus hw hst)
  | failed hst => exact .failed (hstatus hw hst)
  | done hst _ ih => exact .done (hstatus hw hst) (ih (hs _ _ (hstatus hw hst)))

/-- All writers lead where they did. -/
theorem route_eq (h : Touches e s t) (hs : s.Closed) (hw : s.Has w) : t.route w = s.route w := by
  apply route_eq_of_leads_iff
  intro e'
  constructor
  · rintro ⟨ns, hway⟩
    exact ⟨ns, h.of_passes hs hway hw⟩
  · rintro ⟨ns, hway⟩
    exact ⟨ns, h.passes hway⟩

end Touches

/-! ## New ends -/

/-- An end is a given one, or one that was not there: a new latch, or none at all. -/
def Beyond (s : Streams) (e e' : End) : Prop :=
  e' = e ∨ s.content e' = none ∧ ∀ k, e' ≠ .output k

theorem Beyond.refl (s : Streams) (e : End) : s.Beyond e e := .inl rfl

theorem Beyond.trans (h : s.Beyond e e') (ht : Touches e s t) (h' : t.Beyond e' e'') :
    s.Beyond e e'' := by
  obtain rfl | ⟨hnone, hne⟩ := h'
  · exact h
  · refine .inr ⟨?_, hne⟩
    cases hcontent : s.content e'' with
    | none => rfl
    | some text =>
      obtain ⟨_, hsome⟩ := ht.exists_content hcontent
      cases hnone.symm.trans hsome

theorem Touches.trans (h : Touches e s t) (hb : s.Beyond e e') (h' : Touches e' t u) :
    Touches e s u where
  status hst := h'.status (h.status hst)
  content he hne := by
    refine h'.content (h.content he hne) ?_
    -- The second change is at the same end, or at one that held no text before the first.
    rintro rfl
    obtain rfl | ⟨hnone, -⟩ := hb
    · exact hne rfl
    · cases hnone.symm.trans he
  kept he := by
    obtain ⟨_, he⟩ := h.kept he
    exact h'.exists_content he

/-! ## Actions -/

theorem Closed.of_status (hs : s.Closed) (ht : Touches e s t)
    (hstatus : ∀ n, t.status? n = s.status? n) : t.Closed := by
  intro n target hst
  rw [hstatus] at hst
  exact ht.has (hs n target hst)

/-- Destinations that are opened change nothing that there was. -/
theorem touches_of_outputs (e : End) (hlatches : t.latches = s.latches)
    (houtputs : ∀ k, k < s.outputs.length → t.outputs[k]? = s.outputs[k]?) : Touches e s t := by
  have hcontent {e' : End} {text : String} (h : s.content e' = some text) :
      t.content e' = some text := by
    cases e' with
    | output k =>
      rw [content_output] at h ⊢
      rw [houtputs k (List.getElem?_eq_some_iff.mp h).1, h]
    | pending n =>
      rw [content_pending] at h ⊢
      rw [hlatches, h]
    | failed _ => cases h
    | nowhere => cases h
  refine ⟨fun hst => ?_, fun h _ => hcontent h, fun h => ⟨_, hcontent h⟩⟩
  rw [status?, hlatches]
  exact hst

theorem status?_newLatch_self (s : Streams) :
    s.newLatch.2.status? s.newLatch.1 = some .pending := by
  simp [status?, newLatch]

theorem content_newLatch_self (s : Streams) :
    s.newLatch.2.content (.pending s.newLatch.1) = some "" := by
  simp [content_pending, newLatch]

theorem content_newLatch_none (s : Streams) : s.content (.pending s.newLatch.1) = none := by
  simp [content, newLatch]

theorem getElem?_newLatch {l : Latch} (h : s.latches[n]? = some l) :
    s.newLatch.2.latches[n]? = some l := by
  rw [newLatch, List.getElem?_append_left (List.getElem?_eq_some_iff.mp h).1, h]

theorem content_newLatch (h : s.content e = some text) : s.newLatch.2.content e = some text := by
  cases e with
  | output k => exact h
  | pending n => exact content_pending.mpr (getElem?_newLatch (content_pending.mp h))
  | failed _ => cases h
  | nowhere => cases h

theorem touches_newLatch (e : End) (s : Streams) : Touches e s s.newLatch.2 := by
  refine ⟨fun hst => ?_, fun h _ => content_newLatch h, fun h => ⟨_, content_newLatch h⟩⟩
  obtain ⟨l, hl, rfl⟩ := Option.map_eq_some_iff.mp hst
  rw [status?, getElem?_newLatch hl]
  rfl

theorem Closed.newLatch (hs : s.Closed) : s.newLatch.2.Closed := by
  intro n target hst
  by_cases hn : n < s.latches.length
  · refine (touches_newLatch .nowhere s).has (hs n target ?_)
    rwa [status?, Streams.newLatch, List.getElem?_append_left hn] at hst
  · -- The new latch is pending.
    obtain ⟨l, hl, hdone⟩ := Option.map_eq_some_iff.mp hst
    rw [Streams.newLatch, List.getElem?_append_right (by omega)] at hl
    have hmem := List.mem_of_getElem? hl
    obtain rfl := List.mem_singleton.mp hmem
    cases hdone

theorem status?_write (text : String) (w : Writer) (s : Streams) (n : Nat) :
    (s.write text w).2.status? n = s.status? n := by
  rw [write]
  split
  · split <;> rfl
  · -- Text that is held back leaves the latch as it stands.
    rw [status?, status?, List.getElem?_modify]
    cases s.latches[n]? with
    | none => rfl
    | some l =>
      simp only [Option.map_eq_map, Option.map_some]
      split <;> rfl
  · rfl
  · rfl

/-- Text that is written goes to the end of the text that is there. -/
theorem content_write {old : String} (h : s.content (s.route w) = some old) (text : String) :
    (s.write text w).1 = .ok ∧ (s.write text w).2.content (s.route w) = some (old ++ text) := by
  unfold write
  cases hroute : s.route w with
  | output k =>
    rw [hroute, content_output] at h
    have hlt : k < s.outputs.length := (List.getElem?_eq_some_iff.mp h).1
    simp only [h, Output.write, content_output, List.getElem?_set_self hlt, and_self]
  | pending n =>
    rw [hroute, content_pending] at h
    simp only [content_pending, List.getElem?_modify, h, true_and]
    simp
  | failed _ => simp [hroute, content] at h
  | nowhere => simp [hroute, content] at h

theorem content_write_of_ne (h : s.content e = some held) (he : e ≠ s.route w) (text : String) :
    (s.write text w).2.content e = some held := by
  unfold write
  cases hroute : s.route w with
  | output k =>
    rw [hroute] at he
    simp only
    cases s.outputs[k]? with
    | none => exact h
    | some dest =>
      cases e with
      | output j =>
        have hj : k ≠ j := fun heq => he (heq ▸ rfl)
        rw [content_output] at h ⊢
        rw [List.getElem?_set_ne hj, h]
      | pending n => exact h
      | failed _ => cases h
      | nowhere => cases h
  | pending n =>
    rw [hroute] at he
    cases e with
    | output j => exact h
    | pending m =>
      have hm : n ≠ m := fun heq => he (heq ▸ rfl)
      rw [content_pending] at h ⊢
      exact (List.getElem?_modify_ne _ _ hm).trans h
    | failed _ => cases h
    | nowhere => cases h
  | failed _ => exact h
  | nowhere => exact h

theorem touches_write (text : String) (w : Writer) (s : Streams) :
    Touches (s.route w) s (s.write text w).2 :=
  ⟨fun hst => (status?_write text w s _).trans hst, fun h he => content_write_of_ne h he text,
    fun h => ⟨_, (content_write h text).2⟩⟩

theorem Closed.write (hs : s.Closed) (text : String) (w : Writer) : (s.write text w).2.Closed :=
  hs.of_status (touches_write text w s) (status?_write text w s)

/-! ## Settling latches -/

theorem content_settle_of_ne (he : e ≠ .pending m) : (s.settle m st).content e = s.content e := by
  cases e with
  | pending n =>
    have hn : m ≠ n := fun heq => he (heq ▸ rfl)
    rw [content, content, settle, List.getElem?_set_ne hn]
  | _ => rfl

theorem has_settle (hw : s.Has w) : (s.settle m st).Has w := by
  cases w with
  | direct k =>
    obtain ⟨text, htext⟩ := hw
    exact ⟨text, (content_settle_of_ne End.noConfusion).trans htext⟩
  | latched n =>
    obtain ⟨old, hold⟩ := hw
    by_cases hn : n = m
    · subst hn
      exact ⟨st, status?_settle_self (lt_of_status? hold)⟩
    · exact ⟨old, (status?_settle_of_ne hn).trans hold⟩

theorem Closed.settle (hs : s.Closed) (hst : ∀ out, st = .done out → s.Has out) :
    (s.settle m st).Closed := by
  intro n target htarget
  refine has_settle ?_
  by_cases hn : n = m
  · subst hn
    have hlt : n < s.latches.length := by
      have hlt := lt_of_status? htarget
      rwa [Streams.settle, List.length_set] at hlt
    cases (status?_settle_self hlt).symm.trans htarget
    exact hst target rfl
  · exact hs n target ((status?_settle_of_ne hn).symm.trans htarget)

/-- How a latch ends whose held text has been written where its work ended. -/
def afterWrite (out : Writer) : Result → Latch.Status
  | .error e => .failed e
  | _ => .done out

/-- A latch that is done is settled after the text that it held back has gone to where its work
    ended. -/
theorem complete_eq (m : Nat) (out : Writer) (s : Streams) :
    ∃ t st, s.complete m out = t.settle m st ∧ Touches (s.route out) s t ∧
      (s.Closed → t.Closed) ∧ (st = .done out ∨ ∃ cause, st = .failed cause) ∧
      ∀ {held text}, s.content (.pending m) = some held → s.content (s.route out) = some text →
        st = .done out ∧ t.content (s.route out) = some (text ++ held) := by
  let held := ((s.latches[m]?).map Latch.held).getD ""
  have hheld {text : String} (h : s.content (.pending m) = some text) : held = text := by
    simp only [held, content_pending.mp h, Option.map_some, Option.getD_some]
  by_cases hempty : held.isEmpty = true
  · -- Nothing was held back, so nothing is written.
    refine ⟨s, .done out, ?_, .refl _ s, fun h => h, .inl rfl, fun {text _} h htext => ⟨rfl, ?_⟩⟩
    · simp only [complete, held] at hempty ⊢
      rw [if_pos hempty]
      rfl
    · rw [← hheld h, String.isEmpty_iff.mp hempty, String.append_empty, htext]
  · refine ⟨(s.write held out).2, afterWrite out (s.write held out).1, ?_, touches_write held out s,
      fun h => h.write held out, ?_, ?_⟩
    · simp only [complete, held] at hempty ⊢
      rw [if_neg hempty]
      rfl
    · cases (s.write held out).1 with
      | ok => exact .inl rfl
      | error cause => exact .inr ⟨cause, rfl⟩
      | blocked => exact .inl rfl
    · intro text old h hold
      obtain ⟨hok, hcontent⟩ := content_write hold held
      rw [hok, hcontent, hheld h]
      exact ⟨rfl, rfl⟩

end Mustache.Streams
