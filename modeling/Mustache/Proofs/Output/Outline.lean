import Mustache.Proofs.Output.Contents

/-! # Streams without their texts

Where writers lead depends on how latches stand, and on nothing that has been written.  The outline
of the streams is what is left without the texts: destinations that are empty buffers, and latches
that hold nothing back.  What is known of streams whose destinations take everything holds of the
outline of any streams, with destinations that may refuse what they are given.

* `Streams.outline` — streams without their texts.
* `Output.Later` — a destination after it has been given more texts.
* `Streams.Fills` — at most the destination at one end has been given texts.
-/

namespace Mustache

/-- A destination after it has been given more texts. -/
inductive Output.Later (dest : Output) : Output → Prop
  | refl : Later dest dest
  | write {dest' : Output} (h : Later dest dest') (text : String) :
      Later dest (dest'.write text).2

theorem Output.Later.trans {a b c : Output} (h : a.Later b) (h' : b.Later c) : a.Later c := by
  induction h' with
  | refl => exact h
  | write _ text ih => exact .write ih text

namespace Streams

variable {s t u : Streams} {w out : Writer} {e x : End} {m n k : Nat} {st : Latch.Status}

/-- The streams without their texts. -/
def outline (s : Streams) : Streams :=
  ⟨s.outputs.map fun _ => .buffer "", s.latches.map fun l => ⟨"", l.status⟩⟩

@[simp] theorem status?_outline (s : Streams) (n : Nat) :
    s.outline.status? n = s.status? n := by
  simp only [status?, outline, List.getElem?_map, Option.map_map]
  rfl

@[simp] theorem route_outline (s : Streams) (w : Writer) : s.outline.route w = s.route w := by
  have hwithin (fuel : Nat) (w : Writer) : s.outline.routeWithin fuel w = s.routeWithin fuel w := by
    induction fuel generalizing w with
    | zero => cases w <;> rfl
    | succ fuel ih =>
      cases w with
      | direct k => rfl
      | latched n => simp only [routeWithin_latched, status?_outline, ih]
  rw [route, route, hwithin]
  simp only [outline, List.length_map]

theorem outline_eq (houtputs : t.outputs.length = s.outputs.length)
    (hlatches : t.latches.map Latch.status = s.latches.map Latch.status) :
    t.outline = s.outline := by
  have hmap (s : Streams) : s.latches.map (fun l => (⟨"", l.status⟩ : Latch)) =
      (s.latches.map Latch.status).map (Latch.mk "") := by
    rw [List.map_map]
    rfl
  simp only [outline, hmap, hlatches, List.map_const', houtputs]

theorem has_outline_direct : s.outline.Has (.direct k) ↔ k < s.outputs.length := by
  simp only [Has, content_output, outline, List.getElem?_map, Option.map_eq_some_iff]
  constructor
  · rintro ⟨_, _, hget, -⟩
    exact (List.getElem?_eq_some_iff.mp hget).1
  · intro hlt
    exact ⟨"", s.outputs[k], List.getElem?_eq_getElem hlt, rfl⟩

/-- There is no text in an outline. -/
theorem content_outline {text : String} (h : s.outline.content e = some text) : text = "" := by
  cases e with
  | output k =>
    rw [content_output, outline, List.getElem?_map] at h
    cases hk : s.outputs[k]? with
    | none => simp [hk] at h
    | some dest => simpa [hk] using h.symm
  | pending n =>
    rw [content_pending, outline, List.getElem?_map] at h
    cases hn : s.latches[n]? with
    | none => simp [hn] at h
    | some l =>
      simp only [hn, Option.map_some, Option.some.injEq, Latch.mk.injEq] at h
      exact h.1.symm
  | failed _ => cases h
  | nowhere => cases h

theorem outline_newLatch (s : Streams) : s.newLatch.2.outline = s.outline.newLatch.2 := by
  simp only [outline, newLatch, List.map_append, List.map_cons, List.map_nil]

theorem newLatch_outline (s : Streams) : s.outline.newLatch.1 = s.newLatch.1 := by
  simp only [outline, newLatch, List.length_map]

theorem outline_settle (s : Streams) (m : Nat) (st : Latch.Status) :
    (s.settle m st).outline = s.outline.settle m st := by
  simp only [outline, settle, List.map_set]

theorem outline_write (text : String) (w : Writer) (s : Streams) :
    (s.write text w).2.outline = s.outline := by
  unfold write
  cases s.route w with
  | output k =>
    simp only
    cases s.outputs[k]? with
    | none => rfl
    | some dest => exact outline_eq List.length_set rfl
  | pending n =>
    refine outline_eq rfl ?_
    -- Text that is held back leaves the latch as it stands.
    refine List.ext_getElem? fun i => ?_
    simp only [List.getElem?_map, List.getElem?_modify]
    cases s.latches[i]? with
    | none => rfl
    | some l =>
      simp only [Option.map_eq_map, Option.map_some]
      split <;> rfl
  | failed _ => rfl
  | nowhere => rfl

/-- A writer that there is does not lead to a destination that there is not. -/
theorem lt_of_route_output (hs : s.outline.Closed) (hw : s.outline.Has w)
    (hroute : s.route w = .output k) : k < s.outputs.length := by
  obtain ⟨ns, hway⟩ : s.Leads w (.output k) := leads_iff.mpr ⟨hroute, nofun⟩
  clear hroute
  generalize hend : End.output k = e at hway
  induction hway with
  | direct j =>
    cases hend
    exact has_outline_direct.mp hw
  | pending | failed => cases hend
  | done hst _ ih => exact ih (hs _ _ ((status?_outline s _).trans hst)) hend

/-! ## Destinations -/

/-- At most the destination at an end has been given texts. -/
def Fills (e : End) (s t : Streams) : Prop :=
  ∀ k dest, s.outputs[k]? = some dest →
    ∃ dest', t.outputs[k]? = some dest' ∧ dest.Later dest' ∧ (e ≠ .output k → dest' = dest)

namespace Fills

theorem of_outputs (e : End)
    (h : ∀ k, k < s.outputs.length → t.outputs[k]? = s.outputs[k]?) : Fills e s t := by
  intro k dest hdest
  exact ⟨dest, (h k (List.getElem?_eq_some_iff.mp hdest).1).trans hdest, .refl, fun _ => rfl⟩

theorem refl (e : End) (s : Streams) : Fills e s s := .of_outputs e fun _ _ => rfl

/-- One change after another, the second one at the end of the first or at no destination. -/
theorem trans (h : Fills e s t) (hx : x = e ∨ ∀ k, x ≠ .output k) (h' : Fills x t u) :
    Fills e s u := by
  intro k dest hdest
  obtain ⟨dest', hdest', hlater, hsame⟩ := h k dest hdest
  obtain ⟨dest'', hdest'', hlater', hsame'⟩ := h' k dest' hdest'
  refine ⟨dest'', hdest'', hlater.trans hlater', fun hne => ?_⟩
  have hxne : x ≠ .output k := by
    obtain rfl | hnone := hx
    · exact hne
    · exact hnone k
  rw [hsame' hxne, hsame hne]

/-- What happens at a destination that is opened is not seen at the others. -/
theorem of_opened (dest : Output) (h : Fills (.output s.outputs.length) (s.openOutput dest).2 t)
    (e : End) : Fills e s t := by
  intro k old hold
  have hlt := (List.getElem?_eq_some_iff.mp hold).1
  obtain ⟨dest', hdest', -, hsame⟩ :=
    h k old ((List.getElem?_append_left hlt).trans hold)
  have hne : End.output s.outputs.length ≠ .output k := by
    intro heq
    cases heq
    exact absurd hlt (Nat.lt_irrefl _)
  rw [hsame hne] at hdest'
  exact ⟨old, hdest', .refl, fun _ => rfl⟩

end Fills

theorem fills_newLatch (e : End) (s : Streams) : Fills e s s.newLatch.2 :=
  .of_outputs e fun _ _ => rfl

theorem fills_settle (e : End) (m : Nat) (st : Latch.Status) (s : Streams) :
    Fills e s (s.settle m st) :=
  .of_outputs e fun _ _ => rfl

theorem fills_write (text : String) (w : Writer) (s : Streams) :
    Fills (s.route w) s (s.write text w).2 := by
  unfold write
  cases s.route w with
  | output k =>
    simp only
    cases hdest : s.outputs[k]? with
    | none => exact .refl _ s
    | some dest =>
      intro j old hold
      have hlt := (List.getElem?_eq_some_iff.mp hdest).1
      by_cases hj : k = j
      · subst hj
        cases hdest.symm.trans hold
        exact ⟨_, List.getElem?_set_self hlt, .write .refl text, fun hne => absurd rfl hne⟩
      · exact ⟨old, (List.getElem?_set_ne hj).trans hold, .refl, fun _ => rfl⟩
  | pending n => exact .of_outputs _ fun _ _ => rfl
  | failed _ => exact .refl _ s
  | nowhere => exact .refl _ s

/-! ## Settling latches -/

/-- The text that a latch holds back. -/
def heldAt (s : Streams) (latch : Nat) : String :=
  ((s.latches[latch]?).map Latch.held).getD ""

theorem complete_of_empty (h : (s.heldAt m).isEmpty = true) :
    s.complete m out = s.settle m (.done out) := by
  rw [heldAt] at h
  simp only [complete, if_pos h]
  rfl

theorem complete_of_held (h : ¬ (s.heldAt m).isEmpty = true) :
    s.complete m out = (s.write (s.heldAt m) out).2.settle m
      (afterWrite out (s.write (s.heldAt m) out).1) := by
  rw [heldAt] at h ⊢
  simp only [complete, if_neg h]
  rfl

/-- When work has ended, its latch is done, or it has failed as what it held back was refused. -/
theorem exists_complete (m : Nat) (out : Writer) (s : Streams) :
    ∃ t st, s.complete m out = t.settle m st ∧ t.outline = s.outline ∧
      Fills (s.route out) s t ∧ (st = .done out ∨ ∃ cause, st = .failed cause) := by
  by_cases hempty : (s.heldAt m).isEmpty = true
  · exact ⟨s, .done out, complete_of_empty hempty, rfl, .refl _ s, .inl rfl⟩
  · refine ⟨_, _, complete_of_held hempty, outline_write _ out s, fills_write _ out s, ?_⟩
    cases (s.write (s.heldAt m) out).1 with
    | ok => exact .inl rfl
    | error cause => exact .inr ⟨cause, rfl⟩
    | blocked => exact .inl rfl

end Streams

end Mustache
