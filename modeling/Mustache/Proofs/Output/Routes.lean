import Mustache.Output.Streams

/-! # Where writers lead

`Streams.route` follows latches with a bound on the number of steps.  The bound is never felt: a way
that comes to an end visits no latch twice, as it would go round for ever otherwise.  So what counts
is the way itself, which is unique.

* `Streams.Passes` — the way from a writer to its end, and the latches on it.
* `Streams.leads_iff` — `route` finds the end of the way, if it has one.
* `Streams.route_settle_of_ne` and the theorems after it — settling a latch changes where the writers
  behind it lead, and nothing else.
-/

namespace Mustache.Streams

variable {s t : Streams} {w out : Writer} {ns ns' : List Nat} {e e' : End} {m n : Nat}
  {st : Latch.Status}

/-! ## Ways -/

def status? (s : Streams) (n : Nat) : Option Latch.Status :=
  (s.latches[n]?).map Latch.status

theorem lt_of_status? (h : s.status? n = some st) : n < s.latches.length := by
  obtain ⟨l, hl, -⟩ := Option.map_eq_some_iff.mp h
  exact (List.getElem?_eq_some_iff.mp hl).1

/-- The way from a writer to its end, and the latches on it. -/
inductive Passes (s : Streams) : Writer → List Nat → End → Prop
  | direct (k : Nat) : Passes s (.direct k) [] (.output k)
  | pending {n : Nat} (h : s.status? n = some .pending) :
      Passes s (.latched n) [n] (.pending n)
  | failed {n : Nat} {cause : Error} (h : s.status? n = some (.failed cause)) :
      Passes s (.latched n) [n] (.failed cause)
  | done {n : Nat} {target : Writer} {ns : List Nat} {e : End}
      (h : s.status? n = some (.done target)) (rest : Passes s target ns e) :
      Passes s (.latched n) (n :: ns) e

/-- There is one way from a writer at most. -/
theorem Passes.unique (h : s.Passes w ns e) (h' : s.Passes w ns' e') : ns = ns' ∧ e = e' := by
  -- How a latch stands decides the step, so the two ways take the same steps.
  induction h generalizing ns' with
  | direct k =>
    cases h'
    exact ⟨rfl, rfl⟩
  | pending hst =>
    cases h' with
    | pending _ => exact ⟨rfl, rfl⟩
    | failed hst' => cases hst.symm.trans hst'
    | done hst' _ => cases hst.symm.trans hst'
  | failed hst =>
    cases h' with
    | pending hst' => cases hst.symm.trans hst'
    | failed hst' =>
      cases hst.symm.trans hst'
      exact ⟨rfl, rfl⟩
    | done hst' _ => cases hst.symm.trans hst'
  | done hst _ ih =>
    cases h' with
    | pending hst' => cases hst.symm.trans hst'
    | failed hst' => cases hst.symm.trans hst'
    | done hst' rest' =>
      cases hst.symm.trans hst'
      obtain ⟨rfl, rfl⟩ := ih rest'
      exact ⟨rfl, rfl⟩

/-- From a latch on the way on, the way is the rest of it. -/
theorem Passes.from_mem (h : s.Passes w ns e) (hn : n ∈ ns) :
    ∃ rest, s.Passes (.latched n) rest e ∧ rest.length ≤ ns.length := by
  induction h with
  | direct k => cases hn
  | pending hst =>
    obtain rfl := List.mem_singleton.mp hn
    exact ⟨_, .pending hst, Nat.le_refl _⟩
  | failed hst =>
    obtain rfl := List.mem_singleton.mp hn
    exact ⟨_, .failed hst, Nat.le_refl _⟩
  | done hst rest ih =>
    obtain rfl | hn := List.mem_cons.mp hn
    · exact ⟨_, .done hst rest, Nat.le_refl _⟩
    · obtain ⟨later, hlater, hle⟩ := ih hn
      exact ⟨later, hlater, Nat.le_succ_of_le hle⟩

theorem Passes.nodup (h : s.Passes w ns e) : ns.Nodup := by
  induction h with
  | direct k => exact List.nodup_nil
  | pending _ => exact List.pairwise_singleton _ _
  | failed _ => exact List.pairwise_singleton _ _
  | done hst rest ih =>
    refine List.nodup_cons.mpr ⟨fun hmem => ?_, ih⟩
    -- The way from a latch met twice would be shorter than itself.
    obtain ⟨again, hagain, hle⟩ := rest.from_mem hmem
    obtain ⟨rfl, -⟩ := hagain.unique (.done hst rest)
    rw [List.length_cons] at hle
    omega

theorem Passes.lt_length (h : s.Passes w ns e) : ∀ n ∈ ns, n < s.latches.length := by
  induction h with
  | direct k => nofun
  | pending hst =>
    intro n hn
    obtain rfl := List.mem_singleton.mp hn
    exact lt_of_status? hst
  | failed hst =>
    intro n hn
    obtain rfl := List.mem_singleton.mp hn
    exact lt_of_status? hst
  | done hst _ ih =>
    intro n hn
    obtain rfl | hn := List.mem_cons.mp hn
    · exact lt_of_status? hst
    · exact ih n hn

theorem Passes.length_le (h : s.Passes w ns e) : ns.length ≤ s.latches.length := by
  -- All latches on the way are different, and there are only so many.
  have hsub : ns ⊆ List.range s.latches.length := fun n hn => List.mem_range.mpr (h.lt_length n hn)
  have hle := h.nodup.length_le_of_subset hsub
  rwa [List.length_range] at hle

/-! ## Routes -/

theorem routeWithin_latched (s : Streams) (fuel n : Nat) :
    s.routeWithin (fuel + 1) (.latched n) =
      match s.status? n with
      | none => .nowhere
      | some .pending => .pending n
      | some (.failed cause) => .failed cause
      | some (.done target) => s.routeWithin fuel target := by
  rw [routeWithin, status?]
  cases s.latches[n]? with
  | none => rfl
  | some l => cases hl : l.status <;> simp [hl]

theorem Passes.routeWithin_eq (h : s.Passes w ns e) {fuel : Nat} (hfuel : ns.length ≤ fuel) :
    s.routeWithin fuel w = e := by
  induction h generalizing fuel with
  | direct k => cases fuel <;> rfl
  | pending hst =>
    obtain ⟨fuel, rfl⟩ := Nat.exists_eq_add_of_le' hfuel
    rw [List.length_singleton, routeWithin_latched, hst]
  | failed hst =>
    obtain ⟨fuel, rfl⟩ := Nat.exists_eq_add_of_le' hfuel
    rw [List.length_singleton, routeWithin_latched, hst]
  | done hst _ ih =>
    obtain ⟨fuel, rfl⟩ := Nat.exists_eq_add_of_le' hfuel
    rw [List.length_cons, ← Nat.add_assoc, routeWithin_latched, hst]
    exact ih (Nat.le_add_left _ _)

theorem exists_passes {fuel : Nat} (h : s.routeWithin fuel w = e) (he : e ≠ .nowhere) :
    ∃ ns, s.Passes w ns e := by
  induction fuel generalizing w with
  | zero =>
    cases w with
    | direct k =>
      obtain rfl : End.output k = e := h
      exact ⟨_, .direct k⟩
    | latched n => exact absurd h.symm he
  | succ fuel ih =>
    cases w with
    | direct k =>
      obtain rfl : End.output k = e := h
      exact ⟨_, .direct k⟩
    | latched n =>
      rw [routeWithin_latched] at h
      cases hst : s.status? n with
      | none =>
        rw [hst] at h
        exact absurd h.symm he
      | some st =>
        rw [hst] at h
        cases st with
        | pending =>
          obtain rfl : End.pending n = e := h
          exact ⟨_, .pending hst⟩
        | failed cause =>
          obtain rfl : End.failed cause = e := h
          exact ⟨_, .failed hst⟩
        | done target =>
          obtain ⟨ns, hns⟩ := ih h
          exact ⟨_, .done hst hns⟩

/-- A writer has a way to an end. -/
def Leads (s : Streams) (w : Writer) (e : End) : Prop :=
  ∃ ns, s.Passes w ns e

theorem Leads.route_eq (h : s.Leads w e) : s.route w = e := by
  obtain ⟨_, hns⟩ := h
  exact hns.routeWithin_eq hns.length_le

theorem not_leads_nowhere : ¬ s.Leads w .nowhere := by
  rintro ⟨ns, h⟩
  generalize he : End.nowhere = e at h
  induction h with
  | direct | pending | failed => cases he
  | done _ _ ih => exact ih he

/-- `route` finds the end of the way from a writer, if it has one. -/
theorem leads_iff : s.Leads w e ↔ s.route w = e ∧ e ≠ .nowhere := by
  constructor
  · intro h
    exact ⟨h.route_eq, fun he => not_leads_nowhere (he ▸ h)⟩
  · rintro ⟨h, he⟩
    exact exists_passes h he

/-- Writers that have ways to the same ends have the same route. -/
theorem route_eq_of_leads_iff (h : ∀ e, t.Leads out e ↔ s.Leads w e) : t.route out = s.route w := by
  by_cases hs : s.route w = .nowhere
  · by_cases ht : t.route out = .nowhere
    · rw [hs, ht]
    · exact ((h _).mp (leads_iff.mpr ⟨rfl, ht⟩)).route_eq.symm
  · exact ((h _).mpr (leads_iff.mpr ⟨rfl, hs⟩)).route_eq

theorem Passes.status?_eq (h : s.Passes w ns e) (he : e = .pending n) :
    s.status? n = some .pending := by
  induction h with
  | direct | failed => cases he
  | pending hst =>
    cases he
    exact hst
  | done _ _ ih => exact ih he

theorem status?_of_route (h : s.route w = .pending n) : s.status? n = some .pending := by
  obtain ⟨ns, hns⟩ := leads_iff.mpr ⟨h, nofun⟩
  exact hns.status?_eq rfl

/-! ## Settling a latch -/

/-- Says how a latch stands; it holds nothing back any more. -/
def settle (m : Nat) (st : Latch.Status) (s : Streams) : Streams :=
  { s with latches := s.latches.set m ⟨"", st⟩ }

theorem status?_settle_of_ne (h : n ≠ m) : (s.settle m st).status? n = s.status? n := by
  rw [status?, settle, List.getElem?_set_ne h.symm, status?]

theorem status?_settle_self (h : m < s.latches.length) :
    (s.settle m st).status? m = some st := by
  rw [status?, settle, List.getElem?_set_self h]
  rfl

/-- A latch that is not pending stands as it did when a pending one is settled. -/
theorem status?_settle_of_pending {old : Latch.Status} (hm : s.status? m = some .pending)
    (hn : s.status? n = some old) (hold : old ≠ .pending) :
    (s.settle m st).status? n = some old := by
  have hne : n ≠ m := by
    rintro rfl
    exact hold (Option.some.inj (hn.symm.trans hm))
  rw [status?_settle_of_ne hne, hn]

/-- A way that does not end at a latch goes on as before when the latch is settled. -/
theorem Passes.settle (h : s.Passes w ns e) (hm : s.status? m = some .pending)
    (he : e ≠ .pending m) : (s.settle m st).Passes w ns e := by
  induction h with
  | direct k => exact .direct k
  | pending hst =>
    refine .pending ((status?_settle_of_ne ?_).trans hst)
    rintro rfl
    exact he rfl
  | failed hst => exact .failed (status?_settle_of_pending hm hst nofun)
  | done hst _ ih => exact .done (status?_settle_of_pending hm hst nofun) (ih he)

/-- A way that ends at a latch goes on with its target when the latch is done. -/
theorem Passes.settle_done (h : s.Passes w ns (.pending m)) (hm : s.status? m = some .pending)
    (hout : (s.settle m (.done out)).Leads out e) : (s.settle m (.done out)).Leads w e := by
  -- The induction is on the way, so its end has to be a variable.
  generalize hpending : End.pending m = e₀ at h
  induction h with
  | direct | failed => cases hpending
  | pending hst =>
    cases hpending
    obtain ⟨ns, hns⟩ := hout
    exact ⟨_, .done (status?_settle_self (lt_of_status? hm)) hns⟩
  | done hst _ ih =>
    obtain ⟨ns, hns⟩ := ih hpending
    exact ⟨_, .done (status?_settle_of_pending hm hst nofun) hns⟩

/-- A way that ends at a latch ends with the failure of the latch when it fails. -/
theorem Passes.settle_failed {cause : Error} (h : s.Passes w ns (.pending m))
    (hm : s.status? m = some .pending) :
    (s.settle m (.failed cause)).Passes w ns (.failed cause) := by
  generalize hpending : End.pending m = e₀ at h
  induction h with
  | direct | failed => cases hpending
  | pending hst =>
    cases hpending
    exact .failed (status?_settle_self (lt_of_status? hm))
  | done hst _ ih => exact .done (status?_settle_of_pending hm hst nofun) (ih hpending)

/-- Where a way ends when a latch has been settled: where it did before, or the way ended at the
    latch; then it ends where the target leads. -/
theorem Passes.of_settle (h : (s.settle m st).Passes w ns e) (hm : s.status? m = some .pending) :
    s.Leads w e ∨ s.Leads w (.pending m) ∧ ∀ out, st = .done out → s.Leads out e := by
  have hself : (s.settle m st).status? m = some st := status?_settle_self (lt_of_status? hm)
  -- Every step of the way is an old one, but for one from the settled latch.
  induction h with
  | direct k => exact .inl ⟨_, .direct k⟩
  | @pending n hst =>
    by_cases hn : n = m
    · subst hn
      exact .inl ⟨_, .pending hm⟩
    · rw [status?_settle_of_ne hn] at hst
      exact .inl ⟨_, .pending hst⟩
  | @failed n cause hst =>
    by_cases hn : n = m
    · subst hn
      cases hself.symm.trans hst
      exact .inr ⟨⟨_, .pending hm⟩, nofun⟩
    · rw [status?_settle_of_ne hn] at hst
      exact .inl ⟨_, .failed hst⟩
  | @done n target ns e hst _ ih =>
    by_cases hn : n = m
    · subst hn
      cases hself.symm.trans hst
      have hout : s.Leads target e := by
        obtain hout | ⟨-, hout⟩ := ih
        · exact hout
        · exact hout target rfl
      refine .inr ⟨⟨_, .pending hm⟩, fun out heq => ?_⟩
      cases heq
      exact hout
    · rw [status?_settle_of_ne hn] at hst
      obtain ⟨_, hway⟩ | ⟨⟨_, hway⟩, hout⟩ := ih
      · exact .inl ⟨_, .done hst hway⟩
      · exact .inr ⟨⟨_, .done hst hway⟩, hout⟩

/-- A writer that does not wait for a latch leads where it did, however the latch is settled. -/
theorem route_settle_of_ne (hm : s.status? m = some .pending) (hw : s.route w ≠ .pending m) :
    (s.settle m st).route w = s.route w := by
  apply route_eq_of_leads_iff
  intro e
  constructor
  · rintro ⟨_, hway⟩
    obtain hleads | ⟨hleads, -⟩ := hway.of_settle hm
    · exact hleads
    · exact absurd hleads.route_eq hw
  · intro hleads
    obtain rfl := hleads.route_eq
    obtain ⟨_, hway⟩ := hleads
    exact ⟨_, hway.settle hm hw⟩

theorem Leads.of_settle_done (h : (s.settle m (.done out)).Leads w e)
    (hw : s.route w = .pending m) : s.Leads out e := by
  have hm := status?_of_route hw
  obtain ⟨_, hway⟩ := h
  obtain hleads | ⟨-, hleads⟩ := hway.of_settle hm
  · -- The latch is not pending any more, so no way ends there.
    have hstatus := hway.status?_eq (hleads.route_eq.symm.trans hw)
    rw [status?_settle_self (lt_of_status? hm)] at hstatus
    cases hstatus
  · exact hleads out rfl

/-- A writer that waits for a latch leads where the target does when the latch is done. -/
theorem route_settle_done (hw : s.route w = .pending m) (hout : s.route out ≠ .pending m) :
    (s.settle m (.done out)).route w = s.route out := by
  have hm := status?_of_route hw
  obtain ⟨_, hway⟩ : s.Leads w (.pending m) := leads_iff.mpr ⟨hw, nofun⟩
  apply route_eq_of_leads_iff
  intro e
  constructor
  · intro hleads
    exact hleads.of_settle_done hw
  · intro hleads
    obtain rfl := hleads.route_eq
    -- The way of the target does not pass the latch, so it is the same before and after.
    obtain ⟨_, hway'⟩ := hleads
    exact hway.settle_done hm ⟨_, hway'.settle hm hout⟩

/-- Even if the target waits for the latch itself, the writer leads nowhere else. -/
theorem route_settle_done_or (hw : s.route w = .pending m) :
    (s.settle m (.done out)).route w = s.route out ∨
      (s.settle m (.done out)).route w = .nowhere := by
  by_cases hnowhere : (s.settle m (.done out)).route w = .nowhere
  · exact .inr hnowhere
  · have hleads : (s.settle m (.done out)).Leads w _ := leads_iff.mpr ⟨rfl, hnowhere⟩
    exact .inl (hleads.of_settle_done hw).route_eq.symm

/-- A writer that waits for a latch leads to its failure when the latch fails. -/
theorem route_settle_failed {cause : Error} (hw : s.route w = .pending m) :
    (s.settle m (.failed cause)).route w = .failed cause := by
  obtain ⟨_, hway⟩ : s.Leads w (.pending m) := leads_iff.mpr ⟨hw, nofun⟩
  exact Leads.route_eq ⟨_, hway.settle_failed (status?_of_route hw)⟩

end Mustache.Streams
