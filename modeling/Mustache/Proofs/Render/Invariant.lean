import Mustache.Proofs.Render.Effects
import Mustache.Proofs.Render.Settling

/-! # What a whole render keeps

A render asks for trees, looks names up, and puts jobs off.  What a world keeps through that, whatever
becomes of its streams, is kept by all that is rendered, by the jobs that are done one after the
other, and so by a whole render, also by one that fails.

* `World.Invariant` — what is kept through all that a render does to its store and its queue.
* `World.Invariant.effects`, `World.Invariant.drain` — what is rendered keeps it, and so do the jobs.
* `World.Invariant.renderWithin` — a whole render keeps it.
-/

namespace Mustache

/-- What is kept through all that a render does to its store and its queue, in stages.  A tree that is
    loaded may be of a later stage, and so may a job: what is kept in that stage from there on is kept
    in this one. -/
structure World.Invariant (o : Options) (S : Nat → Site → Bool) (P : Nat → World → Prop) : Prop where
  inherited : ∀ m, Site.Inherited (S m)
  grows : ∀ {m n}, m ≤ n → ∀ site, S m site = true → S n site = true
  of_eq : ∀ {m w w'}, P m w → w'.store = w.store → w'.queue = w.queue → P m w'
  load : ∀ {m w z z' t store}, Store.Loads o (S m) z z' → z w.store = .ok (t, store) → P m w →
    ∃ n, m ≤ n ∧ t.Similar (S n) t ∧ P n { w with store } ∧ ∀ w', P n w' → P m w'
  lookup : ∀ {m w} n scopes, P m w → P m { w with store := (w.store.lookup o n scopes).2 }
  queued : ∀ {m w} {job : Job}, job.awaiting.Similar (S m) job.awaiting → P m w →
    P m { w with queue := w.queue ++ [job] }
  taken : ∀ {m w v job schedule k}, w.takeJob schedule k = some (job, v) → P m w →
    ∃ n, job.awaiting.Similar (S n) job.awaiting ∧ P n v ∧ ∀ w', P n w' → P m w'

namespace World.Invariant

variable {o : Options} {S : Nat → Site → Bool} {P : Nat → World → Prop} {m n : Nat} {w : World}
  (h : World.Invariant o S P)
include h

/-- Keeping an invariant is an effect of all that is rendered. -/
theorem effects : Effects o (fun _ => True) S fun m _ w _ _ w' => P m w → P m w' where
  keeps := o.handler.keeps_true
  outcome _ _ := trivial
  inherited := h.inherited
  grows := h.grows
  refl _ _ _ _ hw := hw
  fail _ _ _ _ _ hw := hw
  panic _ _ _ _ _ _ hw := hw
  exhausted _ _ _ _ hw := hw
  trans hx hy hw := hy (hx hw)
  write _ _ _ _ _ hw := h.of_eq hw rfl rfl
  load hz hload hy hw := by
    obtain ⟨n, hn, ht, hstore, hback⟩ := h.load hz hload hw
    exact hback _ (hy n hn ht hstore)
  lookup _ _ _ _ n scopes hw := h.lookup n scopes hw
  captured _ _ _ _ _ hx hw := hx (h.of_eq hw rfl rfl)
  counted _ _ _ _ _ hw := h.of_eq hw rfl rfl
  performed _ _ hx hw := h.of_eq (hx (h.of_eq hw rfl rfl)) rfl rfl
  queued {_ w _ _} _ _ hk hw := h.queued (w := w.opened) hk (h.of_eq hw rfl rfl)

theorem perform {job : Job} (hjob : job.awaiting.Similar (S m) job.awaiting) (hw : P m w) :
    P m ((Renderer.within o n).perform job w).2 := by
  rw [Renderer.perform_eq]
  exact h.of_eq (h.effects.work n hjob trivial (fun _ _ => trivial) w job.writer hw) rfl rfl

theorem drain {schedule : Schedule} {fuel k : Nat} (hw : P m w) :
    P m ((w.drain (.within o n) schedule fuel k).getLastD w) := by
  induction fuel generalizing k w m with
  | zero => exact hw
  | succ fuel ih =>
    rw [World.drain]
    cases htake : w.takeJob schedule k with
    | none => exact hw
    | some taken =>
      obtain ⟨job, v⟩ := taken
      obtain ⟨later, hjob, hv, hback⟩ := h.taken htake hw
      rw [List.getLastD_cons]
      exact hback _ (ih (h.perform hjob hv))

/-- **A whole render keeps** what is kept through all that it does to its store and its queue. -/
theorem renderWithin {t : Template} (ht : Code.AllSimilar (S m) t.codes t.codes) (scopes : Scopes)
    {destination : Output} {store : Store} (hw : P m (.start store ⟨[destination], []⟩)) :
    P m (Template.renderWithin n o t scopes destination store).final := by
  have hafter : P m (Template.renderWithin n o t scopes destination store).after :=
    h.effects.within n ht (fun _ _ => trivial) .start _ (.direct 0) hw
  cases hschedule : o.schedule with
  | none =>
    rw [Template.final_of_none hschedule]
    exact hafter
  | some schedule =>
    rw [Template.final_of_some hschedule]
    exact h.drain hafter

end World.Invariant

end Mustache
