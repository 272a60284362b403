import Mustache.Proofs.Engine.Stock
import Mustache.Proofs.Render.Invariant

/-! # What rendering leaves in a store

Rendering, whatever it renders and however its jobs are scheduled, leaves nothing in the store that
is not in stock, as long as the nodes that it renders have sites that nodes may have.

* `World.Holds` — the store holds nothing else, and the nodes that jobs are to render have such
  sites.
* `World.holds_invariant` — all that rendering does keeps it so.
* `Template.holds_renderWithin` — so does a whole render.
-/

namespace Mustache

variable {o : Options} {K : Stock} {m : Nat} {w w' : World}

/-- The store holds nothing that is not in stock, and the nodes that jobs are to render have sites
    that nodes may have. -/
structure World.Holds (o : Options) (K : Stock) (m : Nat) (w : World) : Prop where
  store : w.store.Holds o K
  late : m ≤ w.store.compilations
  jobs : ∀ job ∈ w.queue, job.awaiting.Similar (K.site w.store.compilations) job.awaiting

theorem World.Holds.of_eq (h : w.Holds o K m) (hstore : w'.store = w.store)
    (hqueue : w'.queue = w.queue) : w'.Holds o K m :=
  ⟨hstore ▸ h.store, hstore ▸ h.late, hstore ▸ hqueue ▸ h.jobs⟩

theorem World.Holds.withStore (hsupplied : K.Supplied o) (h : w.Holds o K m) {store : Store}
    (hstore : store.Holds o K) (hle : w.store.compilations ≤ store.compilations) :
    { w with store }.Holds o K m :=
  ⟨hstore, Nat.le_trans h.late hle, fun job hjob => (h.jobs job hjob).mono (hsupplied.grows hle)⟩

/-- Whatever is loaded for a node with a site that nodes may have is in stock. -/
theorem Store.Loads.yields (hsupplied : K.Supplied o) {z z' : Store.Action Template}
    (h : Store.Loads o (K.site m) z z') : ∃ P, Store.Yields o K m P z := by
  cases h with
  | fragment text d file => exact ⟨_, Store.yields_fragment hsupplied text d file⟩
  | included h _ => exact ⟨_, Store.yields_included hsupplied h⟩
  | parent name h _ => exact ⟨_, Store.yields_parent hsupplied name h⟩
  | target text h _ => exact ⟨_, Store.yields_target hsupplied text h⟩

/-- That a store holds nothing that is not in stock is kept by all that a render does. -/
theorem World.holds_invariant (hsupplied : K.Supplied o) :
    World.Invariant o K.site fun m w => w.Holds o K m where
  inherited := hsupplied.inherited
  grows := hsupplied.grows
  of_eq h := h.of_eq
  load {_ _ _ _ _ store} hz hload h := by
    obtain ⟨P, hyields⟩ := hz.yields hsupplied
    obtain ⟨_, _, hok, ⟨hsited, -⟩, hstore, hle⟩ | ⟨e, herror, -⟩ := hyields _ h.store h.late
    · cases hload.symm.trans hok
      -- The tree may have been compiled just now, so going on is a matter of the new stage.
      have hlater := h.withStore hsupplied hstore hle
      exact ⟨store.compilations, Nat.le_trans h.late hle, ⟨hsited, rfl⟩,
        ⟨hstore, Nat.le_refl _, hlater.jobs⟩,
        fun _ h' => ⟨h'.store, Nat.le_trans hlater.late h'.late, h'.jobs⟩⟩
    · cases hload.symm.trans herror
  lookup n scopes h := h.withStore hsupplied (h.store.lookup n scopes) (Nat.le_refl _)
  queued {_ _ job} hjob h := by
    refine ⟨h.store, h.late, fun job' hmem => ?_⟩
    obtain hmem | hmem := List.mem_append.mp hmem
    · exact h.jobs job' hmem
    · obtain rfl := List.mem_singleton.mp hmem
      exact hjob.mono (hsupplied.grows h.late)
  taken {_ _ v _ _ _} htake h := by
    obtain ⟨hperm, hstore, -⟩ := World.takeJob_eq htake
    have hall := h.jobs
    rw [← hstore] at hall
    exact ⟨v.store.compilations, hall _ (hperm.mem_iff.mpr List.mem_cons_self),
      ⟨hstore ▸ h.store, Nat.le_refl _,
        fun job' hmem => hall job' (hperm.mem_iff.mpr (List.mem_cons_of_mem _ hmem))⟩,
      fun _ h' => ⟨h'.store, Nat.le_trans (hstore ▸ h.late) h'.late, h'.jobs⟩⟩

/-- A whole render leaves nothing in the store that is not in stock. -/
theorem Template.holds_renderWithin (hsupplied : K.Supplied o) {store : Store}
    (hstore : store.Holds o K) {t : Template}
    (ht : Code.SitedAll (K.site store.compilations) t.codes) (n : Nat) (scopes : Scopes)
    (destination : Output) :
    let final := (renderWithin n o t scopes destination store).final.store
    final.Holds o K ∧ store.compilations ≤ final.compilations := by
  intro final
  have hfinal : (renderWithin n o t scopes destination store).final.Holds o K store.compilations :=
    (World.holds_invariant hsupplied).renderWithin (.refl ht) scopes
      ⟨hstore, Nat.le_refl _, List.forall_mem_nil _⟩
  exact ⟨hfinal.store, hfinal.late⟩

end Mustache
