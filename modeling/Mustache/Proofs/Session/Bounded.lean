import Mustache.Proofs.Render.Storing

/-! # Bounded caches

With a cache limit no cache of an engine ever holds more trees than the limit, whichever tree leaves
a full cache, and neither does what an inclusion by the text of a value remembers.  A tree that is
asked for again while it is there is handed out, and its cache stays as it is.

* `Store.length_put_le` — the one way into all these tables keeps their bound.
* `Store.Within` — all of them are within a bound.
* `Session.within_after` — the caches of an engine after any steps.
-/

namespace Mustache

namespace Store

variable {n : Nat} {o : Options} {s : Store}

/-- A table of at most so many trees has at most so many after one more. -/
theorem length_put_le {κ : Type} [DecidableEq κ] {t : Table κ Template} (h : t.length ≤ n)
    (victim : Nat) (key : κ) (template : Template) :
    (put (some n) victim key template t).table.length ≤ n := by
  unfold put
  split
  · exact h
  · next hlimit =>
    have hn : n ≠ 0 := fun h0 => hlimit (congrArg some h0)
    split
    · exact h
    · simp only [List.length_append, List.length_singleton]
      split
      · -- A full table loses a tree before it gets one.
        next hfull =>
        have hpos : 0 < t.length := by
          cases t with
          | nil => simp at hfull
          | cons e t => exact Nat.succ_pos _
        rw [List.length_eraseIdx, if_pos (Nat.mod_lt _ hpos)]
        omega
      · next hroom =>
        cases t with
        | nil => exact Nat.pos_of_ne_zero hn
        | cons e t =>
          have hlt : ¬ n ≤ (e :: t).length := by simpa using hroom
          omega

/-- No cache, and nothing that an inclusion by a value remembers, is of more than `n` trees. -/
structure Within (n : Nat) (s : Store) : Prop where
  templates : s.templates.length ≤ n
  indented : s.indented.length ≤ n
  fragments : s.fragments.length ≤ n
  targets : ∀ p : Inclusion, (s.targetsOf p).length ≤ n

theorem Within.countEviction (h : s.Within n) (evicted : Bool) :
    (s.countEviction evicted).Within n := by
  unfold Store.countEviction
  split
  · exact ⟨h.templates, h.indented, h.fragments, h.targets⟩
  · exact h

theorem Within.keep (hlimit : o.cacheLimit = some n) (h : s.Within n) (q : Request)
    (t : Template) : (q.keep o t s).2.Within n := by
  cases q with
  | named path =>
    simp only [Request.keep, hlimit]
    apply Within.countEviction
    exact ⟨length_put_le h.templates _ _ _, h.indented, h.fragments, h.targets⟩
  | indented path indent =>
    simp only [Request.keep, hlimit]
    apply Within.countEviction
    exact ⟨h.templates, length_put_le h.indented _ _ _, h.fragments, h.targets⟩
  | fragment text d file =>
    simp only [Request.keep, hlimit]
    apply Within.countEviction
    exact ⟨h.templates, h.indented, length_put_le h.fragments _ _ _, h.targets⟩
  | target p text =>
    simp only [Request.keep, hlimit]
    apply Within.countEviction
    refine ⟨h.templates, h.indented, h.fragments, fun p' => ?_⟩
    simp only [targetsOf, Table.get?_insert]
    split
    · exact length_put_le (h.targets p) _ _ _
    · exact h.targets p'
  | given | included | parent => exact ⟨h.templates, h.indented, h.fragments, h.targets⟩

theorem within_new (n : Nat) (l : Loader) : (Store.new l).Within n :=
  ⟨Nat.zero_le _, Nat.zero_le _, Nat.zero_le _, fun _ => Nat.zero_le _⟩

/-- All that can happen to a store keeps its caches within the limit. -/
theorem invariant_within (hlimit : o.cacheLimit = some n) : Invariant o (Within n) where
  compiled _ h := ⟨h.templates, h.indented, h.fragments, h.targets⟩
  kept q t _ h := h.keep hlimit q t
  looked _ _ _ h := ⟨h.templates, h.indented, h.fragments, h.targets⟩
  supplied _ _ h := ⟨h.templates, h.indented, h.fragments, h.targets⟩
  invalidated _ _ h := ⟨Nat.le_trans (List.length_filter_le _ _) h.templates,
    Nat.le_trans (List.length_filter_le _ _) h.indented, h.fragments, h.targets⟩
  cleared _ h := ⟨Nat.zero_le _, Nat.zero_le _, Nat.zero_le _, h.targets⟩

end Store

/-! ## Sessions -/

/-- **Caches keep their bound.**  With a cache limit no cache of an engine is of more trees than the
    limit after any steps, and neither is what an inclusion by the text of a value remembers,
    whichever trees have left.  A tree that stands under the key of a request is handed out, and
    nothing changes; one that stands in a cache for a node that does not remember any is handed out,
    and the caches stay as they are. -/
theorem Session.within_after (o : Options) (l : Loader) {n : Nat} (hlimit : o.cacheLimit = some n)
    (steps : List Step) :
    let s := ((new o l).after steps).store
    s.Within n ∧
    (∀ (q : Request) (t : Template), q.standing? s = some t → q.ask o s = .ok (t, s)) ∧
    ∀ (q under : Request) (t : Template), q.under? = some under → q.standing? s = none →
      under.standing? s = some t →
      ∃ s', q.ask o s = .ok (t, s') ∧ s'.templates = s.templates ∧ s'.indented = s.indented ∧
        s'.fragments = s.fragments :=
  ⟨(Store.invariant_within hlimit).after rfl (Store.within_new n l) steps,
    fun _ _ => Request.ask_of_standing, fun _ _ _ => Request.exists_ask_of_under⟩

/-- Two templates are compiled one after the other by an engine whose caches hold one each, and the
    second one is asked for again, by its path and by a tag. -/
theorem Session.within_after_second :
    let o : Options := { Options.standard with cacheLimit := some 1 }
    let l : Loader := .memory [("a", .text "1"), ("b", .text "2")]
    let s := ((new o l).after [.compile "a" "x", .compile "b" "y"]).store
    let p : Inclusion := ⟨⟨.standard, "a", 1, true, .parsed 0 0⟩, "b", ""⟩
    o.cacheLimit = some 1 ∧ s.Within 1 ∧
      ∃ t, (Request.named "b").ask o s = .ok (t, s) ∧
        ∃ s', (Request.included p).ask o s = .ok (t, s') ∧ s'.templates = s.templates ∧
          s'.indented = s.indented ∧ s'.fragments = s.fragments := by
  intro o l s p
  have hcached : ((Request.named "b").standing? s).isSome = true := by decide +kernel
  obtain ⟨t, ht⟩ := Option.isSome_iff_exists.mp hcached
  obtain ⟨hwithin, hstanding, hunder⟩ :=
    within_after o l (n := 1) rfl [.compile "a" "x", .compile "b" "y"]
  have hpath : Path.resolve "b" "a" = "b" := by decide +kernel
  have hlinked : (Request.included p).under? = some (.named "b") := by
    simp [Request.under?, Request.linked, p, hpath]
  have hnone : ((Request.included p).standing? s).isNone = true := by decide +kernel
  exact ⟨rfl, hwithin, t, hstanding (.named "b") t ht,
    hunder (.included p) (.named "b") t hlinked (Option.isNone_iff_eq_none.mp hnone) ht⟩

end Mustache
