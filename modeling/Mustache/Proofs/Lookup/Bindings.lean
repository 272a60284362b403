import Mustache.Proofs.Lookup.Guards
import Mustache.Render.World

/-! # Lookups with a memory

A memory of decisions is faithful as long as every decision in it was made for the same name on some
stack.  A decision that is valid is the one that would be made anew, so a faithful memory never
changes what a lookup comes to, whatever was looked up before.

* `Lookup.Reusable` — decisions that may be used again wherever they are valid.
* `Lookup.Made` — a memory whose decisions were all made in the same way.
* `Lookup.lookups` — lookups one after another.
* `Lookup.lookups_find` — what they come to, and what is remembered after them.
-/

namespace Mustache.Lookup

/-! ## One lookup -/

/-- Decisions that come to the same as a new decision wherever they are valid. -/
def Reusable (make : Scopes → Wrapper) : Prop :=
  ∀ s t, (make s).isValid t → Hit.ofWrapper (make s) t = Hit.ofWrapper (make t) t

theorem reusable_find (name : String) : Reusable (find name) :=
  fun _ _ h => by rw [find_eq_of_isValid h]

/-- A memory that holds nothing but decisions made in one way. -/
def Made (make : Scopes → Wrapper) (cached : List Wrapper) : Prop :=
  ∀ w ∈ cached, ∃ s, w = make s

variable {make : Scopes → Wrapper} {cached : List Wrapper}

theorem made_nil : Made make [] :=
  fun _ h => nomatch h

/-- A lookup with a memory comes to what a lookup without one comes to. -/
theorem fst_lookup (hreuse : Reusable make) (hmade : Made make cached) (s : Scopes) :
    (lookup make cached s).1 = Hit.ofWrapper (make s) s := by
  unfold lookup
  split
  · next w hfind =>
    obtain ⟨t, rfl⟩ := hmade w (List.mem_of_find?_eq_some hfind)
    exact hreuse t s (by simpa using List.find?_some hfind)
  · rfl

/-- What is remembered afterwards was remembered before, or was decided now. -/
theorem mem_remember {w v : Wrapper} (h : v ∈ remember w cached) : v ∈ cached ∨ v = w := by
  unfold remember at h
  split at h
  · exact .inl h
  · split at h
    · exact .inl h
    · simpa using h

theorem made_snd_lookup (hmade : Made make cached) (s : Scopes) :
    Made make (lookup make cached s).2 := by
  unfold lookup
  split
  · exact hmade
  · intro v hv
    obtain hv | rfl := mem_remember hv
    · exact hmade v hv
    · exact ⟨s, rfl⟩

def Distinct (cached : List Wrapper) : Prop :=
  cached.Pairwise fun v w => v.guards ≠ w.guards

theorem length_remember_le {w : Wrapper} (h : cached.length ≤ capacity) :
    (remember w cached).length ≤ capacity := by
  unfold remember
  split
  · exact h
  · split
    · exact h
    · simp only [List.length_append, List.length_cons, List.length_nil]
      omega

theorem distinct_remember {w : Wrapper} (h : Distinct cached) : Distinct (remember w cached) := by
  unfold remember
  split
  · exact h
  · next hnew =>
    split
    · exact h
    · refine List.pairwise_append.mpr ⟨h, List.pairwise_singleton _ _, ?_⟩
      intro v hv w' hw'
      obtain rfl : w' = w := by simpa using hw'
      intro heq
      exact hnew (List.any_eq_true.mpr ⟨v, hv, by simpa using heq⟩)

theorem bounded_snd_lookup (h : cached.length ≤ capacity) (s : Scopes) :
    (lookup make cached s).2.length ≤ capacity := by
  unfold lookup
  split
  · exact h
  · exact length_remember_le h

theorem distinct_snd_lookup (h : Distinct cached) (s : Scopes) :
    Distinct (lookup make cached s).2 := by
  unfold lookup
  split
  · exact h
  · exact distinct_remember h

/-! ## Many lookups -/

/-- Lookups on one stack after another: what they come to, and what is remembered after them. -/
def lookups (make : Scopes → Wrapper) (cached : List Wrapper) :
    List Scopes → List Hit × List Wrapper
  | [] => ([], cached)
  | s :: ss =>
    let (hit, cached) := lookup make cached s
    let (hits, cached) := lookups make cached ss
    (hit :: hits, cached)

/-- Whatever was looked up before, every lookup comes to what it would come to alone. -/
theorem fst_lookups (hreuse : Reusable make) (hmade : Made make cached)
    (ss : List Scopes) :
    (lookups make cached ss).1 = ss.map fun s => Hit.ofWrapper (make s) s := by
  induction ss generalizing cached with
  | nil => rfl
  | cons s ss ih =>
    simp only [lookups, List.map_cons, fst_lookup hreuse hmade s,
      ih (made_snd_lookup hmade s)]

theorem snd_lookups_of_keeps {P : List Wrapper → Prop}
    (hstep : ∀ cached s, P cached → P (lookup make cached s).2) (h : P cached)
    (ss : List Scopes) : P (lookups make cached ss).2 := by
  induction ss generalizing cached with
  | nil => exact h
  | cons s ss ih => exact ih (hstep _ s h)

/-- Of decisions about one name that rest on different facts, at most one is valid on a stack. -/
theorem length_filter_isValid_le {name : String} (hmade : Made (find name) cached)
    (hdistinct : Distinct cached) (s : Scopes) : (cached.filter (·.isValid s)).length ≤ 1 := by
  have hsame : ∀ w ∈ cached.filter (·.isValid s), w = find name s := by
    intro w hw
    obtain ⟨hmem, hvalid⟩ := List.mem_filter.mp hw
    obtain ⟨t, rfl⟩ := hmade w hmem
    exact (find_eq_of_isValid hvalid).symm
  have hpairwise := List.Pairwise.filter (fun w : Wrapper => w.isValid s) hdistinct
  rcases h : cached.filter (·.isValid s) with _ | ⟨v, _ | ⟨w, rest⟩⟩
  · rw [h]; exact Nat.zero_le 1
  · rw [h]; exact Nat.le_refl 1
  · rw [h] at hsame hpairwise
    have hv := hsame v List.mem_cons_self
    have hw := hsame w (List.mem_cons_of_mem _ List.mem_cons_self)
    have hne := List.rel_of_pairwise_cons hpairwise (List.mem_cons_self (a := w))
    exact absurd (by rw [hv, hw]) hne

/-! ## The lookups of a tag -/

/-- What the lookup of a tag comes to: the value, or the failure that no scope has the name. -/
theorem fst_lookupTag (o : Options) (origin : Origin) (name : String) (s : Scopes) (w : World)
    (hreuse : Reusable (o.handler.find name))
    (hmade : Made (o.handler.find name) (w.store.wrappersOf (origin.node name))) :
    (Render.lookupTag o origin name s w).1 =
      if (o.handler.find name s).isMissing && o.failOnMiss then
        .error (.error (.render (.missing name origin.file origin.line)))
      else .ok ((o.handler.find name s).call s) := by
  have hhit := fst_lookup hreuse hmade s
  simp only [Render.lookupTag, Render.lookup, Store.lookup, bind, Origin.node] at hhit ⊢
  rw [hhit]
  by_cases hmissing : ((Hit.ofWrapper (o.handler.find name s) s).isMissing && o.failOnMiss) = true
  · rw [if_pos hmissing]
    exact (if_pos hmissing).symm
  · rw [if_neg hmissing]
    exact (if_neg hmissing).symm

/-- **Remembered decisions never change a lookup.**  A tag starts with an empty memory.  Whatever
    its name is then looked up on, every lookup comes to what a new decision on that stack comes
    to, and a tag that has to find its name fails exactly where a new decision finds none.  The
    memory stays within its bound, holds no two decisions on the same facts, and has at most one
    decision that is valid on a stack. -/
theorem lookups_find (name : String) (ss : List Scopes) :
    let remembered := (lookups (find name) [] ss).2
    (lookups (find name) [] ss).1 =
      (ss.map fun s => ⟨(find name s).call s, (find name s).isMissing⟩) ∧
    (∀ (o : Options) (origin : Origin) (s : Scopes) (w : World) (bindings : Table Node _),
      let o := { o with handler := .standard }
      let bindings := bindings.insert (origin.node name) remembered
      (Render.lookupTag o origin name s { w with store := { w.store with bindings } }).1 =
        if (find name s).isMissing && o.failOnMiss then
          .error (.error (.render (.missing name origin.file origin.line)))
        else .ok ((find name s).call s)) ∧
    remembered.length ≤ 32 ∧
    remembered.Pairwise (fun v w => v.guards ≠ w.guards) ∧
    ∀ s, (remembered.filter (·.isValid s)).length ≤ 1 := by
  have hmade : Made (find name) (lookups (find name) [] ss).2 :=
    snd_lookups_of_keeps (P := Made (find name)) (fun _ s h => made_snd_lookup h s) made_nil
      ss
  have hdistinct : Distinct (lookups (find name) [] ss).2 :=
    snd_lookups_of_keeps (P := Distinct) (fun _ s h => distinct_snd_lookup h s)
      List.Pairwise.nil ss
  refine ⟨fst_lookups (reusable_find name) made_nil ss, ?_, ?_, hdistinct,
    length_filter_isValid_le hmade hdistinct⟩
  · intro o origin s w bindings
    refine fst_lookupTag _ origin name s _ (reusable_find name) ?_
    rw [Store.wrappersOf, Table.get?_insert, if_pos rfl]
    exact hmade
  · exact snd_lookups_of_keeps (P := fun c => c.length ≤ capacity)
      (fun _ s h => bounded_snd_lookup h s) (Nat.zero_le _) ss

end Mustache.Lookup
