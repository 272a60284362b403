import Mathlib.Data.List.Induction
import Mustache.Proofs.Session.Keeping

/-! # Where cached templates come from

While templates in the loader come and go, what an engine has compiled under a path stays in its
caches until it is told to forget it.  So a cached template need not be what the path leads to now,
but it is what the path led to at some time since the engine was told last to forget it.

* `Step.forgets` — the steps that make an engine forget what it has compiled under a path.
* `Session.HadSince` — the texts that the loader has had under a path since then.
* `Session.history` — what the caches may hold after steps.
* `Session.holds_history` — they hold nothing else.
-/

namespace Mustache

/-! ## Forgetting -/

/-- Whether a step makes an engine forget what it has compiled under a path. -/
def Step.forgets (path : String) : Step → Bool
  | .invalidate name => name = path
  | .clear => true
  | _ => false

/-- A key whose pairs are taken out has no value, and the other keys have theirs. -/
theorem Table.get?_filter {α β : Type} [DecidableEq α] (p : α → Bool) (key : α) (t : Table α β) :
    Table.get? key (t.filter fun e => p e.1) = if p key then t.get? key else none := by
  induction t with
  | nil => exact (ite_self (none : Option β)).symm
  | cons e t ih =>
    obtain ⟨k, v⟩ := e
    rw [List.filter_cons]
    by_cases hkey : k = key
    · cases hp : p key with
      | true =>
        rw [hkey, if_pos hp, Table.get?, Table.get?, if_pos rfl, if_pos rfl, if_pos rfl]
      | false =>
        rw [hkey, if_neg (Bool.eq_false_iff.mp hp), ih, hp]
        rfl
    · rw [Table.get?, if_neg hkey, ← ih]
      split
      · rw [Table.get?, if_neg hkey]
      · rfl

/-- The compilation that a node, or the node that it is a copy of, comes from. -/
def Site.compilation : Site → Nat
  | .parsed n _ => n
  | .grafted _ node => node.compilation

/-! ## Changing the stock -/

theorem Stock.Keeps.restock {K K' : Stock} {n : Nat} {P P' : Except Error Template → Prop}
    {t : Template} (h : K.Keeps n P t)
    (hsite : ∀ site, K.site n site = true → K'.site n site = true) (hP : P (.ok t) → P' (.ok t)) :
    K'.Keeps n P' t :=
  ⟨h.sited.mono hsite, hP h.answer⟩

/-- A store that holds nothing that is not in stock holds nothing that is not in another stock, if
    all that it holds is. -/
theorem Store.Holds.restock {o : Options} {K K' : Stock} {s : Store} (h : s.Holds o K)
    (hsince : K'.since ≤ s.compilations)
    (hsite : ∀ site, K.site s.compilations site = true → K'.site s.compilations site = true)
    (hplain : s.templates.All fun path t => K.plain path (.ok t) → K'.plain path (.ok t))
    (hindented : s.indented.All fun key t =>
      K.indented key.1 key.2 (.ok t) → K'.indented key.1 key.2 (.ok t))
    (hfragments : s.fragments.All fun key t => K.fragment key (.ok t) → K'.fragment key (.ok t))
    (hremembered : ∀ (n : Node) (name indent : String) (t : Template),
      K.site s.compilations n.site = true → K.remembered n name indent (.ok t) →
        K'.remembered n name indent (.ok t)) :
    { s with loader := K'.loader }.Holds o K' where
  loader := rfl
  since := hsince
  templates e he := (h.templates e he).restock hsite (hplain e he)
  indented e he := (h.indented e he).restock hsite (hindented e he)
  fragments e he := (h.fragments e he).restock hsite (hfragments e he)
  inclusions e he :=
    have ⟨hnode, ht⟩ := h.inclusions e he
    ⟨hsite _ hnode, ht.restock hsite (hremembered _ _ _ _ hnode)⟩
  parents e he :=
    have ⟨hnode, ht⟩ := h.parents e he
    ⟨hsite _ hnode, ht.restock hsite (hremembered _ _ _ _ hnode)⟩
  targets e he :=
    have ⟨hnode, htable⟩ := h.targets e he
    ⟨hsite _ hnode, fun e' he' => (htable e' he').restock hsite (hremembered _ _ _ _ hnode)⟩
  bindings := h.bindings

namespace Session

variable {o : Options} {l : Loader} {path source : String} {steps : List Step} {step : Step}

/-- The loader of an engine that has done steps has had a text under a path since the engine was
    told last to forget what it had compiled under the path, or since it was new. -/
def HadSince (o : Options) (l : Loader) (steps : List Step) (path source : String) : Prop :=
  ∃ before since, steps = before ++ since ∧ (∀ step ∈ since, step.forgets path = false) ∧
    ((new o l).after before).store.loader.read path = .ok source

theorem hadSince_now (h : ((new o l).after steps).store.loader.read path = .ok source) :
    HadSince o l steps path source :=
  ⟨steps, [], (List.append_nil steps).symm, List.forall_mem_nil _, h⟩

theorem HadSince.concat (h : HadSince o l steps path source)
    (hstep : step.forgets path = false) : HadSince o l (steps ++ [step]) path source := by
  obtain ⟨before, since, rfl, hsince, hread⟩ := h
  refine ⟨before, since ++ [step], List.append_assoc .., fun step' hmem => ?_, hread⟩
  obtain hmem | hmem := List.mem_append.mp hmem
  · exact hsince step' hmem
  · exact List.mem_singleton.mp hmem ▸ hstep

/-! ## What the caches may hold -/

/-- What the caches of an engine that has done steps may hold.  What nodes remember may be older. -/
def history (o : Options) (l : Loader) (steps : List Step) : Stock where
  loader := ((new o l).after steps).store.loader
  since := 0
  site n site := site.compilation < n
  known _ := false
  plain path r := ∀ t, r = .ok t → ∃ source, HadSince o l steps path source ∧
    ∃ n, Store.compiledAs o n source path .standard = .ok t
  indented path indent r := ∀ t, r = .ok t → ∃ source, HadSince o l steps path source ∧
    ∃ n, Store.compiledAs o n (.ofList (Text.indentLines indent.toList source.toList)) path
      .standard = .ok t
  fragment key r := ∃ n, Store.compiledAs o n key.text key.file key.delimiters = r
  loaded _ _ _ _ := True

theorem supplied_history (o : Options) (l : Loader) (steps : List Step) :
    (history o l steps).Supplied o where
  inherited _ := fun _ _ => rfl
  grows hle _ h := decide_eq_true (Nat.lt_of_lt_of_le (of_decide_eq_true h) hle)
  new n _ _ := decide_eq_true (Nat.lt_succ_self n)
  plain n path _ := by
    rintro t ht
    rw [Store.namedAs] at ht
    split at ht
    · next source hread => exact ⟨source, hadSince_now hread, n, ht⟩
    · cases ht
  indented n path indent _ := by
    rintro t ht
    rw [Store.indentedAs] at ht
    split at ht
    · next source hread => exact ⟨source, hadSince_now hread, n, ht⟩
    · cases ht
  fragment n key _ := ⟨n, rfl⟩
  loaded _ _ _ _ _ := trivial

/-- Right after a step the caches hold nothing that it makes an engine forget. -/
theorem all_perform_forgets (s : Session) (step : Step) :
    ((s.perform step).2.store.templates.All fun path _ => step.forgets path = false) ∧
      (s.perform step).2.store.indented.All fun key _ => step.forgets key.1 = false := by
  cases step with
  | invalidate name =>
    refine ⟨fun e he => ?_, fun e he => ?_⟩
    · have hne : e.1 ≠ name := of_decide_eq_true (List.mem_filter.mp he).2
      exact decide_eq_false hne.symm
    · have hne : e.1.1 ≠ name := of_decide_eq_true (List.mem_filter.mp he).2
      exact decide_eq_false hne.symm
  | clear => exact ⟨Table.all_nil, Table.all_nil⟩
  | _ => exact ⟨fun _ _ => rfl, fun _ _ => rfl⟩

/-- What the caches hold after one more step. -/
theorem Holds.concat {s : Session} (hs : s.Holds o (history o l steps))
    (hforgets : (s.store.templates.All fun path _ => step.forgets path = false) ∧
      s.store.indented.All fun key _ => step.forgets key.1 = false) :
    { s with
      store := { s.store with loader := (history o l (steps ++ [step])).loader } }.Holds o
        (history o l (steps ++ [step])) where
  options := hs.options
  store := hs.store.restock (Nat.zero_le _) (fun _ h => h)
    (fun e he hplain t ht =>
      have ⟨source, hhad, hcompiled⟩ := hplain t ht
      ⟨source, hhad.concat (hforgets.1 e he), hcompiled⟩)
    (fun e he hindented t ht =>
      have ⟨source, hhad, hcompiled⟩ := hindented t ht
      ⟨source, hhad.concat (hforgets.2 e he), hcompiled⟩)
    (fun _ _ h => h) fun _ _ _ _ _ h => h
  templates := hs.templates

/-- The caches of an engine hold nothing but what the paths have led to since the engine was told
    last to forget them. -/
theorem holds_history (o : Options) (l : Loader) (steps : List Step) :
    ((new o l).after steps).Holds o (history o l steps) := by
  induction steps using List.reverseRecOn with
  | nil =>
    exact
      { options := rfl
        store := ⟨rfl, Nat.zero_le _, Table.all_nil, Table.all_nil, Table.all_nil, Table.all_nil,
          Table.all_nil, Table.all_nil, Table.all_nil⟩
        templates := Table.all_nil }
  | append_singleton steps step ih =>
    have hforgets := all_perform_forgets ((new o l).after steps) step
    have hloader : (history o l (steps ++ [step])).loader =
        (((new o l).after steps).perform step).2.store.loader :=
      congrArg (fun s => s.store.loader) (after_concat steps step _)
    rw [after_concat]
    cases hkeeps : step.keepsLoader with
    | true =>
      have hafter := (holds_perform (supplied_history o l steps) ih hkeeps).concat hforgets
      rwa [hloader] at hafter
    | false =>
      -- The step changes the loader and nothing else.
      cases step with
      | insert name source =>
        have hafter := ih.concat hforgets
        rwa [hloader] at hafter
      | remove name =>
        have hafter := ih.concat hforgets
        rwa [hloader] at hafter
      | _ => cases hkeeps

/-- Steps that leave the loader as it is leave it as it is. -/
theorem loader_after (o : Options) (l : Loader) (steps : List Step) {later : List Step}
    (hlater : ∀ step ∈ later, step.keepsLoader) :
    ((new o l).after (steps ++ later)).store.loader = ((new o l).after steps).store.loader := by
  rw [after_append]
  exact (holds_after (supplied_history o l steps) (holds_history o l steps) hlater).store.loader

end Session

end Mustache
