import Mustache.Proofs.Render.Lockstep
import Mustache.Proofs.Session.History

/-! # Starting afresh

An engine that has been told to forget everything starts afresh, even if templates that were
compiled before are rendered again: what nodes remember stays with them, and what is compiled anew
has new nodes.

* `Site.since` — the nodes that come from a compilation, or a later one.
* `Session.kept_after` — the templates that have been compiled since.
* `Session.renewed` — what caches hold, and what is done with new templates after they were cleared.
-/

namespace Mustache

/-- Whether a node, or the node that it is a copy of, comes from a compilation or a later one. -/
def Site.since (n : Nat) (site : Site) : Bool :=
  n ≤ site.compilation

theorem Site.inherited_since (n : Nat) : Inherited (since n) := fun _ _ => rfl

theorem Site.since_parsed {n n' : Nat} (hle : n ≤ n') (offset : Nat) :
    since n (.parsed n' offset) = true :=
  decide_eq_true hle

namespace Session

variable {o : Options} {l : Loader} {s : Session} {since : Nat} {S : Site → Bool}

theorem holds_new (o : Options) (l : Loader) :
    (new o l).Holds o (Loading.stock o l 0 fun _ => true) :=
  ⟨rfl, Store.faithful_iff.mp (Store.faithful_new o l), Table.all_nil⟩

/-- An engine that has been told to forget everything holds nothing but what loading comes to at
    present, for the nodes that come from later compilations. -/
theorem holds_clear {steps : List Step} (hs : s.Holds o (history o l steps)) :
    (s.perform .clear).2.Holds o (Loading.stock o s.store.loader s.store.compilations
      (Site.since s.store.compilations)) where
  options := hs.options
  store := by
    refine hs.store.clear.restock (Nat.le_refl _) (fun _ _ => rfl) Table.all_nil Table.all_nil
      Table.all_nil fun n name indent t hold _ hnew => ?_
    -- What a node remembers, it has remembered since before.
    have hlt : n.site.compilation < s.store.compilations := of_decide_eq_true hold
    exact absurd (of_decide_eq_true hnew) (Nat.not_le.mpr hlt)
  templates := hs.templates.imp fun _ t _ => Code.sitedAll_true t.codes

/-! ## What is compiled anew -/

theorem made_of_not_compiles {step : Step} (h : step.compiles = false) (handle : String) :
    made o l handle step = none := by
  cases step with
  | compile _ _ | compileText _ _ _ _ => cases h
  | _ => rfl

theorem yields_compileText_present
    (hS : ∀ n offset, since ≤ n → S (.parsed n offset) = true) (source file : String)
    (d : Delimiters) :
    Store.Yields o (Loading.stock o l since S) 0
      (Loading.Meets S (Loading.compiledText o source file d))
      (Store.compileText o source file d) := by
  refine Store.yields_compileText (Loading.supplied_stock hS) source file d ?_ ?_
  · intro n hn hvalid
    rw [Loading.compiledText, if_pos hvalid]
    exact Loading.meets_compiledAs (fun offset => hS n offset hn) source file d
  · intro hvalid
    rw [Loading.compiledText, if_neg (Bool.eq_false_iff.mp hvalid)]
    exact ⟨rfl, by rintro _ ⟨⟩⟩

section Present

variable (hS : ∀ n offset, since ≤ n → S (.parsed n offset) = true)
  (hs : s.Holds o (Loading.stock o l since S))
include hS hs

/-- What is answered, and what stands under a handle, after a template has been kept. -/
theorem keep_present {x : Store.Action Template} {r : Except Error Template}
    (hx : Store.Yields o (Loading.stock o l since S) 0 (Loading.Meets S r) x)
    (name handle : String) :
    (s.keep name x).1 = compiledAnswer r ∧
      ((∃ t, (if name = handle then r.toOption else none) = some t.bare ∧
          Code.SitedAll S t.codes ∧ (s.keep name x).2.templates.get? handle = some t) ∨
        ((if name = handle then r.toOption else none) = none ∧
          (s.keep name x).2.templates.get? handle = s.templates.get? handle)) := by
  obtain ⟨-, ⟨t, ht, hanswer, htemplates⟩ | ⟨e, he, hanswer, htemplates⟩⟩ :=
    keep_holds (Loading.supplied_stock hS) hs hx name
  · obtain rfl := ht.same
    rw [hanswer, htemplates, Table.get?_insert]
    refine ⟨?_, ?_⟩
    · simp only [Except.map, compiledAnswer, Template.bare, Code.bareAll,
        Code.relabelAll_eq_map, List.length_map]
    · split
      · exact .inl ⟨t, rfl, ht.sited t rfl, rfl⟩
      · exact .inr ⟨rfl, rfl⟩
  · obtain rfl := he.same
    rw [hanswer, htemplates]
    exact ⟨rfl, .inr ⟨ite_self _, rfl⟩⟩

/-- What stands under a handle after a step is what the step makes, or what was there before. -/
theorem get?_perform {step : Step} (hkeeps : step.keepsLoader) (handle : String) :
    (∃ t, made o l handle step = some t.bare ∧ Code.SitedAll S t.codes ∧
        (s.perform step).2.templates.get? handle = some t) ∨
      (made o l handle step = none ∧
        (s.perform step).2.templates.get? handle = s.templates.get? handle) := by
  have hsupplied := Loading.supplied_stock (o := o) (l := l) hS
  cases hcompiles : step.compiles with
  | false =>
    have htemplates := (perform_holds_of_not_compiles hsupplied hs hkeeps hcompiles).2
    exact .inr ⟨made_of_not_compiles hcompiles handle, by rw [htemplates]⟩
  | true =>
    have hoptions := hs.options
    cases step with
    | compile path name =>
      simp only [perform, hoptions]
      exact (keep_present hS hs (Store.yields_named hsupplied path) name handle).2
    | compileText source file d name =>
      simp only [perform, hoptions]
      exact (keep_present hS hs (yields_compileText_present hS source file d) name handle).2
    | _ => cases hcompiles

/-- A step that compiles is answered by what loading comes to at present. -/
theorem answer_compiles {step : Step} (hcompiles : step.compiles) :
    (s.perform step).1 = ((new o l).perform step).1 := by
  have hoptions := hs.options
  have hnew := holds_new o l
  have htrue : ∀ n offset : Nat, 0 ≤ n → (fun _ : Site => true) (.parsed n offset) = true :=
    fun _ _ _ => rfl
  cases step with
  | compile path name =>
    have h := (keep_present hS hs (Store.yields_named (Loading.supplied_stock hS) path) name name).1
    have h' := (keep_present htrue hnew
      (Store.yields_named (Loading.supplied_stock htrue) path) name name).1
    simp only [perform, hoptions]
    exact h.trans h'.symm
  | compileText source file d name =>
    have h := (keep_present hS hs (yields_compileText_present hS source file d) name name).1
    have h' := (keep_present htrue hnew
      (yields_compileText_present htrue source file d) name name).1
    simp only [perform, hoptions]
    exact h.trans h'.symm
  | _ => cases hcompiles

end Present

/-- A new engine that does one step has the template of the step. -/
theorem get?_new_perform (o : Options) (l : Loader) {step : Step} (hkeeps : step.keepsLoader)
    (handle : String) :
    (((new o l).perform step).2.templates.get? handle).map Template.bare =
      made o l handle step := by
  obtain ⟨t, hmade, -, hget⟩ | ⟨hmade, hget⟩ :=
    get?_perform (fun _ _ _ => rfl) (holds_new o l) hkeeps handle
  · rw [hmade, hget]
    rfl
  · rw [hmade, hget]
    rfl

theorem maker_concat (handle : String) (steps : List Step) (step : Step) :
    maker o l handle (steps ++ [step]) =
      if ((fresh o l).perform step).2.templates.contains handle then some step
      else maker o l handle steps := by
  simp only [maker, List.reverse_append, List.reverse_singleton, List.singleton_append,
    List.find?_cons]
  split
  · next h => rw [if_pos h]
  · next h => rw [if_neg (Bool.eq_false_iff.mp h)]

/-- The template under a handle that has been compiled since is the one that its maker makes, and
    its nodes are new. -/
theorem kept_after (hS : ∀ n offset, since ≤ n → S (.parsed n offset) = true)
    (hs : s.Holds o (Loading.stock o l since S)) {steps : List Step}
    (hsteps : ∀ step ∈ steps, step.keepsLoader) {handle : String} {make : Step}
    (hmaker : maker o l handle steps = some make) :
    ∃ t, (s.after steps).templates.get? handle = some t ∧ Code.SitedAll S t.codes ∧
      made o l handle make = some t.bare := by
  induction steps using List.reverseRecOn with
  | nil => cases hmaker
  | append_singleton steps step ih =>
    have hbefore : ∀ step ∈ steps, step.keepsLoader := fun step hmem =>
      hsteps step (List.mem_append_left _ hmem)
    have hkeeps : step.keepsLoader := hsteps step (List.mem_append_right _ List.mem_cons_self)
    have hafter := holds_after (Loading.supplied_stock hS) hs hbefore
    have hmade := get?_new_perform { o with cacheLimit := none } l hkeeps handle
    rw [made_cacheLimit] at hmade
    rw [after_concat]
    rw [maker_concat] at hmaker
    obtain ⟨t, hnew, hsited, hget⟩ | ⟨hnone, hget⟩ := get?_perform hS hafter hkeeps handle
    · -- The step makes the template itself.
      obtain ⟨t', ht', -⟩ := Option.map_eq_some_iff.mp (hmade.trans hnew)
      have hcontains : ((fresh o l).perform step).2.templates.contains handle = true :=
        Option.isSome_iff_exists.mpr ⟨t', ht'⟩
      rw [if_pos hcontains] at hmaker
      obtain rfl := Option.some.inj hmaker
      exact ⟨t, hget, hsited, hnew⟩
    · have hcontains : ((fresh o l).perform step).2.templates.contains handle = false :=
        Option.isSome_eq_false_iff.mpr
          (Option.isNone_iff_eq_none.mpr (Option.map_eq_none_iff.mp (hmade.trans hnone)))
      rw [hcontains, if_neg Bool.false_ne_true] at hmaker
      rw [hget]
      exact ih hbefore hmaker

/-- Templates that are the same up to sites are rendered alike by an engine that holds nothing but
    what loading comes to at present, for the nodes of one of them, and by an engine that holds
    nothing else at all. -/
theorem interchangeable_of_holds (hS : ∀ n offset, since ≤ n → S (.parsed n offset) = true)
    (hinherited : Site.Inherited S) (hreuse : ∀ name, Lookup.Reusable (o.handler.find name))
    (hs : s.Holds o (Loading.stock o l since S)) {s' : Session}
    (hs' : s'.Holds o (Loading.stock o l 0 fun _ => true)) {t t' : Template}
    (ht : Code.SitedAll S t.codes) (hsame : t.bare = t'.bare) : Interchangeable s s' t t' where
  bare := hsame
  seen scopes destination := by
    obtain rfl := hs.options
    have hagreeing := Store.agreeing_stock (l := l) hinherited hS hreuse
    obtain ⟨hhanded, hresult, hfinal⟩ := Template.lockstep_renderWithin hagreeing
      ⟨hs.store, Store.faithful_iff.mpr hs'.store⟩ ⟨ht, hsame⟩ allowance scopes destination
    rw [hs'.options]
    simp only [Template.render, Template.Report.seen, Template.destination, hhanded, hresult,
      hfinal.streams]

/-! ## After everything has been forgotten -/

/-- **What caches hold, and starting afresh.**  Whatever an engine does while templates in its
    loader come and go, what its caches hold for a path, indented or not, is what the path has led
    to at some time since the engine was told last to forget it, and what they hold for a piece of
    text is the text compiled.  Forgetting a path takes out what is held for it, indented or not,
    and nothing else.  So once an engine has been told to forget everything, and as long as the
    loader stays as it is from then on, compiling is answered as by a new engine, and a template
    that has been compiled since is used as by a new engine that has compiled it, whatever else has
    been rendered.  The handler has to note, with a decision about a name, all the facts that it
    rests on. -/
theorem renewed (o : Options) (l : Loader) (steps : List Step) :
    let s := (new o l).after steps
    (s.store.templates.All fun path t => ∃ source, HadSince o l steps path source ∧
      ∃ n, Store.compiledAs o n source path .standard = .ok t) ∧
    (s.store.indented.All fun key t => ∃ source, HadSince o l steps key.1 source ∧
      ∃ n, Store.compiledAs o n (.ofList (Text.indentLines key.2.toList source.toList)) key.1
        .standard = .ok t) ∧
    (s.store.fragments.All fun key t =>
      ∃ n, Store.compiledAs o n key.text key.file key.delimiters = .ok t) ∧
    (∀ path, let s' := (s.perform (.invalidate path)).2
      (∀ other, s'.store.templates.get? other =
        if other = path then none else s.store.templates.get? other) ∧
      (∀ key, s'.store.indented.get? key =
        if key.1 = path then none else s.store.indented.get? key) ∧
      s' = { s with
        store := { s.store with
          templates := s'.store.templates, indented := s'.store.indented } }) ∧
    ∀ earlier since, steps = earlier ++ .clear :: since → (∀ step ∈ since, step.keepsLoader) →
      (∀ name, Lookup.Reusable (o.handler.find name)) → ∀ step : Step,
        (step.compiles → (s.perform step).1 = ((new o s.store.loader).perform step).1) ∧
        ∀ handle make, step.uses? = some handle →
          maker o s.store.loader handle since = some make →
            (s.perform step).1.Same (((new o s.store.loader).perform make).2.perform step).1 := by
  intro s
  have hs := holds_history o l steps
  refine ⟨fun e he => (hs.store.templates e he).answer e.2 rfl,
    fun e he => (hs.store.indented e he).answer e.2 rfl,
    fun e he => (hs.store.fragments e he).answer, fun path => ⟨fun other => ?_, fun key => ?_, rfl⟩,
    ?_⟩
  · have hget := Table.get?_erase path other s.store.templates
    simp only [eq_comm (a := path)] at hget
    exact hget
  · have hget := Table.get?_filter (fun key : String × String => key.1 ≠ path) key s.store.indented
    simp only [decide_eq_true_eq, ne_eq, ite_not] at hget
    exact hget
  · intro earlier since hsteps hkeeps hreuse step
    -- Everything is forgotten, and nothing old has come back since.
    let n := ((new o l).after earlier).store.compilations
    let l' := ((new o l).after earlier).store.loader
    have hS : ∀ n' offset, n ≤ n' → Site.since n (.parsed n' offset) = true :=
      fun _ offset hle => Site.since_parsed hle offset
    have hclear : (((new o l).after earlier).perform .clear).2.Holds o
        (Loading.stock o l' n (Site.since n)) := holds_clear (holds_history o l earlier)
    have heq : s = (((new o l).after earlier).perform .clear).2.after since := by
      rw [show s = (new o l).after (earlier ++ .clear :: since) from hsteps ▸ rfl, after_append]
      rfl
    have hafter : s.Holds o (Loading.stock o l' n (Site.since n)) :=
      heq ▸ holds_after (Loading.supplied_stock hS) hclear hkeeps
    have hloader : s.store.loader = l' := hafter.store.loader
    rw [hloader]
    refine ⟨fun hcompiles => answer_compiles hS hafter hcompiles, ?_⟩
    intro handle make huses hmaker
    obtain ⟨t, hget, hsited, hmade⟩ := kept_after hS hclear hkeeps hmaker
    rw [← heq] at hget
    -- The new engine has the same template, up to its sites.
    have hmake : make.keepsLoader := hkeeps make (mem_of_maker hmaker).1
    have hnew := get?_new_perform o l' hmake handle
    rw [hmade] at hnew
    obtain ⟨t', hget', hbare⟩ := Option.map_eq_some_iff.mp hnew
    have hs' := holds_perform (Loading.supplied_stock fun _ _ _ => rfl) (holds_new o l') hmake
    exact (interchangeable_of_holds hS (Site.inherited_since n) hreuse hafter hs' hsited
      hbare.symm).perform huses hget hget'

/-- A page is compiled and rendered, its part is replaced, and the engine is told to forget
    everything.  Then the page is compiled under another handle, and the old one is rendered
    again. -/
theorem renewed_page :
    let o : Options := .standard
    let l : Loader := .memory [("page", .text "{{>part}}"), ("part", .text "x")]
    let render (handle : String) : Step := .render handle (.ofList []) (.whole (.buffer ""))
    let earlier : List Step := [.compile "page" "old", render "old", .insert "part" "y"]
    let since : List Step := [.compile "page" "new", render "old"]
    let s := (new o l).after (earlier ++ .clear :: since)
    (∀ step ∈ since, step.keepsLoader) ∧ (∀ name, Lookup.Reusable (o.handler.find name)) ∧
      (render "new").uses? = some "new" ∧
      maker o s.store.loader "new" since = some (.compile "page" "new") ∧
      (s.perform (render "new")).1.Same
        (((new o s.store.loader).perform (.compile "page" "new")).2.perform (render "new")).1 := by
  intro o l render earlier since s
  have hearlier : ∀ step ∈ [.compile "page" "old", render "old"], step.keepsLoader := by
    simp [render, Step.keepsLoader]
  have hsince : ∀ step ∈ since, step.keepsLoader := by
    simp [since, render, Step.keepsLoader]
  have hloader : s.store.loader = .memory [("page", .text "{{>part}}"), ("part", .text "y")] := by
    have hclear : ∀ step ∈ Step.clear :: since, step.keepsLoader :=
      List.forall_mem_cons.mpr ⟨rfl, hsince⟩
    rw [show s.store.loader = _ from loader_after o l earlier hclear]
    change Loader.insert "part" "y"
      ((new o l).after ([] ++ [.compile "page" "old", render "old"])).store.loader = _
    rw [loader_after o l [] hearlier]
    rfl
  have hmade : ((fresh o s.store.loader).perform (.compile "page" "new")).2.templates.contains
      "new" = true := by
    rw [hloader]
    decide +kernel
  have hrender : ((fresh o s.store.loader).perform (render "old")).2.templates.contains "new" =
      false := rfl
  have hmaker : maker o s.store.loader "new" since = some (.compile "page" "new") := by
    rw [maker, show since.reverse = [render "old", .compile "page" "new"] from rfl]
    simp only [List.find?_cons, hrender, hmade]
  refine ⟨hsince, Lookup.reusable_find, rfl, hmaker, ?_⟩
  obtain ⟨-, -, -, -, hrenewed⟩ := renewed o l (earlier ++ .clear :: since)
  exact (hrenewed earlier since rfl hsince Lookup.reusable_find (render "new")).2 "new"
    (.compile "page" "new") rfl hmaker

end Session

end Mustache
