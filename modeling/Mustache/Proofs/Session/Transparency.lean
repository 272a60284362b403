import Mustache.Proofs.Render.Whole
import Mustache.Session

/-! # What an engine remembers does not show

An engine keeps caches, and its nodes keep what they have looked up and looked for.  As long as the
loader stays as it is, none of it shows: whatever an engine has done before, a step is answered as a
new engine without a cache limit answers it that has done nothing but compile the template.

* `Answer.Same` — answers that look the same.
* `Session.Faithful` — a session whose store is faithful, and whose templates are those that a new
  engine compiles.
* `Session.maker` — the step that a kept template comes from.
* `Session.transparent` — every step of every session is answered as by a new engine.
-/

namespace Mustache

/-! ## Steps and answers -/

/-- Whether a step leaves the loader as it is. -/
def Step.keepsLoader : Step → Bool
  | .insert _ _ => false
  | .remove _ => false
  | _ => true

/-- Whether a step compiles a template. -/
def Step.compiles : Step → Bool
  | .compile _ _ => true
  | .compileText _ _ _ _ => true
  | _ => false

/-- The handle of the kept template that a step renders, prints or matches. -/
def Step.uses? : Step → Option String
  | .render handle _ _ => some handle
  | .print handle => some handle
  | .source handle => some handle
  | .invert handle _ => some handle
  | _ => none

/-- Two answers that look the same: they are the same, or they are renders that handed on the same,
    ended in the same way and left the same destination. -/
inductive Answer.Same : Answer → Answer → Prop
  | refl (a : Answer) : Same a a
  | rendered {r r' : Template.Report} : r.seen = r'.seen → Same (.rendered r) (.rendered r')

namespace Session

/-- A session after steps, one after another. -/
def after (s : Session) (steps : List Step) : Session :=
  steps.foldl (fun s step => (s.perform step).2) s

/-- A session on a new engine without a cache limit. -/
def fresh (o : Options) (l : Loader) : Session :=
  .new { o with cacheLimit := none } l

/-- The step that the template under a handle comes from: the last one with which a new engine has a
    template under it. -/
def maker (o : Options) (l : Loader) (handle : String) (steps : List Step) : Option Step :=
  steps.reverse.find? fun step => ((fresh o l).perform step).2.templates.contains handle

/-! ## Compiling -/

structure Sound (o : Options) (l : Loader) (s : Session) : Prop where
  options : s.options = o
  store : s.store.Faithful o l

variable {o : Options} {l : Loader} {s : Session}

theorem sound_new (o : Options) (l : Loader) : (Session.new o l).Sound o l :=
  ⟨rfl, Store.faithful_new o l⟩

/-- The template that a step puts under a handle. -/
def made (o : Options) (l : Loader) (handle : String) : Step → Option Template
  | .compile name h => if h = handle then (Loading.named o l name).toOption else none
  | .compileText source file d h =>
    if h = handle then (Loading.compiledText o source file d).toOption else none
  | _ => none

def compiledAnswer : Except Error Template → Answer
  | .ok t => .compiled t.name t.codes.length
  | .error e => .failed e

theorem keep_eq {x : Store.Action Template} {r : Except Error Template}
    (hx : Store.Answers o l x r) (hs : s.Sound o l) (h : String) :
    (s.keep h x).1 = compiledAnswer r ∧ (s.keep h x).2.Sound o l ∧
      ∀ handle, ((s.keep h x).2.templates.get? handle).map Template.bare =
        (if h = handle then r.toOption else none).or
          ((s.templates.get? handle).map Template.bare) := by
  obtain ⟨t, store, hok, rfl, hstore⟩ | ⟨e, herror, rfl⟩ := hx s.store hs.store
  · simp only [keep, hok]
    refine ⟨?_, ⟨hs.options, hstore⟩, fun handle => ?_⟩
    · simp only [compiledAnswer, Template.bare, Code.bareAll, Code.relabelAll_eq_map,
        List.length_map]
    · rw [Table.get?_insert]
      split
      · rfl
      · rw [Option.none_or]
  · simp only [keep, herror]
    refine ⟨rfl, hs, fun handle => ?_⟩
    rw [show (Except.error e : Except Error Template).toOption = none from rfl, ite_self,
      Option.none_or]

theorem deliver_sound (hschedule : o.schedule = none)
    (hreuse : ∀ name, Lookup.Reusable (o.handler.find name)) (hs : s.Sound o l) (t : Template)
    (scopes : Scopes) (delivery : Delivery) :
    (s.deliver t scopes delivery).2.Sound o l ∧
      (s.deliver t scopes delivery).2.templates = s.templates := by
  obtain rfl := hs.options
  cases delivery with
  | asWritten dest =>
    have hstore := (Template.renderWithin_eq hschedule hreuse hs.store allowance t scopes dest).2.2
    exact ⟨⟨rfl, hstore⟩, rfl⟩
  | whole dest =>
    have hstore := (Template.renderText_eq hschedule hreuse hs.store t scopes).2
    simp only [deliver, Template.renderWhole]
    cases (Template.renderText s.options t scopes s.store).1 with
    | error e => exact ⟨⟨rfl, hstore⟩, trivial⟩
    | ok text => exact ⟨⟨rfl, hstore⟩, trivial⟩

theorem recover_sound (hschedule : o.schedule = none)
    (hreuse : ∀ name, Lookup.Reusable (o.handler.find name)) (hs : s.Sound o l) (t : Template)
    (text : String) :
    (s.recover t text).2.Sound o l ∧ (s.recover t text).2.templates = s.templates := by
  obtain rfl := hs.options
  simp only [recover]
  cases Template.invert t text with
  | none => exact ⟨hs, rfl⟩
  | some v =>
    exact ⟨⟨rfl, (Template.renderText_eq hschedule hreuse hs.store t (.ofList [v])).2⟩, rfl⟩

theorem withTemplate_sound (hs : s.Sound o l) (handle : String) {f : Template → Answer × Session}
    (hf : ∀ t, (f t).2.Sound o l ∧ (f t).2.templates = s.templates) :
    (s.withTemplate handle f).2.Sound o l ∧
      (s.withTemplate handle f).2.templates = s.templates := by
  simp only [withTemplate]
  cases s.templates.get? handle with
  | none => exact ⟨hs, rfl⟩
  | some t => exact hf t

/-- One step keeps a session sound, and puts a template under a handle only by compiling it. -/
theorem perform_sound (hschedule : o.schedule = none)
    (hreuse : ∀ name, Lookup.Reusable (o.handler.find name)) (hs : s.Sound o l) {step : Step}
    (hstep : step.keepsLoader) :
    (s.perform step).2.Sound o l ∧
      ∀ handle, ((s.perform step).2.templates.get? handle).map Template.bare =
        (made o l handle step).or ((s.templates.get? handle).map Template.bare) := by
  -- Only the steps that compile put anything under a handle.
  have hsame : ∀ {s' : Session}, s'.Sound o l ∧ s'.templates = s.templates →
      s'.Sound o l ∧ ∀ handle, (s'.templates.get? handle).map Template.bare =
        (none : Option Template).or ((s.templates.get? handle).map Template.bare) := by
    intro s' hs'
    refine ⟨hs'.1, fun handle => ?_⟩
    rw [hs'.2, Option.none_or]
  have hoptions := hs.options
  cases step with
  | insert name source => cases hstep
  | remove name => cases hstep
  | compile name handle =>
    have hkeep := keep_eq (Store.answers_named name) hs handle
    simp only [perform, hoptions]
    exact hkeep.2
  | compileText source file d handle =>
    have hkeep := keep_eq (Store.answers_compileText source file d) hs handle
    simp only [perform, hoptions]
    exact hkeep.2
  | render handle scopes delivery =>
    exact hsame (withTemplate_sound hs handle fun t =>
      deliver_sound hschedule hreuse hs t scopes delivery)
  | print handle => exact hsame (withTemplate_sound hs handle fun t => ⟨hs, rfl⟩)
  | source handle => exact hsame (withTemplate_sound hs handle fun t => ⟨hs, rfl⟩)
  | invert handle text =>
    exact hsame (withTemplate_sound hs handle fun t => recover_sound hschedule hreuse hs t text)
  | memory handle => exact hsame (withTemplate_sound hs handle fun t => ⟨hs, rfl⟩)
  | invalidate name => exact hsame ⟨⟨hs.options, hs.store.invalidate name⟩, rfl⟩
  | clear => exact hsame ⟨⟨hs.options, hs.store.clear⟩, rfl⟩
  | inspect handle => exact hsame (withTemplate_sound hs handle fun t => ⟨hs, rfl⟩)

theorem after_sound (hschedule : o.schedule = none)
    (hreuse : ∀ name, Lookup.Reusable (o.handler.find name)) (hs : s.Sound o l)
    {steps : List Step} (hsteps : ∀ step ∈ steps, step.keepsLoader) :
    (s.after steps).Sound o l := by
  induction steps generalizing s with
  | nil => exact hs
  | cons step steps ih =>
    have hstep := perform_sound hschedule hreuse hs (hsteps step List.mem_cons_self)
    exact ih hstep.1 fun step' hstep' => hsteps step' (List.mem_cons_of_mem _ hstep')

/-! ## Using a kept template -/

/-- Two sessions that render two templates alike, and the templates are the same up to sites. -/
structure Interchangeable (s s' : Session) (t t' : Template) : Prop where
  bare : t.bare = t'.bare
  seen : ∀ (scopes : Scopes) (destination : Output),
    (Template.render s.options t scopes destination s.store).seen =
      (Template.render s'.options t' scopes destination s'.store).seen

theorem interchangeable_of_sound {limit : Option Nat} {s' : Session} {t t' : Template}
    (hschedule : o.schedule = none) (hreuse : ∀ name, Lookup.Reusable (o.handler.find name))
    (hs : s.Sound o l) (hs' : s'.Sound { o with cacheLimit := limit } l) (ht : t.bare = t'.bare) :
    Interchangeable s s' t t' where
  bare := ht
  seen scopes dest := by
    have h := (Template.renderWithin_eq hschedule hreuse hs.store allowance t scopes dest).1
    have h' := (Template.renderWithin_eq (o := { o with cacheLimit := limit }) hschedule hreuse
      hs'.store allowance t' scopes dest).1
    rw [Plain.renderWithin_cacheLimit, ← ht] at h'
    rw [hs.options, hs'.options]
    exact h.trans h'.symm

section Same

variable {s' : Session} {t t' : Template} (h : Interchangeable s s' t t')
include h

theorem Interchangeable.text (scopes : Scopes) :
    (Template.renderText s.options t scopes s.store).1 =
      (Template.renderText s'.options t' scopes s'.store).1 :=
  Template.renderText_congr (h.seen scopes (.buffer ""))

theorem deliver_same (scopes : Scopes) (delivery : Delivery) :
    (s.deliver t scopes delivery).1.Same (s'.deliver t' scopes delivery).1 := by
  cases delivery with
  | asWritten dest => exact .rendered (h.seen scopes dest)
  | whole dest =>
    simp only [deliver, Template.renderWhole, h.text scopes]
    cases (Template.renderText s'.options t' scopes s'.store).1 with
    | error e => exact .refl _
    | ok text => exact .refl _

theorem recover_same (text : String) :
    (s.recover t text).1.Same (s'.recover t' text).1 := by
  have hinvert : t.invert text = t'.invert text := by
    rw [← Template.invert_bare, h.bare, Template.invert_bare]
  simp only [recover, hinvert]
  cases t'.invert text with
  | none => exact .refl _
  | some v =>
    simp only [h.text]
    exact .refl _

/-- Two sessions with templates under a handle that they render alike use them in the same way. -/
theorem Interchangeable.perform {step : Step} {handle : String} (huses : step.uses? = some handle)
    (hget : s.templates.get? handle = some t) (hget' : s'.templates.get? handle = some t') :
    (s.perform step).1.Same (s'.perform step).1 := by
  -- Sites show nowhere in what the step makes of the template.
  have hprint : t.print = t'.print := by
    rw [← Template.print_bare, h.bare, Template.print_bare]
  have hsource : t.bare.source = t'.bare.source := by rw [h.bare]
  cases step with
  | render name scopes delivery =>
    obtain rfl : name = handle := Option.some.inj huses
    simp only [Session.perform, withTemplate, hget, hget']
    exact deliver_same h scopes delivery
  | print name =>
    obtain rfl : name = handle := Option.some.inj huses
    simp only [Session.perform, withTemplate, hget, hget', hprint]
    exact .refl _
  | source name =>
    obtain rfl : name = handle := Option.some.inj huses
    simp only [Session.perform, withTemplate, hget, hget']
    rw [show t.source = t'.source from hsource]
    exact .refl _
  | invert name text =>
    obtain rfl : name = handle := Option.some.inj huses
    simp only [Session.perform, withTemplate, hget, hget']
    exact recover_same h text
  | _ => cases huses

end Same

/-- Two engines with the same template under a handle, up to its sites, use it in the same way. -/
theorem perform_same {limit : Option Nat} {s' : Session} {t t' : Template}
    (hschedule : o.schedule = none) (hreuse : ∀ name, Lookup.Reusable (o.handler.find name))
    (hs : s.Sound o l) (hs' : s'.Sound { o with cacheLimit := limit } l) (ht : t.bare = t'.bare)
    {step : Step} {handle : String} (huses : step.uses? = some handle)
    (hget : s.templates.get? handle = some t) (hget' : s'.templates.get? handle = some t') :
    (s.perform step).1.Same (s'.perform step).1 :=
  (interchangeable_of_sound hschedule hreuse hs hs' ht).perform huses hget hget'

/-! ## The templates that are kept -/

theorem made_cacheLimit (limit : Option Nat) (handle : String) (step : Step) :
    made { o with cacheLimit := limit } l handle step = made o l handle step := by
  cases step <;> rfl

/-- A new engine that does one step has the template of the step. -/
theorem fresh_perform (hschedule : o.schedule = none)
    (hreuse : ∀ name, Lookup.Reusable (o.handler.find name)) {step : Step}
    (hstep : step.keepsLoader) (handle : String) :
    (((fresh o l).perform step).2.templates.get? handle).map Template.bare =
      made o l handle step := by
  have h := (perform_sound (o := { o with cacheLimit := none }) hschedule hreuse
    (sound_new _ l) hstep).2 handle
  rw [made_cacheLimit] at h
  exact h.trans Option.or_none

theorem mem_of_maker {handle : String} {steps : List Step} {make : Step}
    (h : maker o l handle steps = some make) :
    make ∈ steps ∧ ∃ t, ((fresh o l).perform make).2.templates.get? handle = some t := by
  refine ⟨List.mem_reverse.mp (List.mem_of_find?_eq_some h), ?_⟩
  have hcontains := List.find?_some h
  exact Option.isSome_iff_exists.mp hcontains

theorem maker_cons (handle : String) (step : Step) (steps : List Step) :
    maker o l handle (step :: steps) = (maker o l handle steps).or (maker o l handle [step]) := by
  simp only [maker, List.reverse_cons, List.find?_append, List.reverse_nil, List.nil_append]

theorem maker_singleton (hschedule : o.schedule = none)
    (hreuse : ∀ name, Lookup.Reusable (o.handler.find name)) {step : Step}
    (hstep : step.keepsLoader) (handle : String) :
    (maker o l handle [step]).bind (made o l handle) = made o l handle step := by
  have hmade := fresh_perform (l := l) hschedule hreuse hstep handle
  simp only [maker, List.reverse_singleton, List.find?_singleton, Table.contains]
  cases hget : Table.get? handle ((fresh o l).perform step).2.templates with
  | none =>
    rw [hget] at hmade
    exact hmade
  | some t => rfl

/-- The template under a handle is the one that its maker makes, or the one that was there before. -/
theorem after_templates (hschedule : o.schedule = none)
    (hreuse : ∀ name, Lookup.Reusable (o.handler.find name)) (hs : s.Sound o l)
    {steps : List Step} (hsteps : ∀ step ∈ steps, step.keepsLoader) (handle : String) :
    ((s.after steps).templates.get? handle).map Template.bare =
      ((maker o l handle steps).bind (made o l handle)).or
        ((s.templates.get? handle).map Template.bare) := by
  induction steps generalizing s with
  | nil => exact Option.none_or.symm
  | cons step steps ih =>
    have hstep := hsteps step List.mem_cons_self
    obtain ⟨hs', hget⟩ := perform_sound hschedule hreuse hs hstep
    have h := ih hs' fun step' hstep' => hsteps step' (List.mem_cons_of_mem _ hstep')
    rw [hget handle, ← maker_singleton hschedule hreuse hstep handle, ← Option.or_assoc] at h
    rw [maker_cons]
    cases hmaker : maker o l handle steps with
    | none =>
      rw [hmaker] at h
      exact h
    | some make =>
      -- A maker makes a template, so what was there before does not count.
      obtain ⟨hmem, t, ht⟩ := mem_of_maker hmaker
      have hmade := fresh_perform (l := l) hschedule hreuse
        (hsteps make (List.mem_cons_of_mem _ hmem)) handle
      rw [ht] at hmade
      rw [hmaker] at h
      simp only [Option.bind_some, Option.some_or, ← hmade, Option.map_some] at h ⊢
      exact h

/-! ## Every step -/

theorem run_getElem? (steps : List Step) (step : Step) (more : List Step) (s : Session) :
    (run (steps ++ step :: more) s)[steps.length]? = some ((s.after steps).perform step) := by
  induction steps generalizing s with
  | nil => rfl
  | cons first steps ih => exact ih (s.perform first).2

/-- A step that compiles is answered in the same way by every sound session. -/
theorem perform_compiles (hs : s.Sound o l) {step : Step} (hstep : step.compiles) :
    (s.perform step).1 = ((fresh o l).perform step).1 := by
  have hoptions := hs.options
  have hfresh := sound_new { o with cacheLimit := none } l
  cases step with
  | compile name handle =>
    have h := (keep_eq (Store.answers_named name) hs handle).1
    have h' := (keep_eq (Store.answers_named name) hfresh handle).1
    simp only [perform, hoptions]
    exact h.trans h'.symm
  | compileText source file d handle =>
    have h := (keep_eq (Store.answers_compileText source file d) hs handle).1
    have h' := (keep_eq (Store.answers_compileText source file d) hfresh handle).1
    simp only [perform, hoptions]
    exact h.trans h'.symm
  | _ => cases hstep

/-- Without a template under the handle there is nothing to use. -/
theorem perform_unknown {step : Step} {handle : String} (huses : step.uses? = some handle)
    (hget : s.templates.get? handle = none) : (s.perform step).1 = .unknownHandle handle := by
  cases step with
  | render h _ _ | print h | source h | invert h _ =>
    obtain rfl : h = handle := Option.some.inj huses
    simp only [perform, withTemplate, hget]
  | _ => cases huses

/-- **What an engine remembers does not show.**  An engine without a schedule does steps one after
    another, with any cache limit and whatever templates leave its caches, and the loader stays as
    it is.  Then every step that compiles is answered as by a new engine, and every step that
    renders, prints or matches a kept template is answered as by a new engine without a cache limit
    that has compiled the template and done nothing else.  The handler has to note, with a decision
    about a name, all the facts that it rests on. -/
theorem transparent (o : Options) (l : Loader) (hschedule : o.schedule = none)
    (hreuse : ∀ name, Lookup.Reusable (o.handler.find name)) (before : List Step) (step : Step)
    (later : List Step) (hsteps : ∀ s ∈ before ++ step :: later, s.keepsLoader) :
    ∃ r : Answer × Session,
      (run (before ++ step :: later) (.new o l))[before.length]? = some r ∧
      (step.compiles → r.1 = ((fresh o l).perform step).1) ∧
      ∀ handle, step.uses? = some handle →
        match maker o l handle before with
        | none => r.1 = .unknownHandle handle
        | some make => r.1.Same (((fresh o l).perform make).2.perform step).1 := by
  have hbefore : ∀ s ∈ before, s.keepsLoader := fun s hmem =>
    hsteps s (List.mem_append_left _ hmem)
  have hs := after_sound hschedule hreuse (sound_new o l) hbefore
  refine ⟨_, run_getElem? before step later _, perform_compiles hs, fun handle huses => ?_⟩
  have htemplates := after_templates hschedule hreuse (sound_new o l) hbefore handle
  rw [show (Session.new o l).templates.get? handle = none from rfl, Option.map_none,
    Option.or_none] at htemplates
  cases hmaker : maker o l handle before with
  | none =>
    rw [hmaker, Option.bind_none, Option.map_eq_none_iff] at htemplates
    exact perform_unknown huses htemplates
  | some make =>
    -- Both engines have the template that the maker makes, up to its sites.
    obtain ⟨hmem, t', ht'⟩ := mem_of_maker hmaker
    have hmade := fresh_perform (l := l) hschedule hreuse (hbefore make hmem) handle
    rw [hmaker, Option.bind_some, ← hmade, ht'] at htemplates
    obtain ⟨t, ht, hbare⟩ := Option.map_eq_some_iff.mp htemplates
    have hs' := (perform_sound (o := { o with cacheLimit := none }) hschedule hreuse
      (sound_new _ l) (hbefore make hmem)).1
    exact perform_same hschedule hreuse hs hs' hbare huses ht ht'

/-- A page with an inclusion, rendered by an engine whose caches hold one template each, after it
    has rendered the page once and forgotten what it had compiled. -/
theorem transparent_page :
    let o : Options := { Options.standard with cacheLimit := some 1 }
    let l : Loader := .memory [("page", .text "{{>part}}{{name}}"), ("part", .text "x")]
    let compile : Step := .compile "page" "h"
    let render : Step := .render "h" (.ofList [.map [("name", .int 1)]]) (.whole (.buffer ""))
    o.schedule = none ∧ (∀ name, Lookup.Reusable (o.handler.find name)) ∧
      (∀ s ∈ [compile, render, .clear] ++ [render], s.keepsLoader) ∧
      ∃ r : Answer × Session, (run [compile, render, .clear, render] (.new o l))[3]? = some r ∧
        r.1.Same (((fresh o l).perform compile).2.perform render).1 := by
  intro o l compile render
  have hsteps : ∀ s ∈ [compile, render, .clear] ++ [render], s.keepsLoader := by
    simp [compile, render, Step.keepsLoader]
  refine ⟨rfl, Lookup.reusable_find, hsteps, ?_⟩
  obtain ⟨r, hr, -, huses⟩ :=
    transparent o l rfl Lookup.reusable_find [compile, render, .clear] render [] hsteps
  refine ⟨r, hr, ?_⟩
  have hmade : ((fresh o l).perform compile).2.templates.contains "h" = true := by
    decide +kernel
  have hrender : ((fresh o l).perform render).2.templates.contains "h" = false := rfl
  have hclear : ((fresh o l).perform .clear).2.templates.contains "h" = false := rfl
  have hmaker : maker o l "h" [compile, render, .clear] = some compile := by
    rw [maker, show [compile, render, .clear].reverse = [.clear, render, compile] from rfl]
    simp only [List.find?_cons, hclear, hrender, hmade]
  have hsame := huses "h" rfl
  rw [hmaker] at hsame
  exact hsame

end Session

end Mustache
