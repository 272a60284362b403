import Mustache.Proofs.Render.Holding
import Mustache.Proofs.Session.Transparency

/-! # What steps leave in a session

No step that leaves the loader as it is puts anything into the store, or under a handle, that is not
in stock.

* `Session.Holds` — the store of a session holds nothing else, and its templates have sites that
  nodes may have.
* `Session.holds_perform`, `Session.holds_after` — one step, and steps one after another.
-/

namespace Mustache

variable {o : Options} {K : Stock} {m : Nat}

theorem Store.yields_compileText (hsupplied : K.Supplied o) {P : Except Error Template → Prop}
    (source name : String) (d : Delimiters)
    (hP : ∀ n, K.since ≤ n → d.isValid = true → P (compiledAs o n source name d))
    (herror : d.isValid = false → P (.error (.compile ⟨name, 1, 1, .invalidDelimiters d.print⟩))) :
    Yields o K m P (compileText o source name d) := by
  unfold compileText
  split
  · next hvalid => exact yields_build hsupplied source name d fun n hn => hP n hn hvalid
  · next hvalid => exact fun _ _ _ => .inr ⟨_, rfl, herror (Bool.eq_false_iff.mpr hvalid)⟩

namespace Session

variable {s : Session}

/-- A session that holds nothing that is not in stock. -/
structure Holds (o : Options) (K : Stock) (s : Session) : Prop where
  options : s.options = o
  store : s.store.Holds o K
  templates : s.templates.All fun _ t => Code.SitedAll (K.site s.store.compilations) t.codes

/-- A session with another store, which has seen no fewer compilations. -/
theorem Holds.withStore (hsupplied : K.Supplied o) (hs : s.Holds o K) {store : Store}
    (hstore : store.Holds o K) (hle : s.store.compilations ≤ store.compilations) :
    { s with store }.Holds o K :=
  ⟨hs.options, hstore, hs.templates.imp fun _ _ h => h.mono (hsupplied.grows hle)⟩

/-- What a kept template is, and what the answer is, if an action comes to one of some answers. -/
theorem keep_holds (hsupplied : K.Supplied o) (hs : s.Holds o K) {P : Except Error Template → Prop}
    {x : Store.Action Template} (hx : Store.Yields o K 0 P x) (handle : String) :
    (s.keep handle x).2.Holds o K ∧
      ((∃ t, P (.ok t) ∧ (s.keep handle x).1 = .compiled t.name t.codes.length ∧
          (s.keep handle x).2.templates = s.templates.insert handle t) ∨
        ∃ e, P (.error e) ∧ (s.keep handle x).1 = .failed e ∧
          (s.keep handle x).2.templates = s.templates) := by
  obtain ⟨t, store, hok, ⟨hsited, ht⟩, hstore, hle⟩ | ⟨e, herror, he⟩ :=
    hx s.store hs.store (Nat.zero_le _)
  · simp only [keep, hok]
    exact ⟨⟨hs.options, hstore, (hs.withStore hsupplied hstore hle).templates.insert hsited⟩,
      .inl ⟨t, ht, rfl, rfl⟩⟩
  · simp only [keep, herror]
    exact ⟨hs, .inr ⟨e, he, rfl, trivial⟩⟩

theorem withTemplate_holds (hs : s.Holds o K) (handle : String)
    {f : Template → Answer × Session}
    (hf : ∀ t, Code.SitedAll (K.site s.store.compilations) t.codes →
      (f t).2.Holds o K ∧ (f t).2.templates = s.templates) :
    (s.withTemplate handle f).2.Holds o K ∧
      (s.withTemplate handle f).2.templates = s.templates := by
  simp only [withTemplate]
  cases hget : s.templates.get? handle with
  | none => exact ⟨hs, rfl⟩
  | some t => exact hf t (hs.templates.get? hget)

section Rendering

variable (hsupplied : K.Supplied o) (hs : s.Holds o K) {t : Template}
  (ht : Code.SitedAll (K.site s.store.compilations) t.codes)
include hsupplied hs ht

theorem render_holds (scopes : Scopes) (destination : Output) :
    Holds o K { s with
      store := (Template.render s.options t scopes destination s.store).final.store } := by
  obtain rfl := hs.options
  obtain ⟨hstore, hle⟩ :=
    Template.holds_renderWithin hsupplied hs.store ht allowance scopes destination
  exact hs.withStore hsupplied hstore hle

theorem deliver_holds (scopes : Scopes) (delivery : Delivery) :
    (s.deliver t scopes delivery).2.Holds o K ∧
      (s.deliver t scopes delivery).2.templates = s.templates := by
  cases delivery with
  | asWritten destination => exact ⟨render_holds hsupplied hs ht scopes destination, rfl⟩
  | whole destination =>
    have hrender := render_holds hsupplied hs ht scopes (.buffer "")
    simp only [deliver, Template.renderWhole]
    cases (Template.renderText s.options t scopes s.store).1 with
    | error _ => exact ⟨hrender, trivial⟩
    | ok _ => exact ⟨hrender, trivial⟩

theorem recover_holds (text : String) :
    (s.recover t text).2.Holds o K ∧ (s.recover t text).2.templates = s.templates := by
  simp only [recover]
  cases Template.invert t text with
  | none => exact ⟨hs, rfl⟩
  | some v => exact ⟨render_holds hsupplied hs ht (.ofList [v]) (.buffer ""), rfl⟩

end Rendering

/-- A step that compiles nothing and leaves the loader as it is keeps the templates, and puts
    nothing into the store that is not in stock. -/
theorem perform_holds_of_not_compiles (hsupplied : K.Supplied o) (hs : s.Holds o K) {step : Step}
    (hkeeps : step.keepsLoader) (hcompiles : step.compiles = false) :
    (s.perform step).2.Holds o K ∧ (s.perform step).2.templates = s.templates := by
  cases step with
  | insert _ _ | remove _ => cases hkeeps
  | compile _ _ | compileText _ _ _ _ => cases hcompiles
  | render handle scopes delivery =>
    exact withTemplate_holds hs handle fun t ht => deliver_holds hsupplied hs ht scopes delivery
  | invert handle text =>
    exact withTemplate_holds hs handle fun t ht => recover_holds hsupplied hs ht text
  | print handle | source handle | memory handle | inspect handle =>
    exact withTemplate_holds hs handle fun t _ => ⟨hs, rfl⟩
  | invalidate name =>
    exact ⟨hs.withStore hsupplied (hs.store.invalidate name) (Nat.le_refl _), rfl⟩
  | clear => exact ⟨hs.withStore hsupplied hs.store.clear (Nat.le_refl _), rfl⟩

/-- No step that leaves the loader as it is puts anything into a session that is not in stock. -/
theorem holds_perform (hsupplied : K.Supplied o) (hs : s.Holds o K) {step : Step}
    (hkeeps : step.keepsLoader) : (s.perform step).2.Holds o K := by
  obtain rfl := hs.options
  cases hcompiles : step.compiles with
  | false => exact (perform_holds_of_not_compiles hsupplied hs hkeeps hcompiles).1
  | true =>
    cases step with
    | compile name handle =>
      exact (keep_holds hsupplied hs (Store.yields_named hsupplied name) handle).1
    | compileText source file d handle =>
      exact (keep_holds hsupplied hs (P := fun _ => True)
        (Store.yields_compileText hsupplied source file d (fun _ _ _ => trivial) fun _ => trivial)
        handle).1
    | _ => cases hcompiles

theorem after_concat (steps : List Step) (step : Step) (s : Session) :
    s.after (steps ++ [step]) = ((s.after steps).perform step).2 :=
  List.foldl_concat ..

theorem after_append (steps later : List Step) (s : Session) :
    s.after (steps ++ later) = (s.after steps).after later :=
  List.foldl_append ..

theorem holds_after (hsupplied : K.Supplied o) (hs : s.Holds o K) {steps : List Step}
    (hsteps : ∀ step ∈ steps, step.keepsLoader) : (s.after steps).Holds o K := by
  induction steps generalizing s with
  | nil => exact hs
  | cons step steps ih =>
    exact ih (holds_perform hsupplied hs (hsteps step List.mem_cons_self))
      fun step' hstep' => hsteps step' (List.mem_cons_of_mem _ hstep')

end Session

end Mustache
