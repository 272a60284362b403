import Mustache.Proofs.Render.Jobs
import Mustache.Proofs.Render.Whole

/-! # Options that ask less

Strict mode, failing on a miss and the limit of inclusions only ever make an error of what would
otherwise be passed over.  Where nothing is put off, a render under options that ask less goes the
same way step by step, up to the first error that only the stricter options make.

The rules are gone through for any kind of stops that set two renders apart, as a greater allowance
of nesting makes no difference either up to where the smaller one is used up.  That kind of stop is
also seen from outside the job in which it happens, so there it does not matter what is put off.

* `Options.Laxer` — options that ask less, and are otherwise the same.
* `Options.Spares` — the errors that the options which ask less do not make.
* `Render.Unless` — an action goes the same way as another one, unless that stops in some way.
* `Options.Eases` — when renders under two options go the same way up to stops of some kind.
* `Template.renderWithin_laxer` — whole renders.
-/

namespace Mustache

/-! ## Options and errors -/

/-- Options that ask no more than others, and are otherwise the same. -/
inductive Options.Laxer (o : Options) : Options → Prop
  | intro {strict failOnMiss : Bool} {recursionLimit : Nat} (hstrict : strict → o.strict)
    (hmiss : failOnMiss → o.failOnMiss) (hlimit : o.recursionLimit ≤ recursionLimit) :
    Laxer o { o with strict, failOnMiss, recursionLimit }

/-- The errors that options make and others, which ask less, do not. -/
inductive Options.Spares (o o' : Options) : Error → Prop
  | mismatch {template parent : String} {blocks : List String} (hstrict : o.strict)
    (hlax : o'.strict = false) :
    Spares o o' (.render (.inheritanceMismatch template parent blocks))
  | notFound {name : String} (hstrict : o.strict) (hlax : o'.strict = false) :
    Spares o o' (.load (.notFound name))
  | missing {name file : String} {line : Nat} (hstrict : o.failOnMiss)
    (hlax : o'.failOnMiss = false) : Spares o o' (.render (.missing name file line))
  | recursionLimit {name file : String} {line : Nat} (hlt : o.recursionLimit < o'.recursionLimit) :
    Spares o o' (.render (.recursionLimit name o.recursionLimit file line))

variable {o o' : Options} {P : Stop → Prop}

theorem Options.Laxer.strict (h : o.Laxer o') :
    o'.strict = o.strict ∨ o.strict = true ∧ o'.strict = false := by
  obtain @⟨strict, -, -, hstrict, -, -⟩ := h
  cases strict with
  | true => exact .inl (hstrict rfl).symm
  | false =>
    cases ho : o.strict with
    | true => exact .inr ⟨rfl, rfl⟩
    | false => exact .inl rfl

theorem Options.Laxer.failOnMiss (h : o.Laxer o') :
    o'.failOnMiss = o.failOnMiss ∨ o.failOnMiss = true ∧ o'.failOnMiss = false := by
  obtain @⟨-, failOnMiss, -, -, hmiss, -⟩ := h
  cases failOnMiss with
  | true => exact .inl (hmiss rfl).symm
  | false =>
    cases ho : o.failOnMiss with
    | true => exact .inr ⟨rfl, rfl⟩
    | false => exact .inl rfl

theorem Options.Laxer.recursionLimit (h : o.Laxer o') : o.recursionLimit ≤ o'.recursionLimit := by
  obtain ⟨-, -, hlimit⟩ := h
  exact hlimit

/-! ## Actions -/

/-- The second action does what the first one does, unless that stops in one of some ways. -/
def Render.Unless (P : Stop → Prop) {α : Type} (x x' : Render α) : Prop :=
  ∀ w, x' w = x w ∨ ∃ stop w', x w = (.error stop, w') ∧ P stop

/-- Renders under options that ask less do the same up to stops of some kind.  If jobs are put off,
    it has to be a kind that is not kept to the job. -/
structure Options.Eases (P : Stop → Prop) (o o' : Options) : Prop where
  laxer : o.Laxer o'
  spared : ∀ {e}, o.Spares o' e → P (.error e)
  putOff : o.schedule = none ∨ ∀ stop, P stop → stop = .exhausted

/-- An action on a store under options that ask less does the same, or the stricter options have
    made an error that it is spared. -/
def Store.Eased (o o' : Options) {α : Type} (x x' : Store.Action α) : Prop :=
  ∀ s, x' s = x s ∨ ∃ e, x s = .error e ∧ o.Spares o' e

namespace Store.Eased

variable {α β : Type}

theorem refl (x : Action α) : Store.Eased o o' x x := fun _ => .inl rfl

theorem bind {x x' : Action α} {f f' : α → Action β} (hx : Store.Eased o o' x x')
    (hf : ∀ a, Store.Eased o o' (f a) (f' a)) : Store.Eased o o' (x >>= f) (x' >>= f') := by
  intro s
  simp only [Bind.bind, StateT.bind]
  obtain heq | ⟨e, herror, he⟩ := hx s
  · rw [heq]
    cases x s with
    | error e => exact .inl rfl
    | ok r => exact hf r.1 r.2
  · rw [herror]
    exact .inr ⟨e, rfl, he⟩

/-- Only in strict mode is an unknown template an error. -/
theorem load (h : o.Laxer o') (name including indent : String) :
    Store.Eased o o' (Store.load o name including indent)
      (Store.load o' name including indent) := by
  intro s
  have hlinked : linked o' name including indent s = linked o name including indent s := by
    cases h
    rfl
  simp only [Store.load, hlinked]
  split
  · obtain heq | ⟨hstrict, hlax⟩ := h.strict
    · rw [heq]
      exact .inl rfl
    · rw [hstrict]
      exact .inr ⟨_, rfl, .notFound hstrict hlax⟩
  · exact .inl rfl

theorem included (h : o.Laxer o') (p : Inclusion) :
    Store.Eased o o' (Store.included o p) (Store.included o' p) := by
  refine bind (refl get) fun s => ?_
  cases s.inclusions.get? p.node with
  | some t => exact refl _
  | none => exact bind (load h _ _ _) fun t => refl _

theorem parent (h : o.Laxer o') (origin : Origin) (name : String) :
    Store.Eased o o' (Store.parent o origin name) (Store.parent o' origin name) := by
  refine bind (refl get) fun s => ?_
  cases s.parents.get? (origin.node name) with
  | some t => exact refl _
  | none => exact bind (load h _ _ _) fun t => refl _

theorem target (h : o.Laxer o') (p : Inclusion) (text : String) :
    Store.Eased o o' (Store.target o p text) (Store.target o' p text) := by
  refine bind (refl get) fun s => ?_
  cases (s.targetsOf p).get? text with
  | some t => exact refl _
  | none =>
    refine bind (load h _ _ _) fun t => ?_
    cases h
    exact refl _

end Store.Eased

namespace Render.Unless

variable {α β : Type}

theorem refl (x : Render α) : Unless P x x := fun _ => .inl rfl

theorem bind {x x' : Render α} {f f' : α → Render β} (hx : Unless P x x')
    (hf : ∀ a, Unless P (f a) (f' a)) : Unless P (x >>= f) (x' >>= f') := by
  intro w
  simp only [Bind.bind]
  obtain heq | ⟨stop, w', hstop, hP⟩ := hx w
  · rw [heq]
    rcases x w with ⟨e | a, w'⟩
    · exact .inl rfl
    · exact hf a w'
  · rw [hstop]
    exact .inr ⟨stop, w', rfl, hP⟩

theorem stop {x : Render α} {e : Stop} (he : P e) : Unless P (Render.stop e) x :=
  fun w => .inr ⟨e, w, rfl, he⟩

theorem ite {b : Bool} {x x' y y' : Render α} (hx : Unless P x x') (hy : Unless P y y') :
    Unless P (if b then x else y) (if b then x' else y') := by
  cases b with
  | true => exact hx
  | false => exact hy

theorem thread {f f' : α → Writer → Render Writer}
    (hf : ∀ a out, Unless P (f a out) (f' a out)) :
    ∀ (as : List α) (out : Writer), Unless P (Render.thread f as out) (Render.thread f' as out)
  | [], _ => refl _
  | a :: as, out => by
    rw [Render.thread_cons, Render.thread_cons]
    exact bind (hf a out) fun out => thread hf as out

theorem captured {x x' : Writer → Render Writer} (hx : ∀ out, Unless P (x out) (x' out)) :
    Unless P (Render.captured x) (Render.captured x') :=
  bind (refl _) fun _ => bind (hx _) fun _ => refl _

variable (h : o.Eases P o')
include h

theorem withStore {x x' : Store.Action α} (hx : Store.Eased o o' x x') :
    Unless P (Render.withStore x) (Render.withStore x') := by
  intro w
  simp only [Render.withStore]
  obtain heq | ⟨e, herror, he⟩ := hx w.store
  · rw [heq]
    exact .inl rfl
  · rw [herror]
    exact .inr ⟨.error e, w, rfl, h.spared he⟩

/-- Only a limit that is higher lets an inclusion in that was kept out. -/
theorem enter (cx : Context) (name file : String) (line : Nat) :
    Unless P (Render.ofExcept (cx.enter o name file line))
      (Render.ofExcept (cx.enter o' name file line)) := by
  have hlimit := h.laxer.recursionLimit
  unfold Context.enter
  by_cases hin : o.recursionLimit ≤ cx.depth
  · rw [if_pos hin]
    obtain heq | hlt := Nat.eq_or_lt_of_le hlimit
    · rw [← heq, if_pos hin]
      exact refl _
    · exact stop (h.spared (.recursionLimit hlt))
  · rw [if_neg hin, if_neg fun hle => hin (Nat.le_trans hlimit hle)]
    exact refl _

/-- Only failing on a miss makes an error of one. -/
theorem lookupTag (origin : Origin) (name : String) (scopes : Scopes) :
    Unless P (Render.lookupTag o origin name scopes)
      (Render.lookupTag o' origin name scopes) := by
  have hlookup : Render.lookup o' (origin.node name) scopes =
      Render.lookup o (origin.node name) scopes := by
    cases h.laxer
    rfl
  unfold Render.lookupTag
  rw [hlookup]
  refine bind (refl _) fun hit => ?_
  cases hit.isMissing with
  | false => exact refl _
  | true =>
    obtain heq | ⟨hmiss, hlax⟩ := h.laxer.failOnMiss
    · rw [heq]
      exact refl _
    · rw [hmiss]
      exact stop (h.spared (.missing hmiss hlax))

end Render.Unless

/-! ## The rules -/

/-- What a renderer does with the things nested in a node, another one does, unless the first one
    stops in one of some ways. -/
structure Renderer.Unless (P : Stop → Prop) (r r' : Renderer) : Prop where
  node : ∀ c scopes cx out, Render.Unless P (r.node c scopes cx out) (r'.node c scopes cx out)
  resume : ∀ k x scopes cx out,
    Render.Unless P (r.resume k x scopes cx out) (r'.resume k x scopes cx out)

namespace Renderer.Unless

open Render.Unless (bind refl ite)

variable {r r' : Renderer} (hr : Renderer.Unless P r r') (h : o.Eases P o') (scopes : Scopes)
  (cx : Context) (out : Writer)
include hr

theorem nodes (codes : List Code) :
    Render.Unless P (r.nodes codes scopes cx out) (r'.nodes codes scopes cx out) :=
  .thread (fun c out => hr.node c scopes cx out) codes out

theorem capture (codes : List Code) :
    Render.Unless P (r.capture codes scopes cx) (r'.capture codes scopes cx) :=
  .captured fun out => hr.nodes scopes cx.inline out codes

theorem withScope (codes : List Code) (x : Value) :
    Render.Unless P (r.withScope codes x scopes cx out) (r'.withScope codes x scopes cx out) :=
  ite (hr.nodes scopes cx out codes) (hr.nodes (scopes.push x) cx out codes)

theorem work (job : Job) (out : Writer) : Render.Unless P (r.work job out) (r'.work job out) :=
  bind (refl _) fun v => hr.resume job.awaiting v job.scopes job.context out

/-- Of the stops of its work, doing a job lets those through that use up the allowance. -/
theorem perform (hP : ∀ stop, P stop → stop = .exhausted) (job : Job) :
    Render.Unless P (r.perform job) (r'.perform job) := by
  intro w
  rw [Renderer.perform_eq, Renderer.perform_eq]
  obtain heq | ⟨stop, w', hstop, hw⟩ := hr.work job job.writer w
  · rw [heq]
    exact .inl rfl
  · obtain rfl := hP stop hw
    rw [hstop]
    exact .inr ⟨.exhausted, w', rfl, hw⟩

include h

theorem sectionLambda (s : Section Code) (f : Lambda) :
    Render.Unless P (r.sectionLambda o s f scopes cx out)
      (r'.sectionLambda o' s f scopes cx out) := by
  cases h.laxer
  unfold Renderer.sectionLambda
  cases f.kind with
  | text => exact bind (hr.capture scopes cx s.body) fun _ => refl _
  | template => exact bind (refl _) fun t => hr.nodes scopes cx out t.codes

theorem extend (e : Extension Code) :
    Render.Unless P (r.extend o e scopes cx out) (r'.extend o' e scopes cx out) := by
  refine bind (.enter h cx _ _ _) fun cx => bind (.withStore h (.parent h.laxer _ _)) fun t => ?_
  have hnodes := hr.nodes scopes cx out (Renderer.extended e t).1
  simp only
  obtain heq | ⟨hstrict, hlax⟩ := h.laxer.strict
  · rw [heq]
    exact ite (refl _) hnodes
  · rw [hstrict, hlax]
    cases (Renderer.extended e t).2.isEmpty with
    | true => exact hnodes
    | false => exact .stop (h.spared (.mismatch hstrict hlax))

/-- A deferred computation runs where it is met, or in a job. -/
theorem defer (d : Deferred Value) (name : String) (k : Awaiting) :
    Render.Unless P (r.defer o d name k scopes cx out) (r'.defer o' d name k scopes cx out) := by
  have hsame : cx.schedule? o' = cx.schedule? o := by
    cases h.laxer
    rfl
  unfold Renderer.defer
  rw [hsame]
  cases hschedule : cx.schedule? o with
  | none => exact bind (refl _) fun v => hr.resume k v scopes cx out
  | some schedule =>
    have hP := h.putOff.resolve_left fun hnone => by
      simp [Context.schedule?, hnone] at hschedule
    exact bind (refl _) fun _ => bind (refl _) fun _ =>
      ite (bind (hr.perform hP _) fun _ => refl _) (refl _)

theorem value (v : Interpolation) (x : Value) :
    Render.Unless P (r.value o v x scopes cx out) (r'.value o' v x scopes cx out) := by
  have hdefer := hr.defer h scopes cx out
  cases h.laxer
  unfold Renderer.value
  cases o.handler.coerce x with
  | deferred d => exact hdefer d v.name (.value v)
  | lambda f =>
    simp only
    cases f.kind with
    | text => exact refl _
    | template => exact bind (refl _) fun t => bind (hr.capture scopes cx t.codes) fun _ => refl _
  | _ => exact refl _

theorem sect (s : Section Code) (x : Value) :
    Render.Unless P (r.sect o s x scopes cx out) (r'.sect o' s x scopes cx out) := by
  have hdefer := hr.defer h scopes cx out
  have hlambda := hr.sectionLambda h scopes cx out s
  cases h.laxer
  unfold Renderer.sect
  cases o.handler.coerce x with
  | deferred d => exact hdefer d s.name (.sect s)
  | lambda f => exact ite (ite (hr.nodes scopes cx out s.body) (refl _)) (hlambda f)
  | _ =>
    exact ite (ite (hr.nodes scopes cx out s.body) (refl _)) (ite (refl _)
      (.thread (fun item out => hr.nodes (scopes.push item) cx out s.body) _ out))

theorem inclusion (p : Inclusion) :
    Render.Unless P (r.inclusion o p scopes cx out) (r'.inclusion o' p scopes cx out) := by
  refine bind (.enter h cx _ _ _) fun cx => bind (.withStore h (.included h.laxer p)) fun t => ?_
  have hdefer := hr.defer h scopes cx out
  cases h.laxer
  refine bind (refl _) fun hit => ?_
  simp only
  cases o.handler.coerce hit.value with
  | deferred d => exact hdefer d p.name (.inclusion t.codes)
  | _ => exact hr.withScope scopes cx out t.codes _

theorem dynamic (p : Inclusion) (x : Value) :
    Render.Unless P (r.dynamic o p x scopes cx out) (r'.dynamic o' p x scopes cx out) := by
  have hdefer := hr.defer h scopes cx out
  have htarget (text : String) := Render.Unless.withStore h (Store.Eased.target h.laxer p text)
  cases h.laxer
  unfold Renderer.dynamic
  cases o.handler.coerce x with
  | deferred d => exact hdefer d p.name (.dynamic p)
  | _ => exact ite (refl _) (bind (htarget _) fun t => hr.nodes scopes cx out t.codes)

theorem resumeWith (k : Awaiting) (x : Value) :
    Render.Unless P (r.resumeWith o k x scopes cx out) (r'.resumeWith o' k x scopes cx out) := by
  cases k with
  | value v => exact hr.value h scopes cx out v x
  | sect s => exact hr.sect h scopes cx out s x
  | inclusion codes => exact hr.withScope scopes cx out codes x
  | dynamic p => exact hr.dynamic h scopes cx out p x

theorem nodeWith (c : Code) :
    Render.Unless P (r.nodeWith o c scopes cx out) (r'.nodeWith o' c scopes cx out) := by
  cases c with
  | text s => exact refl _
  | value v => exact bind (.lookupTag h _ _ _) fun x => hr.value h scopes cx out v x
  | sect s => exact bind (.lookupTag h _ _ _) fun x => hr.sect h scopes cx out s x
  | inclusion p => exact hr.inclusion h scopes cx out p
  | dynamic p =>
    refine bind (.enter h cx _ _ _) fun cx => ?_
    have hdynamic := hr.dynamic h scopes cx out p
    cases h.laxer
    exact bind (refl _) fun hit => hdynamic hit.value
  | extend e => exact hr.extend h scopes cx out e
  | block b => exact hr.nodes scopes cx out b.body
  | eof => exact refl _

omit h scopes cx out in
/-- The rules keep renderers so. -/
theorem step (h : o.Eases P o') :
    Renderer.Unless P ⟨r.nodeWith o, r.resumeWith o⟩ ⟨r'.nodeWith o', r'.resumeWith o'⟩ :=
  ⟨fun c scopes cx out => hr.nodeWith h scopes cx out c,
    fun k x scopes cx out => hr.resumeWith h scopes cx out k x⟩

end Renderer.Unless

/-- Rendering goes the same way under options that ask less, with every allowance of nesting. -/
theorem Renderer.unless_within (h : o.Eases P o') (n : Nat) :
    Renderer.Unless P (.within o n) (.within o' n) := by
  induction n with
  | zero => exact ⟨fun _ _ _ _ => .refl _, fun _ _ _ _ _ => .refl _⟩
  | succ n ih => exact ih.step h

/-! ## Whole renders -/

/-- **Options that ask less spare errors, and change nothing else.**  Without a schedule, a template
    that is compiled under options that ask less is the same template, and a render of it is the
    same render, unless the stricter options have made it fail with an error of their own.  So a
    render that succeeds under options succeeds in the same way under all that ask less. -/
theorem Template.renderWithin_laxer (h : o.Laxer o') (hschedule : o.schedule = none) (n : Nat)
    (scopes : Scopes) (destination : Output) (store : Store) :
    (∀ path, Store.named o' path store = Store.named o path store) ∧
      (∀ source name d,
        Store.compileText o' source name d store = Store.compileText o source name d store) ∧
      ∀ t : Template,
        let r := renderWithin n o t scopes destination store
        let r' := renderWithin n o' t scopes destination store
        (r' = r ∨ ∃ e, r.result = .error (.error e) ∧ o.Spares o' e) ∧
          (r.result = .ok () → r' = r) := by
  refine ⟨fun _ => by cases h; rfl, fun _ _ _ => by cases h; rfl, fun t => ?_⟩
  intro r r'
  have hr : r' = r ∨ ∃ e, r.result = .error (.error e) ∧ o.Spares o' e := by
    have hschedule' : o'.schedule = none := by
      cases h
      exact hschedule
    have heases : o.Eases (fun stop => ∃ e, stop = .error e ∧ o.Spares o' e) o' :=
      ⟨h, fun {e} he => ⟨e, rfl, he⟩, .inl hschedule⟩
    simp only [r, r', renderWithin_of_none hschedule, renderWithin_of_none hschedule']
    obtain heq | ⟨_, w, herror, e, rfl, he⟩ := (Renderer.unless_within heases n).nodes scopes .start
      (.direct 0) t.codes (.start store ⟨[destination], []⟩)
    · rw [heq]
      exact .inl rfl
    · rw [herror]
      exact .inr ⟨e, rfl, he⟩
  refine ⟨hr, fun hok => ?_⟩
  obtain heq | ⟨e, herror, -⟩ := hr
  · exact heq
  · rw [hok] at herror
    cases herror

/-- A page with an inclusion of a template that is not there, in strict mode and outside of it: the
    strict render stops there with an error that the other one is spared. -/
theorem Template.renderWithin_laxer_page :
    let o : Options := { Options.standard with strict := true }
    let origin : Origin := ⟨.standard, "page", 1, true, .parsed 0 0⟩
    let t : Template := ⟨"page", "", [.text "a", .inclusion ⟨origin, "gone", ""⟩, .text "b"]⟩
    let r := renderWithin 3 o t (.ofList []) (.buffer "") (.new (.memory []))
    let r' := renderWithin 3 .standard t (.ofList []) (.buffer "") (.new (.memory []))
    o.Laxer .standard ∧ o.schedule = none ∧
      r.final.streams.textOf 0 = "a" ∧ r'.final.streams.textOf 0 = "ab" ∧
      ∃ e, r.result = .error (.error e) ∧ o.Spares .standard e := by
  intro o origin t r r'
  have hlaxer : o.Laxer .standard := ⟨nofun, nofun, Nat.le_refl _⟩
  have hstrict : r.final.streams.textOf 0 = "a" := by decide +kernel
  have hlax : r'.final.streams.textOf 0 = "ab" := by decide +kernel
  refine ⟨hlaxer, rfl, hstrict, hlax, ?_⟩
  have hall := renderWithin_laxer hlaxer rfl 3 (.ofList []) (.buffer "") (.new (.memory []))
  obtain heq | hspared : r' = r ∨ ∃ e, r.result = .error (.error e) ∧ o.Spares .standard e :=
    (hall.2.2 t).1
  · have htexts : "a" = "ab" := by rw [← hstrict, ← hlax, heq]
    simp at htexts
  · exact hspared

end Mustache
