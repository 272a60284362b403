import Mustache.Proofs.Lookup.Throughout
import Mustache.Proofs.Render.Drained
import Mustache.Proofs.Render.Whole

/-! # Schedules

When deferred computations run does not show in the output, if they are steady: if every run of a
computation comes to the same.  Whether they run where they are met, at once when they are
submitted, or later in any order, the same text is written, and all goes well or not.

* `Value.Steady` — data whose deferred computations are steady.
* `Template.renderWithin_schedule` — a render with a schedule and one without.
-/

namespace Mustache

/-! ## Steady data -/

/-- Data whose deferred computations always come to what they come to first, also the computations
    in what they come to. -/
inductive Value.Steady : Value → Prop
  | null : Steady .null
  | bool (b : Bool) : Steady (.bool b)
  | int (n : Int64) : Steady (.int n)
  | float (x : Double) : Steady (.float x)
  | text (s : String) : Steady (.text s)
  | list {items : List Value} (h : ∀ v ∈ items, Steady v) : Steady (.list items)
  | map {entries : List (String × Value)} (h : ∀ e ∈ entries, Steady e.2) : Steady (.map entries)
  | record {type : String} {fields : List (String × Value)} (h : ∀ e ∈ fields, Steady e.2) :
      Steady (.record type fields)
  | object {o : HostObject Value} (members : ∀ e ∈ o.members, Steady e.2)
      (items : ∀ items, o.items = some items → ∀ v ∈ items, Steady v) : Steady (.object o)
  | optional {content : Option Value} (h : ∀ v, content = some v → Steady v) :
      Steady (.optional content)
  | lambda (f : Lambda) : Steady (.lambda f)
  | deferred {d : Deferred Value} (same : ∀ n, d.outcome n = d.outcome 0)
      (value : ∀ v, d.outcome 0 = .value v → Steady v) : Steady (.deferred d)

namespace Value.Steady

variable {v : Value}

/-- Being steady is a matter of the deferred computations in a value. -/
theorem iff_throughout :
    v.Steady ↔ v.Throughout (fun _ => True) fun d => ∀ n, d.outcome n = d.outcome 0 := by
  constructor
  · intro h
    induction h with
    | null => exact .null
    | bool b => exact .bool b
    | int n => exact .int n
    | float x => exact .float x
    | text s => exact .text s
    | list _ ih => exact .list ih
    | map _ ih => exact .map ih
    | record _ ih => exact .record ih
    | object _ _ ihMembers ihItems => exact .object ihMembers ihItems
    | optional _ ih => exact .optional ih
    | lambda f => exact .lambda trivial
    | deferred same _ ih => exact .deferred same fun n w hw => ih w (same n ▸ hw)
  · intro h
    induction h with
    | null => exact .null
    | bool b => exact .bool b
    | int n => exact .int n
    | float x => exact .float x
    | text s => exact .text s
    | list _ ih => exact .list ih
    | map _ ih => exact .map ih
    | record _ ih => exact .record ih
    | object _ _ ihMembers ihItems => exact .object ihMembers ihItems
    | optional _ ih => exact .optional ih
    | lambda _ => exact .lambda _
    | deferred same _ ih => exact .deferred same (ih 0)

/-- A computation that has one outcome is steady. -/
theorem once {x : Outcome Value} (id : Nat) (hx : ∀ v, x = .value v → v.Steady) :
    Steady (.deferred ⟨id, [x]⟩) := by
  refine .deferred (fun n => ?_) hx
  cases n <;> rfl

end Value.Steady

theorem Handler.standard_keeps_steady : Handler.standard.Keeps Value.Steady := by
  rw [show Value.Steady = _ from funext fun _ => propext Value.Steady.iff_throughout]
  exact Handler.standard_keeps_throughout _ _

theorem Oracle.steady_models : Oracle.steady.Models Value.Steady fun _ _ => True where
  run := by
    intro d runs _ hd _
    cases hd with
    | deferred same value => exact ⟨(same _).symm, value, trivial⟩

/-! ## Whole renders -/

theorem Store.Faithful.schedule {o : Options} {l : Loader} {s : Store} (h : s.Faithful o l)
    (schedule : Option Schedule) : s.Faithful { o with schedule := schedule } l :=
  ⟨h.loader, h.templates, h.indented, h.fragments, h.inclusions, h.parents, h.targets, h.bindings⟩

namespace Template

variable {o : Options} {l : Loader} {store : Store} {n : Nat} {t : Template} {scopes : Scopes}

/-- A render without a schedule writes what the plain render writes, and ends well if that does. -/
theorem renderWithin_plain (hreuse : ∀ name, Lookup.Reusable (o.handler.find name))
    (hkeeps : o.handler.Keeps Value.Steady) (hstore : store.Faithful o l)
    (hscopes : scopes.All Value.Steady) (hschedule : o.schedule = none) (initial : String)
    (hwithin : (renderWithin n o t scopes (.buffer initial) store).handedOn ≠ .error .exhausted) :
    let r := renderWithin n o t scopes (.buffer initial) store
    ∃ text good, ((Plain.within o l .steady n).nodes t.bare.codes scopes .start).Means text good ∧
      r.final.streams.textOf 0 = initial ++ text ∧ (r.result = .ok () ↔ good = true) := by
  have hsim : Simulation o l .steady Value.Steady n 0 fun i x p =>
      (i = true ∨ o.schedule = none) → Inline o l (fun _ _ => True) x p :=
    inline_simulation hreuse hkeeps Oracle.steady_models
  have hran := hsim.nodes (hsim.simulates (Nat.le_refl n)) hscopes .start t.codes (.inr hschedule)
    (.start store ⟨[.buffer initial], []⟩) () 0 (.buffer initial) hstore trivial rfl
  rw [renderWithin_of_none hschedule] at hwithin ⊢
  simp only at hwithin ⊢
  revert hran hwithin
  generalize (Renderer.within o n).nodes t.codes scopes .start (.direct 0)
    (.start store ⟨[.buffer initial], []⟩) = r
  rw [show Code.bareAll t.codes = t.bare.codes from rfl]
  rcases hp : (Plain.within o l .steady n).nodes t.bare.codes scopes .start () with
    ⟨texts, ending, _⟩
  obtain ⟨handedOn, after⟩ := r
  intro hwithin hran
  simp only [Ran, Output.feed_buffer] at hran
  obtain ⟨rfl, hwrote, -⟩ := hran
  have htext : after.streams.textOf 0 = initial ++ .join texts := by
    simp only [Streams.textOf, hwrote.output]
  refine ⟨.join texts, ending.isOk, ⟨?_, ?_, ?_⟩, htext, ?_⟩
  · rw [hp]
  · rw [hp]
    intro heq
    obtain rfl : ending = _ := heq
    exact hwithin rfl
  · rw [hp]
  · cases ending with
    | error e => constructor <;> intro heq <;> cases heq
    | ok _ =>
      simp only [Except.map, Render.finish, Streams.finish, Streams.route_direct,
        Streams.flushOutput, hwrote.output]
      exact ⟨fun _ => rfl, fun _ => rfl⟩

/-- What is due when a render with a schedule has gone through the nodes of the template. -/
theorem due_of_means (hreuse : ∀ name, Lookup.Reusable (o.handler.find name))
    (hkeeps : o.handler.Keeps Value.Steady) (hstore : store.Faithful o l)
    (hscopes : scopes.All Value.Steady) (initial : String) {text : String} {good : Bool}
    (hmeans : ((Plain.within o l .steady n).nodes t.bare.codes scopes .start).Means text good) :
    let (handedOn, after) := (Renderer.within o n).nodes t.codes scopes .start (.direct 0)
      (.start store ⟨[.buffer initial], []⟩)
    World.Due o l Value.Steady n handedOn (initial ++ text) good after := by
  have hsim : Simulation o l .steady Value.Steady n 0 (Follows o l Value.Steady n) :=
    scheduled_simulation hreuse hkeeps Oracle.steady_models
  have hnodes := (hsim.nodes (hsim.simulates (Nat.le_refl n)) hscopes .start t.codes).scheduled rfl
  let w : World := .start store ⟨[.buffer initial], []⟩
  have hclosed : w.streams.Closed := nofun
  have hheld : w.streams.content (.output 0) = some initial := rfl
  obtain ⟨jobs, hput, howes⟩ := hnodes w (.direct 0) hstore hclosed ⟨initial, hheld⟩
  rw [Streams.route_direct] at hput howes
  rcases hran : (Renderer.within o n).nodes t.codes scopes .start (.direct 0) w with
    ⟨handedOn, after⟩
  rw [hran] at hput howes
  obtain rfl : after.queue = jobs := hput.queue
  exact ⟨hput.store, hput.streams.closed, fun out heq => (hput.streams.writer out (.inr heq)).1,
    hput.proper, hput.streams.waiting hheld, howes hheld hmeans⟩

/-- **Schedules do not show.**  Over steady data, a render with a schedule that has done all its
    jobs has written the text that a render without a schedule writes, whether or not it fails, and
    it ends well if and only if that one does. -/
theorem renderWithin_schedule (o : Options) (l : Loader)
    (hreuse : ∀ name, Lookup.Reusable (o.handler.find name))
    (hkeeps : o.handler.Keeps Value.Steady) (schedule : Schedule) {store store' : Store}
    (hstore : store.Faithful o l) (hstore' : store'.Faithful o l) (t : Template) {scopes : Scopes}
    (hscopes : scopes.All Value.Steady) (initial : String) {n m : Nat} (hle : n ≤ m)
    (hwithin : (renderWithin n { o with schedule := none } t scopes (.buffer initial)
      store).handedOn ≠ .error .exhausted)
    (hdone : (renderWithin m { o with schedule := some schedule } t scopes (.buffer initial)
      store').final.queue = []) :
    let inline := renderWithin n { o with schedule := none } t scopes (.buffer initial) store
    let scheduled := renderWithin m { o with schedule := some schedule } t scopes (.buffer initial)
      store'
    scheduled.final.streams.textOf 0 = inline.final.streams.textOf 0 ∧
      (scheduled.result = .ok () ↔ inline.result = .ok ()) := by
  let o₁ : Options := { o with schedule := none }
  let o₂ : Options := { o with schedule := some schedule }
  obtain ⟨text, good, hmeans, htext, hresult⟩ := renderWithin_plain (o := o₁) hreuse hkeeps
    (hstore.schedule none) hscopes rfl initial hwithin
  -- The plain render does not see schedules, and a greater allowance makes no difference to it.
  have hmeans₂ :
      ((Plain.within o₂ l .steady m).nodes t.bare.codes scopes .start).Means text good := by
    rw [Plain.within_engine o l .steady o.cacheLimit (some schedule) m]
    rw [Plain.within_engine o l .steady o.cacheLimit none n] at hmeans
    exact hmeans.of_eq (hmeans.eq_of_upto
      ((Plain.within_upto o l .steady hle).nodes t.bare.codes scopes .start))
  -- What the template means is due after it, and stays due while the jobs are done.
  have hdue := due_of_means (o := o₂) hreuse hkeeps (hstore'.schedule (some schedule)) hscopes
    initial hmeans₂
  intro inline scheduled
  rw [show inline.final.streams.textOf 0 = initial ++ text from htext,
    show (inline.result = .ok ()) = _ from propext hresult]
  simp only [scheduled]
  rw [renderWithin_of_some (o := o₂) rfl] at hdone ⊢
  rcases hran : (Renderer.within o₂ m).nodes t.codes scopes .start (.direct 0)
    (.start store' ⟨[.buffer initial], []⟩) with ⟨handedOn, after⟩
  rw [hran] at hdue hdone
  have hfinal := World.Due.drain (o := o₂) hreuse hkeeps Oracle.steady_models schedule hdue m 0
  obtain ⟨htext₂, hgood⟩ := hfinal.paid hdone
  refine ⟨htext₂, ?_⟩
  rw [← hgood]
  cases handedOn with
  | error cause => exact ⟨nofun, fun ⟨_, hok, _⟩ => nomatch hok⟩
  | ok out => exact ⟨fun hfinish => ⟨out, rfl, hfinish⟩, fun ⟨_, hok, hfinish⟩ => by
      cases hok
      exact hfinish⟩

/-- A section over deferred elements between two deferred values, the last of which fails, with the
    newest job done first. -/
theorem renderWithin_schedule_newest :
    let codes := match Code.parse ⟨"page", 0, []⟩ .standard "<{{a}}{{#b}}{{.}}{{/b}}{{c}}>" with
      | .ok codes => codes
      | .error _ => []
    let t : Template := ⟨"page", "", codes⟩
    let x : Value := .deferred ⟨0, [.value (.text "x")]⟩
    let scopes : Scopes := .ofList [.map [("a", x),
      ("b", .deferred ⟨1, [.value (.list [x, .text "y"])]⟩), ("c", .deferred ⟨2, [.failure ""]⟩)]]
    let inline := renderWithin 9 { Options.standard with schedule := none } t scopes (.buffer "")
      (.new (.memory []))
    let scheduled := renderWithin 9 { Options.standard with schedule := some .newestFirst } t scopes
      (.buffer "") (.new (.memory []))
    scopes.All Value.Steady ∧ inline.handedOn ≠ .error .exhausted ∧ scheduled.final.queue = [] ∧
      scheduled.after.queue.length = 3 ∧ inline.final.streams.textOf 0 = "<xxy" ∧
      scheduled.final.streams.textOf 0 = inline.final.streams.textOf 0 ∧
      (scheduled.result = .ok () ↔ inline.result = .ok ()) := by
  intro codes t x scopes inline scheduled
  have hx : x.Steady := .once 0 fun _ h => by
    cases h
    exact .text "x"
  have hitems : (Value.list [x, .text "y"]).Steady := .list fun v hv => by
    obtain rfl | hv := List.mem_cons.mp hv
    · exact hx
    · exact List.mem_singleton.mp hv ▸ .text "y"
  have hscopes : scopes.All Value.Steady := by
    intro v hv
    obtain rfl := List.mem_singleton.mp hv
    refine .map fun e he => ?_
    simp only [List.mem_cons, List.not_mem_nil, or_false] at he
    obtain rfl | rfl | rfl := he
    · exact hx
    · exact .once 1 fun _ h => by
        cases h
        exact hitems
    · exact .once 2 fun _ h => by cases h
  have hwithin : inline.handedOn ≠ .error .exhausted :=
    ne_exhausted_of_ranOut (by decide +kernel)
  have hdone : scheduled.final.queue = [] := List.isEmpty_iff.mp (by decide +kernel)
  refine ⟨hscopes, hwithin, hdone, by decide +kernel, by decide +kernel, ?_⟩
  exact renderWithin_schedule Options.standard (.memory []) Lookup.reusable_find
    Handler.standard_keeps_steady .newestFirst (Store.faithful_new _ _) (Store.faithful_new _ _) t
    hscopes "" (Nat.le_refl 9) hwithin hdone

end Template

end Mustache
