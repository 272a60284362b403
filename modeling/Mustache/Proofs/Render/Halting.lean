import Mustache.Proofs.Lookup.Tame
import Mustache.Proofs.Render.Uniform
import Mustache.Proofs.Render.Whole

/-! # Renders come to an end

A render without a schedule over tame data comes to an end, whatever the templates include and
extend.  An allowance of nesting is enough if every greater one comes to the same.  That there is
one is shown by three inductions, one inside the other: over how many more inclusions may be
entered, over the tree of a template, and over what deferred computations come to.

* `Render.Ends` — an action comes to the same end with every allowance that is great enough.
* `Renderer.ends_within` — rendering does.
* `Template.ends_renderWithin` — a whole render does.
-/

namespace Mustache

/-- How a render without a schedule ends: with the writer that it was given, or with an error. -/
inductive Render.Ended (out : Nat) : Except Stop Writer → Prop
  | ok : Ended out (.ok (.direct out))
  | error (e : Error) : Ended out (.error (.error e))

/-- What is done at a destination comes to the same end with every allowance that is great
    enough. -/
def Render.Ends (x : Nat → Writer → Render Writer) : Prop :=
  ∀ (w : World) (out : Nat), out < w.streams.outputs.length →
    ∃ (least : Nat) (result : Except Stop Writer) (after : World),
      (∀ n, least ≤ n → x n (.direct out) w = (result, after)) ∧ Render.Ended out result ∧
        w.streams.outputs.length ≤ after.streams.outputs.length

namespace Render.Ends

variable {o : Options} {x y : Nat → Writer → Render Writer}

/-- Ending is about great allowances only. -/
theorem of_succ (h : Ends fun n => x (n + 1)) : Ends x := by
  intro w out hout
  obtain ⟨least, result, after, hran, hended⟩ := h w out hout
  refine ⟨least + 1, result, after, fun n hn => ?_, hended⟩
  obtain ⟨n, rfl⟩ : ∃ k, n = k + 1 := ⟨n - 1, by omega⟩
  exact hran n (by omega)

/-- An action that does the same with every allowance. -/
theorem of_const {x : Writer → Render Writer} (hended : ∀ (w : World) (out : Nat),
      out < w.streams.outputs.length → Ended out (x (.direct out) w).1 ∧
        w.streams.outputs.length ≤ (x (.direct out) w).2.streams.outputs.length) :
    Ends fun _ => x := by
  intro w out hout
  obtain ⟨hended, hle⟩ := hended w out hout
  exact ⟨0, _, _, fun _ _ => rfl, hended, hle⟩

theorem seq (hx : Ends x) (hy : Ends y) : Ends fun n out => x n out >>= y n := by
  intro w out hout
  obtain ⟨least, result, after, hran, hended, hle⟩ := hx w out hout
  cases hended with
  | ok =>
    obtain ⟨least', result', after', hran', hended', hle'⟩ :=
      hy after out (Nat.lt_of_lt_of_le hout hle)
    refine ⟨max least least', result', after', fun n hn => ?_, hended', Nat.le_trans hle hle'⟩
    simp only [bind, hran n (by omega)]
    exact hran' n (by omega)
  | error e =>
    refine ⟨least, .error (.error e), after, fun n hn => ?_, .error e, hle⟩
    simp only [bind, hran n hn]

theorem write (text : String) : Ends (fun _ out => do Render.write text out; return out) := by
  refine of_const fun w out hout => ?_
  simp only [bind, Render.write, Streams.write, Streams.route_direct,
    List.getElem?_eq_getElem hout]
  cases (w.streams.outputs[out].write text).1 with
  | none => exact ⟨.ok, Nat.le_of_eq List.length_set.symm⟩
  | some cause => exact ⟨.error _, Nat.le_of_eq List.length_set.symm⟩

theorem load (z : Store.Action Template) {y : Template → Nat → Writer → Render Writer}
    (hy : ∀ t, Ends (y t)) :
    Ends (fun n out => do let t ← Render.withStore z; y t n out) := by
  intro w out hout
  simp only [bind, Render.withStore]
  cases z w.store with
  | error e => exact ⟨0, _, _, fun _ _ => rfl, .error _, Nat.le_refl _⟩
  | ok loaded => exact hy loaded.1 { w with store := loaded.2 } out hout

/-- What an action that ends writes to a buffer of its own is there in the end, or there is an
    error. -/
theorem run_captured (hx : Ends x) (w : World) :
    ∃ (least : Nat) (result : Except Stop String) (after : World),
      (∀ n, least ≤ n → Render.captured (x n) w = (result, after)) ∧
        (∀ cause, result = .error cause → ∃ e, cause = .error e) ∧
        w.streams.outputs.length ≤ after.streams.outputs.length := by
  let opened : World := { w with streams := (w.streams.openOutput (.buffer "")).2 }
  have hopened : opened.streams.outputs.length = w.streams.outputs.length + 1 :=
    List.length_append
  obtain ⟨least, result, after, hran, hended, hle⟩ :=
    hx opened w.streams.outputs.length (by omega)
  refine ⟨least, (result.bind fun out => Render.ofResult (after.streams.finish out)).map fun _ =>
    after.streams.textOf w.streams.outputs.length, after, fun n hn => ?_, ?_, by omega⟩
  · have hbuffer : x n (.direct (w.streams.openOutput (.buffer "")).1)
      { w with streams := (w.streams.openOutput (.buffer "")).2 } = (result, after) := hran n hn
    have hcaptured := Render.captured_eq (x n) w
    simp only [hbuffer] at hcaptured
    exact hcaptured
  · cases hended with
    | error e =>
      rintro _ ⟨⟩
      exact ⟨e, rfl⟩
    | ok =>
      simp only [Except.bind, Streams.finish, Streams.route_direct, Streams.flushOutput]
      cases (after.streams.outputs[w.streams.outputs.length]?).bind Output.flushRefusal with
      | none => rintro _ ⟨⟩
      | some cause =>
        rintro _ ⟨⟩
        exact ⟨_, rfl⟩

theorem captured {y : String → Nat → Writer → Render Writer} (hx : Ends x)
    (hy : ∀ text, Ends (y text)) :
    Ends (fun n out => do let text ← Render.captured (x n); y text n out) := by
  intro w out hout
  obtain ⟨least, result, after, hran, herror, hle⟩ := hx.run_captured w
  simp only [bind]
  cases result with
  | ok text =>
    obtain ⟨least', result', after', hran', hended', hle'⟩ := hy text after out (by omega)
    refine ⟨max least least', result', after', fun n hn => ?_, hended', by omega⟩
    rw [hran n (by omega)]
    exact hran' n (by omega)
  | error cause =>
    obtain ⟨e, rfl⟩ := herror cause rfl
    refine ⟨least, .error (.error e), after, fun n hn => ?_, .error e, hle⟩
    rw [hran n hn]

theorem run {y : Value → Nat → Writer → Render Writer} {d : Deferred Value} (name : String)
    (hpanic : ∀ n message, d.outcome n ≠ .panic message)
    (hy : ∀ v n, d.outcome n = .value v → Ends (y v)) :
    Ends (fun n out => do let v ← Render.runFor d name; y v n out) := by
  intro w out hout
  simp only [bind, Render.runFor, Render.run]
  cases houtcome : d.outcome ((w.runs.get? d.id).getD 0) with
  | value v => exact hy v _ houtcome _ out hout
  | failure message => exact ⟨0, _, _, fun _ _ => rfl, .error _, Nat.le_refl _⟩
  | panic message => exact absurd houtcome (hpanic _ _)

end Render.Ends

variable {o : Options}

/-- Ending goes through the basic actions. -/
theorem Render.uniform_ends (hschedule : o.schedule = none) (hkeeps : o.handler.Keeps Value.Tame) :
    Uniform Nat o Value.Tame Render.Ends where
  keeps := hkeeps
  unscheduled := hschedule
  text _ h := h.of_lambda
  skip := .of_const fun _ _ _ => ⟨.ok, Nat.le_refl _⟩
  fail e := .of_const fun _ _ _ => ⟨.error e, Nat.le_refl _⟩
  seq := .seq
  write := .write
  load := .load
  lookup {y} n scopes hscopes hy := by
    intro w out hout
    exact hy (w.store.lookup o n scopes).1 (Store.lookup_value hkeeps hscopes n w.store) _ out hout
  captured := .captured
  run {y} d name hd hy := by
    obtain ⟨hpanic, hvalue⟩ := hd.of_deferred
    exact .run name hpanic fun v n hv => hy v n hv (hvalue n v hv)

namespace Renderer

/-- Going on with a value comes to an end, as whatever it comes to is a smaller one. -/
theorem ends_resume (hends : Uniform Nat o Value.Tame Render.Ends)
    (hsees : o.handler.SeesDeferred) (depth : Nat) {k : Awaiting}
    (hk : Uniform.Ready Value.Tame Render.Ends (within o) depth k) {v : Value} (hv : v.Tame) :
    Uniform.Resumes Value.Tame Render.Ends (within o) depth k v := by
  refine hv.chain fun v hv ih scopes cx hscopes hdepth => ?_
  subst hdepth
  exact .of_succ (hends.resumeWith hscopes cx hv hk fun d w n hd hw _ =>
    ih d n w (hsees v d hd) hw)

mutual

/-- A node is rendered to an end, if everything one inclusion deeper is. -/
theorem ends_node (hends : Uniform Nat o Value.Tame Render.Ends)
    (hsees : o.handler.SeesDeferred) {depth : Nat} (hdeeper : depth < o.recursionLimit →
      Uniform.Level Value.Tame Render.Ends (within o) (depth + 1)) :
    ∀ (c : Code) (scopes : Scopes) (cx : Context), scopes.All Value.Tame → cx.depth = depth →
      Render.Ends fun n => (within o n).node c scopes cx
  | c, scopes, cx, hscopes, hdepth => by
    refine .of_succ (hends.nodeWith hscopes cx (hdepth ▸ hdeeper)
      (fun k v hv hk => ends_resume hends hsees cx.depth hk hv) ?_ ?_)
    · rintro ⟨_, _, _, _, _, body⟩ rfl
      exact hdepth ▸ ends_nodes hends hsees hdeeper body
    · rintro ⟨_, _, _, body⟩ rfl
      exact hdepth ▸ ends_nodes hends hsees hdeeper body

theorem ends_nodes (hends : Uniform Nat o Value.Tame Render.Ends)
    (hsees : o.handler.SeesDeferred) {depth : Nat} (hdeeper : depth < o.recursionLimit →
      Uniform.Level Value.Tame Render.Ends (within o) (depth + 1)) :
    ∀ codes : List Code, Uniform.Renders Value.Tame Render.Ends (within o) depth codes
  | [], _, _, _, _ => hends.skip
  | c :: codes, scopes, cx, hscopes, hdepth => by
    change Render.Ends fun n => Render.thread (fun c out => (within o n).node c scopes cx out) _
    simp only [Render.thread_cons]
    exact hends.seq (ends_node hends hsees hdeeper c scopes cx hscopes hdepth)
      (ends_nodes hends hsees hdeeper codes scopes cx hscopes hdepth)

end

/-- Everything comes to an end at every depth, as fewer inclusions may be entered in an
    inclusion. -/
theorem ends_level (hends : Uniform Nat o Value.Tame Render.Ends)
    (hsees : o.handler.SeesDeferred) (left depth : Nat)
    (hle : o.recursionLimit ≤ depth + left) :
    Uniform.Level Value.Tame Render.Ends (within o) depth := by
  induction left generalizing depth with
  | zero =>
    have hrenders := ends_nodes hends hsees fun hlt : depth < o.recursionLimit => by omega
    exact ⟨hrenders, fun k v => ends_resume hends hsees depth (.of_renders hrenders k)⟩
  | succ left ih =>
    have hrenders := ends_nodes hends hsees fun _ => ih (depth + 1) (by omega)
    exact ⟨hrenders, fun k v => ends_resume hends hsees depth (.of_renders hrenders k)⟩

/-- **Rendering ends.** -/
theorem ends_within (hschedule : o.schedule = none) (hkeeps : o.handler.Keeps Value.Tame)
    (hsees : o.handler.SeesDeferred) (codes : List Code) {scopes : Scopes}
    (hscopes : scopes.All Value.Tame) (cx : Context) :
    Render.Ends fun n => (within o n).nodes codes scopes cx :=
  (ends_level (Render.uniform_ends hschedule hkeeps) hsees o.recursionLimit cx.depth
    (by omega)).renders codes scopes cx hscopes rfl

end Renderer

namespace Template

/-- A whole render comes to the same end with every allowance that is great enough: everything has
    been written, or there is an error. -/
theorem ends_renderWithin (hschedule : o.schedule = none) (hkeeps : o.handler.Keeps Value.Tame)
    (hsees : o.handler.SeesDeferred) (t : Template) {scopes : Scopes}
    (hscopes : scopes.All Value.Tame) (destination : Output) (store : Store) :
    ∃ least, ∀ n, least ≤ n →
      renderWithin n o t scopes destination store =
          renderWithin least o t scopes destination store ∧
        ((renderWithin n o t scopes destination store).result = .ok () ∨
          ∃ e, (renderWithin n o t scopes destination store).result = .error (.error e)) := by
  obtain ⟨least, handedOn, after, hran, hended, -⟩ :=
    Renderer.ends_within hschedule hkeeps hsees t.codes hscopes .start
      (.start store ⟨[destination], []⟩) 0 Nat.zero_lt_one
  have heq : ∀ n, least ≤ n → renderWithin n o t scopes destination store =
      ⟨handedOn, after, [], handedOn.bind fun out => (Render.finish out after).1⟩ := by
    intro n hn
    have hrun : (Renderer.within o n).nodes t.codes scopes .start (.direct 0)
      (.start store ⟨[destination], []⟩) = (handedOn, after) := hran n hn
    rw [renderWithin_of_none hschedule, hrun]
    cases handedOn <;> rfl
  refine ⟨least, fun n hn => ⟨(heq n hn).trans (heq least (Nat.le_refl _)).symm, ?_⟩⟩
  rw [heq n hn]
  cases hended with
  | error e => exact .inr ⟨e, rfl⟩
  | ok =>
    simp only [Except.bind, Render.finish, Streams.finish, Streams.route_direct,
      Streams.flushOutput]
    cases (after.streams.outputs[0]?).bind Output.flushRefusal with
    | none => exact .inl rfl
    | some cause => exact .inr ⟨_, rfl⟩

end Template

end Mustache
