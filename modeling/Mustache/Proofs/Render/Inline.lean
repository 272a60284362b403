import Mustache.Proofs.Render.Simulation

/-! # Rendering where nothing is put off

Where deferred computations run where they are met, a render writes exactly the texts of the plain
render to its destination, up to the first one that is refused, and ends as the plain render does,
or with the refusal.  It touches no other destination, no latch and no job.

* `Output.feed` — texts given to a destination one after another.
* `World.Wrote` — one destination has changed, and the store has stayed faithful.
* `Inline` — an action does what a plain action does.
* `inline_simulation` — rendering does what plain rendering does.
-/

namespace Mustache

/-! ## Destinations -/

/-- Gives texts to a destination, one after another, up to the first one that is refused. -/
def Output.feed : List String → Output → Option String × Output
  | [], dest => (none, dest)
  | text :: texts, dest =>
    match dest.write text with
    | (none, dest) => feed texts dest
    | (some cause, dest) => (some cause, dest)

theorem Output.feed_append (texts more : List String) (dest : Output) :
    dest.feed (texts ++ more) =
      match dest.feed texts with
      | (none, dest) => dest.feed more
      | (some cause, dest) => (some cause, dest) := by
  induction texts generalizing dest with
  | nil => rfl
  | cons text texts ih =>
    rw [List.cons_append, Output.feed, Output.feed]
    obtain ⟨_ | cause, dest⟩ := dest.write text
    · exact ih dest
    · rfl

theorem Output.feed_buffer (texts : List String) (text : String) :
    Output.feed texts (.buffer text) = (none, .buffer (text ++ .join texts)) := by
  induction texts generalizing text with
  | nil => simp [Output.feed]
  | cons t texts ih => simp [Output.feed, Output.write, ih, String.append_assoc]

theorem Streams.route_direct (s : Streams) (k : Nat) : s.route (.direct k) = .output k := by
  unfold Streams.route
  cases s.latches.length <;> rfl

theorem Streams.write_direct {s : Streams} {k : Nat} {dest : Output}
    (hdest : s.outputs[k]? = some dest) (text : String) :
    s.write text (.direct k) =
      (match (dest.write text).1 with
        | some cause => .error (refusal cause)
        | none => .ok,
        { s with outputs := s.outputs.set k (dest.write text).2 }) := by
  cases hwrite : dest.write text with
  | mk cause dest => cases cause <;> simp only [Streams.write, route_direct, hdest, hwrite]

/-! ## Worlds -/

/-- One destination has become `dest`, the store has stayed faithful, and nothing else that a render
    can see has changed. -/
structure World.Wrote (o : Options) (l : Loader) (k : Nat) (dest : Output) (w w' : World) :
    Prop where
  store : w'.store.Faithful o l
  output : w'.streams.outputs[k]? = some dest
  others : ∀ j, j ≠ k → j < w.streams.outputs.length →
    w'.streams.outputs[j]? = w.streams.outputs[j]?
  grows : w.streams.outputs.length ≤ w'.streams.outputs.length
  latches : w'.streams.latches = w.streams.latches
  queue : w'.queue = w.queue
  submitted : w'.submitted = w.submitted

variable {o : Options} {l : Loader} {k : Nat} {dest dest' : Output} {w w' w'' : World}

theorem World.Wrote.refl (hstore : w.store.Faithful o l)
    (hdest : w.streams.outputs[k]? = some dest) : World.Wrote o l k dest w w :=
  ⟨hstore, hdest, fun _ _ _ => rfl, Nat.le_refl _, rfl, rfl, rfl⟩

theorem World.Wrote.trans (h : World.Wrote o l k dest w w') (h' : World.Wrote o l k dest' w' w'') :
    World.Wrote o l k dest' w w'' where
  store := h'.store
  output := h'.output
  others j hj hlt := (h'.others j hj (Nat.lt_of_lt_of_le hlt h.grows)).trans (h.others j hj hlt)
  grows := Nat.le_trans h.grows h'.grows
  latches := h'.latches.trans h.latches
  queue := h'.queue.trans h.queue
  submitted := h'.submitted.trans h.submitted

/-- Destinations may have been opened, and the store has stayed faithful; nothing else that a render
    can see has changed. -/
structure World.Kept (o : Options) (l : Loader) (w w' : World) : Prop where
  store : w'.store.Faithful o l
  outputs : ∀ j, j < w.streams.outputs.length →
    w'.streams.outputs[j]? = w.streams.outputs[j]?
  grows : w.streams.outputs.length ≤ w'.streams.outputs.length
  latches : w'.streams.latches = w.streams.latches
  queue : w'.queue = w.queue
  submitted : w'.submitted = w.submitted

theorem World.Kept.wrote (h : World.Kept o l w w') (hdest : w.streams.outputs[k]? = some dest) :
    World.Wrote o l k dest w w' :=
  ⟨h.store, (h.outputs k (List.getElem?_eq_some_iff.mp hdest).1).trans hdest,
    fun j _ hj => h.outputs j hj, h.grows, h.latches, h.queue, h.submitted⟩

/-- What the store and the runs were does not show. -/
theorem World.Wrote.of_eq (h : World.Wrote o l k dest w' w'') (hstreams : w'.streams = w.streams)
    (hqueue : w'.queue = w.queue) (hsubmitted : w'.submitted = w.submitted) :
    World.Wrote o l k dest w w'' :=
  ⟨h.store, h.output, hstreams ▸ h.others, hstreams ▸ h.grows, hstreams ▸ h.latches,
    hqueue ▸ h.queue, hsubmitted ▸ h.submitted⟩

/-! ## Actions -/

section

variable {σ : Type} (o : Options) (l : Loader) (agrees : Table Nat Nat → σ → Prop)

/-- A run of an action at a destination did what a plain action does: it wrote the texts there and
    ended in the same way, or stopped when a text was refused. -/
def Ran (k : Nat) (dest : Output) (w : World) (texts : List String) (ending : Except Stop Unit)
    (s : σ) (r : Except Stop Writer × World) : Prop :=
  match dest.feed texts with
  | (none, dest') =>
    r.1 = ending.map (fun _ => .direct k) ∧ World.Wrote o l k dest' w r.2 ∧ agrees r.2.runs s
  | (some cause, dest') =>
    r.1 = .error (.error (Streams.refusal cause)) ∧ World.Wrote o l k dest' w r.2

/-- An action that takes a writer does at every destination what a plain action does. -/
def Inline (x : Writer → Render Writer) (p : Plain σ Unit) : Prop :=
  ∀ (w : World) (s : σ) (k : Nat) (dest : Output), w.store.Faithful o l → agrees w.runs s →
    w.streams.outputs[k]? = some dest →
    Ran o l agrees k dest w (p s).1 (p s).2.1 (p s).2.2 (x (.direct k) w)

end

theorem Ran.of_eq {σ : Type} {agrees : Table Nat Nat → σ → Prop} {texts : List String}
    {ending : Except Stop Unit} {s : σ} {r : Except Stop Writer × World}
    (h : Ran o l agrees k dest w' texts ending s r) (hstreams : w'.streams = w.streams)
    (hqueue : w'.queue = w.queue) (hsubmitted : w'.submitted = w.submitted) :
    Ran o l agrees k dest w texts ending s r := by
  unfold Ran at h ⊢
  split at h
  · exact ⟨h.1, h.2.1.of_eq hstreams hqueue hsubmitted, h.2.2⟩
  · exact ⟨h.1, h.2.of_eq hstreams hqueue hsubmitted⟩

theorem Ran.trans {σ : Type} {agrees : Table Nat Nat → σ → Prop} {texts : List String}
    {ending : Except Stop Unit} {s : σ} {r : Except Stop Writer × World}
    (h : Ran o l agrees k dest w' texts ending s r) (hwrote : World.Wrote o l k dest w w') :
    Ran o l agrees k dest w texts ending s r := by
  unfold Ran at h ⊢
  split at h
  · exact ⟨h.1, hwrote.trans h.2.1, h.2.2⟩
  · exact ⟨h.1, hwrote.trans h.2⟩

/-- An oracle tells what the computations among some values come to, while its state agrees with
    the runs that are counted. -/
structure Oracle.Models {σ : Type} (q : Oracle σ) (V : Value → Prop)
    (agrees : Table Nat Nat → σ → Prop) : Prop where
  run : ∀ {d runs s}, V (.deferred d) → agrees runs s →
    (q.run d s).1 = d.outcome ((runs.get? d.id).getD 0) ∧
    (∀ v, (q.run d s).1 = .value v → V v) ∧
    agrees (runs.insert d.id ((runs.get? d.id).getD 0 + 1)) (q.run d s).2

/-- A world in which a deferred computation has run once more. -/
def World.counted (w : World) (d : Deferred Value) : World :=
  { w with runs := w.runs.insert d.id ((w.runs.get? d.id).getD 0 + 1) }

theorem Oracle.Models.runFor {σ : Type} {q : Oracle σ} {V : Value → Prop}
    {agrees : Table Nat Nat → σ → Prop} (hq : q.Models V agrees) {d : Deferred Value} {s : σ}
    (hd : V (.deferred d)) (name : String) (hruns : agrees w.runs s) :
    Render.runFor d name w = ((Plain.runFor q d name s).2.1, w.counted d) ∧
      (∀ v, (Plain.runFor q d name s).2.1 = .ok v → V v) ∧
      agrees (w.counted d).runs (Plain.runFor q d name s).2.2 ∧
      (Plain.runFor q d name s).1 = [] := by
  obtain ⟨houtcome, hvalue, hruns'⟩ := hq.run hd hruns
  simp only [Render.runFor, bind, Render.run, Plain.runFor]
  rw [← houtcome]
  rcases hrun : q.run d s with ⟨outcome, s'⟩
  rw [hrun] at hvalue hruns'
  cases outcome with
  | value v => exact ⟨rfl, fun _ heq => Except.ok.inj heq ▸ hvalue v rfl, hruns', rfl⟩
  | failure message =>
    refine ⟨rfl, fun _ heq => ?_, hruns', rfl⟩
    cases heq
  | panic message =>
    refine ⟨rfl, fun _ heq => ?_, hruns', rfl⟩
    cases heq

namespace Inline

variable {σ : Type} {agrees : Table Nat Nat → σ → Prop} {x y : Writer → Render Writer}
  {p q : Plain σ Unit}

theorem skip : Inline o l agrees (fun out => pure out) (pure () : Plain σ Unit) :=
  fun _ _ _ _ hstore hruns hdest => ⟨rfl, .refl hstore hdest, hruns⟩

theorem stop (e : Stop) : Inline o l agrees (fun _ => Render.stop e) (Plain.stop e : Plain σ Unit) :=
  fun _ _ _ _ hstore hruns hdest => ⟨rfl, .refl hstore hdest, hruns⟩

theorem seq (hx : Inline o l agrees x p) (hy : Inline o l agrees y q) :
    Inline o l agrees (fun out => x out >>= y) (p >>= fun _ => q) := by
  intro w s k dest hstore hruns hdest
  have hran := hx w s k dest hstore hruns hdest
  rcases hp : p s with ⟨texts, r, s'⟩
  rcases hxw : x (.direct k) w with ⟨rx, w'⟩
  rcases hfeed : dest.feed texts with ⟨_ | cause, dest'⟩
  · -- The first action wrote all its texts, so the second one goes on, unless the first one failed.
    simp only [Ran, hp, hxw, hfeed] at hran
    obtain ⟨rfl, hwrote, hruns'⟩ := hran
    cases r with
    | error e =>
      simp only [Ran, bind, hp, hxw, hfeed]
      exact ⟨rfl, hwrote, hruns'⟩
    | ok _ =>
      have hran' := hy w' s' k dest' hwrote.store hruns' hwrote.output
      rcases hq : q s' with ⟨more, r', s''⟩
      simp only [Ran, hq] at hran'
      simp only [Ran, bind, hp, hq, hxw, Except.map, Output.feed_append, hfeed]
      rcases hfeed' : dest'.feed more with ⟨_ | cause, dest''⟩
      · rw [hfeed'] at hran'
        exact ⟨hran'.1, hwrote.trans hran'.2.1, hran'.2.2⟩
      · rw [hfeed'] at hran'
        exact ⟨hran'.1, hwrote.trans hran'.2⟩
  · simp only [Ran, hp, hxw, hfeed] at hran
    obtain ⟨rfl, hwrote⟩ := hran
    cases r with
    | error e =>
      simp only [Ran, bind, hp, hxw, hfeed]
      exact ⟨trivial, hwrote⟩
    | ok _ =>
      simp only [Ran, bind, hp, hxw, Output.feed_append, hfeed]
      exact ⟨trivial, hwrote⟩

theorem write (text : String) :
    Inline o l agrees (fun out => do Render.write text out; return out)
      (Plain.write text : Plain σ Unit) := by
  intro w s k dest hstore hruns hdest
  have hlt : k < w.streams.outputs.length := (List.getElem?_eq_some_iff.mp hdest).1
  have hwrote : World.Wrote o l k (dest.write text).2 w
      { w with streams := { w.streams with
          outputs := w.streams.outputs.set k (dest.write text).2 } } := by
    refine ⟨hstore, ?_, fun j hj _ => ?_, ?_, rfl, rfl, rfl⟩
    · simp [hlt]
    · simp [List.getElem?_set_ne hj.symm]
    · simp
  simp only [Ran, bind, pure, Render.write, Streams.write_direct hdest, Plain.write, Output.feed]
  rcases htext : dest.write text with ⟨_ | cause, dest'⟩
  · rw [htext] at hwrote
    exact ⟨rfl, hwrote, hruns⟩
  · rw [htext] at hwrote
    exact ⟨rfl, hwrote⟩

theorem load {z : Store.Action Template} {r : Except Error Template}
    {y : Template → Writer → Render Writer} {p : Template → Plain σ Unit}
    (hz : Store.Answers o l z r) (hy : ∀ t, Inline o l agrees (y t) (p t.bare)) :
    Inline o l agrees (fun out => do let t ← Render.withStore z; y t out)
      (do let t ← Plain.ofExcept r; p t) := by
  intro w s k dest hstore hruns hdest
  obtain ⟨t, store, hok, rfl, hstore'⟩ | ⟨e, herror, rfl⟩ := hz w.store hstore
  · have hran := hy t { w with store } s k dest hstore' hruns hdest
    rw [Plain.ok_bind]
    simp only [bind, Render.withStore, hok]
    exact hran.of_eq rfl rfl rfl
  · simp only [Ran, bind, Render.withStore, herror]
    exact ⟨rfl, .refl hstore hdest, hruns⟩

theorem lookup (hreuse : ∀ name, Lookup.Reusable (o.handler.find name)) (n : Node)
    (scopes : Scopes) {y : Lookup.Hit → Writer → Render Writer}
    (hy : Inline o l agrees (y (Plain.hit o n.name scopes)) p) :
    Inline o l agrees (fun out => do let hit ← Render.lookup o n scopes; y hit out) p := by
  intro w s k dest hstore hruns hdest
  obtain ⟨hhit, hstore'⟩ := Store.lookup_eq hreuse hstore n scopes
  have hran := hy { w with store := (w.store.lookup o n scopes).2 } s k dest hstore' hruns hdest
  simp only [bind, Render.lookup, hhit]
  exact hran.of_eq rfl rfl rfl

/-- Texts that are captured are written to a destination of their own, and leave the others alone. -/
theorem run_captured (hx : Inline o l agrees x p) {w : World} {s : σ}
    (hstore : w.store.Faithful o l) (hruns : agrees w.runs s) :
    (Render.captured x w).1 = (Plain.captured p s).2.1 ∧
      World.Kept o l w (Render.captured x w).2 ∧
      agrees (Render.captured x w).2.runs (Plain.captured p s).2.2 := by
  -- The buffer comes after all the destinations there are.
  let n := w.streams.outputs.length
  let w₁ : World := { w with streams := { w.streams with
    outputs := w.streams.outputs ++ [.buffer ""] } }
  have hbuffer : w₁.streams.outputs[n]? = some (.buffer "") := by simp [w₁, n]
  have hran := hx w₁ s n (.buffer "") hstore hruns hbuffer
  rcases hp : p s with ⟨texts, r, s'⟩
  rcases hxw : x (.direct n) w₁ with ⟨rx, w₂⟩
  simp only [Ran, hp, hxw, Output.feed_buffer, String.empty_append] at hran
  obtain ⟨rfl, hwrote, hruns'⟩ := hran
  have hkept : World.Kept o l w w₂ := by
    refine ⟨hwrote.store, fun j hj => ?_, Nat.le_trans (by simp [w₁]) hwrote.grows,
      hwrote.latches, hwrote.queue, hwrote.submitted⟩
    rw [hwrote.others j (Nat.ne_of_lt hj) (by simp [w₁]; omega)]
    exact List.getElem?_append_left hj
  have hnew : Render.newBuffer w = (.ok n, w₁) := rfl
  cases r with
  | error e =>
    simp only [Render.captured, bind, hnew, hxw, Except.map, Plain.captured, hp]
    exact ⟨trivial, hkept, hruns'⟩
  | ok _ =>
    have hfinish : Render.finish (.direct n) w₂ = (.ok (), w₂) := by
      simp only [Render.finish, Streams.finish, Streams.route_direct, Streams.flushOutput,
        hwrote.output]
      rfl
    have htext : Render.textOf n w₂ = (.ok (.join texts), w₂) := by
      simp only [Render.textOf, Streams.textOf, hwrote.output]
    simp only [Render.captured, bind, hnew, hxw, Except.map, hfinish, htext, Plain.captured, hp]
    exact ⟨trivial, hkept, hruns'⟩

theorem captured {y : String → Writer → Render Writer} {p' : String → Plain σ Unit}
    (hx : Inline o l agrees x p) (hy : ∀ text, Inline o l agrees (y text) (p' text)) :
    Inline o l agrees (fun out => do let text ← Render.captured x; y text out)
      (do let text ← Plain.captured p; p' text) := by
  intro w s k dest hstore hruns hdest
  obtain ⟨hresult, hkept, hruns'⟩ := hx.run_captured hstore hruns
  have hwrote := hkept.wrote hdest
  have hwritten := Plain.fst_captured p s
  rcases hp : Plain.captured p s with ⟨texts, r, s'⟩
  rcases hxw : Render.captured x w with ⟨rx, w'⟩
  rw [hp] at hresult hruns' hwritten
  rw [hxw] at hresult hruns' hwrote
  obtain rfl : rx = r := hresult
  obtain rfl : texts = [] := hwritten
  cases rx with
  | error e =>
    simp only [bind, hp, hxw]
    exact ⟨rfl, hwrote, hruns'⟩
  | ok text =>
    have hran := hy text w' s' k dest hwrote.store hruns' hwrote.output
    simp only [bind, hp, hxw, List.nil_append]
    exact hran.trans hwrote

/-- A deferred computation that runs where it is met. -/
theorem await {q : Oracle σ} {V : Value → Prop} (hq : q.Models V agrees) {n : Nat}
    {d : Deferred Value} (name : String) (k : Awaiting) (scopes : Scopes) {cx : Context}
    (hschedule : cx.schedule? o = none) (hd : V (.deferred d))
    (hresume : ∀ v, V v → Inline o l agrees (Renderer.resumeWithin o n k v scopes cx)
      (Plain.resumeWithin o l q n k.bare v scopes cx)) :
    Inline o l agrees ((Renderer.within o n).defer o d name k scopes cx)
      ((Plain.within o l q n).await q d name k.bare scopes cx) := by
  intro w s k' dest hstore hruns hdest
  obtain ⟨hrunFor, hvalue, hruns', hwritten⟩ := hq.runFor hd name hruns
  have hwrote : World.Wrote o l k' dest w (w.counted d) :=
    ⟨hstore, hdest, fun _ _ _ => rfl, Nat.le_refl _, rfl, rfl, rfl⟩
  have hdefer : (Renderer.within o n).defer o d name k scopes cx (.direct k') w =
      (Render.runFor d name >>= fun v => Renderer.resumeWithin o n k v scopes cx (.direct k')) w := by
    simp only [Renderer.defer, hschedule]
    rfl
  rw [hdefer]
  rcases hrun : Plain.runFor q d name s with ⟨texts, result, s'⟩
  rw [hrun] at hrunFor hvalue hruns' hwritten
  obtain rfl : texts = [] := hwritten
  simp only [bind, hrunFor, Plain.Renderer.await, hrun]
  cases result with
  | ok v =>
    have hran := hresume v (hvalue v rfl) (w.counted d) s' k' dest hstore hruns' hdest
    exact hran.trans hwrote
  | error cause => exact ⟨rfl, hwrote, hruns'⟩

end Inline

/-! ## Rendering -/

/-- Where deferred computations run where they are met, rendering does what plain rendering does. -/
theorem inline_simulation {σ : Type} {agrees : Table Nat Nat → σ → Prop} {q : Oracle σ}
    {V : Value → Prop} {top : Nat} (hreuse : ∀ name, Lookup.Reusable (o.handler.find name))
    (hkeeps : o.handler.Keeps V) (hq : q.Models V agrees) :
    Simulation o l q V top 0 fun i x p =>
      (i = true ∨ o.schedule = none) → Inline o l agrees x p where
  keeps := hkeeps
  skip _ _ := .skip
  stop _ e _ := .stop e
  seq hx hy hi := .seq (hx hi) (hy hi)
  write _ text _ := .write text
  load hz hy hi := .load hz fun t => hy t hi
  lookup n scopes hy hi := .lookup hreuse n scopes (hy hi)
  captured hx hy hi := .captured (hx (.inl rfl)) fun text => hy text hi
  awaiting n _ d name k scopes cx hd _ hresume hi := by
    have hschedule : cx.schedule? o = none := by
      unfold Context.schedule?
      obtain hi | hi := hi
      · rw [hi]; rfl
      · rw [hi]; split <;> rfl
    exact .await hq name k scopes hschedule hd fun v hv => hresume v hv hi

/-- Counting oracles count what renders count. -/
theorem Oracle.counting_models : Oracle.counting.Models (fun _ => True) Eq where
  run := by
    rintro d runs _ _ rfl
    exact ⟨rfl, fun _ _ => trivial, rfl⟩

theorem Handler.keeps_true (h : Handler) : h.Keeps fun _ => True :=
  ⟨trivial, fun _ => trivial, fun _ _ _ => trivial, fun _ => trivial, fun _ _ => trivial⟩

end Mustache
