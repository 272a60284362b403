import Mustache.Proofs.Render.Calm
import Mustache.Proofs.Render.Enough
import Mustache.Proofs.Render.Together

/-! # Destinations that refuse a text

A render over a destination that refuses a text, against the same render over one that takes all.
The two go together until that text, and then the destination is left alone.  The refusal comes to
light in the end: the render fails, or waiting at the writer that it has handed on does.

* `Template.abreast` — two renders over different destinations.
* `Template.Completes.fails` — a render that has lost the way to its destination fails.
* `Sink.abreast` — a sink that refuses one call, beside one that takes all.
-/

namespace Mustache

open Streams (Orderly AllLead handed refusal)

variable {o : Options} {link split : Output → Output → Prop} {cause : String} {n : Nat}
  {t : Template} {scopes : Scopes} {dest dest' : Output} {store : Store} {w : World}
  {outs : List Writer}

namespace Template

/-! ## Where the writers of a render lead -/

/-- All writers in use lead to the destination of the render or to none. -/
theorem toward :
    let r := renderWithin n o t scopes dest store
    r.final.streams.AllLead (fun e => ∀ k, e = .output k → k = 0)
      (r.final.queue.map Job.writer ++ handed r.handedOn) := by
  intro r
  have hnone {e : Streams.End} (he : ∀ k, e ≠ .output k) : ∀ k, e = .output k → k = 0 :=
    fun k heq => absurd heq (he k)
  refine induct (P := fun w => w.streams.AllLead (fun e => ∀ k, e = .output k → k = 0)
    (w.queue.map Job.writer ++ handed r.handedOn)) ?_ ?_
  · obtain ⟨jobs, hjobs⟩ := Renderer.tidy_within o n t.codes scopes .start
      (.start store ⟨[dest], []⟩) (.direct 0) (orderly_start dest)
    have hqueue : r.after.queue = jobs := hjobs.queue
    rw [hqueue]
    refine Streams.Lays.allLead hnone hjobs.lays fun k heq => ?_
    rw [Streams.route_direct] at heq
    exact (Streams.End.output.inj heq).symm
  · intro w v job horderly hperm _ hstreams hall
    rw [← hstreams] at hall
    have hwriters := (hperm.map Job.writer).append_right (handed r.handedOn)
    obtain ⟨jobs, hjobs⟩ := Renderer.tidy_work o n job v job.writer
      (horderly.of_out (horderly.has _ List.mem_cons_self))
    have hqueue := hjobs.queue
    obtain ⟨-, hafter⟩ := hjobs.lays.allLead_perform hnone horderly
      fun writer hwriter => hall writer (hwriters.mem_iff.mpr hwriter)
    rw [Renderer.perform_eq]
    simp only [hqueue]
    exact hafter

/-! ## Over two destinations -/

/-- A render whose parts come to what those of another one come to has come to its end, too. -/
theorem Completes.congr (h : Completes n o t scopes dest store)
    (hhanded : (renderWithin n o t scopes dest' store).handedOn =
      (renderWithin n o t scopes dest store).handedOn)
    (hturns : (Template.turns n o t scopes dest' store).map
        (fun turn => ((Renderer.within o n).perform turn.1 turn.2).1) =
      (Template.turns n o t scopes dest store).map
        fun turn => ((Renderer.within o n).perform turn.1 turn.2).1)
    (hqueue : (renderWithin n o t scopes dest' store).final.queue =
      (renderWithin n o t scopes dest store).final.queue) :
    Completes n o t scopes dest' store := by
  refine ⟨hhanded ▸ h.nodes, fun turn hturn heq => ?_, hqueue.trans h.queue⟩
  have hmem := List.mem_map_of_mem (f := fun turn : Job × World =>
    ((Renderer.within o n).perform turn.1 turn.2).1) hturn
  rw [hturns] at hmem
  obtain ⟨turn₀, hturn₀, hsame⟩ := List.mem_map.mp hmem
  exact h.turns turn₀ hturn₀ (hsame.trans heq)

/-- Two renders that have gone together before their jobs go together to the end, or part. -/
theorem linked_final (habreast : Output.Abreast link split cause) :
    let r := renderWithin n o t scopes dest store
    let r' := renderWithin n o t scopes dest' store
    let verdict (turn : Job × World) := ((Renderer.within o n).perform turn.1 turn.2).1
    r.after.Linked link r'.after →
      r.final.Linked link r'.final ∧
          (turns n o t scopes dest' store).map verdict =
            (turns n o t scopes dest store).map verdict ∨
        o.schedule ≠ none ∧ Streams.Split split r.final.streams r'.final.streams ∧
          r'.final.streams.Clear (r'.final.queue.map Job.writer ++ handed r.handedOn) := by
  intro r r' verdict hlinked
  cases hschedule : o.schedule with
  | none =>
    rw [show r.final = _ from final_of_none hschedule,
      show r'.final = _ from final_of_none hschedule]
    exact .inl ⟨hlinked, by simp only [turns, hschedule]⟩
  | some schedule =>
    rw [show r.final = _ from final_of_some hschedule,
      show r'.final = _ from final_of_some hschedule, turns_of_some hschedule,
      turns_of_some hschedule]
    exact (hlinked.drain habreast orderly_after schedule n 0).imp_right
      fun hparted => ⟨by rintro ⟨⟩, hparted⟩

/-- Two renders that have parted before their jobs stay apart. -/
theorem split_final (habreast : Output.Abreast link split cause) :
    let r := renderWithin n o t scopes dest store
    let r' := renderWithin n o t scopes dest' store
    let writers (w : World) := w.queue.map Job.writer ++ handed r'.handedOn
    Streams.Split split r.after.streams r'.after.streams →
      r'.after.streams.Clear (writers r'.after) →
      Streams.Split split r.final.streams r'.final.streams ∧
        r'.final.streams.Clear (writers r'.final) := by
  intro r r' writers hsplit hclear
  cases hschedule : o.schedule with
  | none =>
    rw [show r.final = _ from final_of_none hschedule,
      show r'.final = _ from final_of_none hschedule]
    exact ⟨hsplit, hclear⟩
  | some schedule =>
    rw [show r.final = _ from final_of_some hschedule,
      show r'.final = _ from final_of_some hschedule]
    exact World.right_drain orderly_after hclear (World.left_drain habreast orderly_after hsplit)

/-- **Two renders go together** until the second destination refuses a text, if it does.  Afterwards
    the writer that the second render has handed on does not lead there; where nothing is put off,
    the second render has ended with the refusal. -/
theorem abreast (habreast : Output.Abreast link split cause) (hlink : link dest dest') (n : Nat)
    (o : Options) (t : Template) (scopes : Scopes) (store : Store) :
    let r := renderWithin n o t scopes dest store
    let r' := renderWithin n o t scopes dest' store
    r'.handedOn = r.handedOn ∧ r'.result = r.result ∧ r.final.Linked link r'.final ∧
        (Completes n o t scopes dest store → Completes n o t scopes dest' store) ∨
      Streams.Split split r.final.streams r'.final.streams ∧
        r'.final.streams.Clear (r'.final.queue.map Job.writer ++ handed r'.handedOn) ∧
        (o.schedule = none → r'.handedOn = .error (.error (refusal cause))) := by
  intro r r'
  have hstart : World.Linked link (.start store ⟨[dest], []⟩) (.start store ⟨[dest'], []⟩) := by
    refine ⟨⟨rfl, rfl, fun k hk => ?_, dest, dest', rfl, rfl, hlink⟩, rfl, rfl, rfl, rfl⟩
    cases k with
    | zero => exact absurd rfl hk
    | succ k => rfl
  have hran := Renderer.together_within habreast o n t.codes scopes .start _ _ (.direct 0) hstart
    (orderly_start dest)
  change World.Alongside link split cause _ _ _ _ (r.handedOn, r.after)
    (r'.handedOn, r'.after) at hran
  obtain ⟨hhanded, hlinked⟩ | ⟨-, ⟨hsplit, jobs, hqueue, hclear⟩, hrefused⟩ := hran
  · have hhanded : r'.handedOn = r.handedOn := hhanded
    obtain ⟨hfinal, hturns⟩ | ⟨hschedule, hsplit, hclear⟩ := linked_final habreast hlinked
    · replace hfinal : r.final.Linked link r'.final := hfinal
      refine .inl ⟨hhanded, ?_, hfinal, fun h => h.congr hhanded hturns hfinal.queue⟩
      rw [show r'.result = _ from result_renderWithin, show r.result = _ from result_renderWithin]
      change r'.handedOn.bind (fun out => (Render.finish out r'.final).1) =
        r.handedOn.bind fun out => (Render.finish out r.final).1
      simp only [hhanded, Render.finish, hfinal.streams.finish_eq habreast]
    · exact .inr ⟨hsplit, by rwa [hhanded], fun hnone => absurd hnone hschedule⟩
  · have hqueue' : r'.after.queue = jobs := hqueue
    rw [← hqueue'] at hclear
    obtain ⟨hsplit, hclear⟩ := split_final habreast hsplit hclear
    exact .inr ⟨hsplit, hclear, fun hschedule => hrefused (.inr hschedule)⟩

/-- A render that has lost the way to its destination fails. -/
theorem Completes.fails (h : Completes n o t scopes dest store)
    (hpanic : ∀ message, (renderWithin n o t scopes dest store).handedOn ≠ .error (.panic message))
    (hclear : (renderWithin n o t scopes dest store).final.streams.Clear
      (handed (renderWithin n o t scopes dest store).handedOn)) :
    ∃ e, (renderWithin n o t scopes dest store).result = .error (.error e) := by
  let r := renderWithin n o t scopes dest store
  obtain ⟨hblocked, -, -⟩ : r.handedOn ≠ .error .blocked ∧ _ := h.attended
  have hnodes : r.handedOn ≠ .error .exhausted := h.nodes
  have hqueue : r.final.queue = [] := h.queue
  have hattended : r.final.Attended (handed r.handedOn) := h.attended_final
  have htoward : r.final.streams.AllLead (fun e => ∀ k, e = .output k → k = 0)
      (r.final.queue.map Job.writer ++ handed r.handedOn) := toward
  replace htoward := (Streams.allLead_append.mp htoward).2
  change ∀ message, r.handedOn ≠ _ at hpanic
  change r.final.streams.Clear (handed r.handedOn) at hclear
  have hresult : r.result =
      r.handedOn.bind fun out => (Render.finish out r.final).1 := result_renderWithin
  rw [hresult]
  cases hhanded : r.handedOn with
  | error stop =>
    rw [hhanded] at hpanic hblocked hnodes
    cases stop with
    | error e => exact ⟨e, rfl⟩
    | panic message => exact absurd rfl (hpanic message)
    | blocked => exact absurd rfl hblocked
    | exhausted => exact absurd rfl hnodes
  | ok out =>
    rw [hhanded] at hclear htoward hattended
    have hfinish := hattended.finish hqueue
    have hmem := List.mem_singleton_self out
    simp only [Except.bind, Render.finish, Streams.finish] at hfinish ⊢
    cases hroute : r.final.streams.route out with
    | output k =>
      obtain rfl := htoward out hmem k hroute
      exact absurd hroute (hclear out hmem)
    | pending m =>
      rw [hroute] at hfinish
      exact absurd rfl hfinish
    | failed e => exact ⟨e, rfl⟩
    | nowhere =>
      rw [hroute] at hfinish
      exact absurd rfl hfinish

end Template

/-! ## Sinks -/

namespace Sink

/-- A sink that has been called so often as it has taken a text. -/
def having (s : Sink) (taken : List String) : Sink :=
  { s with calls := taken.length, taken }

/-- A sink that takes all, and one that has not yet come to the call that it refuses. -/
def Before (k : Nat) (cause : String) (dest dest' : Output) : Prop :=
  ∃ taken, taken.length ≤ k ∧ dest = .sink (accepting.having taken) ∧
    dest' = .sink ((refusing k cause).having taken)

/-- A sink that takes all, and one that has refused a call and has not been called since. -/
def After (k : Nat) (cause : String) (dest dest' : Output) : Prop :=
  ∃ taken more, taken.length = k ∧ more ≠ [] ∧ dest = .sink (accepting.having (more ++ taken)) ∧
    dest' = .sink { (refusing k cause).having taken with calls := k + 1 }

theorem write_accepting (taken : List String) (text : String) :
    (accepting.having taken).write text = (none, accepting.having (text :: taken)) := rfl

/-- A sink that refuses one call goes together with one that takes all until that call. -/
theorem abreast (k : Nat) (cause : String) :
    Output.Abreast (Before k cause) (After k cause) cause where
  write := by
    rintro _ _ text ⟨taken, hle, rfl, rfl⟩
    simp only [Output.write, write_accepting, true_and]
    by_cases hk : taken.length = k
    · right
      have hwrite : ((refusing k cause).having taken).write text =
          (some cause, { (refusing k cause).having taken with calls := k + 1 }) := by
        simp only [Sink.write, having, refusing, hk, if_true]
      rw [hwrite]
      exact ⟨rfl, taken, [text], hk, List.cons_ne_nil _ _, rfl, rfl⟩
    · left
      have hwrite : ((refusing k cause).having taken).write text =
          (none, (refusing k cause).having (text :: taken)) := by
        simp only [Sink.write, having, refusing, hk, if_false, List.length_cons]
      rw [hwrite]
      exact ⟨rfl, text :: taken, Nat.lt_of_le_of_ne hle hk, rfl, rfl⟩
  flush := by
    rintro _ _ ⟨taken, -, rfl, rfl⟩
    exact ⟨rfl, rfl⟩
  later := by
    rintro _ _ text ⟨taken, more, hlen, -, rfl, rfl⟩
    simp only [Output.write, write_accepting]
    exact ⟨taken, text :: more, hlen, List.cons_ne_nil _ _, rfl, rfl⟩

end Sink

end Mustache
