import Mustache.Proofs.Render.Laxer
import Mustache.Proofs.Render.Settling

/-! # A greater allowance

A render that has come to its end is the same with every greater allowance, of nesting and of jobs.
So what a render comes to does not depend on the allowance, as long as it comes to an end.

* `Renderer.more_within` — rendering with two allowances.
* `World.turns_more` — doing all the jobs with two allowances.
* `Template.Completes` — a render that has come to its end.
* `Template.Completes.renderWithin_more`, `Template.Completes.more` — it is the same with a greater
  allowance, and has come to its end there.
-/

namespace Mustache

open Streams (handed)

variable {o : Options} {n m : Nat} {w : World}

/-! ## Actions -/

/-- An action that does not use up its allowance. -/
theorem Render.Unless.eq {α : Type} {x x' : Render α}
    (h : Unless (fun stop => stop = .exhausted) x x') (hx : (x w).1 ≠ .error .exhausted) :
    x' w = x w := by
  obtain heq | ⟨stop, w', hstop, rfl⟩ := h w
  · exact heq
  · exact absurd (congrArg Prod.fst hstop) hx

theorem Options.Spares.irrefl {e : Error} (h : o.Spares o e) : False := by
  cases h with
  | mismatch hstrict hlax => cases hstrict.symm.trans hlax
  | notFound hstrict hlax => cases hstrict.symm.trans hlax
  | missing hmiss hlax => cases hmiss.symm.trans hlax
  | recursionLimit hlt => exact Nat.lt_irrefl _ hlt

theorem Options.eases_refl (o : Options) : o.Eases (fun stop => stop = .exhausted) o :=
  ⟨⟨fun h => h, fun h => h, Nat.le_refl _⟩, fun h => h.irrefl.elim, .inr fun _ h => h⟩

/-- A greater allowance makes no difference to what does not use up the smaller one. -/
theorem Renderer.more_within (o : Options) (hle : n ≤ m) :
    Renderer.Unless (fun stop => stop = .exhausted) (.within o n) (.within o m) := by
  induction n generalizing m with
  | zero => exact ⟨fun _ _ _ _ => .stop rfl, fun _ _ _ _ _ => .stop rfl⟩
  | succ n ih =>
    obtain ⟨m, rfl⟩ := Nat.exists_eq_add_of_le' hle
    exact (ih (Nat.le_add_left n m)).step o.eases_refl

theorem Renderer.perform_more (hle : n ≤ m) {job : Job}
    (hended : ((within o n).perform job w).1 ≠ .error .exhausted) :
    (within o m).perform job w = (within o n).perform job w :=
  ((more_within o hle).perform (fun _ h => h) job).eq hended

/-! ## Doing all the jobs -/

namespace World

variable {schedule : Schedule} {fuel fuel' k : Nat}

theorem takeJob_eq_none_iff : w.takeJob schedule k = none ↔ w.queue = [] := by
  simp only [takeJob, Option.map_eq_none_iff, List.getElem?_eq_none_iff]
  refine ⟨fun hle => List.length_eq_zero_iff.mp ?_, fun hqueue => by simp [hqueue]⟩
  by_contra hpos
  exact absurd hle (Nat.not_le.mpr (Nat.mod_lt _ (Nat.pos_of_ne_zero hpos)))

/-- When all jobs have been done, none is left to spend more on. -/
theorem turns_more (hle : n ≤ m) (hfuel : fuel ≤ fuel')
    (hended : ∀ turn ∈ w.turns (.within o n) schedule fuel k,
      ((Renderer.within o n).perform turn.1 turn.2).1 ≠ .error .exhausted)
    (hdone : ((w.drain (.within o n) schedule fuel k).getLastD w).queue = []) :
    w.turns (.within o m) schedule fuel' k = w.turns (.within o n) schedule fuel k := by
  induction fuel generalizing fuel' k w with
  | zero =>
    have hqueue : w.queue = [] := hdone
    cases fuel' with
    | zero => rfl
    | succ fuel' => simp only [turns, takeJob_eq_none_iff.mpr hqueue]
  | succ fuel ih =>
    obtain ⟨fuel', rfl⟩ : ∃ f, fuel' = f + 1 := ⟨fuel' - 1, by omega⟩
    cases htake : w.takeJob schedule k with
    | none => simp only [turns, htake]
    | some taken =>
      obtain ⟨job, v⟩ := taken
      simp only [turns, drain, htake] at hended hdone ⊢
      rw [List.getLastD_cons] at hdone
      have hsame := Renderer.perform_more hle (hended _ List.mem_cons_self)
      simp only [hsame]
      rw [ih (Nat.le_of_succ_le_succ hfuel)
        (fun turn hturn => hended turn (List.mem_cons_of_mem _ hturn)) hdone]

theorem drain_more (hle : n ≤ m) (hfuel : fuel ≤ fuel')
    (hended : ∀ turn ∈ w.turns (.within o n) schedule fuel k,
      ((Renderer.within o n).perform turn.1 turn.2).1 ≠ .error .exhausted)
    (hdone : ((w.drain (.within o n) schedule fuel k).getLastD w).queue = []) :
    w.drain (.within o m) schedule fuel' k = w.drain (.within o n) schedule fuel k := by
  rw [drain_eq, drain_eq, turns_more hle hfuel hended hdone]
  exact List.map_congr_left fun turn hturn =>
    congrArg Prod.snd (Renderer.perform_more hle (hended turn hturn))

end World

/-! ## Whole renders -/

namespace Template

variable {t : Template} {scopes : Scopes} {dest : Output} {store : Store}

/-- A render has come to its end: nothing in it has used up its allowance, and all jobs have been
    done. -/
structure Completes (n : Nat) (o : Options) (t : Template) (scopes : Scopes) (destination : Output)
    (store : Store) : Prop where
  nodes : (renderWithin n o t scopes destination store).handedOn ≠ .error .exhausted
  turns : ∀ turn ∈ turns n o t scopes destination store,
    ((Renderer.within o n).perform turn.1 turn.2).1 ≠ .error .exhausted
  queue : (renderWithin n o t scopes destination store).final.queue = []

/-! ### Before and after the jobs -/

theorem Completes.attended (h : Completes n o t scopes dest store) :
    let r := renderWithin n o t scopes dest store
    r.handedOn ≠ .error .blocked ∧ r.after.Attended (handed r.handedOn) ∧
      (o.schedule = none → r.after.queue = []) :=
  attended_nodes rfl h.nodes

/-- Where nothing is put off, the nodes of the template are all there is. -/
theorem Completes.of_none (hschedule : o.schedule = none)
    (hnodes : (renderWithin n o t scopes dest store).handedOn ≠ .error .exhausted) :
    Completes n o t scopes dest store := by
  obtain ⟨-, -, hqueue⟩ := attended_nodes rfl hnodes
  refine ⟨hnodes, fun turn hturn => ?_, ?_⟩
  · simp [Template.turns, hschedule] at hturn
  · rw [final_of_none hschedule]
    exact hqueue hschedule

/-- In the end all latches are attended to. -/
theorem Completes.attended_final (h : Completes n o t scopes dest store) :
    (renderWithin n o t scopes dest store).final.Attended
      (handed (renderWithin n o t scopes dest store).handedOn) := by
  let r := renderWithin n o t scopes dest store
  obtain ⟨-, hattended, -⟩ := h.attended
  cases hschedule : o.schedule with
  | none =>
    rw [show r.final = _ from final_of_none hschedule]
    exact hattended
  | some schedule =>
    rw [show r.final = _ from final_of_some hschedule]
    exact hattended.drain (turns_of_some hschedule ▸ h.turns)

/-! ### With more -/

/-- A greater allowance makes no difference to the nodes of the template, if they do not use up the
    smaller one. -/
theorem nodes_more (hle : n ≤ m)
    (hnodes : (renderWithin n o t scopes dest store).handedOn ≠ .error .exhausted) :
    (Renderer.within o m).nodes t.codes scopes .start (.direct 0) (.start store ⟨[dest], []⟩) =
      (Renderer.within o n).nodes t.codes scopes .start (.direct 0)
        (.start store ⟨[dest], []⟩) :=
  ((Renderer.more_within o hle).nodes scopes .start (.direct 0) t.codes).eq hnodes

namespace Completes

variable (h : Completes n o t scopes dest store) (hle : n ≤ m)
include h hle

/-- **A greater allowance makes no difference** to a render that comes to its end. -/
theorem renderWithin_more :
    renderWithin m o t scopes dest store = renderWithin n o t scopes dest store := by
  have hturns := h.turns
  have hqueue := h.queue
  simp only [renderWithin]
  rw [show Streams.empty.openOutput dest = (0, ⟨[dest], []⟩) from rfl]
  simp only [nodes_more hle h.nodes]
  cases hschedule : o.schedule with
  | none => rfl
  | some schedule =>
    rw [turns_of_some hschedule] at hturns
    rw [final_of_some hschedule] at hqueue
    have hdrain := World.drain_more hle hle hturns hqueue
    simp only [renderWithin,
      show Streams.empty.openOutput dest = (0, ⟨[dest], []⟩) from rfl] at hdrain
    simp only [hdrain]

/-- It comes to its end there, too. -/
theorem more : Completes m o t scopes dest store := by
  have hsame := h.renderWithin_more hle
  have hturns := h.turns
  refine ⟨hsame ▸ h.nodes, ?_, hsame ▸ h.queue⟩
  cases hschedule : o.schedule with
  | none =>
    intro turn hturn
    simp [Template.turns, hschedule] at hturn
  | some schedule =>
    have hqueue := h.queue
    rw [turns_of_some hschedule] at hturns ⊢
    rw [final_of_some hschedule] at hqueue
    rw [hsame, World.turns_more hle hle hturns hqueue]
    intro turn hturn
    rw [Renderer.perform_more hle (hturns turn hturn)]
    exact hturns turn hturn

end Completes

end Template

end Mustache
