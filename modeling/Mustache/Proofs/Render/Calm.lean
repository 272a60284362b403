import Mustache.Proofs.Lookup.Throughout
import Mustache.Proofs.Render.Effects

/-! # Data without panics

A render over data in which no deferred computation panics does not come to an abrupt end.

* `Value.Calm` — data without panics.
* `Renderer.calm_within` — rendering over such data.
-/

namespace Mustache

variable {o : Options}

/-- No deferred computation in a value panics. -/
def Value.Calm (v : Value) : Prop :=
  v.Throughout (fun _ => True) fun d => ∀ n message, d.outcome n ≠ .panic message

/-- An action does not come to an abrupt end. -/
def Render.Calm (x : Writer → Render Writer) : Prop :=
  ∀ (w : World) (out : Writer) (message : String), (x out w).1 ≠ .error (.panic message)

theorem Render.ofResult_ne_panic (result : Streams.Result) (message : String) :
    Render.ofResult result ≠ .error (.panic message) := by
  cases result <;> nofun

theorem Render.map_ne_error {α β : Type} {result : Except Stop α} {cause : Stop}
    (h : result ≠ .error cause) (f : α → β) : result.map f ≠ .error cause := by
  cases result with
  | ok _ => nofun
  | error _ => exact fun heq => h (congrArg _ (Except.error.inj heq))

theorem Render.bind_ne_error {α β : Type} {result : Except Stop α} {cause : Stop}
    (h : result ≠ .error cause) {f : α → Except Stop β} (hf : ∀ a, f a ≠ .error cause) :
    result.bind f ≠ .error cause := by
  cases result with
  | ok a => exact hf a
  | error _ => exact fun heq => h (congrArg _ (Except.error.inj heq))

theorem Job.verdict_ne_panic (result : Except Stop Writer) (message : String) :
    Job.verdict result ≠ .error (.panic message) := by
  cases result with
  | ok _ => nofun
  | error cause => cases cause <;> nofun

theorem Render.calm_effects (hkeeps : o.handler.Keeps Value.Calm) :
    Effects o Value.Calm (fun _ _ => true) fun _ _ _ _ result _ =>
      ∀ message, result ≠ .error (.panic message) where
  keeps := hkeeps
  outcome hd houtcome := (Value.Throughout.of_deferred hd).2 _ _ houtcome
  inherited _ := Site.inherited_true
  grows _ _ h := h
  refl _ _ _ _ _ := nofun
  fail _ _ _ _ _ _ := nofun
  panic _ _ _ _ hd houtcome := absurd houtcome ((Value.Throughout.of_deferred hd).1 _ _)
  exhausted _ _ _ _ _ := nofun
  trans _ hy := hy
  write _ _ _ _ _ message := Render.map_ne_error (Render.ofResult_ne_panic _ message) _
  load _ _ hy := hy _ (Nat.le_refl _) (Template.similar_refl _)
  lookup _ _ _ _ _ _ _ := nofun
  captured _ _ _ _ _ hx message :=
    Render.map_ne_error (Render.bind_ne_error (hx message)
      fun _ => Render.ofResult_ne_panic _ message) _
  counted _ _ _ _ _ _ := nofun
  performed _ _ _ message := Render.map_ne_error (Job.verdict_ne_panic _ message) _
  queued _ _ _ _ := nofun

/-- A render over data without panics comes to no abrupt end. -/
theorem Renderer.calm_within (hkeeps : o.handler.Keeps Value.Calm) (n : Nat) (codes : List Code)
    {scopes : Scopes} (hscopes : scopes.All Value.Calm) (cx : Context) :
    Render.Calm ((Renderer.within o n).nodes codes scopes cx) :=
  (Render.calm_effects hkeeps).within (m := 0) n (Code.allSimilar_refl codes) hscopes cx

end Mustache
