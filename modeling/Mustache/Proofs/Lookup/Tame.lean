import Mustache.Proofs.Lookup.Throughout

/-! # Tame data

Data without template lambdas, in which every deferred computation comes to a value or fails.  A
computation may come to another one, but as data is finite, not for ever.

* `Value.Tame` — such data.
* `Handler.SeesDeferred` — a handler makes no deferred computations of its own.
* `Value.Throughout.chain` — induction along what deferred computations come to.
-/

namespace Mustache

/-- All the lambdas in a value give text for the output, and no deferred computation panics. -/
def Value.Tame (v : Value) : Prop :=
  v.Throughout (fun f => f.kind = .text) fun d => ∀ n message, d.outcome n ≠ .panic message

/-- What a handler takes for a deferred computation is one, behind optionals at most. -/
def Handler.SeesDeferred (h : Handler) : Prop :=
  ∀ v d, h.coerce v = .deferred d → v.coerce = .deferred d

theorem Handler.standard_seesDeferred : Handler.standard.SeesDeferred := fun _ _ h => h

variable {L : Lambda → Prop} {D : Deferred Value → Prop} {v : Value}

/-- A property holds of a value if it holds of all that the value, as a deferred computation, comes
    to. -/
theorem Value.Throughout.chain {P : Value → Prop}
    (hstep : ∀ v : Value, v.Throughout L D →
      (∀ d n w, v.coerce = .deferred d → d.outcome n = .value w → P w) → P v)
    (hv : v.Throughout L D) : P v := by
  refine hstep v hv ?_
  induction hv with
  | @optional content _ ih =>
    cases content with
    | none =>
      rintro d n w ⟨⟩
    | some v => exact ih v rfl
  | @deferred d _ hvalue ih =>
    rintro d' n w ⟨⟩ hw
    exact hstep w (hvalue n w hw) (ih n w hw)
  | _ => rintro d n w ⟨⟩

end Mustache
