import Mustache.Proofs.Render.Simulation

/-! # What holds throughout data

A property of the lambdas and the deferred computations in data, wherever they stand: in lists,
under names, in optionals, and in what the computations come to.  Whatever a render reaches has it
again.

* `Value.Throughout` — lambdas and computations with a property, everywhere in a value.
* `Handler.standard_keeps_throughout` — what reading and iterating reaches.
-/

namespace Mustache

variable {L : Lambda → Prop} {D : Deferred Value → Prop} {v w : Value}

/-- All the lambdas and all the deferred computations in a value have a property, also those in what
    the computations come to. -/
inductive Value.Throughout (L : Lambda → Prop) (D : Deferred Value → Prop) : Value → Prop
  | null : Throughout L D .null
  | bool (b : Bool) : Throughout L D (.bool b)
  | int (n : Int64) : Throughout L D (.int n)
  | float (x : Double) : Throughout L D (.float x)
  | text (s : String) : Throughout L D (.text s)
  | list {items : List Value} (h : ∀ v ∈ items, Throughout L D v) : Throughout L D (.list items)
  | map {entries : List (String × Value)} (h : ∀ e ∈ entries, Throughout L D e.2) :
      Throughout L D (.map entries)
  | record {type : String} {fields : List (String × Value)}
      (h : ∀ e ∈ fields, Throughout L D e.2) : Throughout L D (.record type fields)
  | object {o : HostObject Value} (members : ∀ e ∈ o.members, Throughout L D e.2)
      (items : ∀ items, o.items = some items → ∀ v ∈ items, Throughout L D v) :
      Throughout L D (.object o)
  | optional {content : Option Value} (h : ∀ v, content = some v → Throughout L D v) :
      Throughout L D (.optional content)
  | lambda {f : Lambda} (h : L f) : Throughout L D (.lambda f)
  | deferred {d : Deferred Value} (h : D d)
      (value : ∀ n v, d.outcome n = .value v → Throughout L D v) : Throughout L D (.deferred d)

/-- A run comes to one of the outcomes, if there are any. -/
theorem Deferred.outcome_mem {α : Type} (d : Deferred α) (n : Nat) :
    d.outcome n ∈ d.outcomes ∨ d.outcome n = .failure "" := by
  unfold Deferred.outcome
  cases hget : d.outcomes[n]? with
  | some x => exact .inl (List.mem_of_getElem? hget)
  | none =>
    cases hlast : d.outcomes.getLast? with
    | some x => exact .inl (List.mem_of_getLast? hlast)
    | none => exact .inr rfl

namespace Value.Throughout

theorem of_outcomes {d : Deferred Value} (h : D d)
    (hvalue : ∀ v, .value v ∈ d.outcomes → v.Throughout L D) : Throughout L D (.deferred d) := by
  refine .deferred h fun n v heq => hvalue v ?_
  obtain hmem | hfailure := d.outcome_mem n
  · exact heq ▸ hmem
  · cases hfailure.symm.trans heq

/-- A computation with values for outcomes. -/
theorem of_values {d : Deferred Value} (h : ∀ x ∈ d.outcomes, ∃ v, x = .value v ∧
      v.Throughout L fun d => ∀ n message, d.outcome n ≠ .panic message) :
    Throughout L (fun d => ∀ n message, d.outcome n ≠ .panic message) (.deferred d) := by
  refine .of_outcomes (fun n message heq => ?_) fun v hv => ?_
  · obtain hmem | hfailure := d.outcome_mem n
    · obtain ⟨v, hv, -⟩ := h _ hmem
      cases hv.symm.trans heq
    · cases hfailure.symm.trans heq
  · obtain ⟨v', hv', hall⟩ := h _ hv
    cases hv'
    exact hall

theorem coerce (h : v.Throughout L D) : v.coerce.Throughout L D := by
  induction h with
  | @optional content _ ih =>
    cases content with
    | none => exact .null
    | some v => exact ih v rfl
  | null => exact .null
  | bool b => exact .bool b
  | int n => exact .int n
  | float x => exact .float x
  | text s => exact .text s
  | list h _ => exact .list h
  | map h _ => exact .map h
  | record h _ => exact .record h
  | object members items _ _ => exact .object members items
  | lambda h => exact .lambda h
  | deferred h value _ => exact .deferred h value

theorem read (h : v.Throughout L D) (a : Accessor) (hread : a.read v = some w) :
    w.Throughout L D := by
  have hget {key : String} {entries : List (String × Value)}
      (hall : ∀ e ∈ entries, e.2.Throughout L D) (hsome : Table.get? key entries = some w) :
      w.Throughout L D :=
    Table.All.get? (P := fun _ v => Throughout L D v) hall hsome
  cases h with
  | map h =>
    cases a with
    | key k => exact hget h hread
    | member m => cases hread
  | record h =>
    cases a with
    | key k => exact hget h hread
    | member m => cases hread
  | object members _ =>
    cases a with
    | key k => cases hread
    | member m => exact hget members hread
  | _ => cases a <;> cases hread

theorem elements (h : v.Throughout L D) (hw : w ∈ v.elements) : w.Throughout L D := by
  have hself {v : Value} (h : v.Throughout L D) (hw : w ∈ [v]) : w.Throughout L D :=
    List.mem_singleton.mp hw ▸ h
  induction h with
  | list h _ => exact h w hw
  | @object o members items _ _ =>
    simp only [Value.elements] at hw
    cases hitems : o.items with
    | none =>
      rw [hitems] at hw
      exact hself (.object members items) hw
    | some values =>
      rw [hitems] at hw
      exact items values hitems w hw
  | @optional content _ ih =>
    cases content with
    | none => cases hw
    | some v => exact ih v rfl hw
  | null => exact hself .null hw
  | bool b => exact hself (.bool b) hw
  | int n => exact hself (.int n) hw
  | float x => exact hself (.float x) hw
  | text s => exact hself (.text s) hw
  | map h _ => exact hself (.map h) hw
  | record h _ => exact hself (.record h) hw
  | lambda h => exact hself (.lambda h) hw
  | deferred h value _ => exact hself (.deferred h value) hw

theorem of_lambda {f : Lambda} (h : (Value.lambda f).Throughout L D) : L f := by
  cases h with
  | lambda h => exact h

theorem of_deferred {d : Deferred Value} (h : (Value.deferred d).Throughout L D) :
    D d ∧ ∀ n v, d.outcome n = .value v → v.Throughout L D := by
  cases h with
  | deferred h value => exact ⟨h, value⟩

end Value.Throughout

theorem Handler.standard_keeps_throughout (L : Lambda → Prop) (D : Deferred Value → Prop) :
    Handler.standard.Keeps (Value.Throughout L D) where
  null := .null
  content := .coerce
  read a h := h.read a
  coerce := .coerce
  elements := .elements

end Mustache
