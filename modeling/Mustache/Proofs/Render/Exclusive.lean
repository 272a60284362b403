import Mustache.Proofs.Lookup.Direct
import Mustache.Proofs.Render.Tidy
import Mustache.Proofs.Session.History

/-! # A section and its negation

A section over a value and the negated section of the same name share the value out between them:
one renders its body for every element of the value, the other renders its body where there is no
element.  Whether a value is falsey and what it is gone through for are told in two ways, and the
value may come out of optionals and of deferred computations that come to further ones; all the
same, just one of the two sections renders its body.

* `Value.rounds` — what a section renders its body for; `Value.isFalsey_iff_rounds` has it that
  the falsey values are those with nothing to go through.
* `Value.ComesTo` — what a value comes to when the deferred computations in it have run.
* `World.Consulted` — a world in which nothing has happened but lookups and deferred computations.
* `Renderer.sect_of_comesTo`, `Renderer.node_sect_of_comesTo` — a section and its negation.
-/

namespace Mustache

/-! ## What there is to go through -/

namespace Value

/-- What a section renders its body for: the elements of a list or a collection, nothing for null,
    false and empty text, and any other value for itself. -/
def rounds : Value → List Value
  | .null => []
  | .bool b => if b then [.bool b] else []
  | .int n => [.int n]
  | .float x => [.float x]
  | .text s => if s = "" then [] else [.text s]
  | .list items => items
  | .map entries => [.map entries]
  | .record type fields => [.record type fields]
  | .object o => o.items.getD [.object o]
  | .optional (some v) => v.rounds
  | .optional none => []
  | .lambda f => [.lambda f]
  | .deferred d => [.deferred d]

/-- A value is falsey if there is nothing to go through. -/
theorem isFalsey_iff_rounds : ∀ v : Value, v.isFalsey = true ↔ v.rounds = []
  | .null => by simp [isFalsey, rounds]
  | .bool b => by cases b <;> simp [isFalsey, rounds]
  | .text s => by simp [isFalsey, rounds]
  | .list items => by simp [isFalsey, rounds]
  | .object o => by cases h : o.items <;> simp [isFalsey, rounds, h]
  | .optional (some v) => isFalsey_iff_rounds v
  | .optional none => by simp [isFalsey, rounds]
  | .int _ | .float _ | .map _ | .record _ _ | .lambda _ | .deferred _ => by
    simp [isFalsey, rounds]

/-- What a value that is not falsey is gone through for. -/
theorem elements_eq_rounds : ∀ v : Value, v.isFalsey = false → v.elements = v.rounds
  | .null, h => by cases h
  | .bool true, _ => rfl
  | .bool false, h => by cases h
  | .text s, h => by
    have hs : s ≠ "" := by simpa [isFalsey] using h
    simp [elements, rounds, hs]
  | .optional (some v), h => elements_eq_rounds v h
  | .optional none, h => by cases h
  | .int _, _ | .float _, _ | .list _, _ | .map _, _ | .record _ _, _ | .object _, _
  | .lambda _, _ | .deferred _, _ => rfl

/-! ## What a value comes to -/

/-- What a value comes to when optionals are looked through and the deferred computations met on
    the way have run, so many of them in a row.  Each of them comes to the same in all its runs. -/
inductive ComesTo : Nat → Value → Value → Prop
  | here {x : Value} (h : ∀ d, x.coerce ≠ .deferred d) : ComesTo 0 x x.coerce
  | later {k : Nat} {x y v : Value} {d : Deferred Value} (hx : x.coerce = .deferred d)
      (hd : ∀ run, d.outcome run = .value y) (h : ComesTo k y v) : ComesTo (k + 1) x v

/-- The one outcome of a computation stands for all its runs. -/
theorem ComesTo.of_single {k : Nat} {y v : Value} (h : y.ComesTo k v) (id : Nat) :
    (Value.deferred ⟨id, [.value y]⟩).ComesTo (k + 1) v :=
  .later rfl (fun run => by cases run <;> rfl) h

end Value

/-! ## Lookups and deferred computations -/

/-- All decisions that nodes remember were made about their names. -/
def Store.Decided (o : Options) (s : Store) : Prop :=
  ∀ n : Node, Lookup.Made (o.handler.find n.name) (s.wrappersOf n)

theorem Store.Decided.lookup {o : Options} {s : Store} (h : s.Decided o) (n : Node)
    (scopes : Scopes) : (s.lookup o n scopes).2.Decided o := by
  intro m
  simp only [Store.lookup, Store.wrappersOf, Table.get?_insert]
  split
  · next heq =>
    subst heq
    exact Lookup.made_snd_lookup (h n) scopes
  · exact h m

/-- What an engine remembers of lookups after any steps are such decisions. -/
theorem Session.decided_after (o : Options) (l : Loader) (steps : List Step) :
    ((new o l).after steps).store.Decided o :=
  fun n => (holds_history o l steps).store.wrappersOf n

/-- Names have been looked up and deferred computations have run; nothing else has changed. -/
structure World.Consulted (o : Options) (w w' : World) : Prop where
  decided : w'.store.Decided o
  eq : w' = { w with
    store := { w.store with bindings := w'.store.bindings }
    runs := w'.runs }

section

variable {o : Options} {w w' w'' : World}

theorem World.Consulted.refl (h : w.store.Decided o) : World.Consulted o w w := ⟨h, rfl⟩

theorem World.Consulted.trans (h : World.Consulted o w w') (h' : World.Consulted o w' w'') :
    World.Consulted o w w'' :=
  ⟨h'.decided, h'.eq.trans (by rw [h.eq])⟩

theorem World.consulted_counted (h : w.store.Decided o) (d : Deferred Value) :
    World.Consulted o w (w.counted d) := ⟨h, rfl⟩

theorem World.Consulted.lookup (h : w.store.Decided o) (n : Node) (scopes : Scopes) :
    World.Consulted o w { w with store := (w.store.lookup o n scopes).2 } :=
  ⟨h.lookup n scopes, rfl⟩

/-- The tag of a name that is found, or need not be, goes on with what the name comes to. -/
theorem Render.lookupTag_of_decided (hhandler : o.handler = .standard) (h : w.store.Decided o)
    (origin : Origin) {name : String} {scopes : Scopes}
    (hfound : (Lookup.find name scopes).isMissing = false ∨ o.failOnMiss = false)
    (y : Value → Render Writer) :
    (Render.lookupTag o origin name scopes >>= y) w =
      y ((Lookup.find name scopes).call scopes)
        { w with store := (w.store.lookup o (origin.node name) scopes).2 } := by
  have hhit : (w.store.lookup o (origin.node name) scopes).1 =
      .ofWrapper (Lookup.find name scopes) scopes := by
    have hmade := h (origin.node name)
    simp only [hhandler, Handler.standard] at hmade
    simp only [Store.lookup, hhandler, Handler.standard]
    exact Lookup.fst_lookup (Lookup.reusable_find name) hmade scopes
  have hmiss : ((Lookup.find name scopes).isMissing && o.failOnMiss) = false := by
    obtain h | h := hfound <;> simp [h]
  rw [Render.lookupTag_bind]
  simp only [bind, Render.lookup, hhit, Lookup.Hit.ofWrapper, hmiss, Bool.false_eq_true, if_false]

end

/-! ## Sections -/

/-- The scopes that a section renders its body on, one after another: with each element in turn as
    innermost scope; or, if it is negated, the scopes as they are, and just if there is no
    element. -/
def Section.stacks {γ : Type} (s : Section γ) (v : Value) (scopes : Scopes) : List Scopes :=
  if s.negated then if v.rounds = [] then [scopes] else []
  else v.rounds.map scopes.push

theorem Render.thread_map {α β : Type} (f : β → Writer → Render Writer) (g : α → β)
    (as : List α) : Render.thread f (as.map g) = Render.thread (fun a => f (g a)) as := by
  induction as with
  | nil => rfl
  | cons a as ih => rw [List.map_cons, thread_cons, thread_cons, ih]

theorem Render.thread_singleton {α : Type} (f : α → Writer → Render Writer) (a : α) :
    Render.thread f [a] = f a := by
  funext out w
  simp only [thread]
  rcases f a out w with ⟨_ | out, w⟩ <;> rfl

namespace Renderer

variable {o : Options} {k : Nat} {x v : Value} {w : World}

/-- A section over what a value comes to. -/
def sectOver (r : Renderer) (s : Section Code) (v : Value) (scopes : Scopes) (cx : Context) :
    Writer → Render Writer :=
  Render.thread (fun stack out => r.nodes s.body stack cx out) (s.stacks v scopes)

/-- Whether a value is falsey and what it is gone through for tell how often the body is rendered,
    and on which scopes. -/
theorem sectOver_eq (r : Renderer) (s : Section Code) (v : Value) (scopes : Scopes) (cx : Context)
    (out : Writer) :
    r.sectOver s v scopes cx out =
      if s.negated then
        if v.isFalsey then r.nodes s.body scopes cx out else pure out
      else if v.isFalsey then pure out
      else Render.thread (fun item out => r.nodes s.body (scopes.push item) cx out)
        v.elements out := by
  rw [sectOver, Section.stacks]
  cases hfalsey : v.isFalsey with
  | true =>
    have hrounds := v.isFalsey_iff_rounds.mp hfalsey
    cases s.negated with
    | true => simp [hrounds, Render.thread_singleton]
    | false => simp [hrounds, Render.thread]
  | false =>
    have hrounds : v.rounds ≠ [] := fun h =>
      Bool.false_ne_true (hfalsey.symm.trans (v.isFalsey_iff_rounds.mpr h))
    cases s.negated with
    | true => simp [hrounds, Render.thread]
    | false => simp [Render.thread_map, v.elements_eq_rounds hfalsey]

theorem sect_of_coerce (r : Renderer) (hhandler : o.handler = .standard)
    (hdeferred : ∀ d, x.coerce ≠ .deferred d) (hlambda : ∀ f, x.coerce ≠ .lambda f)
    (s : Section Code) (scopes : Scopes) (cx : Context) (out : Writer) :
    r.sect o s x scopes cx out = r.sectOver s x.coerce scopes cx out := by
  simp only [sect, sectOver_eq, hhandler, Handler.standard]

/-- A section over a deferred computation runs it, and goes on with what it comes to. -/
theorem sect_of_deferred (r : Renderer) (hhandler : o.handler = .standard) {d : Deferred Value}
    (hcoerce : x.coerce = .deferred d) (s : Section Code) (scopes : Scopes) {cx : Context}
    (hcx : cx.schedule? o = none) (out : Writer) :
    r.sect o s x scopes cx out =
      Render.runFor d s.name >>= fun y => r.resume (.sect s) y scopes cx out := by
  simp only [sect, hhandler, Handler.standard, hcoerce, defer_inline hcx]

/-- A section over a value that comes to another one is the section over that one, once the
    deferred computations on the way have run.  Each of them takes one from the allowance. -/
theorem sect_of_comesTo (hhandler : o.handler = .standard) (hx : x.ComesTo k v)
    (hlambda : ∀ f, v ≠ .lambda f) (s : Section Code) (scopes : Scopes) {cx : Context}
    (hcx : cx.schedule? o = none) (out : Writer) (n : Nat) (hw : w.store.Decided o) :
    ∃ w₀, World.Consulted o w w₀ ∧
      (within o (n + k)).sect o s x scopes cx out w =
        (within o n).sectOver s v scopes cx out w₀ := by
  induction hx generalizing w with
  | here hdeferred =>
    exact ⟨w, .refl hw, congrFun (sect_of_coerce _ hhandler hdeferred hlambda s scopes cx out) w⟩
  | @later k x y v d hcoerce hd _ ih =>
    obtain ⟨w₀, hconsulted, hrest⟩ := ih hlambda (World.consulted_counted hw d).decided
    refine ⟨w₀, (World.consulted_counted hw d).trans hconsulted, ?_⟩
    have hrun : Render.runFor d s.name w = (.ok y, w.counted d) := by
      simp only [Render.runFor, Render.run, bind, hd]
      rfl
    have hresume : (within o (n + (k + 1))).resume (.sect s) y scopes cx out =
        (within o (n + k)).sect o s y scopes cx out := rfl
    rw [sect_of_deferred _ hhandler hcoerce s scopes hcx, ← hrest, ← hresume]
    simp only [bind, hrun]

/-- **A section and its negation.**  Let a name come to a value that, when all deferred computations
    on the way have run, comes to a value that is no lambda.  Then any section of the name renders
    its body on `Section.stacks`, one after another, whatever was looked up before.  Those are one
    for each element of that value, in order and with the element as innermost scope; or, if the
    section is negated, at most the scopes as they are.  So of a section and a negated one just one
    renders its body at all. -/
theorem node_sect_of_comesTo (hhandler : o.handler = .standard) (hschedule : o.schedule = none)
    {name : String} {scopes : Scopes} (hname : Lookup.resolve name scopes = x)
    (hfound : (Lookup.find name scopes).isMissing = false ∨ o.failOnMiss = false)
    (hx : x.ComesTo k v) (hlambda : ∀ f, v ≠ .lambda f) :
    (∀ (s : Section Code) (n : Nat) (cx : Context) (out : Writer) (w : World), s.name = name →
      w.store.Decided o → ∃ w₀, World.Consulted o w w₀ ∧
        (within o (n + k + 1)).node (.sect s) scopes cx out w =
          Render.thread (fun stack out => (within o n).nodes s.body stack cx out)
            (s.stacks v scopes) out w₀) ∧
    ∀ s t : Section Code, s.negated = false → t.negated = true →
      s.stacks v scopes = v.rounds.map scopes.push ∧
      (t.stacks v scopes = [] ∨ t.stacks v scopes = [scopes]) ∧
      (s.stacks v scopes ≠ [] ↔ t.stacks v scopes = []) := by
  constructor
  · rintro s n cx out w rfl hw
    have hlooked := World.Consulted.lookup hw (s.origin.node s.name) scopes
    have hcx : cx.schedule? o = none := Context.schedule?_eq_none_iff.mpr (.inr hschedule)
    obtain ⟨w₀, hconsulted, hsect⟩ :=
      sect_of_comesTo hhandler hx hlambda s scopes hcx out n hlooked.decided
    refine ⟨w₀, hlooked.trans hconsulted, ?_⟩
    change _ = (within o n).sectOver s v scopes cx out w₀
    rw [← hsect, ← hname, ← Lookup.call_find,
      ← Render.lookupTag_of_decided hhandler hw s.origin hfound
        fun x => (within o (n + k)).sect o s x scopes cx out]
    rfl
  · intro s t hs ht
    by_cases hrounds : v.rounds = []
    · simp [Section.stacks, hs, ht, hrounds]
    · simp [Section.stacks, hs, ht, hrounds]

theorem node_sect_of_comesTo_list :
    let items : Value := .list [.text "a", .text "b"]
    let late : Value := .deferred ⟨1, [.value (.optional (some items))]⟩
    let scopes : Scopes := .ofList [.map [("x", .optional (some (.deferred ⟨0, [.value late]⟩)))]]
    let origin : Origin := ⟨.standard, "page", 1, true, .parsed 0 0⟩
    let body : List Code := [.value ⟨origin, ".", .escaped⟩]
    let w : World := .start (.new (.memory [])) .empty
    (∃ w₀, World.Consulted .standard w w₀ ∧
      (within .standard 5).node (.sect ⟨origin, "x", false, .standard, "", body⟩) scopes .start
          (.direct 0) w =
        Render.thread (fun stack out => (within .standard 2).nodes body stack .start out)
          [scopes.push (.text "a"), scopes.push (.text "b")] (.direct 0) w₀) ∧
    ∃ w₀, World.Consulted .standard w w₀ ∧
      (within .standard 5).node (.sect ⟨origin, "x", true, .standard, "", body⟩) scopes .start
          (.direct 0) w = (.ok (.direct 0), w₀) := by
  intro items late scopes origin body w
  have hlist : (Value.optional (some items)).ComesTo 0 items :=
    .here (by simp [items, Value.coerce])
  have hx : (Value.deferred ⟨0, [.value late]⟩).ComesTo 2 items :=
    (hlist.of_single 1).of_single 0
  have hname : Lookup.resolve "x" scopes = .deferred ⟨0, [.value late]⟩ := rfl
  have hdecided : w.store.Decided .standard := Session.decided_after .standard (.memory []) []
  obtain ⟨hsect, -⟩ :=
    node_sect_of_comesTo (o := .standard) rfl rfl hname (.inr rfl) hx (by simp [items])
  exact ⟨hsect ⟨origin, "x", false, .standard, "", body⟩ 2 .start (.direct 0) w rfl hdecided,
    hsect ⟨origin, "x", true, .standard, "", body⟩ 2 .start (.direct 0) w rfl hdecided⟩

end Renderer

end Mustache
