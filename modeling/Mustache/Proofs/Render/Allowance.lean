import Mustache.Proofs.Render.Plain

/-! # The allowance of nesting

A plain render that does not use up its allowance of nesting comes to the same with every greater
one.

* `Plain.Upto` — two actions do the same, unless the first one uses up its allowance.
* `Plain.within_upto` — plain rendering with two allowances.
-/

namespace Mustache.Plain

variable {σ α β : Type} {p p' : Plain σ α} {q q' : α → Plain σ β}

/-- The second action does what the first one does, unless that uses up its allowance. -/
def Upto (p p' : Plain σ α) : Prop :=
  ∀ s, (p s).2.1 = .error .exhausted ∨ p' s = p s

namespace Upto

theorem refl (p : Plain σ α) : Upto p p := fun _ => .inr rfl

theorem exhausted (p : Plain σ α) : Upto (stop .exhausted) p := fun _ => .inl rfl

theorem trans {p p' p'' : Plain σ α} (h : Upto p p') (h' : Upto p' p'') : Upto p p'' := by
  intro s
  obtain hexhausted | h := h s
  · exact .inl hexhausted
  · rw [← h]
    exact h' s

theorem bind (hp : Upto p p') (hq : ∀ a, Upto (q a) (q' a)) : Upto (p >>= q) (p' >>= q') := by
  intro s
  rcases hps : p s with ⟨texts, r, s'⟩
  have hp := hp s
  rw [hps] at hp
  obtain hexhausted | hp := hp
  · left
    simp only at hexhausted
    simp only [Bind.bind, hps, hexhausted]
  · cases r with
    | error e =>
      right
      simp only [Bind.bind, hps, hp]
    | ok a =>
      obtain hexhausted | hq := hq a s'
      · left
        simp only [Bind.bind, hps, hexhausted]
      · right
        simp only [Bind.bind, hps, hp, hq]

theorem captured {p p' : Plain σ Unit} (hp : Upto p p') :
    Upto (Plain.captured p) (Plain.captured p') := by
  intro s
  rcases hps : p s with ⟨texts, r, s'⟩
  have hp := hp s
  rw [hps] at hp
  obtain hexhausted | hp := hp
  · left
    simp only at hexhausted
    simp only [Plain.captured, hps, hexhausted]
  · right
    simp only [Plain.captured, hps, hp]

theorem each {p p' : α → Plain σ Unit} (hp : ∀ a, Upto (p a) (p' a)) (as : List α) :
    Upto (Plain.each p as) (Plain.each p' as) := by
  induction as with
  | nil => exact refl _
  | cons a as ih => exact (hp a).bind fun _ => ih

theorem ite {c : Prop} [Decidable c] {p p' q q' : Plain σ α} (hp : Upto p p') (hq : Upto q q') :
    Upto (if c then p else q) (if c then p' else q') := by
  split
  · exact hp
  · exact hq

end Upto

/-! ## The rules -/

/-- What a renderer does with the things nested in a node, another one does, unless the first one
    uses up its allowance. -/
structure Renderer.Upto (r r' : Renderer σ) : Prop where
  node : ∀ c scopes cx, Plain.Upto (r.node c scopes cx) (r'.node c scopes cx)
  resume : ∀ k v scopes cx, Plain.Upto (r.resume k v scopes cx) (r'.resume k v scopes cx)

namespace Renderer.Upto

variable {o : Options} {l : Loader} {q : Oracle σ} {r r' : Renderer σ} (h : r.Upto r')
include h

theorem nodes (codes : List Code) (scopes : Scopes) (cx : Context) :
    Plain.Upto (r.nodes codes scopes cx) (r'.nodes codes scopes cx) :=
  .each (fun c => h.node c scopes cx) codes

theorem capture (codes : List Code) (scopes : Scopes) (cx : Context) :
    Plain.Upto (r.capture codes scopes cx) (r'.capture codes scopes cx) :=
  .captured (h.nodes codes scopes cx.inline)

theorem await (d : Deferred Value) (name : String) (k : Awaiting) (scopes : Scopes)
    (cx : Context) : Plain.Upto (r.await q d name k scopes cx) (r'.await q d name k scopes cx) :=
  .bind (.refl _) fun v => h.resume k v scopes cx

theorem value (v : Interpolation) (x : Value) (scopes : Scopes) (cx : Context) :
    Plain.Upto (r.value o q v x scopes cx) (r'.value o q v x scopes cx) := by
  simp only [Renderer.value]
  cases o.handler.coerce x with
  | null => exact .refl _
  | deferred d => exact h.await d v.name (.value v) scopes cx
  | lambda f =>
    simp only
    cases f.kind with
    | text => exact .refl _
    | template =>
      exact .bind (.refl _) fun t => .bind (h.capture t.codes scopes cx) fun _ => .refl _
  | _ => exact .refl _

theorem sectionLambda (s : Section Code) (f : Lambda) (scopes : Scopes) (cx : Context) :
    Plain.Upto (r.sectionLambda o s f scopes cx) (r'.sectionLambda o s f scopes cx) := by
  simp only [Renderer.sectionLambda]
  cases f.kind with
  | text => exact .bind (h.capture s.body scopes cx) fun _ => .refl _
  | template => exact .bind (.refl _) fun t => h.nodes t.codes scopes cx

theorem sect (s : Section Code) (x : Value) (scopes : Scopes) (cx : Context) :
    Plain.Upto (r.sect o q s x scopes cx) (r'.sect o q s x scopes cx) := by
  have hfalsey := Upto.ite (c := o.handler.isFalsey (o.handler.coerce x) = true)
    (h.nodes s.body scopes cx) (.refl (pure ()))
  simp only [Renderer.sect]
  cases hx : o.handler.coerce x with
  | deferred d => exact h.await d s.name (.sect s) scopes cx
  | lambda f => exact .ite (hx ▸ hfalsey) (h.sectionLambda s f scopes cx)
  | _ =>
    exact .ite (hx ▸ hfalsey) (.ite (.refl _)
      (.each (fun item => h.nodes s.body (scopes.push item) cx) _))

theorem withScope (codes : List Code) (x : Value) (scopes : Scopes) (cx : Context) :
    Plain.Upto (r.withScope codes x scopes cx) (r'.withScope codes x scopes cx) :=
  .ite (h.nodes codes scopes cx) (h.nodes codes (scopes.push x) cx)

theorem inclusion (p : Inclusion) (scopes : Scopes) (cx : Context) :
    Plain.Upto (r.inclusion o l q p scopes cx) (r'.inclusion o l q p scopes cx) := by
  refine .bind (.refl _) fun cx => .bind (.refl _) fun t => ?_
  cases o.handler.coerce (hit o p.name scopes).value with
  | deferred d => exact h.await d p.name (.inclusion t.codes) scopes cx
  | _ => exact h.withScope t.codes _ scopes cx

theorem dynamic (p : Inclusion) (x : Value) (scopes : Scopes) (cx : Context) :
    Plain.Upto (r.dynamic o l q p x scopes cx) (r'.dynamic o l q p x scopes cx) := by
  simp only [Renderer.dynamic]
  cases o.handler.coerce x with
  | deferred d => exact h.await d p.name (.dynamic p) scopes cx
  | _ => exact .ite (.refl _) (.bind (.refl _) fun t => h.nodes t.codes scopes cx)

theorem extend (e : Extension Code) (scopes : Scopes) (cx : Context) :
    Plain.Upto (r.extend o l e scopes cx) (r'.extend o l e scopes cx) :=
  .bind (.refl _) fun cx => .bind (.refl _) fun _ => .ite (.refl _) (h.nodes _ scopes cx)

theorem resumeWith (k : Awaiting) (x : Value) (scopes : Scopes) (cx : Context) :
    Plain.Upto (r.resumeWith o l q k x scopes cx) (r'.resumeWith o l q k x scopes cx) := by
  cases k with
  | value v => exact h.value v x scopes cx
  | sect s => exact h.sect s x scopes cx
  | inclusion codes => exact h.withScope codes x scopes cx
  | dynamic p => exact h.dynamic p x scopes cx

theorem nodeWith (c : Code) (scopes : Scopes) (cx : Context) :
    Plain.Upto (r.nodeWith o l q c scopes cx) (r'.nodeWith o l q c scopes cx) := by
  cases c with
  | text s => exact .refl _
  | value v => exact .bind (.refl _) fun x => h.value v x scopes cx
  | sect s => exact .bind (.refl _) fun x => h.sect s x scopes cx
  | inclusion p => exact h.inclusion p scopes cx
  | dynamic p => exact .bind (.refl _) fun cx => h.dynamic p _ scopes cx
  | extend e => exact h.extend e scopes cx
  | block b => exact h.nodes b.body scopes cx
  | eof => exact .refl _

end Renderer.Upto

/-! ## All allowances -/

variable (o : Options) (l : Loader) (r : Oracle σ)

theorem within_upto_succ (n : Nat) : (within o l r n).Upto (within o l r (n + 1)) := by
  induction n with
  | zero => exact ⟨fun _ _ _ => .exhausted _, fun _ _ _ _ => .exhausted _⟩
  | succ n ih => exact ⟨fun c scopes cx => ih.nodeWith c scopes cx,
      fun k v scopes cx => ih.resumeWith k v scopes cx⟩

/-- A greater allowance makes no difference to a plain render that does not use up the smaller
    one. -/
theorem within_upto {n m : Nat} (h : n ≤ m) : (within o l r n).Upto (within o l r m) := by
  induction h with
  | refl => exact ⟨fun _ _ _ => .refl _, fun _ _ _ _ => .refl _⟩
  | @step m _ ih =>
    have hsucc := within_upto_succ o l r m
    exact ⟨fun c scopes cx => (ih.node c scopes cx).trans (hsucc.node c scopes cx),
      fun k v scopes cx => (ih.resume k v scopes cx).trans (hsucc.resume k v scopes cx)⟩

end Mustache.Plain
