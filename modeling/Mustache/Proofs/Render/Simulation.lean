import Mustache.Proofs.Render.Plain

/-! # From plain rendering to rendering

Whatever relates the basic actions of rendering to the basic actions of plain rendering relates
rendering itself to plain rendering: `Simulation` lists what has to be shown about the basic actions,
and `Simulation.node` is the induction over the rules, made once for all such relations.

A relation is given for actions that take a writer and hand one on, and also for whether deferred
computations run where they are met.
-/

namespace Mustache

/-! ## Values -/

/-- A property of values that reading, looking through optionals and the handler keep. -/
structure Handler.Keeps (h : Handler) (V : Value → Prop) : Prop where
  null : V .null
  content : ∀ {v}, V v → V v.coerce
  read : ∀ {v w} (a : Accessor), V v → a.read v = some w → V w
  coerce : ∀ {v}, V v → V (h.coerce v)
  elements : ∀ {v w}, V v → w ∈ h.elements v → V w

def Scopes.All (V : Value → Prop) (s : Scopes) : Prop :=
  ∀ v ∈ s.stack, V v

theorem Scopes.All.push {V : Value → Prop} {s : Scopes} (hs : s.All V) {v : Value} (hv : V v) :
    (s.push v).All V := by
  intro w hw
  obtain rfl | hw := List.mem_cons.mp hw
  · exact hv
  · exact hs w hw

namespace Handler.Keeps

variable {h : Handler} {V : Value → Prop} (hkeeps : h.Keeps V)
include hkeeps

theorem readAlong {v w : Value} (hv : V v) :
    ∀ {path : List Accessor}, Accessor.readAlong path v = some w → V w := by
  intro path
  induction path generalizing v with
  | nil =>
    intro hread
    obtain rfl : v = w := Option.some.inj hread
    exact hv
  | cons a path ih =>
    intro hread
    obtain ⟨u, hu, hread⟩ := Option.bind_eq_some_iff.mp hread
    exact ih (hkeeps.content (hkeeps.read a hv hu)) hread

/-- What a name comes to has the property, if all the scopes do. -/
theorem ofWrapper (wrapper : Wrapper) {s : Scopes} (hs : s.All V) :
    V (Lookup.Hit.ofWrapper wrapper s).value := by
  cases htarget : wrapper.target with
  | none =>
    simp only [Lookup.Hit.ofWrapper, Wrapper.call, htarget]
    exact hkeeps.null
  | some t =>
    simp only [Lookup.Hit.ofWrapper, Wrapper.call, htarget]
    cases hwalk : s.walk t.index t.path with
    | none => exact hkeeps.null
    | some v =>
      obtain ⟨u, hu, hread⟩ := Option.bind_eq_some_iff.mp hwalk
      have hmem : u ∈ s.stack := List.mem_reverse.mp (List.mem_of_getElem? hu)
      exact hkeeps.readAlong (hkeeps.content (hs u hmem)) hread

end Handler.Keeps

/-! ## Simulations -/

/-- The text that an action writes to a buffer of its own. -/
def Render.captured (x : Writer → Render Writer) : Render String := do
  let buffer ← newBuffer
  let out ← x (.direct buffer)
  finish out
  textOf buffer

theorem Render.thread_cons {α : Type} (f : α → Writer → Render Writer) (a : α) (as : List α) :
    Render.thread f (a :: as) = fun out => f a out >>= Render.thread f as := by
  funext out w
  simp only [Render.thread, bind]
  rcases f a out w with ⟨_ | out, w⟩ <;> rfl

theorem Context.isInline_of_enter {cx cx' : Context} {o : Options} {name file : String}
    {line : Nat} (h : cx.enter o name file line = .ok cx') : cx'.isInline = cx.isInline := by
  unfold Context.enter at h
  split at h
  · cases h
  · cases h
    rfl

/-- A tag that is missed fails after the lookup, so the lookup goes first. -/
theorem Render.lookupTag_bind (o : Options) (origin : Origin) (name : String) (scopes : Scopes)
    (y : Value → Render Writer) :
    (Render.lookupTag o origin name scopes >>= fun v => y v) =
      Render.lookup o (origin.node name) scopes >>= fun hit =>
        if hit.isMissing && o.failOnMiss then
          Render.fail (.render (.missing name origin.file origin.line))
        else y hit.value := by
  funext w
  simp only [Render.lookupTag, bind, Render.lookup]
  generalize Store.lookup o (origin.node name) scopes w.store = found
  by_cases hmissing : (found.1.isMissing && o.failOnMiss) = true
  · simp only [if_pos hmissing]
    rfl
  · simp only [if_neg hmissing]
    rfl

theorem Plain.each_map {σ α β : Type} (p : β → Plain σ Unit) (g : α → β) (as : List α) :
    Plain.each p (as.map g) = Plain.each (fun a => p (g a)) as := by
  induction as with
  | nil => rfl
  | cons a as ih => rw [List.map_cons, Plain.each, Plain.each, ih]

/-- A relation between rendering and plain rendering that goes through all the basic actions, with
    allowances of nesting up to `top`.  Plain rendering may have some more of it. -/
structure Simulation {σ : Type} (o : Options) (l : Loader) (q : Oracle σ) (V : Value → Prop)
    (top more : Nat) (R : Bool → (Writer → Render Writer) → Plain σ Unit → Prop) : Prop where
  keeps : o.handler.Keeps V
  skip : ∀ i, R i (fun out => pure out) (pure ())
  stop : ∀ i e, R i (fun _ => Render.stop e) (Plain.stop e)
  seq : ∀ {i x y p q}, R i x p → R i y q → R i (fun out => x out >>= y) (p >>= fun _ => q)
  write : ∀ i text, R i (fun out => do Render.write text out; return out) (Plain.write text)
  load : ∀ {i x r} {y : Template → Writer → Render Writer} {p : Template → Plain σ Unit},
    Store.Answers o l x r → (∀ t, R i (y t) (p t.bare)) →
    R i (fun out => do let t ← Render.withStore x; y t out) (do let t ← Plain.ofExcept r; p t)
  lookup : ∀ {i} {y : Lookup.Hit → Writer → Render Writer} {p} (n : Node) (scopes : Scopes),
    R i (y (Plain.hit o n.name scopes)) p →
    R i (fun out => do let hit ← Render.lookup o n scopes; y hit out) p
  captured : ∀ {i x p} {y : String → Writer → Render Writer} {p' : String → Plain σ Unit},
    R true x p → (∀ text, R i (y text) (p' text)) →
    R i (fun out => do let text ← Render.captured x; y text out)
      (do let text ← Plain.captured p; p' text)
  awaiting : ∀ (n : Nat), n ≤ top → ∀ (d : Deferred Value) (name : String) (k : Awaiting)
    (scopes : Scopes) (cx : Context), V (.deferred d) → scopes.All V →
    (∀ v, V v → R cx.isInline (Renderer.resumeWithin o n k v scopes cx)
      (Plain.resumeWithin o l q (n + more) k.bare v scopes cx)) →
    R cx.isInline ((Renderer.within o n).defer o d name k scopes cx)
      ((Plain.within o l q (n + more)).await q d name k.bare scopes cx)

/-- Nodes are rendered, and values gone on with, as they are plainly, with an allowance of
    nesting. -/
structure Simulates {σ : Type} (o : Options) (l : Loader) (q : Oracle σ) (V : Value → Prop)
    (top more : Nat) (R : Bool → (Writer → Render Writer) → Plain σ Unit → Prop) (n : Nat) :
    Prop where
  le : n ≤ top
  node : ∀ (c : Code) (scopes : Scopes) (cx : Context), scopes.All V →
    R cx.isInline (Renderer.nodeWithin o n c scopes cx)
      (Plain.nodeWithin o l q (n + more) c.bare scopes cx)
  resume : ∀ (k : Awaiting) (v : Value) (scopes : Scopes) (cx : Context), V v → scopes.All V →
    R cx.isInline (Renderer.resumeWithin o n k v scopes cx)
      (Plain.resumeWithin o l q (n + more) k.bare v scopes cx)

namespace Simulation

variable {σ : Type} {o : Options} {l : Loader} {q : Oracle σ} {V : Value → Prop} {top more : Nat}
  {R : Bool → (Writer → Render Writer) → Plain σ Unit → Prop} (h : Simulation o l q V top more R)
include h

theorem each {α : Type} {i : Bool} {f : α → Writer → Render Writer} {p : α → Plain σ Unit}
    {as : List α} (has : ∀ a ∈ as, R i (f a) (p a)) :
    R i (Render.thread f as) (Plain.each p as) := by
  induction as with
  | nil => exact h.skip i
  | cons a as ih =>
    rw [Render.thread_cons, Plain.each]
    exact h.seq (has a List.mem_cons_self) (ih fun a' ha' => has a' (List.mem_cons_of_mem _ ha'))

omit h in
theorem ite {i b : Bool} {x y : Writer → Render Writer} {p p' : Plain σ Unit}
    (hx : R i x p) (hy : R i y p') :
    R i (fun out => if b then x out else y out) (if b then p else p') := by
  cases b with
  | true => exact hx
  | false => exact hy

variable {n : Nat} (hn : Simulates o l q V top more R n) {scopes : Scopes} (hscopes : scopes.All V)
  (cx : Context)

theorem writeValue (i : Bool) (v : Interpolation) (text : String) :
    R i (Renderer.writeValue o v text) (Plain.writeValue o v.bare text) := by
  have hdef : Renderer.writeValue o v text = fun out =>
      if text.isEmpty then pure out
      else do
        Render.write (if v.style = .escaped then o.handler.encode text else text) out
        return out := rfl
  rw [hdef, Plain.writeValue]
  exact ite (h.skip i) (h.write i _)

include hn hscopes

theorem nodes (codes : List Code) :
    R cx.isInline ((Renderer.within o n).nodes codes scopes cx)
      ((Plain.within o l q (n + more)).nodes (Code.bareAll codes) scopes cx) := by
  rw [Plain.Renderer.nodes, Code.bareAll, Code.relabelAll_eq_map, Plain.each_map]
  exact h.each fun c _ => hn.node c scopes cx hscopes

theorem capture {y : String → Writer → Render Writer} {p : String → Plain σ Unit}
    (codes : List Code) (hy : ∀ text, R cx.isInline (y text) (p text)) :
    R cx.isInline
      (fun out => do let text ← (Renderer.within o n).capture codes scopes cx; y text out)
      (do
        let text ← (Plain.within o l q (n + more)).capture (Code.bareAll codes) scopes cx
        p text) :=
  h.captured (h.nodes hn hscopes cx.inline codes) hy

theorem await (d : Deferred Value) (name : String) (k : Awaiting) (hd : V (.deferred d)) :
    R cx.isInline ((Renderer.within o n).defer o d name k scopes cx)
      ((Plain.within o l q (n + more)).await q d name k.bare scopes cx) :=
  h.awaiting n hn.le d name k scopes cx hd hscopes fun v hv => hn.resume k v scopes cx hv hscopes

theorem value (v : Interpolation) {x : Value} (hx : V x) :
    R cx.isInline ((Renderer.within o n).value o v x scopes cx)
      ((Plain.within o l q (n + more)).value o q v.bare x scopes cx) := by
  have hcoerce := h.keeps.coerce hx
  unfold Renderer.value Plain.Renderer.value
  cases hc : o.handler.coerce x with
  | null => exact h.skip _
  | deferred d => exact h.await hn hscopes cx d v.name (.value v) (hc ▸ hcoerce)
  | lambda f =>
    simp only
    cases f.kind with
    | text => exact h.writeValue _ v _
    | template =>
      exact h.load (Store.answers_fragment _ _ _) fun t =>
        h.capture hn hscopes cx t.codes fun text => h.writeValue _ v text
  | _ => exact h.writeValue _ v _

theorem sectionLambda (s : Section Code) (f : Lambda) :
    R cx.isInline ((Renderer.within o n).sectionLambda o s f scopes cx)
      ((Plain.within o l q (n + more)).sectionLambda o s.bare f scopes cx) := by
  unfold Renderer.sectionLambda Plain.Renderer.sectionLambda
  cases f.kind with
  | text => exact h.capture hn hscopes cx s.body fun text => h.write _ _
  | template =>
    exact h.load (Store.answers_fragment _ _ _) fun t => h.nodes hn hscopes cx t.codes

theorem sect (s : Section Code) {x : Value} (hx : V x) :
    R cx.isInline ((Renderer.within o n).sect o s x scopes cx)
      ((Plain.within o l q (n + more)).sect o q s.bare x scopes cx) := by
  have hcoerce := h.keeps.coerce hx
  unfold Renderer.sect Plain.Renderer.sect
  cases hc : o.handler.coerce x with
  | deferred d => exact h.await hn hscopes cx d s.name (.sect s) (hc ▸ hcoerce)
  | lambda f =>
    exact ite (ite (h.nodes hn hscopes cx s.body) (h.skip _))
      (h.sectionLambda hn hscopes cx s f)
  | _ =>
    rw [hc] at hcoerce
    exact ite (ite (h.nodes hn hscopes cx s.body) (h.skip _))
      (ite (h.skip _) (h.each fun item hitem =>
        h.nodes hn (hscopes.push (h.keeps.elements hcoerce hitem)) cx s.body))

theorem withScope (codes : List Code) {x : Value} (hx : V x) :
    R cx.isInline ((Renderer.within o n).withScope codes x scopes cx)
      ((Plain.within o l q (n + more)).withScope (Code.bareAll codes) x scopes cx) := by
  exact ite (h.nodes hn hscopes cx codes) (h.nodes hn (hscopes.push hx) cx codes)

theorem dynamic (p : Inclusion) {x : Value} (hx : V x) :
    R cx.isInline ((Renderer.within o n).dynamic o p x scopes cx)
      ((Plain.within o l q (n + more)).dynamic o l q p.bare x scopes cx) := by
  have hcoerce := h.keeps.coerce hx
  unfold Renderer.dynamic Plain.Renderer.dynamic
  cases hc : o.handler.coerce x with
  | deferred d => exact h.await hn hscopes cx d p.name (.dynamic p) (hc ▸ hcoerce)
  | _ =>
    exact ite (h.skip _)
      (h.load (Store.answers_target _ _) fun t => h.nodes hn hscopes cx t.codes)

omit hn hscopes in
theorem enter (name : String) (origin : Origin) {y : Context → Writer → Render Writer}
    {p : Context → Plain σ Unit}
    (hy : ∀ cx' : Context, cx'.isInline = cx.isInline → R cx'.isInline (y cx') (p cx')) :
    R cx.isInline
      (fun out => do
        let cx ← Render.ofExcept (cx.enter o name origin.file origin.line)
        y cx out)
      (do
        let cx ← Plain.enter o cx name (origin.relabel .forget)
        p cx) := by
  have hfile : (origin.relabel .forget).file = origin.file := rfl
  have hline : (origin.relabel .forget).line = origin.line := rfl
  simp only [Plain.enter, hfile, hline]
  cases henter : cx.enter o name origin.file origin.line with
  | error e => exact h.stop _ _
  | ok cx' =>
    have hinline := Context.isInline_of_enter henter
    rw [← hinline]
    exact hy cx' hinline

theorem inclusion (p : Inclusion) :
    R cx.isInline ((Renderer.within o n).inclusion o p scopes cx)
      ((Plain.within o l q (n + more)).inclusion o l q p.bare scopes cx) := by
  refine h.enter cx p.name p.origin fun cx' _ => ?_
  refine h.load (Store.answers_included p) fun t => h.lookup p.node scopes ?_
  have hcoerce := h.keeps.coerce (h.keeps.ofWrapper (o.handler.find p.name scopes) hscopes)
  rw [show Plain.hit o p.bare.name scopes = Plain.hit o p.node.name scopes from rfl]
  cases hc : o.handler.coerce (Plain.hit o p.node.name scopes).value with
  | deferred d => exact h.await hn hscopes cx' d p.name (.inclusion t.codes) (hc ▸ hcoerce)
  | _ => exact h.withScope hn hscopes cx' t.codes (hc ▸ hcoerce)

theorem extend (e : Extension Code) :
    R cx.isInline ((Renderer.within o n).extend o e scopes cx)
      ((Plain.within o l q (n + more)).extend o l e.bare scopes cx) := by
  refine h.enter cx e.name e.origin fun cx' _ => ?_
  refine h.load (Store.answers_parent e.origin e.name) fun t => ?_
  obtain ⟨hcodes, hunused⟩ := Renderer.extended_bare e t
  rw [← hunused, ← hcodes]
  exact ite (h.stop _ _) (h.nodes hn hscopes cx' _)

omit hn in
theorem lookupTag (origin : Origin) (name : String) {y : Value → Writer → Render Writer}
    {p : Value → Plain σ Unit} (hy : ∀ v, V v → R cx.isInline (y v) (p v)) :
    R cx.isInline
      (fun out => do
        let v ← Render.lookupTag o origin name scopes
        y v out)
      (do
        let v ← Plain.lookupTag o (origin.relabel .forget) name scopes
        p v) := by
  have hplain : (Plain.lookupTag o (origin.relabel .forget) name scopes >>= p) =
      if (Plain.hit o name scopes).isMissing && o.failOnMiss then
        Plain.stop (.error (.render (.missing name origin.file origin.line)))
      else p (Plain.hit o name scopes).value := by
    rw [Plain.lookupTag]
    split <;> rfl
  simp only [Render.lookupTag_bind, hplain]
  exact h.lookup (origin.node name) scopes
    (ite (h.stop _ _) (hy _ (h.keeps.ofWrapper _ hscopes)))

theorem resumeWith (k : Awaiting) {x : Value} (hx : V x) :
    R cx.isInline ((Renderer.within o n).resumeWith o k x scopes cx)
      ((Plain.within o l q (n + more)).resumeWith o l q k.bare x scopes cx) := by
  cases k with
  | value v => exact h.value hn hscopes cx v hx
  | sect s => exact h.sect hn hscopes cx s hx
  | inclusion codes => exact h.withScope hn hscopes cx codes hx
  | dynamic p => exact h.dynamic hn hscopes cx p hx

theorem nodeWith (c : Code) :
    R cx.isInline ((Renderer.within o n).nodeWith o c scopes cx)
      ((Plain.within o l q (n + more)).nodeWith o l q c.bare scopes cx) := by
  cases c with
  | text s => exact h.write _ s
  | value v => exact h.lookupTag hscopes cx v.origin v.name fun x hx => h.value hn hscopes cx v hx
  | sect s => exact h.lookupTag hscopes cx s.origin s.name fun x hx => h.sect hn hscopes cx s hx
  | inclusion p => exact h.inclusion hn hscopes cx p
  | dynamic p =>
    exact h.enter cx p.name p.origin fun cx' _ => h.lookup p.node scopes
      (h.dynamic hn hscopes cx' p (h.keeps.ofWrapper _ hscopes))
  | extend e => exact h.extend hn hscopes cx e
  | block b => exact h.nodes hn hscopes cx b.body
  | eof => exact h.skip _

omit hn hscopes in
/-- Where nodes are rendered as they are plainly without an allowance, they are with every allowance
    of nesting. -/
theorem simulates_from (hzero : Simulates o l q V top more R 0) {n : Nat} (hn : n ≤ top) :
    Simulates o l q V top more R n := by
  induction n with
  | zero => exact hzero
  | succ n ih =>
    have ih := ih (Nat.le_of_succ_le hn)
    have hplain : n + 1 + more = n + more + 1 := Nat.add_right_comm n 1 more
    refine ⟨hn, fun c _ cx hscopes => ?_, fun k _ _ cx hx hscopes => ?_⟩
    · rw [hplain]
      exact h.nodeWith ih hscopes cx c
    · rw [hplain]
      exact h.resumeWith ih hscopes cx k hx

omit h hn hscopes in
/-- **Rendering is plain rendering.**  A relation that goes through the basic actions holds of
    rendering and plain rendering, with every allowance of nesting. -/
theorem simulates (h : Simulation o l q V top 0 R) {n : Nat} (hn : n ≤ top) :
    Simulates o l q V top 0 R n :=
  h.simulates_from
    ⟨Nat.zero_le _, fun _ _ _ _ => h.stop _ _, fun _ _ _ _ _ _ => h.stop _ _⟩ hn

end Simulation

end Mustache
