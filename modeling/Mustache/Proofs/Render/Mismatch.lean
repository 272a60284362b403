import Mustache.Proofs.Code.Inside
import Mustache.Proofs.Render.Whole

/-! # Replacements that find no use

In strict mode an extension fails if one of its replacement blocks finds no use.  Replacements are
layered on the way from one template to the next, so the block need not have been written where it
finds no use.  What can be said is about the extensions that a render reaches: if none of them
replaces a block together with one that is declared inside of it, and the templates that a parent
extends declare what the parent is given to replace and declares, then a block without a use was
written, in one of these extensions, for a parent that does not declare it.

* `Declares` — the blocks in a tree, and those of the templates that its extensions name.
* `Plain.notedNode`, `Plain.notedResume` — plain rendering that notes the extensions it reaches.
* `Plain.Notes` — noting changes nothing, and a mismatch has its reason among what was noted.
* `Template.renderWithin_mismatch` — whole renders.
-/

namespace Mustache

open Code (Inside AsWritten blocksOf)

/-! ## Blocks that are declared -/

section Declarations

variable (o : Options) (l : Loader)

/-- The template that an extension names. -/
def Loading.parent (e : Extension Code) : Except Error Template :=
  load o l e.name e.origin.file ""

/-- A tree declares the blocks anywhere in it, and what the templates declare that its extensions
    name. -/
inductive Declares : List Code → String → Prop
  | block {cs : List Code} {b : Block Code} (h : Inside (.block b) cs) : Declares cs b.name
  | parent {cs : List Code} {e : Extension Code} {parent : Template} {name : String}
      (he : Inside (.extend e) cs) (hparent : Loading.parent o l e = .ok parent)
      (h : Declares parent.codes name) : Declares cs name

namespace Extension

/-- The names that an extension replaces. -/
def names (e : Extension Code) : List String :=
  e.replacements.map Block.name

/-- An extension is written with a block that its parent does not declare. -/
structure Strays (e : Extension Code) (name : String) : Prop where
  written : name ∈ (blocksOf e.body).map Block.name
  undeclared : ∃ parent, Loading.parent o l e = .ok parent ∧ ¬ Declares o l parent.codes name

/-- An extension that is written so is among those that are reached.  What it replaces may have
    grown on the way. -/
def IsAmong (reached : List (Extension Code)) (e : Extension Code) : Prop :=
  ∃ f ∈ reached, f.name = e.name ∧ f.origin = e.origin

/-- What an extension replaces lies apart in its parent, and shines through to the templates that
    the parent extends, where such an extension is reached. -/
structure Regular (reached : List (Extension Code)) (e : Extension Code) : Prop where
  /-- Nothing is replaced together with a block that it is declared in. -/
  apart : ∀ parent, Loading.parent o l e = .ok parent → ∀ b, Inside (.block b) parent.codes →
    b.name ∈ e.names → ∀ name ∈ e.names, ¬ Declares o l b.body name
  /-- What is replaced and declared by the parent is declared by what the parent extends. -/
  through : ∀ parent, Loading.parent o l e = .ok parent → ∀ f, Inside (.extend f) parent.codes →
    f.IsAmong reached → ∀ base, Loading.parent o l f = .ok base → ∀ name ∈ e.names,
      Declares o l parent.codes name → Declares o l base.codes name

end Extension

variable {o l}

theorem Extension.Regular.anti {reached reached' : List (Extension Code)} {e : Extension Code}
    (he : e.Regular o l reached') (hsub : reached ⊆ reached') : e.Regular o l reached := by
  refine ⟨he.apart, fun parent hparent f hf hamong => he.through parent hparent f hf ?_⟩
  obtain ⟨f', hf', hsame⟩ := hamong
  exact ⟨f', hsub hf', hsame⟩

/-- A replacement without a use is not declared by the parent. -/
theorem Extension.Regular.not_declares {reached : List (Extension Code)} {e : Extension Code}
    (he : e.Regular o l reached) {parent : Template} (hparent : Loading.parent o l e = .ok parent)
    {name : String} (hname : name ∈ (Renderer.extended e parent).2) :
    ¬ Declares o l parent.codes name := by
  obtain ⟨hname, hunused⟩ := List.mem_filter.mp hname
  have hcovered {c : Code} (h : Inside c parent.codes)
      (hc : (∃ b : Block Code, c = .block b ∧ b.name = name) ∨ ∃ e, c = .extend e) :
      ∃ b, Inside (.block b) parent.codes ∧ b.name ∈ e.names ∧ Inside c b.body :=
    (Code.used_or_covered h hname hc).resolve_left (by simpa using hunused)
  intro hdeclares
  cases hdeclares with
  | block h =>
    obtain ⟨b, hb, hreplaced, hinside⟩ := hcovered h (.inl ⟨_, rfl, rfl⟩)
    exact he.apart parent hparent b hb hreplaced _ hname (.block hinside)
  | parent h hbase hdeclares =>
    obtain ⟨b, hb, hreplaced, hinside⟩ := hcovered h (.inr ⟨_, rfl⟩)
    exact he.apart parent hparent b hb hreplaced _ hname (.parent hinside hbase hdeclares)

namespace Loading

theorem asWritten_compiled {source name : String} {d : Delimiters} {t : Template}
    (h : compiled o source name d = .ok t) : AsWritten t.codes := by
  unfold compiled at h
  split at h
  · next codes hparse =>
    cases h
    exact (Code.asWritten_of_parse hparse).relabelAll
  · cases h

theorem asWritten_load {name including indent : String} {t : Template}
    (h : load o l name including indent = .ok t) : AsWritten t.codes := by
  have hlinked {t : Template} (h : linked o l name including indent = .ok t) :
      AsWritten t.codes := by
    simp only [linked, named, namedIndented] at h
    split at h <;> split at h
    · exact asWritten_compiled h
    · cases h
    · exact asWritten_compiled h
    · cases h
  unfold load at h
  split at h
  · split at h
    · cases h
    · cases h
      exact .leaf (by simp [Code.relabel]) (by simp [Code.relabel]) (by simp [Code.relabel])
  · exact hlinked h

theorem compiled_ne_render {source name : String} {d : Delimiters} {e : RenderError} :
    compiled o source name d ≠ .error (.render e) := by
  unfold compiled
  split <;> simp

/-- A template that does not load is no mismatch. -/
theorem load_ne_render {name including indent : String} {e : RenderError} :
    load o l name including indent ≠ .error (.render e) := by
  intro h
  unfold load at h
  split at h
  · split at h <;> cases h
  · simp only [linked, named, namedIndented] at h
    split at h <;> split at h
    · exact compiled_ne_render h
    · cases h
    · exact compiled_ne_render h
    · cases h

end Loading

end Declarations

/-! ## Noting extensions -/

/-- The same computations, with something kept beside them. -/
def Oracle.beside {σ : Type} (τ : Type) (q : Oracle σ) : Oracle (σ × τ) :=
  ⟨fun d s =>
    let (outcome, after) := q.run d s.1
    (outcome, (after, s.2))⟩

/-- The nodes that are rendered when a value is there. -/
def Awaiting.bodies : Awaiting → List Code
  | .sect s => s.body
  | .inclusion codes => codes
  | .value _ | .dynamic _ => []

/-- Whether rendering stops because a replacement finds no use. -/
def Stop.IsMismatch (stop : Stop) : Prop :=
  ∃ template parent blocks, stop = .error (.render (.inheritanceMismatch template parent blocks))

namespace Plain

/-- The extensions that rendering has reached, the last one first. -/
abbrev Trail := List (Extension Code)

variable {σ : Type}

/-- What is noted of a node. -/
def noted : Code → Trail
  | .extend e => [e]
  | _ => []

def note (c : Code) : Plain (σ × Trail) Unit := fun s =>
  ([], .ok (), (s.1, noted c ++ s.2))

section

variable (o : Options) (l : Loader) (q : Oracle σ)

mutual

/-- Renders a node plainly and notes the extensions that are reached. -/
def notedNode : Nat → Code → Scopes → Context → Plain (σ × Trail) Unit
  | 0, _, _, _ => stop .exhausted
  | n + 1, c, scopes, cx => do
    note c
    Renderer.nodeWith o l (q.beside Trail) ⟨notedNode n, notedResume n⟩ c scopes cx

/-- Goes on with a value plainly and notes the extensions that are reached. -/
def notedResume : Nat → Awaiting → Value → Scopes → Context → Plain (σ × Trail) Unit
  | 0, _, _, _, _ => stop .exhausted
  | n + 1, k, x, scopes, cx =>
    Renderer.resumeWith o l (q.beside Trail) ⟨notedNode n, notedResume n⟩ k x scopes cx

end

def notedWithin (n : Nat) : Renderer (σ × Trail) :=
  ⟨notedNode o l q n, notedResume o l q n⟩

end

variable {o : Options} {l : Loader} {q : Oracle σ} {α β : Type}

/-- A noted action does what the action does, and makes the trail behind it longer.  If all on the
    trail is regular, a mismatch has its reason there. -/
def Notes (o : Options) (l : Loader) (trail : Trail) (x' : Plain (σ × Trail) α) (x : Plain σ α) :
    Prop :=
  ∀ s, ∃ more,
    x' (s, trail) = ((x s).1, (x s).2.1, ((x s).2.2, more ++ trail)) ∧
      ((∀ e ∈ more ++ trail, e.Regular o l (more ++ trail)) →
        ∀ stop, (x s).2.1 = .error stop → stop.IsMismatch →
          ∃ e ∈ more ++ trail, ∃ name, e.Strays o l name)

namespace Notes

variable {trail : Trail}

theorem pure (a : α) : Notes o l trail (Pure.pure a) (Pure.pure a : Plain σ α) :=
  fun _ => ⟨[], rfl, fun _ _ h _ => by cases h⟩

theorem stop {e : Stop} (he : ¬ e.IsMismatch) :
    Notes o l trail (Plain.stop e) (Plain.stop e : Plain σ α) :=
  fun _ => ⟨[], rfl, fun _ _ h hmismatch => by cases h; exact absurd hmismatch he⟩

theorem bind {x' : Plain (σ × Trail) α} {x : Plain σ α} {f' : α → Plain (σ × Trail) β}
    {f : α → Plain σ β} (hx : Notes o l trail x' x)
    (hf : ∀ a more, Notes o l (more ++ trail) (f' a) (f a)) :
    Notes o l trail (x' >>= f') (x >>= f) := by
  intro s
  obtain ⟨more, heq, hreason⟩ := hx s
  simp only [Bind.bind, heq]
  rcases hran : x s with ⟨texts, _ | a, s'⟩
  · rw [hran] at hreason
    refine ⟨more, rfl, fun hregular _ h => ?_⟩
    cases h
    exact hreason hregular _ rfl
  · obtain ⟨more', heq', hreason'⟩ := hf a more s'
    refine ⟨more' ++ more, ?_, ?_⟩
    · simp only [heq', List.append_assoc]
    · simpa only [List.append_assoc] using hreason'

theorem write (text : String) :
    Notes o l trail (Plain.write text) (Plain.write text : Plain σ Unit) :=
  fun _ => ⟨[], rfl, fun _ _ h _ => by cases h⟩

theorem captured {x' : Plain (σ × Trail) Unit} {x : Plain σ Unit} (hx : Notes o l trail x' x) :
    Notes o l trail (Plain.captured x') (Plain.captured x) := by
  intro s
  obtain ⟨more, heq, hreason⟩ := hx s
  simp only [Plain.captured, heq]
  rcases hran : x s with ⟨texts, _ | _, s'⟩
  · rw [hran] at hreason
    refine ⟨more, rfl, fun hregular _ h => ?_⟩
    cases h
    exact hreason hregular _ rfl
  · exact ⟨more, rfl, fun _ _ h _ => by cases h⟩

theorem ofExcept_bind {r : Except Error α} (hr : ∀ e, r = .error e → ¬ (Stop.error e).IsMismatch)
    {f' : α → Plain (σ × Trail) β} {f : α → Plain σ β}
    (hf : ∀ a, r = .ok a → Notes o l trail (f' a) (f a)) :
    Notes o l trail (Plain.ofExcept r >>= f') (Plain.ofExcept r >>= f) := by
  cases r with
  | ok a => exact hf a rfl
  | error e =>
    refine fun _ => ⟨[], rfl, fun _ stop h hmismatch => ?_⟩
    cases h
    exact absurd hmismatch (hr e rfl)

theorem each {p' : α → Plain (σ × Trail) Unit} {p : α → Plain σ Unit} (as : List α)
    (hp : ∀ a ∈ as, ∀ more, Notes o l (more ++ trail) (p' a) (p a)) :
    Notes o l trail (Plain.each p' as) (Plain.each p as) := by
  induction as generalizing trail with
  | nil => exact pure ()
  | cons a as ih =>
    refine bind (hp a List.mem_cons_self []) fun _ more => ih fun a ha more' => ?_
    rw [← List.append_assoc]
    exact hp a (List.mem_cons_of_mem _ ha) _

theorem runFor (d : Deferred Value) (name : String) :
    Notes o l trail (Plain.runFor (q.beside Trail) d name) (Plain.runFor q d name) := by
  intro s
  refine ⟨[], ?_, ?_⟩
  · simp only [Plain.runFor, Oracle.beside]
    rw [show q.run d s = ((q.run d s).1, (q.run d s).2) from rfl]
    cases (q.run d s).1 <;> rfl
  · simp only [Plain.runFor]
    rintro - e h ⟨_, _, _, rfl⟩
    split at h <;> cases h

theorem load_bind {name including indent : String} {f' : Template → Plain (σ × Trail) β}
    {f : Template → Plain σ β}
    (hf : ∀ t, Loading.load o l name including indent = .ok t → Notes o l trail (f' t) (f t)) :
    Notes o l trail (Plain.ofExcept (Loading.load o l name including indent) >>= f')
      (Plain.ofExcept (Loading.load o l name including indent) >>= f) := by
  refine ofExcept_bind (fun e he => ?_) hf
  rintro ⟨_, _, _, heq⟩
  cases heq
  exact Loading.load_ne_render he

theorem compiled_bind {source name : String} {d : Delimiters}
    {f' : Template → Plain (σ × Trail) β} {f : Template → Plain σ β}
    (hf : ∀ t, Loading.compiled o source name d = .ok t → Notes o l trail (f' t) (f t)) :
    Notes o l trail (Plain.ofExcept (Loading.compiled o source name d) >>= f')
      (Plain.ofExcept (Loading.compiled o source name d) >>= f) := by
  refine ofExcept_bind (fun e he => ?_) hf
  rintro ⟨_, _, _, heq⟩
  cases heq
  exact Loading.compiled_ne_render he

theorem enter_bind {cx : Context} {name : String} {origin : Origin}
    {f' : Context → Plain (σ × Trail) β} {f : Context → Plain σ β}
    (hf : ∀ cx, Notes o l trail (f' cx) (f cx)) :
    Notes o l trail (Plain.enter o cx name origin >>= f') (Plain.enter o cx name origin >>= f) := by
  refine ofExcept_bind (fun e he => ?_) fun cx _ => hf cx
  rintro ⟨_, _, _, heq⟩
  cases heq
  unfold Context.enter at he
  split at he <;> cases he

theorem lookupTag_bind {origin : Origin} {name : String} {scopes : Scopes}
    {f' : Value → Plain (σ × Trail) β} {f : Value → Plain σ β}
    (hf : ∀ x, Notes o l trail (f' x) (f x)) :
    Notes o l trail (Plain.lookupTag o origin name scopes >>= f')
      (Plain.lookupTag o origin name scopes >>= f) := by
  unfold Plain.lookupTag
  split
  · refine (stop ?_ : Notes o l trail (Plain.stop _) (Plain.stop _))
    rintro ⟨_, _, _, h⟩
    cases h
  · exact hf _

theorem note_bind {c : Code} {x' : Plain (σ × Trail) α} {x : Plain σ α}
    (hx : Notes o l (noted c ++ trail) x' x) : Notes o l trail (note c >>= fun _ => x') x := by
  intro s
  obtain ⟨more, heq, hreason⟩ := hx s
  refine ⟨more ++ noted c, ?_, ?_⟩
  · simp only [Bind.bind, note, heq, List.append_assoc, List.nil_append]
  · simpa only [List.append_assoc] using hreason

end Notes

/-! ## Who is to blame -/

/-- The fault for what an extension replaces without its parent declaring it lies with the extension
    or with one on the trail. -/
def Blames (o : Options) (l : Loader) (trail : Trail) (e : Extension Code) : Prop :=
  ∀ parent, Loading.parent o l e = .ok parent → ∀ name ∈ e.names,
    ¬ Declares o l parent.codes name → ∃ e' ∈ e :: trail, e'.Strays o l name

/-- The same for every extension in a tree, when it is reached behind a trail, if all on the way is
    regular. -/
def Accounts (o : Options) (l : Loader) (trail : Trail) (cs : List Code) : Prop :=
  ∀ more e, Inside (.extend e) cs →
    (∀ e' ∈ e :: (more ++ trail), e'.Regular o l (e :: (more ++ trail))) →
      Blames o l (more ++ trail) e

namespace Accounts

variable {trail : Trail} {cs ds : List Code}

theorem of_asWritten (h : AsWritten cs) : Accounts o l trail cs := by
  intro _ e he _ parent hparent name hname hdeclares
  refine ⟨e, List.mem_cons_self, ?_, parent, hparent, hdeclares⟩
  rwa [← h e he]

theorem of_inside (h : Accounts o l trail cs) (hinside : ∀ c, Inside c ds → Inside c cs) :
    Accounts o l trail ds :=
  fun more e he => h more e (hinside _ he)

theorem mono (h : Accounts o l trail cs) (more : Trail) : Accounts o l (more ++ trail) cs := by
  intro more' e he
  rw [← List.append_assoc]
  exact h (more' ++ more) e he

/-- The extensions in what a parent becomes are accounted for by the extension that is rendered. -/
theorem extended {e : Extension Code} (h : Accounts o l trail [.extend e]) {parent : Template}
    (hparent : Loading.parent o l e = .ok parent) :
    Accounts o l (e :: trail) (Code.rebuildAll e.replacements parent.codes) := by
  intro more f hf hregular
  have he : .extend e ∈ [Code.extend e] := List.mem_singleton_self _
  obtain ⟨b, hb, hf⟩ | ⟨f', hf', horigin, hname', hbody, hreplaced⟩ :=
    Code.extend_inside_rebuildAll hf
  · exact h.mono [e] more f (.replacement he hb hf) hregular
  · intro base hbase name hname hdeclares
    -- The copy extends what the original extends.
    have hbase' : Loading.parent o l f' = .ok base := by
      rw [← hbase, Loading.parent, Loading.parent, horigin, hname']
    obtain ⟨b, hb, rfl⟩ := List.mem_map.mp hname
    obtain houter | ⟨b', hb', hsame⟩ := hreplaced b hb
    · have hmem : b.name ∈ e.names := List.mem_map_of_mem houter
      have hbefore : e :: trail ⊆ f :: (more ++ e :: trail) := fun _ hmem =>
        List.mem_cons_of_mem _ (List.mem_append_right _ hmem)
      have hthrough := (hregular e (hbefore List.mem_cons_self)).through parent hparent f' hf'
        ⟨f, List.mem_cons_self, hname', horigin⟩ base hbase' b.name hmem
      obtain ⟨e', he', hstrays⟩ := h [] e (.here he)
        (fun e' he' => (hregular e' (hbefore he')).anti hbefore) parent hparent b.name hmem
        fun hdeclared => hdeclares (hthrough hdeclared)
      exact ⟨e', hbefore he', hstrays⟩
    · refine ⟨f, List.mem_cons_self, ?_, base, hbase, hdeclares⟩
      rw [hbody, ← Loading.asWritten_load hparent f' hf', ← hsame]
      exact List.mem_map_of_mem hb'

end Accounts

/-! ## Rendering -/

namespace Renderer

/-- What is nested in a node is noted, as long as its extensions are accounted for. -/
structure Notes (o : Options) (l : Loader) (r' : Renderer (σ × Trail)) (r : Renderer σ) :
    Prop where
  node : ∀ {trail c} scopes cx, Accounts o l trail [c] →
    Plain.Notes o l trail (r'.node c scopes cx) (r.node c scopes cx)
  resume : ∀ {trail k} x scopes cx, Accounts o l trail k.bodies →
    Plain.Notes o l trail (r'.resume k x scopes cx) (r.resume k x scopes cx)

namespace Notes

variable {r' : Renderer (σ × Trail)} {r : Renderer σ} (hr : Notes o l r' r) {trail : Trail}
  (scopes : Scopes) (cx : Context)
include hr

theorem nodes {codes : List Code} (h : Accounts o l trail codes) :
    Plain.Notes o l trail (r'.nodes codes scopes cx) (r.nodes codes scopes cx) :=
  .each codes fun _ hc more => hr.node scopes cx <| (h.mono more).of_inside fun _ hd =>
    hd.mono (by simpa using hc)

theorem capture {codes : List Code} (h : Accounts o l trail codes) :
    Plain.Notes o l trail (r'.capture codes scopes cx) (r.capture codes scopes cx) :=
  .captured (hr.nodes scopes cx.inline h)

theorem await (d : Deferred Value) (name : String) {k : Awaiting}
    (h : Accounts o l trail k.bodies) :
    Plain.Notes o l trail (r'.await (q.beside Trail) d name k scopes cx)
      (r.await q d name k scopes cx) :=
  .bind (.runFor d name) fun x more => hr.resume x scopes cx (h.mono more)

theorem value (v : Interpolation) (x : Value) :
    Plain.Notes o l trail (r'.value o (q.beside Trail) v x scopes cx)
      (r.value o q v x scopes cx) := by
  have hwrite (text : String) (trail : Trail) :
      Plain.Notes o l trail (writeValue o v text) (writeValue o v text : Plain σ Unit) := by
    unfold writeValue
    split
    · exact .pure ()
    · exact .write _
  unfold Renderer.value
  split
  · exact .pure ()
  · exact hr.await scopes cx _ _ (.of_asWritten .nil)
  · next f _ =>
    cases f.kind with
    | text => exact hwrite _ _
    | template =>
      refine .compiled_bind fun t ht => ?_
      refine .bind (hr.capture scopes cx (.of_asWritten (Loading.asWritten_compiled ht))) ?_
      exact fun text _ => hwrite text _
  · exact hwrite _ _

theorem sectionLambda (s : Section Code) (f : Lambda) (h : Accounts o l trail s.body) :
    Plain.Notes o l trail (r'.sectionLambda o s f scopes cx) (r.sectionLambda o s f scopes cx) := by
  unfold Renderer.sectionLambda
  cases f.kind with
  | text => exact .bind (hr.capture scopes cx h) fun _ _ => .write _
  | template =>
    exact .compiled_bind fun t ht =>
      hr.nodes scopes cx (.of_asWritten (Loading.asWritten_compiled ht))

theorem sect (s : Section Code) (x : Value) (h : Accounts o l trail s.body) :
    Plain.Notes o l trail (r'.sect o (q.beside Trail) s x scopes cx)
      (r.sect o q s x scopes cx) := by
  unfold Renderer.sect
  dsimp only
  split
  · exact hr.await scopes cx _ _ h
  · split
    · split
      · exact hr.nodes scopes cx h
      · exact .pure ()
    · split
      · exact hr.sectionLambda scopes cx s _ h
      · split
        · exact .pure ()
        · exact .each _ fun item _ more => hr.nodes _ cx (h.mono more)

theorem withScope {codes : List Code} (x : Value) (h : Accounts o l trail codes) :
    Plain.Notes o l trail (r'.withScope codes x scopes cx) (r.withScope codes x scopes cx) := by
  unfold Renderer.withScope
  split
  · exact hr.nodes scopes cx h
  · exact hr.nodes _ cx h

theorem inclusion (p : Inclusion) :
    Plain.Notes o l trail (r'.inclusion o l (q.beside Trail) p scopes cx)
      (r.inclusion o l q p scopes cx) := by
  refine .enter_bind fun cx => .load_bind fun t ht => ?_
  have h : Accounts o l trail t.codes := .of_asWritten (Loading.asWritten_load ht)
  split
  · exact hr.await scopes cx _ _ h
  · exact hr.withScope scopes cx _ h

theorem dynamic (p : Inclusion) (x : Value) :
    Plain.Notes o l trail (r'.dynamic o l (q.beside Trail) p x scopes cx)
      (r.dynamic o l q p x scopes cx) := by
  unfold Renderer.dynamic
  split
  · exact hr.await scopes cx _ _ (.of_asWritten .nil)
  · dsimp only
    split
    · exact .pure ()
    · exact .load_bind fun t ht =>
        hr.nodes scopes cx (.of_asWritten (Loading.asWritten_load ht))

/-- If a replacement finds no use in a regular extension, somebody is to blame for it; and if all
    find one, the extensions in what the parent becomes are accounted for. -/
theorem extend {e : Extension Code} (h : Accounts o l trail [.extend e]) :
    Plain.Notes o l (e :: trail) (r'.extend o l e scopes cx) (r.extend o l e scopes cx) := by
  refine .enter_bind fun cx => .load_bind fun parent hparent => ?_
  dsimp only
  split
  · next hunused =>
    intro s
    refine ⟨[], rfl, fun hregular _ _ _ => ?_⟩
    simp only [Bool.and_eq_true, Bool.not_eq_true', List.isEmpty_eq_false_iff_exists_mem] at hunused
    obtain ⟨-, name, hname⟩ := hunused
    have hdeclares := (hregular e List.mem_cons_self).not_declares hparent hname
    obtain ⟨e', he', hstrays⟩ := h [] e (.here (List.mem_singleton_self _)) hregular parent hparent
      name (List.mem_filter.mp hname).1 hdeclares
    exact ⟨e', he', name, hstrays⟩
  · exact hr.nodes scopes cx (h.extended hparent)

theorem resumeWith (k : Awaiting) (x : Value) (h : Accounts o l trail k.bodies) :
    Plain.Notes o l trail (r'.resumeWith o l (q.beside Trail) k x scopes cx)
      (r.resumeWith o l q k x scopes cx) := by
  cases k with
  | value v => exact hr.value scopes cx v x
  | sect s => exact hr.sect scopes cx s x h
  | inclusion codes => exact hr.withScope scopes cx x h
  | dynamic p => exact hr.dynamic scopes cx p x

theorem nodeWith {c : Code} (h : Accounts o l trail [c]) :
    Plain.Notes o l (noted c ++ trail) (r'.nodeWith o l (q.beside Trail) c scopes cx)
      (r.nodeWith o l q c scopes cx) := by
  have hc : c ∈ [c] := List.mem_singleton_self c
  cases c with
  | text s => exact .write s
  | value v => exact .lookupTag_bind fun x => hr.value scopes cx v x
  | sect s =>
    exact .lookupTag_bind fun x => hr.sect scopes cx s x (h.of_inside fun _ hd => .sect hc hd)
  | inclusion p => exact hr.inclusion scopes cx p
  | dynamic p => exact .enter_bind fun cx => hr.dynamic scopes cx p _
  | extend e => exact hr.extend scopes cx h
  | block b => exact hr.nodes scopes cx (h.of_inside fun _ hd => .block hc hd)
  | eof => exact .pure ()

end Notes

end Renderer

/-- Noting extensions changes nothing, with every allowance of nesting. -/
theorem notes_within (o : Options) (l : Loader) (q : Oracle σ) (n : Nat) :
    Renderer.Notes o l (notedWithin o l q n) (within o l q n) := by
  induction n with
  | zero =>
    have hexhausted : ¬ Stop.exhausted.IsMismatch := nofun
    exact ⟨fun _ _ _ => .stop hexhausted, fun _ _ _ _ => .stop hexhausted⟩
  | succ n ih =>
    exact ⟨fun scopes cx h => .note_bind (ih.nodeWith scopes cx h),
      fun x scopes cx h => ih.resumeWith scopes cx _ x h⟩

/-- A render fails for a replacement without a use only if the plain render does. -/
theorem isMismatch_of_report {dest : Output} {texts : List String} {ending : Except Stop Unit}
    {stop : Stop} (h : (report dest texts ending).result = .error stop) (hstop : stop.IsMismatch) :
    ending = .error stop := by
  have hrefusal (cause : String) : ¬ (Stop.error (Streams.refusal cause)).IsMismatch := nofun
  unfold report at h
  split at h
  · cases h
    exact absurd hstop (hrefusal _)
  · cases ending with
    | error e => exact h
    | ok _ =>
      simp only [Except.bind] at h
      split at h
      · cases h
        exact absurd hstop (hrefusal _)
      · cases h

end Plain

/-! ## Whole renders -/

namespace Template

/-- The extensions that a render reaches, the last one first. -/
def reached (n : Nat) (o : Options) (l : Loader) (t : Template) (scopes : Scopes) : Plain.Trail :=
  ((Plain.notedWithin o l .counting n).nodes t.bare.codes scopes .start ([], [])).2.2.2

/-- A render fails for a replacement block without a use only if one of the extensions that it
    reaches is written with a block that its parent does not declare, provided that what these
    extensions replace lies apart in their parents and shines through to what the parents extend, as
    far as that is reached.  Nothing is put off: then the plain render is the render itself, and
    tells what is reached.  With a schedule it is not: jobs that are done in another order may find
    other outcomes of the same computation, and jobs are done even when the render has failed before
    them, so that other extensions are reached. -/
theorem renderWithin_mismatch {o : Options} {l : Loader} {store : Store}
    (hschedule : o.schedule = none) (hreuse : ∀ name, Lookup.Reusable (o.handler.find name))
    (hstore : store.Faithful o l) {t : Template} {src : Source} {d : Delimiters} {text : String}
    (hparse : Code.parse src d text = .ok t.codes) {n : Nat} {scopes : Scopes} {dest : Output}
    {template parent : String} {blocks : List String}
    (hfail : (renderWithin n o t scopes dest store).result =
      .error (.error (.render (.inheritanceMismatch template parent blocks))))
    (hregular : ∀ e ∈ t.reached n o l scopes, e.Regular o l (t.reached n o l scopes)) :
    ∃ e ∈ t.reached n o l scopes, ∃ name, e.Strays o l name := by
  have hseen := (renderWithin_eq hschedule hreuse hstore n t scopes dest).1
  have hwritten : AsWritten t.bare.codes := (Code.asWritten_of_parse hparse).relabelAll
  have haccounts : Plain.Accounts o l [] t.bare.codes := .of_asWritten hwritten
  obtain ⟨more, hnoted, hreason⟩ :=
    (Plain.notes_within o l .counting n).nodes scopes .start haccounts []
  have hreached : t.reached n o l scopes = more ++ [] := by rw [reached, hnoted]
  rw [hreached] at hregular ⊢
  have hresult : (Plain.renderWithin n o l t.bare.codes scopes dest).result =
      .error (.error (.render (.inheritanceMismatch template parent blocks))) := by
    rw [← hseen]
    exact hfail
  have hstop : Stop.IsMismatch (.error (.render (.inheritanceMismatch template parent blocks))) :=
    ⟨template, parent, blocks, rfl⟩
  exact hreason hregular _ (Plain.isMismatch_of_report hresult hstop) hstop

/-- The error that a render ends with, if it does. -/
def Report.error? (r : Report) : Option Error :=
  match r.result with
  | .error (.error e) => some e
  | _ => none

theorem Report.result_eq_of_error? {r : Report} {e : Error} (h : r.error? = some e) :
    r.result = .error (.error e) := by
  unfold error? at h
  split at h
  · next heq => rw [heq, Option.some.inj h]
  · cases h

/-- A page that replaces a block which its parent does not declare. -/
theorem renderWithin_mismatch_page :
    let o : Options := { Options.standard with strict := true }
    let l : Loader := .memory
      [("base", .text "a\x7b\x7b$x\x7d\x7db\x7b\x7b/x\x7d\x7d")]
    let text := "\x7b\x7b<base\x7d\x7d\x7b\x7b$y\x7d\x7d\x7b\x7b/y\x7d\x7d\x7b\x7b/base\x7d\x7d"
    let t : Template :=
      ⟨"page", text, (Code.parse ⟨"page", 0, []⟩ .standard text).toOption.getD []⟩
    let r := renderWithin 5 o t (.ofList []) (.buffer "") (.new l)
    r.result = .error (.error (.render (.inheritanceMismatch "page" "base" ["y"]))) ∧
      (∀ e ∈ t.reached 5 o l (.ofList []), e.Regular o l (t.reached 5 o l (.ofList []))) ∧
      ∃ e ∈ t.reached 5 o l (.ofList []), ∃ name, e.Strays o l name := by
  intro o l text t r
  have hparse : Code.parse ⟨"page", 0, []⟩ .standard text = .ok t.codes :=
    Code.eq_ok_of_isSome (by decide +kernel) []
  have hfail : r.result = .error (.error (.render (.inheritanceMismatch "page" "base" ["y"]))) :=
    Report.result_eq_of_error? (by decide +kernel)
  have hreached : (t.reached 5 o l (.ofList [])).map (fun e => (e.name, e.origin.file, e.names)) =
      [("base", "page", ["y"])] := by
    decide +kernel
  -- What is inside the base has other names, and none of it is an extension.
  have hbase : (Loading.load o l "base" "page" "").toOption.map (fun base =>
      (Code.inner base.codes).map fun c => (c.name?, c.mayBeInExtension)) =
        some [(none, true), (some "x", true), (none, true), (none, true)] := by
    decide +kernel
  have hregular : ∀ e ∈ t.reached 5 o l (.ofList []),
      e.Regular o l (t.reached 5 o l (.ofList [])) := by
    intro e he
    have hfacts : (e.name, e.origin.file, e.names) = ("base", "page", ["y"]) := by
      have hmem := List.mem_map_of_mem (f := fun e => (e.name, e.origin.file, e.names)) he
      rwa [hreached, List.mem_singleton] at hmem
    obtain ⟨hname, hfile, hnames⟩ : e.name = "base" ∧ e.origin.file = "page" ∧ e.names = ["y"] := by
      simpa using hfacts
    have hinner {parent : Template} (hparent : Loading.parent o l e = .ok parent) {c : Code}
        (hc : Inside c parent.codes) :
        (c.name? = none ∨ c.name? = some "x") ∧ c.mayBeInExtension = true := by
      rw [Loading.parent, hname, hfile] at hparent
      rw [hparent] at hbase
      have hmem := List.mem_map_of_mem (f := fun c : Code => (c.name?, c.mayBeInExtension))
        hc.mem_inner
      have hnodes : (Code.inner parent.codes).map (fun c => (c.name?, c.mayBeInExtension)) = _ :=
        Option.some.inj hbase
      rw [hnodes] at hmem
      grind
    refine ⟨fun parent hparent b hb hreplaced => ?_, fun parent hparent f hf => ?_⟩
    · have hother := (hinner hparent hb).1
      simp [Code.name?] at hother
      rw [hnames, List.mem_singleton, hother] at hreplaced
      simp at hreplaced
    · have hlegal := (hinner hparent hf).2
      simp [Code.mayBeInExtension] at hlegal
  exact ⟨hfail, hregular, renderWithin_mismatch rfl Lookup.reusable_find (Store.faithful_new o l)
    hparse hfail hregular⟩

/-- A page that replaces a block together with one inside of it fails, though its parent declares
    both. -/
theorem renderWithin_mismatch_covered :
    let o : Options := { Options.standard with strict := true }
    let l : Loader := .memory [("base", .text
      "\x7b\x7b$outer\x7d\x7d\x7b\x7b$inner\x7d\x7d\x7b\x7b/inner\x7d\x7d\x7b\x7b/outer\x7d\x7d")]
    let text := "\x7b\x7b<base\x7d\x7d\x7b\x7b$outer\x7d\x7d\x7b\x7b/outer\x7d\x7d" ++
      "\x7b\x7b$inner\x7d\x7d\x7b\x7b/inner\x7d\x7d\x7b\x7b/base\x7d\x7d"
    let t : Template :=
      ⟨"page", text, (Code.parse ⟨"page", 0, []⟩ .standard text).toOption.getD []⟩
    let r := renderWithin 5 o t (.ofList []) (.buffer "") (.new l)
    r.result = .error (.error (.render (.inheritanceMismatch "page" "base" ["inner"]))) ∧
      ∀ e ∈ t.reached 5 o l (.ofList []), ∀ name, ¬ e.Strays o l name := by
  intro o l text t r
  refine ⟨Report.result_eq_of_error? (by decide +kernel), ?_⟩
  have hreached : (t.reached 5 o l (.ofList [])).map (fun e =>
      (e.name, e.origin.file, (blocksOf e.body).map Block.name)) =
        [("base", "page", ["outer", "inner"])] := by
    decide +kernel
  have hbase : (Loading.load o l "base" "page" "").toOption.map (fun base =>
      (Code.inner base.codes).map fun c => (c.name?, c.mayBeInExtension)) =
        some [(some "outer", true), (some "inner", true), (none, true)] := by
    decide +kernel
  rintro e he name ⟨hwritten, parent, hparent, hdeclares⟩
  have hmem := List.mem_map_of_mem (f := fun e : Extension Code =>
    (e.name, e.origin.file, (blocksOf e.body).map Block.name)) he
  rw [hreached, List.mem_singleton] at hmem
  obtain ⟨hname, hfile, hnames⟩ : e.name = "base" ∧ e.origin.file = "page" ∧
      (blocksOf e.body).map Block.name = ["outer", "inner"] := by
    simpa using hmem
  rw [Loading.parent, hname, hfile] at hparent
  rw [hparent] at hbase
  have hnodes : (Code.inner parent.codes).map (fun c => (c.name?, c.mayBeInExtension)) = _ :=
    Option.some.inj hbase
  have hnode : (some name, true) ∈ (Code.inner parent.codes).map fun c =>
      (c.name?, c.mayBeInExtension) := by
    rw [hnodes]
    rw [hnames] at hwritten
    simpa using hwritten
  obtain ⟨c, hc, hfacts⟩ := List.mem_map.mp hnode
  -- A node with a name that may stand in an extension is a block.
  cases c with
  | block b =>
    obtain rfl : b.name = name := by simpa [Code.name?, Code.mayBeInExtension] using hfacts
    exact hdeclares (.block (Code.inside_of_mem_inner hc))
  | _ => simp [Code.name?, Code.mayBeInExtension] at hfacts

end Template

end Mustache
