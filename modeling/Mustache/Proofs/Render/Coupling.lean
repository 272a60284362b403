import Mustache.Proofs.Code.Similar
import Mustache.Proofs.Render.Simulation

/-! # Two renders side by side

Whatever relates the basic actions of two renders relates the renders: `Coupling` lists what has to
be shown about the basic actions, and `Coupling.step` is the induction over the rules, made once for
all such relations.  The two renders have the same options, and trees that are the same up to sites;
a relation of a render with itself is a property of rendering.

A relation is given for actions that take a writer and hand one on, and also for whether deferred
computations run where they are met.

* `Store.Loads` — the actions on stores that give a tree, side by side.
* `Renderer.Coupled` — two renderers are related in all that they render.
* `Coupling.within` — renderers with the same allowance are.
-/

namespace Mustache

/-- The actions on stores that give a tree to a render, side by side.  What is remembered of a node
    on the first side is remembered under a site with a property. -/
inductive Store.Loads (o : Options) (S : Site → Bool) :
    Store.Action Template → Store.Action Template → Prop
  | fragment (text : String) (d : Delimiters) (file : String) :
      Loads o S (Store.fragment o text d file) (Store.fragment o text d file)
  | included {p : Inclusion} (h : S p.origin.site = true) (site : Site) :
      Loads o S (Store.included o p) (Store.included o { p with origin := p.origin.at site })
  | parent {origin : Origin} (name : String) (h : S origin.site = true) (site : Site) :
      Loads o S (Store.parent o origin name) (Store.parent o (origin.at site) name)
  | target {p : Inclusion} (text : String) (h : S p.origin.site = true) (site : Site) :
      Loads o S (Store.target o p text)
        (Store.target o { p with origin := p.origin.at site } text)

/-- A relation between two renders that goes through all the basic actions, in stages: in a later
    stage more is known of sites, and a tree that is loaded may be of a later stage. -/
structure Coupling (o : Options) (V : Value → Prop) (S : Nat → Site → Bool)
    (R : Nat → Bool → (Writer → Render Writer) → (Writer → Render Writer) → Prop) : Prop where
  keeps : o.handler.Keeps V
  inherited : ∀ m, Site.Inherited (S m)
  grows : ∀ {m n}, m ≤ n → ∀ site, S m site = true → S n site = true
  skip : ∀ m i, R m i (fun out => pure out) (fun out => pure out)
  fail : ∀ m i e, R m i (fun _ => Render.fail e) (fun _ => Render.fail e)
  exhausted : ∀ m i, R m i (fun _ => Render.stop .exhausted) (fun _ => Render.stop .exhausted)
  seq : ∀ {m i x x' y y'}, R m i x x' → R m i y y' →
    R m i (fun out => x out >>= y) (fun out => x' out >>= y')
  write : ∀ m i text, R m i (fun out => do Render.write text out; return out)
    (fun out => do Render.write text out; return out)
  load : ∀ {m i z z'} {y y' : Template → Writer → Render Writer}, Store.Loads o (S m) z z' →
    (∀ n, m ≤ n → ∀ t t', t.Similar (S n) t' → R n i (y t) (y' t')) →
    R m i (fun out => do let t ← Render.withStore z; y t out)
      (fun out => do let t ← Render.withStore z'; y' t out)
  lookup : ∀ {m i} {y y' : Lookup.Hit → Writer → Render Writer} (n n' : Node) (scopes : Scopes),
    n.name = n'.name → scopes.All V → (∀ hit, V hit.value → R m i (y hit) (y' hit)) →
    R m i (fun out => do let hit ← Render.lookup o n scopes; y hit out)
      (fun out => do let hit ← Render.lookup o n' scopes; y' hit out)
  captured : ∀ {m i x x'} {y y' : String → Writer → Render Writer}, R m true x x' →
    (∀ text, R m i (y text) (y' text)) →
    R m i (fun out => do let text ← Render.captured x; y text out)
      (fun out => do let text ← Render.captured x'; y' text out)
  awaiting : ∀ {m} {r r' : Renderer} {k k' : Awaiting} (d : Deferred Value) (name : String)
    (scopes : Scopes) (cx : Context), k.Similar (S m) k' → V (.deferred d) → scopes.All V →
    (∀ v, V v → R m cx.isInline (r.resume k v scopes cx) (r'.resume k' v scopes cx)) →
    R m cx.isInline (r.defer o d name k scopes cx) (r'.defer o d name k' scopes cx)

/-- Two renderers are related in all that they render. -/
structure Renderer.Coupled (V : Value → Prop) (S : Nat → Site → Bool)
    (R : Nat → Bool → (Writer → Render Writer) → (Writer → Render Writer) → Prop)
    (r r' : Renderer) : Prop where
  node : ∀ {m} {c c' : Code} {scopes : Scopes} (cx : Context), c.Similar (S m) c' →
    scopes.All V → R m cx.isInline (r.node c scopes cx) (r'.node c' scopes cx)
  resume : ∀ {m} {k k' : Awaiting} {v : Value} {scopes : Scopes} (cx : Context),
    k.Similar (S m) k' → V v → scopes.All V →
    R m cx.isInline (r.resume k v scopes cx) (r'.resume k' v scopes cx)

namespace Coupling

variable {o : Options} {V : Value → Prop} {S : Nat → Site → Bool} {m : Nat}
  {R : Nat → Bool → (Writer → Render Writer) → (Writer → Render Writer) → Prop}
  (h : Coupling o V S R)
include h

theorem thread {α β : Type} {i : Bool} {f : α → Writer → Render Writer}
    {f' : β → Writer → Render Writer} {as : List α} {bs : List β}
    (hall : List.Forall₂ (fun a b => R m i (f a) (f' b)) as bs) :
    R m i (Render.thread f as) (Render.thread f' bs) := by
  induction hall with
  | nil => exact h.skip m i
  | cons hab _ ih =>
    rw [Render.thread_cons, Render.thread_cons]
    exact h.seq hab ih

omit h in
theorem ite {i b : Bool} {x x' y y' : Writer → Render Writer} (hx : R m i x x') (hy : R m i y y') :
    R m i (fun out => if b then x out else y out) (fun out => if b then x' out else y' out) := by
  cases b with
  | true => exact hx
  | false => exact hy

theorem writeValue (i : Bool) (v : Interpolation) (site : Site) (text : String) :
    R m i (Renderer.writeValue o v text)
      (Renderer.writeValue o { v with origin := v.origin.at site } text) := by
  have hdef (v : Interpolation) : Renderer.writeValue o v text = fun out =>
      if text.isEmpty then pure out
      else do
        Render.write (if v.style = .escaped then o.handler.encode text else text) out
        return out := rfl
  rw [hdef, hdef]
  exact ite (h.skip m i) (h.write m i _)

variable {r r' : Renderer} (hr : Renderer.Coupled V S R r r') {scopes : Scopes}
  (hscopes : scopes.All V) (cx : Context)

include hr hscopes

theorem nodes {codes codes' : List Code} (hcodes : Code.AllSimilar (S m) codes codes') :
    R m cx.isInline (r.nodes codes scopes cx) (r'.nodes codes' scopes cx) :=
  h.thread (hcodes.forall₂.imp fun _ _ hc => hr.node cx hc hscopes)

theorem capture {codes codes' : List Code} (hcodes : Code.AllSimilar (S m) codes codes')
    {y y' : String → Writer → Render Writer} (hy : ∀ text, R m cx.isInline (y text) (y' text)) :
    R m cx.isInline (fun out => do let text ← r.capture codes scopes cx; y text out)
      (fun out => do let text ← r'.capture codes' scopes cx; y' text out) :=
  h.captured (h.nodes hr hscopes cx.inline hcodes) hy

theorem await (d : Deferred Value) (name : String) {k k' : Awaiting} (hk : k.Similar (S m) k')
    (hd : V (.deferred d)) :
    R m cx.isInline (r.defer o d name k scopes cx) (r'.defer o d name k' scopes cx) :=
  h.awaiting d name scopes cx hk hd hscopes fun _ hv => hr.resume cx hk hv hscopes

theorem value (v : Interpolation) (site : Site) {x : Value} (hx : V x) :
    R m cx.isInline (r.value o v x scopes cx)
      (r'.value o { v with origin := v.origin.at site } x scopes cx) := by
  have hcoerce := h.keeps.coerce hx
  unfold Renderer.value
  cases hc : o.handler.coerce x with
  | null => exact h.skip _ _
  | deferred d => exact h.await hr hscopes cx d v.name (.value v site) (hc ▸ hcoerce)
  | lambda f =>
    simp only
    cases f.kind with
    | text => exact h.writeValue _ v site _
    | template =>
      exact h.load (.fragment _ _ _) fun _ _ _ _ ht =>
        h.capture hr hscopes cx ht.codes fun text => h.writeValue _ v site text
  | _ => exact h.writeValue _ v site _

theorem sectionLambda {s : Section Code} (site : Site) {body : List Code}
    (hbody : Code.AllSimilar (S m) s.body body) (f : Lambda) :
    R m cx.isInline (r.sectionLambda o s f scopes cx)
      (r'.sectionLambda o { s with origin := s.origin.at site, body } f scopes cx) := by
  unfold Renderer.sectionLambda
  cases f.kind with
  | text => exact h.capture hr hscopes cx hbody fun text => h.write _ _ _
  | template =>
    exact h.load (.fragment _ _ _) fun _ _ _ _ ht => h.nodes hr hscopes cx ht.codes

theorem sect {s : Section Code} (site : Site) {body : List Code}
    (hbody : Code.AllSimilar (S m) s.body body) {x : Value} (hx : V x) :
    R m cx.isInline (r.sect o s x scopes cx)
      (r'.sect o { s with origin := s.origin.at site, body } x scopes cx) := by
  have hcoerce := h.keeps.coerce hx
  unfold Renderer.sect
  cases hc : o.handler.coerce x with
  | deferred d => exact h.await hr hscopes cx d s.name (.sect site hbody) (hc ▸ hcoerce)
  | lambda f =>
    exact ite (ite (h.nodes hr hscopes cx hbody) (h.skip _ _))
      (h.sectionLambda hr hscopes cx site hbody f)
  | _ =>
    rw [hc] at hcoerce
    exact ite (ite (h.nodes hr hscopes cx hbody) (h.skip _ _))
      (ite (h.skip _ _) (h.thread (List.forall₂_same.mpr fun item hitem =>
        h.nodes hr (hscopes.push (h.keeps.elements hcoerce hitem)) cx hbody)))

theorem withScope {codes codes' : List Code} (hcodes : Code.AllSimilar (S m) codes codes')
    {x : Value} (hx : V x) :
    R m cx.isInline (r.withScope codes x scopes cx) (r'.withScope codes' x scopes cx) :=
  ite (h.nodes hr hscopes cx hcodes) (h.nodes hr (hscopes.push hx) cx hcodes)

theorem dynamic {p : Inclusion} (hp : S m p.origin.site = true) (site : Site) {x : Value}
    (hx : V x) :
    R m cx.isInline (r.dynamic o p x scopes cx)
      (r'.dynamic o { p with origin := p.origin.at site } x scopes cx) := by
  have hcoerce := h.keeps.coerce hx
  unfold Renderer.dynamic
  cases hc : o.handler.coerce x with
  | deferred d => exact h.await hr hscopes cx d p.name (.dynamic hp site) (hc ▸ hcoerce)
  | _ =>
    exact ite (h.skip _ _)
      (h.load (.target _ hp site) fun _ _ _ _ ht => h.nodes hr hscopes cx ht.codes)

omit hr hscopes in
theorem enter (name file : String) (line : Nat) {y y' : Context → Writer → Render Writer}
    (hy : ∀ cx' : Context, cx'.isInline = cx.isInline → R m cx'.isInline (y cx') (y' cx')) :
    R m cx.isInline
      (fun out => do let cx ← Render.ofExcept (cx.enter o name file line); y cx out)
      (fun out => do let cx ← Render.ofExcept (cx.enter o name file line); y' cx out) := by
  cases henter : cx.enter o name file line with
  | error e => exact h.fail _ _ _
  | ok cx' =>
    have hinline := Context.isInline_of_enter henter
    rw [← hinline]
    exact hy cx' hinline

theorem inclusion {p : Inclusion} (hp : S m p.origin.site = true) (site : Site) :
    R m cx.isInline (r.inclusion o p scopes cx)
      (r'.inclusion o { p with origin := p.origin.at site } scopes cx) := by
  refine h.enter cx p.name p.origin.file p.origin.line fun cx' _ => ?_
  refine h.load (.included hp site) fun _ _ _ _ ht => ?_
  refine h.lookup _ _ scopes rfl hscopes fun hit hhit => ?_
  have hcoerce := h.keeps.coerce hhit
  cases hc : o.handler.coerce hit.value with
  | deferred d => exact h.await hr hscopes cx' d p.name (.inclusion ht.codes) (hc ▸ hcoerce)
  | _ => exact h.withScope hr hscopes cx' ht.codes (hc ▸ hcoerce)

theorem extend {e : Extension Code} (he : S m e.origin.site = true) (site : Site)
    (body : List Code) {replacements : List (Block Code)}
    (hreplacements : Code.BlocksSimilar (S m) e.replacements replacements) :
    R m cx.isInline (r.extend o e scopes cx)
      (r'.extend o { e with origin := e.origin.at site, body, replacements } scopes cx) := by
  refine h.enter cx e.name e.origin.file e.origin.line fun cx' _ => ?_
  refine h.load (.parent e.name he site) fun n hn t t' ht => ?_
  have hextended := Renderer.extended_similar (h.inherited n) site body
    (hreplacements.mono (h.grows hn)) ht
  simp only at hextended
  revert hextended
  generalize Renderer.extended e t = made
  generalize Renderer.extended { e with origin := e.origin.at site, body, replacements } t' = made'
  obtain ⟨codes, unused⟩ := made
  obtain ⟨codes', unused'⟩ := made'
  rintro ⟨hcodes, rfl⟩
  exact ite (h.fail _ _ _) (h.nodes hr hscopes cx' hcodes)

omit hr in
theorem lookupTag (origin : Origin) (site : Site) (name : String)
    {y y' : Value → Writer → Render Writer} (hy : ∀ v, V v → R m cx.isInline (y v) (y' v)) :
    R m cx.isInline
      (fun out => do let v ← Render.lookupTag o origin name scopes; y v out)
      (fun out => do let v ← Render.lookupTag o (origin.at site) name scopes; y' v out) := by
  simp only [Render.lookupTag_bind]
  exact h.lookup _ _ scopes rfl hscopes fun hit hhit => ite (h.fail _ _ _) (hy hit.value hhit)

theorem resumeWith {k k' : Awaiting} (hk : k.Similar (S m) k') {x : Value} (hx : V x) :
    R m cx.isInline (r.resumeWith o k x scopes cx) (r'.resumeWith o k' x scopes cx) := by
  cases hk with
  | value v site => exact h.value hr hscopes cx v site hx
  | sect site hbody => exact h.sect hr hscopes cx site hbody hx
  | inclusion hcodes => exact h.withScope hr hscopes cx hcodes hx
  | dynamic hp site => exact h.dynamic hr hscopes cx hp site hx

theorem nodeWith {c c' : Code} (hc : c.Similar (S m) c') :
    R m cx.isInline (r.nodeWith o c scopes cx) (r'.nodeWith o c' scopes cx) := by
  cases c with
  | text s =>
    obtain rfl := hc.of_text
    exact h.write _ _ s
  | value v =>
    obtain ⟨site, rfl⟩ := hc.of_value
    exact h.lookupTag hscopes cx v.origin site v.name fun x hx =>
      h.value hr hscopes cx v site hx
  | sect s =>
    obtain ⟨site, body, hbody, rfl⟩ := hc.of_sect
    exact h.lookupTag hscopes cx s.origin site s.name fun x hx =>
      h.sect hr hscopes cx site hbody hx
  | inclusion p =>
    obtain ⟨hp, site, rfl⟩ := hc.of_inclusion
    exact h.inclusion hr hscopes cx hp site
  | dynamic p =>
    obtain ⟨hp, site, rfl⟩ := hc.of_dynamic
    exact h.enter cx p.name p.origin.file p.origin.line fun cx' _ =>
      h.lookup _ _ scopes rfl hscopes fun hit hhit => h.dynamic hr hscopes cx' hp site hhit
  | extend e =>
    obtain ⟨he, site, body, replacements, hreplacements, rfl⟩ := hc.of_extend
    exact h.extend hr hscopes cx he site body hreplacements
  | block b =>
    obtain ⟨site, body, hbody, rfl⟩ := hc.of_block
    exact h.nodes hr hscopes cx hbody
  | eof =>
    obtain rfl := hc.of_eof
    exact h.skip _ _

omit hr hscopes in
/-- The rules keep renderers related. -/
theorem step {r r' : Renderer} (hr : Renderer.Coupled V S R r r') :
    Renderer.Coupled V S R ⟨r.nodeWith o, r.resumeWith o⟩ ⟨r'.nodeWith o, r'.resumeWith o⟩ :=
  ⟨fun cx hc hscopes => h.nodeWith hr hscopes cx hc,
    fun cx hk hv hscopes => h.resumeWith hr hscopes cx hk hv⟩

omit hr hscopes in
/-- **Two renders are related.**  A relation that goes through the basic actions holds of renderers
    with the same allowance of nesting. -/
theorem within (n : Nat) : Renderer.Coupled V S R (.within o n) (.within o n) := by
  induction n with
  | zero => exact ⟨fun _ _ _ => h.exhausted _ _, fun _ _ _ _ => h.exhausted _ _⟩
  | succ n ih => exact h.step ih

end Coupling

/-! ## Properties of rendering -/

theorem Site.inherited_true : Site.Inherited fun _ => true := fun _ _ => rfl

theorem Template.similar_refl (t : Template) : t.Similar (fun _ => true) t :=
  ⟨Code.sitedAll_true t.codes, rfl⟩

theorem Code.allSimilar_refl (cs : List Code) : AllSimilar (fun _ => true) cs cs :=
  .refl (Code.sitedAll_true cs)

/-- What a name comes to has a property, if all the scopes do. -/
theorem Store.lookup_value {o : Options} {V : Value → Prop} (hkeeps : o.handler.Keeps V)
    {scopes : Scopes} (hscopes : scopes.All V) (n : Node) (s : Store) :
    V (s.lookup o n scopes).1.value := by
  have hvalue (cached : List Wrapper) :
      V (Lookup.lookup (o.handler.find n.name) cached scopes).1.value := by
    unfold Lookup.lookup
    split
    · exact hkeeps.ofWrapper _ hscopes
    · exact hkeeps.ofWrapper _ hscopes
  exact hvalue (s.wrappersOf n)

end Mustache
