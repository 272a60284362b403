import Mustache.Engine.Store
import Mustache.Proofs.Code.Similar
import Mustache.Proofs.Lookup.Bindings

/-! # What a store holds

A stock says which answers may be kept for a path, for a piece of text and for a node, and which
sites the nodes of trees may have after so many compilations.  If the answers that loading comes to
at present are in stock, every action on a store that holds nothing else comes to an answer in
stock, and leaves a store that holds nothing else.

* `Table.All` — everything in a table is as it should be for its key.
* `Store.compiledAs`, `Store.namedAs`, `Store.indentedAs` — what loading comes to without a memory.
* `Stock.Supplied` — what loading comes to at present is in stock.
* `Store.Holds` — a store holds nothing that is not in stock.
* `Store.Yields` — an action comes to an answer in stock, and leaves nothing else in the store.
-/

namespace Mustache

/-! ## Tables of answers -/

namespace Table

variable {α β : Type} {P Q : α → β → Prop} {t : Table α β}

/-- Everything in a table is as it should be for its key. -/
def All (P : α → β → Prop) (t : Table α β) : Prop :=
  ∀ e ∈ t, P e.1 e.2

theorem all_nil : All P ([] : Table α β) := List.forall_mem_nil _

theorem All.of_subset {t' : Table α β} (h : All P t) (hsub : ∀ e ∈ t', e ∈ t) : All P t' :=
  fun e he => h e (hsub e he)

theorem All.imp (h : All P t) (himp : ∀ key v, P key v → Q key v) : All Q t :=
  fun e he => himp e.1 e.2 (h e he)

variable [DecidableEq α]

theorem All.get? (h : All P t) {key : α} {v : β} (hget : t.get? key = some v) : P key v :=
  h _ (mem_of_get? hget)

theorem All.insert (h : All P t) {key : α} {v : β} (hv : P key v) : All P (t.insert key v) := by
  induction t with
  | nil =>
    intro e he
    obtain rfl : e = (key, v) := by simpa [Table.insert] using he
    exact hv
  | cons e t ih =>
    obtain ⟨k, w⟩ := e
    have ht : All P t := fun e he => h e (List.mem_cons_of_mem _ he)
    rw [Table.insert]
    split
    · next hk =>
      intro e he
      obtain rfl | he := List.mem_cons.mp he
      · exact hk ▸ hv
      · exact ht e he
    · intro e he
      obtain rfl | he := List.mem_cons.mp he
      · exact h _ List.mem_cons_self
      · exact ih ht e he

end Table

namespace Store

/-- A bounded table keeps its templates as they should be, and the template that stands under the
    key is as it should be. -/
theorem all_put {κ : Type} [DecidableEq κ] {P : κ → Template → Prop} {t : Table κ Template}
    (h : t.All P) (limit : Option Nat) (victim : Nat) {key : κ} {template : Template}
    (hnew : P key template) :
    P key (put limit victim key template t).template ∧
      (put limit victim key template t).table.All P := by
  unfold put
  split
  · exact ⟨hnew, h⟩
  · split
    · next old hold => exact ⟨h.get? hold, h⟩
    · refine ⟨hnew, ?_⟩
      intro e he
      -- Whichever template leaves the table, those that stay were there.
      obtain he | he := List.mem_append.mp he
      · have hkept : ∀ full : Bool,
            e ∈ (if full then t.eraseIdx (victim % t.length) else t) → e ∈ t := by
          intro full he
          cases full with
          | false => exact he
          | true => exact List.mem_of_mem_eraseIdx he
        exact h e (hkept _ he)
      · obtain rfl : e = (key, template) := by simpa using he
        exact hnew

/-! ## Loading without a memory -/

/-- What the compilation with a number makes of text. -/
def compiledAs (o : Options) (n : Nat) (source name : String) (d : Delimiters) :
    Except Error Template :=
  match Code.parse ⟨name, n, o.pragmas⟩ d source with
  | .ok codes => .ok ⟨name, source, codes⟩
  | .error e => .error (.compile e)

/-- What a path leads to, compiled with a number. -/
def namedAs (o : Options) (l : Loader) (n : Nat) (path : String) : Except Error Template :=
  match l.read path with
  | .ok source => compiledAs o n source path .standard
  | .error e => .error (.load e)

/-- What a path leads to, compiled with a number after every line has been indented. -/
def indentedAs (o : Options) (l : Loader) (n : Nat) (path indent : String) :
    Except Error Template :=
  match l.read path with
  | .ok source =>
    compiledAs o n (.ofList (Text.indentLines indent.toList source.toList)) path .standard
  | .error e => .error (.load e)

/-- What a name in a tag leads to, with nothing to render for an unknown name outside strict
    mode. -/
def orEmpty (o : Options) (name : String) (r : Except Error Template) : Except Error Template :=
  match r with
  | .error (.load (.notFound missing)) =>
    if o.strict then .error (.load (.notFound missing)) else .ok (.empty name)
  | r => r

end Store

/-! ## Stocks -/

/-- What may be kept. -/
structure Stock where
  loader : Loader
  /-- How many compilations there have been at least. -/
  since : Nat
  /-- The sites that nodes may have after so many compilations. -/
  site : Nat → Site → Bool
  /-- The nodes for which it matters what is remembered. -/
  known : Site → Bool
  /-- The answers for a path. -/
  plain : String → Except Error Template → Prop
  /-- The answers for a path and an indent. -/
  indented : String → String → Except Error Template → Prop
  fragment : FragmentKey → Except Error Template → Prop
  /-- The answers for a name in a tag of a template, and an indent. -/
  loaded : String → String → String → Except Error Template → Prop

namespace Stock

variable (o : Options) (K : Stock)

/-- The answers for a path and an indent that may be empty. -/
def named (path indent : String) (r : Except Error Template) : Prop :=
  if indent.isEmpty then K.plain path r else K.indented path indent r

/-- The answers that a node may remember for a name. -/
def remembered (n : Node) (name indent : String) (r : Except Error Template) : Prop :=
  K.known n.site = true → K.loaded name n.file indent r

/-- A template is among some answers, and has sites that nodes may have. -/
structure Keeps (n : Nat) (P : Except Error Template → Prop) (t : Template) : Prop where
  sited : Code.SitedAll (K.site n) t.codes
  answer : P (.ok t)

/-- What loading comes to at present is in stock. -/
structure Supplied : Prop where
  inherited : ∀ n, Site.Inherited (K.site n)
  grows : ∀ {m n}, m ≤ n → ∀ site, K.site m site = true → K.site n site = true
  new : ∀ n offset, K.since ≤ n → K.site (n + 1) (.parsed n offset) = true
  plain : ∀ n path, K.since ≤ n → K.plain path (Store.namedAs o K.loader n path)
  indented : ∀ n path indent, K.since ≤ n →
    K.indented path indent (Store.indentedAs o K.loader n path indent)
  fragment : ∀ n (key : FragmentKey), K.since ≤ n →
    K.fragment key (Store.compiledAs o n key.text key.file key.delimiters)
  loaded : ∀ name including indent r, K.named (Path.resolve name including) indent r →
    K.loaded name including indent (Store.orEmpty o name r)

end Stock

namespace Store

variable {o : Options} {K : Stock} {s : Store} {m : Nat}

/-- A store holds nothing that is not in stock. -/
structure Holds (o : Options) (K : Stock) (s : Store) : Prop where
  loader : s.loader = K.loader
  since : K.since ≤ s.compilations
  templates : s.templates.All fun path => K.Keeps s.compilations (K.plain path)
  indented : s.indented.All fun key => K.Keeps s.compilations (K.indented key.1 key.2)
  fragments : s.fragments.All fun key => K.Keeps s.compilations (K.fragment key)
  inclusions : s.inclusions.All fun n t => K.site s.compilations n.site = true ∧
    K.Keeps s.compilations (K.remembered n n.name n.indent) t
  parents : s.parents.All fun n t => K.site s.compilations n.site = true ∧
    K.Keeps s.compilations (K.remembered n n.name "") t
  targets : s.targets.All fun n table => K.site s.compilations n.site = true ∧
    table.All fun text => K.Keeps s.compilations (K.remembered n text n.indent)
  bindings : s.bindings.All fun n wrappers => Lookup.Made (o.handler.find n.name) wrappers

section Fields

variable (h : s.Holds o K)
include h

theorem Holds.set_templates {table : Table String Template}
    (htable : table.All fun path => K.Keeps s.compilations (K.plain path)) :
    { s with templates := table }.Holds o K :=
  { h with templates := htable }

theorem Holds.set_indented {table : Table (String × String) Template}
    (htable : table.All fun key => K.Keeps s.compilations (K.indented key.1 key.2)) :
    { s with indented := table }.Holds o K :=
  { h with indented := htable }

theorem Holds.set_fragments {table : Table FragmentKey Template}
    (htable : table.All fun key => K.Keeps s.compilations (K.fragment key)) :
    { s with fragments := table }.Holds o K :=
  { h with fragments := htable }

theorem Holds.insert_targets {n : Node} {table : Table String Template}
    (hsite : K.site s.compilations n.site = true)
    (htable : table.All fun text => K.Keeps s.compilations (K.remembered n text n.indent)) :
    { s with targets := s.targets.insert n table }.Holds o K :=
  { h with targets := h.targets.insert ⟨hsite, htable⟩ }

end Fields

theorem Holds.countEviction (h : s.Holds o K) (evicted : Bool) :
    (s.countEviction evicted).Holds o K := by
  unfold Store.countEviction
  split
  · exact ⟨h.1, h.2, h.3, h.4, h.5, h.6, h.7, h.8, h.9⟩
  · exact h

theorem Holds.invalidate (h : s.Holds o K) (path : String) : (s.invalidate path).Holds o K :=
  { h with
    templates := h.templates.of_subset fun _ he => (List.mem_filter.mp he).1
    indented := h.indented.of_subset fun _ he => (List.mem_filter.mp he).1 }

theorem Holds.clear (h : s.Holds o K) : s.clear.Holds o K :=
  { h with
    templates := Table.all_nil
    indented := Table.all_nil
    fragments := Table.all_nil }

theorem Holds.wrappersOf (h : s.Holds o K) (n : Node) :
    Lookup.Made (o.handler.find n.name) (s.wrappersOf n) := by
  unfold Store.wrappersOf
  cases hget : s.bindings.get? n with
  | none => exact Lookup.made_nil
  | some wrappers => exact h.bindings.get? hget

theorem Holds.lookup (h : s.Holds o K) (n : Node) (scopes : Scopes) :
    (s.lookup o n scopes).2.Holds o K :=
  { h with bindings := h.bindings.insert (Lookup.made_snd_lookup (h.wrappersOf n) scopes) }

theorem Holds.targetsOf (h : s.Holds o K) (p : Inclusion) :
    (s.targetsOf p).All fun text =>
      K.Keeps s.compilations (K.remembered p.node text p.indent) := by
  unfold Store.targetsOf
  cases hget : s.targets.get? p.node with
  | none => exact Table.all_nil
  | some table => exact (h.targets.get? hget).2

/-! ## Actions -/

/-- The action comes to one of the answers on every store that holds nothing that is not in stock,
    and leaves it so. -/
def Yields (o : Options) (K : Stock) (m : Nat) (P : Except Error Template → Prop)
    (x : Action Template) : Prop :=
  ∀ s : Store, s.Holds o K → m ≤ s.compilations →
    (∃ t s', x s = .ok (t, s') ∧ K.Keeps s'.compilations P t ∧ s'.Holds o K ∧
      s.compilations ≤ s'.compilations) ∨
    ∃ e, x s = .error e ∧ P (.error e)

theorem Yields.imp {P Q : Except Error Template → Prop} {x : Action Template}
    (hx : Yields o K m P x) (h : ∀ r, P r → Q r) : Yields o K m Q x := by
  intro s hs hm
  obtain ⟨t, s', hok, ⟨hsited, ht⟩, hrest⟩ | ⟨e, herror, he⟩ := hx s hs hm
  · exact .inl ⟨t, s', hok, ⟨hsited, h _ ht⟩, hrest⟩
  · exact .inr ⟨e, herror, h _ he⟩

theorem build_eq (o : Options) (source name : String) (d : Delimiters) (s : Store) :
    build o source name d s = (compiledAs o s.compilations source name d).map fun t =>
      (t, { s with compilations := s.compilations + 1 }) := by
  simp only [build, compiledAs]
  cases Code.parse ⟨name, s.compilations, o.pragmas⟩ d source <;> rfl

/-- A remembered answer is used, and otherwise the answer is looked for. -/
theorem yields_cached {P : Except Error Template → Prop} {x : Action Template}
    (cached : Store → Option Template)
    (hcached : ∀ s t, s.Holds o K → cached s = some t → K.Keeps s.compilations P t)
    (hx : Yields o K m P x) :
    Yields o K m P (do
      match cached (← get) with
      | some t => return t
      | none => x) := by
  intro s hs hm
  cases hget : cached s with
  | some t =>
    refine .inl ⟨t, s, ?_, hcached s t hs hget, hs, Nat.le_refl _⟩
    simp only [bind, StateT.bind, get, getThe, MonadStateOf.get, StateT.get, pure, Except.pure,
      Except.bind, hget]
    rfl
  | none =>
    have hmiss := hx s hs hm
    simp only [bind, StateT.bind, get, getThe, MonadStateOf.get, StateT.get, pure, Except.pure,
      Except.bind, hget]
    exact hmiss

/-- A new answer is remembered. -/
theorem yields_keep {P : Except Error Template → Prop} {x : Action Template}
    (hx : Yields o K m P x) (keep : Template → Store → Template × Store)
    (hkeep : ∀ t s, s.Holds o K → m ≤ s.compilations → K.Keeps s.compilations P t →
      K.Keeps s.compilations P (keep t s).1 ∧ (keep t s).2.Holds o K ∧
        (keep t s).2.compilations = s.compilations) :
    Yields o K m P (do
      let t ← x
      modifyGet (keep t)) := by
  intro s hs hm
  obtain ⟨t, s', hok, ht, hs', hle⟩ | ⟨e, herror, he⟩ := hx s hs hm
  · obtain ⟨hkept, hholds, heq⟩ := hkeep t s' hs' (Nat.le_trans hm hle) ht
    refine .inl ⟨(keep t s').1, (keep t s').2, ?_, heq ▸ hkept, hholds, heq ▸ hle⟩
    simp only [bind, StateT.bind, hok, Except.bind, modifyGet, MonadStateOf.modifyGet,
      StateT.modifyGet, pure, Except.pure]
  · refine .inr ⟨e, ?_, he⟩
    simp only [bind, StateT.bind, herror, Except.bind]

theorem compilations_countEviction (evicted : Bool) (s : Store) :
    (s.countEviction evicted).compilations = s.compilations := by
  unfold Store.countEviction
  split <;> rfl

/-- The text of a template is the loader's. -/
theorem yields_read {P : Except Error Template → Prop} {x : String → Action Template}
    (path : String) (hok : ∀ source, K.loader.read path = .ok source → Yields o K m P (x source))
    (herror : ∀ e, K.loader.read path = .error e → P (.error (.load e))) :
    Yields o K m P (do
      let source ← read path
      x source) := by
  intro s hs hm
  have hloader := hs.loader
  simp only [bind, StateT.bind, read, hloader]
  cases hread : K.loader.read path with
  | ok source => exact hok source hread s hs hm
  | error e => exact .inr ⟨_, rfl, herror e hread⟩

variable (hsupplied : K.Supplied o)
include hsupplied

theorem Keeps.mono {n n' : Nat} (hle : n ≤ n') {P : Except Error Template → Prop} {t : Template}
    (h : K.Keeps n P t) : K.Keeps n' P t :=
  ⟨h.sited.mono (hsupplied.grows hle), h.answer⟩

/-- One compilation more makes nothing wrong that is held. -/
theorem Holds.compiled (h : s.Holds o K) :
    { s with compilations := s.compilations + 1 }.Holds o K :=
  { h with
    since := Nat.le_succ_of_le h.since
    templates := h.templates.imp fun _ _ => Keeps.mono hsupplied (Nat.le_succ _)
    indented := h.indented.imp fun _ _ => Keeps.mono hsupplied (Nat.le_succ _)
    fragments := h.fragments.imp fun _ _ => Keeps.mono hsupplied (Nat.le_succ _)
    inclusions := h.inclusions.imp fun _ _ h =>
      ⟨hsupplied.grows (Nat.le_succ _) _ h.1, Keeps.mono hsupplied (Nat.le_succ _) h.2⟩
    parents := h.parents.imp fun _ _ h =>
      ⟨hsupplied.grows (Nat.le_succ _) _ h.1, Keeps.mono hsupplied (Nat.le_succ _) h.2⟩
    targets := h.targets.imp fun _ _ h => ⟨hsupplied.grows (Nat.le_succ _) _ h.1,
      h.2.imp fun _ _ => Keeps.mono hsupplied (Nat.le_succ _)⟩ }

theorem sited_compiledAs {n : Nat} (hn : K.since ≤ n) {source name : String} {d : Delimiters}
    {t : Template} (h : compiledAs o n source name d = .ok t) :
    Code.SitedAll (K.site (n + 1)) t.codes := by
  simp only [compiledAs] at h
  split at h
  · next codes hparse =>
    cases h
    exact Code.sited_of_parse hparse fun offset => hsupplied.new n offset hn
  · cases h

theorem yields_build {P : Except Error Template → Prop} (source name : String) (d : Delimiters)
    (hP : ∀ n, K.since ≤ n → P (compiledAs o n source name d)) :
    Yields o K m P (build o source name d) := by
  intro s hs hm
  have hcompiled := hP s.compilations hs.since
  rw [build_eq]
  cases hr : compiledAs o s.compilations source name d with
  | error e => exact .inr ⟨e, rfl, hr ▸ hcompiled⟩
  | ok t => exact .inl ⟨t, _, rfl, ⟨sited_compiledAs hsupplied hs.since hr, hr ▸ hcompiled⟩,
      hs.compiled hsupplied, Nat.le_succ _⟩

theorem yields_named (path : String) : Yields o K m (K.plain path) (named o path) := by
  refine yields_cached (fun s => s.templates.get? path)
    (fun s t hs hget => hs.templates.get? hget) (yields_read path (fun source hread => ?_) ?_)
  · refine yields_keep (yields_build hsupplied source path .standard fun n hn => ?_) _
      fun t s hs _ ht => ?_
    · have h := hsupplied.plain n path hn
      rwa [namedAs, hread] at h
    · obtain ⟨hput, hall⟩ := all_put hs.templates o.cacheLimit (o.victim s.evictions) ht
      exact ⟨hput, (hs.set_templates hall).countEviction _,
        compilations_countEviction _ _⟩
  · intro e hread
    have h := hsupplied.plain K.since path (Nat.le_refl _)
    rwa [namedAs, hread] at h

theorem yields_namedIndented (path indent : String) :
    Yields o K m (K.indented path indent) (namedIndented o path indent) := by
  refine yields_cached (fun s => s.indented.get? (path, indent))
    (fun s t hs hget => hs.indented.get? hget) (yields_read path (fun source hread => ?_) ?_)
  · refine yields_keep (yields_build hsupplied _ path .standard fun n hn => ?_) _
      fun t s hs _ ht => ?_
    · have h := hsupplied.indented n path indent hn
      rwa [indentedAs, hread] at h
    · obtain ⟨hput, hall⟩ := all_put hs.indented o.cacheLimit (o.victim s.evictions)
        (show K.Keeps s.compilations (K.indented (path, indent).1 (path, indent).2) t from ht)
      exact ⟨hput, (hs.set_indented hall).countEviction _,
        compilations_countEviction _ _⟩
  · intro e hread
    have h := hsupplied.indented K.since path indent (Nat.le_refl _)
    rwa [indentedAs, hread] at h

theorem yields_linked (name including indent : String) :
    Yields o K m (K.named (Path.resolve name including) indent)
      (linked o name including indent) := by
  simp only [linked]
  split
  · next hempty =>
    exact (yields_named hsupplied _).imp fun r hr => by rwa [Stock.named, if_pos hempty]
  · next hempty =>
    exact (yields_namedIndented hsupplied _ indent).imp fun r hr => by
      rwa [Stock.named, if_neg hempty]

theorem yields_load (name including indent : String) :
    Yields o K m (K.loaded name including indent) (load o name including indent) := by
  intro s hs hm
  have hload : load o name including indent s =
      match linked o name including indent s with
      | .ok r => .ok r
      | .error e => (orEmpty o name (.error e)).map fun t => (t, s) := by
    simp only [load]
    cases linked o name including indent s with
    | ok r => rfl
    | error e =>
      simp only [orEmpty]
      split
      · next heq =>
        cases heq
        simp only
        split <;> rfl
      · next hne =>
        split
        · next missing heq => exact absurd (congrArg _ (Except.error.inj heq)) (hne missing)
        · rfl
  rw [hload]
  obtain ⟨t, s', hok, ⟨hsited, ht⟩, hrest⟩ | ⟨e, herror, he⟩ :=
    yields_linked hsupplied name including indent s hs hm
  · rw [hok]
    exact .inl ⟨t, s', rfl, ⟨hsited, hsupplied.loaded _ _ _ _ ht⟩, hrest⟩
  · rw [herror]
    simp only
    have hloaded := hsupplied.loaded name including indent _ he
    cases horEmpty : orEmpty o name (.error e) with
    | error e' => exact .inr ⟨e', rfl, horEmpty ▸ hloaded⟩
    | ok t =>
      refine .inl ⟨t, s, rfl, ⟨?_, horEmpty ▸ hloaded⟩, hs, Nat.le_refl _⟩
      -- What is loaded for an unknown name has no nodes with sites.
      unfold orEmpty at horEmpty
      split at horEmpty
      · split at horEmpty
        · cases horEmpty
        · cases horEmpty
          rfl
      · cases horEmpty

theorem yields_fragment (text : String) (d : Delimiters) (file : String) :
    Yields o K m (K.fragment ⟨text, d, file⟩) (fragment o text d file) := by
  let key : FragmentKey := ⟨text, d, file⟩
  refine yields_cached (fun s => s.fragments.get? key) (fun s t hs hget => ?_)
    (yields_keep (yields_build hsupplied text file d fun n hn => ?_) _ fun t s hs _ ht => ?_)
  · have h := hs.fragments.get? hget
    exact h
  · have h := hsupplied.fragment n key hn
    exact h
  · obtain ⟨hput, hall⟩ := all_put hs.fragments o.cacheLimit (o.victim s.evictions)
      (show K.Keeps s.compilations (K.fragment key) t from ht)
    exact ⟨hput, (hs.set_fragments hall).countEviction _,
      compilations_countEviction _ _⟩

theorem yields_included {p : Inclusion} (hp : K.site m p.origin.site = true) :
    Yields o K m (K.remembered p.node p.name p.indent) (included o p) := by
  refine yields_cached (fun s => s.inclusions.get? p.node)
    (fun s t hs hget => (hs.inclusions.get? hget).2)
    (yields_keep ((yields_load hsupplied _ _ _).imp fun r hr _ => hr) _ fun t s hs hm ht => ?_)
  have hsite : K.site s.compilations p.node.site = true := hsupplied.grows hm _ hp
  exact ⟨ht, { hs with inclusions := hs.inclusions.insert ⟨hsite, ht⟩ }, rfl⟩

theorem yields_parent {origin : Origin} (name : String) (horigin : K.site m origin.site = true) :
    Yields o K m (K.remembered (origin.node name) name "") (parent o origin name) := by
  refine yields_cached (fun s => s.parents.get? (origin.node name))
    (fun s t hs hget => (hs.parents.get? hget).2)
    (yields_keep ((yields_load hsupplied _ _ _).imp fun r hr _ => hr) _ fun t s hs hm ht => ?_)
  have hsite : K.site s.compilations (origin.node name).site = true :=
    hsupplied.grows hm _ horigin
  exact ⟨ht, { hs with parents := hs.parents.insert ⟨hsite, ht⟩ }, rfl⟩

theorem yields_target {p : Inclusion} (text : String) (hp : K.site m p.origin.site = true) :
    Yields o K m (K.remembered p.node text p.indent) (target o p text) := by
  refine yields_cached (fun s => (s.targetsOf p).get? text)
    (fun s t hs hget => (hs.targetsOf p).get? hget)
    (yields_keep ((yields_load hsupplied _ _ _).imp fun r hr _ => hr) _ fun t s hs hm ht => ?_)
  have hsite : K.site s.compilations p.node.site = true := hsupplied.grows hm _ hp
  obtain ⟨hput, hall⟩ := all_put (hs.targetsOf p) o.cacheLimit (o.victim s.evictions) ht
  exact ⟨hput, (hs.insert_targets hsite hall).countEviction _,
    compilations_countEviction _ _⟩

end Store

end Mustache
