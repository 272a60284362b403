import Mustache.Proofs.Engine.Stock

/-! # Loading with a memory

What a store remembers are answers.  It is faithful if every answer in it is the one that would be
given again by a store that remembers nothing, up to the sites of nodes.  Every action on a store
keeps it faithful, and comes to what it comes to without a memory, failures included.

* `Loading` — what loading comes to without a memory.
* `Store.Faithful` — every remembered answer is the answer without a memory.
* `Store.Answers` — an action comes to an answer on every faithful store, and keeps it faithful.
-/

namespace Mustache

/-! ## Without a memory -/

namespace Loading

variable (o : Options) (l : Loader)

def compiled (source name : String) (d : Delimiters) : Except Error Template :=
  match Code.parse ⟨name, 0, o.pragmas⟩ d source with
  | .ok codes => .ok (Template.bare ⟨name, source, codes⟩)
  | .error e => .error (.compile e)

/-- The template of text, if the delimiters are valid. -/
def compiledText (source name : String) (d : Delimiters) : Except Error Template :=
  if d.isValid then compiled o source name d
  else .error (.compile ⟨name, 1, 1, .invalidDelimiters d.print⟩)

def named (path : String) : Except Error Template :=
  match l.read path with
  | .ok source => compiled o source path .standard
  | .error e => .error (.load e)

/-- The template with a path, every line indented. -/
def namedIndented (path indent : String) : Except Error Template :=
  match l.read path with
  | .ok source =>
    compiled o (.ofList (Text.indentLines indent.toList source.toList)) path .standard
  | .error e => .error (.load e)

/-- The template that a name in a tag leads to. -/
def linked (name including indent : String) : Except Error Template :=
  let path := Path.resolve name including
  if indent.isEmpty then named o l path else namedIndented o l path indent

/-- The template that a name in a tag leads to, with nothing for an unknown name outside strict
    mode. -/
def load (name including indent : String) : Except Error Template :=
  match linked o l name including indent with
  | .error (.load (.notFound missing)) =>
    if o.strict then .error (.load (.notFound missing)) else .ok (Template.empty name).bare
  | r => r

end Loading

/-! ## The answers at present -/

namespace Loading

variable {o : Options} {l : Loader} {S : Site → Bool} {since : Nat}

/-- An answer is another one up to sites, and its sites have a property. -/
structure Meets (S : Site → Bool) (r₀ r : Except Error Template) : Prop where
  same : r.map Template.bare = r₀
  sited : ∀ t, r = .ok t → Code.SitedAll S t.codes

/-- What loading comes to at present, for trees whose sites have a property; what a node remembers
    matters if its site has it. -/
def stock (o : Options) (l : Loader) (since : Nat) (S : Site → Bool) : Stock where
  loader := l
  since := since
  site _ _ := true
  known := S
  plain path := Meets S (named o l path)
  indented path indent := Meets S (namedIndented o l path indent)
  fragment key := Meets S (compiled o key.text key.file key.delimiters)
  loaded name including indent := Meets S (load o l name including indent)

theorem meets_compiledAs {n : Nat} (hS : ∀ offset, S (.parsed n offset) = true)
    (source name : String) (d : Delimiters) :
    Meets S (compiled o source name d) (Store.compiledAs o n source name d) := by
  have hparse := Code.parse_bare ⟨name, 0, o.pragmas⟩ n d source
  rw [show Source.at ⟨name, 0, o.pragmas⟩ n = ⟨name, n, o.pragmas⟩ from rfl] at hparse
  obtain ⟨e, h, h0⟩ | ⟨codes, codes0, h, h0, hbare⟩ := Code.error_or_ok_of_map_eq hparse
  · simp only [compiled, Store.compiledAs, h, h0]
    exact ⟨rfl, by rintro _ ⟨⟩⟩
  · simp only [compiled, Store.compiledAs, h, h0]
    refine ⟨by simp only [Except.map, Template.bare, hbare], ?_⟩
    rintro t ⟨⟩
    exact Code.sited_of_parse h hS

theorem Meets.orEmpty {name including indent : String} {r : Except Error Template}
    (h : Meets S (linked o l name including indent) r) :
    Meets S (load o l name including indent) (Store.orEmpty o name r) := by
  obtain ⟨hsame, hsited⟩ := h
  rw [load, ← hsame]
  cases r with
  | ok t => exact ⟨rfl, hsited⟩
  | error e =>
    cases e with
    | load cause =>
      cases cause with
      | notFound missing =>
        simp only [Except.map, Store.orEmpty]
        split
        · exact ⟨rfl, by rintro _ ⟨⟩⟩
        · refine ⟨rfl, ?_⟩
          rintro t ⟨⟩
          rfl
      | unreadable _ _ => exact ⟨rfl, by rintro _ ⟨⟩⟩
    | _ => exact ⟨rfl, by rintro _ ⟨⟩⟩

theorem supplied_stock (hS : ∀ n offset, since ≤ n → S (.parsed n offset) = true) :
    (stock o l since S).Supplied o where
  inherited _ := fun _ _ => rfl
  grows _ _ h := h
  new _ _ _ := rfl
  plain n path hn := by
    simp only [stock, named, Store.namedAs]
    cases l.read path with
    | ok source => exact meets_compiledAs (fun offset => hS n offset hn) source path .standard
    | error e => exact ⟨rfl, by rintro _ ⟨⟩⟩
  indented n path indent hn := by
    simp only [stock, namedIndented, Store.indentedAs]
    cases l.read path with
    | ok source => exact meets_compiledAs (fun offset => hS n offset hn) _ path .standard
    | error e => exact ⟨rfl, by rintro _ ⟨⟩⟩
  fragment n key hn := meets_compiledAs (fun offset => hS n offset hn) key.text key.file _
  loaded name including indent r hr := by
    refine Meets.orEmpty ?_
    rw [linked]
    simp only [Stock.named, stock] at hr
    split at hr
    · next hempty => rwa [if_pos hempty]
    · next hempty => rwa [if_neg hempty]

/-- Among all trees, those that mean a template are the same up to sites. -/
theorem meets_ok_iff {r₀ : Except Error Template} {t : Template} :
    Meets (fun _ => true) r₀ (.ok t) ↔ r₀ = .ok t.bare :=
  ⟨fun h => h.same.symm, fun h => ⟨h.symm, fun t' _ => Code.sitedAll_true t'.codes⟩⟩

end Loading

namespace Store

/-! ## Faithful stores -/

/-- A store over a loader that remembers nothing but the answers that it would be given again. -/
structure Faithful (o : Options) (l : Loader) (s : Store) : Prop where
  loader : s.loader = l
  templates : s.templates.All fun path t => Loading.named o l path = .ok t.bare
  indented : s.indented.All fun key t => Loading.namedIndented o l key.1 key.2 = .ok t.bare
  fragments : s.fragments.All fun key t =>
    Loading.compiled o key.text key.file key.delimiters = .ok t.bare
  inclusions : s.inclusions.All fun n t => Loading.load o l n.name n.file n.indent = .ok t.bare
  parents : s.parents.All fun n t => Loading.load o l n.name n.file "" = .ok t.bare
  targets : s.targets.All fun n table =>
    table.All fun text t => Loading.load o l text n.file n.indent = .ok t.bare
  bindings : s.bindings.All fun n wrappers => Lookup.Made (o.handler.find n.name) wrappers

variable {o : Options} {l : Loader} {s : Store}

theorem faithful_new (o : Options) (l : Loader) : (Store.new l).Faithful o l :=
  ⟨rfl, Table.all_nil, Table.all_nil, Table.all_nil, Table.all_nil, Table.all_nil, Table.all_nil,
    Table.all_nil⟩

/-- A store is faithful if it holds nothing but what loading comes to at present. -/
theorem faithful_iff : s.Faithful o l ↔ s.Holds o (Loading.stock o l 0 fun _ => true) := by
  have hkeeps {n : Nat} {r₀ : Except Error Template} {t : Template} :
      (Loading.stock o l 0 fun _ => true).Keeps n (Loading.Meets (fun _ => true) r₀) t ↔
        r₀ = .ok t.bare :=
    ⟨fun h => Loading.meets_ok_iff.mp h.answer,
      fun h => ⟨Code.sitedAll_true t.codes, Loading.meets_ok_iff.mpr h⟩⟩
  have hremembers {n : Nat} {node : Node} {name indent : String} {t : Template} :
      (Loading.stock o l 0 fun _ => true).Keeps n
          ((Loading.stock o l 0 fun _ => true).remembered node name indent) t ↔
        Loading.load o l name node.file indent = .ok t.bare :=
    ⟨fun h => Loading.meets_ok_iff.mp (h.answer rfl),
      fun h => ⟨Code.sitedAll_true t.codes, fun _ => Loading.meets_ok_iff.mpr h⟩⟩
  constructor
  · intro h
    exact
      { loader := h.loader
        since := Nat.zero_le _
        templates := h.templates.imp fun _ _ => hkeeps.mpr
        indented := h.indented.imp fun _ _ => hkeeps.mpr
        fragments := h.fragments.imp fun _ _ => hkeeps.mpr
        inclusions := h.inclusions.imp fun _ _ h => ⟨rfl, hremembers.mpr h⟩
        parents := h.parents.imp fun _ _ h => ⟨rfl, hremembers.mpr h⟩
        targets := h.targets.imp fun _ _ h => ⟨rfl, h.imp fun _ _ => hremembers.mpr⟩
        bindings := h.bindings }
  · intro h
    exact
      { loader := h.loader
        templates := h.templates.imp fun _ _ => hkeeps.mp
        indented := h.indented.imp fun _ _ => hkeeps.mp
        fragments := h.fragments.imp fun _ _ => hkeeps.mp
        inclusions := h.inclusions.imp fun _ _ h => hremembers.mp h.2
        parents := h.parents.imp fun _ _ h => hremembers.mp h.2
        targets := h.targets.imp fun _ _ h => h.2.imp fun _ _ => hremembers.mp
        bindings := h.bindings }

theorem Faithful.invalidate (h : s.Faithful o l) (path : String) :
    (s.invalidate path).Faithful o l :=
  faithful_iff.mpr ((faithful_iff.mp h).invalidate path)

theorem Faithful.clear (h : s.Faithful o l) : s.clear.Faithful o l :=
  faithful_iff.mpr (faithful_iff.mp h).clear

/-! ## Actions -/

/-- The action comes to the answer on every faithful store, and keeps it faithful. -/
def Answers (o : Options) (l : Loader) (x : Action Template) (r : Except Error Template) : Prop :=
  ∀ s : Store, s.Faithful o l →
    (∃ t s', x s = .ok (t, s') ∧ r = .ok t.bare ∧ s'.Faithful o l) ∨
    (∃ e, x s = .error e ∧ r = .error e)

theorem answers_of_yields {x : Action Template} {r : Except Error Template}
    (h : Yields o (Loading.stock o l 0 fun _ => true) 0 (Loading.Meets (fun _ => true) r) x) :
    Answers o l x r := by
  intro s hs
  obtain ⟨t, s', hok, ⟨-, ht⟩, hs', -⟩ | ⟨e, herror, he⟩ :=
    h s (faithful_iff.mp hs) (Nat.zero_le _)
  · exact .inl ⟨t, s', hok, ht.same.symm, faithful_iff.mpr hs'⟩
  · exact .inr ⟨e, herror, he.same.symm⟩

theorem supplied_true : (Loading.stock o l 0 fun _ => true).Supplied o :=
  Loading.supplied_stock fun _ _ _ => rfl

theorem answers_compileText (source name : String) (d : Delimiters) :
    Answers o l (compileText o source name d) (Loading.compiledText o source name d) := by
  unfold compileText Loading.compiledText
  split
  · exact answers_of_yields (yields_build supplied_true source name d fun n _ =>
      Loading.meets_compiledAs (fun _ => rfl) source name d)
  · exact fun s _ => .inr ⟨_, rfl, rfl⟩

theorem answers_named (path : String) :
    Answers o l (named o path) (Loading.named o l path) :=
  answers_of_yields (yields_named supplied_true path)

theorem answers_fragment (text : String) (d : Delimiters) (file : String) :
    Answers o l (fragment o text d file) (Loading.compiled o text file d) :=
  answers_of_yields (yields_fragment supplied_true text d file)

theorem answers_included (p : Inclusion) :
    Answers o l (included o p) (Loading.load o l p.name p.origin.file p.indent) :=
  answers_of_yields ((yields_included supplied_true rfl).imp fun _ hr => hr rfl)

theorem answers_parent (origin : Origin) (name : String) :
    Answers o l (parent o origin name) (Loading.load o l name origin.file "") :=
  answers_of_yields ((yields_parent supplied_true name rfl).imp fun _ hr => hr rfl)

theorem answers_target (p : Inclusion) (text : String) :
    Answers o l (target o p text) (Loading.load o l text p.origin.file p.indent) :=
  answers_of_yields ((yields_target supplied_true text rfl).imp fun _ hr => hr rfl)

/-- A lookup comes to a new decision, and keeps the store faithful. -/
theorem lookup_eq (hreuse : ∀ name, Lookup.Reusable (o.handler.find name))
    (hs : s.Faithful o l) (n : Node) (scopes : Scopes) :
    (s.lookup o n scopes).1 = .ofWrapper (o.handler.find n.name scopes) scopes ∧
      (s.lookup o n scopes).2.Faithful o l := by
  have hholds := faithful_iff.mp hs
  exact ⟨Lookup.fst_lookup (hreuse n.name) (hholds.wrappersOf n) scopes,
    faithful_iff.mpr (hholds.lookup n scopes)⟩

end Store

end Mustache
