import Mustache.Proofs.Code.Forms
import Mustache.Proofs.Render.Immediate

/-! # Rendering forms

Over the data that its fields are filled in with, a form renders as its text, and a section over a
form as the texts of its rounds.  The data are recovered from what was rendered.

* `Plain.writes_filled`, `Plain.writes_items` — what a form and a section over a list write.
* `Template.Returns` — data that are rendered and recovered.
* `Template.returns_form` — the data of a form, or of a section over one, return.
-/

namespace Mustache

open Recovered (IsWord)

/-! ## Looking fields up -/

/-- A word is looked up in the innermost scope if it is there. -/
theorem Lookup.resolve_word {name : String} (hname : IsWord name) {entries : List (String × Value)}
    {v : Value} (hget : Table.get? name entries = some v) (outer : List Value) :
    resolve name ⟨.map entries :: outer⟩ = v.coerce := by
  have hempty : name.isEmpty = false := by simpa using hname.1
  have hmember : member? (Value.map entries).coerce name = some v := by
    simpa [Value.coerce, member?, hempty] using hget
  rw [resolve, if_neg (show name ≠ "." from hname.ne_currentName), hname.segments]
  simp only [resolveIn, hmember, memberAlong]

namespace Code

variable {f : String → String} {form : List Code}

theorem get?_fields {fs : List Field} {name : String} (h : name ∈ fs.map (·.value.name)) :
    Table.get? name (fs.map fun e => (e.value.name, Value.text (f e.value.name))) =
      some (.text (f name)) := by
  induction fs with
  | nil => cases h
  | cons e fs ih =>
    rw [List.map_cons, Table.get?]
    split
    · next heq => rw [heq]
    · next hne =>
      rw [List.map_cons, List.mem_cons] at h
      exact ih (h.resolve_left (Ne.symm hne))

/-- A field of a form is looked up in the data of the form. -/
theorem IsForm.resolve_data (hform : IsForm form) (outer : List Value) :
    ∀ e ∈ fields form,
      Lookup.resolve e.value.name ⟨data f form :: outer⟩ = .text (f e.value.name) := fun e he =>
  Lookup.resolve_word (hform.words e he) (get?_fields (List.mem_map_of_mem he)) outer

/-- A section over a form is looked up in the data of its rounds. -/
theorem resolve_sectData {fs : List (String → String)} {s : Section Code} (hname : IsWord s.name) :
    Lookup.resolve s.name (.ofList [sectData fs s]) = .list (fs.map (data · s.body)) := by
  have hget : Table.get? s.name [(s.name, Value.list (fs.map (data · s.body)))] =
      some (.list (fs.map (data · s.body))) := if_pos rfl
  exact Lookup.resolve_word hname hget []

theorem immediate_data : (data f form).Immediate := by
  refine .map fun entry hentry => ?_
  obtain ⟨e, -, rfl⟩ := List.mem_map.mp hentry
  exact .text _

theorem immediate_sectData {fs : List (String → String)} {s : Section Code} :
    (sectData fs s).Immediate := by
  refine .map fun entry hentry => List.mem_singleton.mp hentry ▸ .list fun v hv => ?_
  obtain ⟨f, -, rfl⟩ := List.mem_map.mp hv
  exact immediate_data

end Code

/-! ## Writing -/

namespace Plain

open Code (fields filled isPunctuated bareAll)

variable {σ : Type} {o : Options} {l : Loader} {q : Oracle σ} {scopes : Scopes} {cx : Context}
  {r : Renderer σ} {α : Type} {as : List α}

theorem Writes.each_map {f : Value → Plain σ Unit} {item : α → Value} {text : α → List Char}
    (hf : ∀ a ∈ as, Writes (f (item a)) (text a)) :
    Writes (each f (as.map item)) (as.flatMap text) := by
  induction as with
  | nil => exact nothing
  | cons a as ih =>
    exact (hf a List.mem_cons_self).bind (ih fun a ha => hf a (List.mem_cons_of_mem _ ha))

variable (hhandler : o.handler = .standard)
include hhandler

/-- A form writes its text, before what comes after it. -/
theorem writes_filled {n : Nat} {f : String → String} {form more : List Code} {rest : List Char}
    (hpunctuated : isPunctuated form = true)
    (hresolve : ∀ e ∈ fields form, Lookup.resolve e.value.name scopes = .text (f e.value.name))
    (hmore : ((within o l q (n + 1)).nodes (bareAll more) scopes cx).Writes rest) :
    ((within o l q (n + 1)).nodes (bareAll (form ++ more)) scopes cx).Writes
      (filled f form ++ rest) := by
  fun_induction isPunctuated form with
  | case1 => exact hmore
  | case2 s cs ih =>
    rw [filled, List.append_assoc]
    exact (Writes.text s).bind (ih hpunctuated hresolve)
  | case3 v s cs ih =>
    have hfound : Lookup.resolve v.name scopes = .text (.ofList (f v.name).toList) := by
      rw [String.ofList_toList]
      exact hresolve ⟨v, s⟩ List.mem_cons_self
    have hvalue : ((within o l q n).nodeWith o l q (.value v.bare) scopes cx).Writes
        (Code.Field.written ⟨v, s⟩ (f v.name)) := writes_found hhandler v.bare hfound
    rw [filled, List.append_assoc, List.append_assoc]
    exact hvalue.bind ((Writes.text s).bind
      (ih hpunctuated fun e he => hresolve e (List.mem_cons_of_mem _ he)))
  | case4 => cases hpunctuated

/-- A section over a list writes its body for every item, whether or not misses are errors. -/
theorem writes_items (s : Section Code) (hpositive : s.negated = false) {item : α → Value}
    {text : α → List Char} (has : as ≠ [])
    (hresolve : Lookup.resolve s.name scopes = .list (as.map item))
    (hbody : ∀ a ∈ as, (r.nodes s.body (scopes.push (item a)) cx).Writes (text a)) :
    (r.nodeWith o l q (.sect s) scopes cx).Writes (as.flatMap text) := by
  have hnode : r.nodeWith o l q (.sect s) scopes cx =
      r.sect o q s (.list (as.map item)) scopes cx := by
    rw [Renderer.nodeWith, lookupTag_found hhandler (by simp [hresolve]), hresolve]
    rfl
  rw [hnode, sect_eq hhandler s (.leaf (.list _)), hpositive, if_neg Bool.false_ne_true,
    if_neg (by simpa [Value.isFalsey] using has)]
  exact Writes.each_map hbody

/-- A section over a form writes the texts of its rounds. -/
theorem writes_rounds_filled {n : Nat} {fs : List (String → String)} (s : Section Code)
    (hpositive : s.negated = false) (hname : IsWord s.name) (hform : Code.IsForm s.body)
    (hfs : fs ≠ []) :
    ((within o l q (n + 2)).node (.sect s.bare) (.ofList [Code.sectData fs s]) cx).Writes
      (fs.flatMap (filled · s.body)) := by
  refine writes_items (l := l) hhandler s.bare hpositive hfs (Code.resolve_sectData hname)
    fun f _ => ?_
  have hwrites : ((within o l q (n + 1)).nodes (bareAll (s.body ++ []))
      (.push (Code.data f s.body) (.ofList [Code.sectData fs s])) cx).Writes
        (filled f s.body ++ []) :=
    writes_filled hhandler hform.punctuated (hform.resolve_data _) .nothing
  rwa [List.append_nil, List.append_nil] at hwrites

end Plain

/-! ## Whole renders -/

namespace Template

/-- Data that a template renders, and that are recovered from what was rendered. -/
def Returns (o : Options) (store : Store) (n : Nat) (t : Template) (data : Value) : Prop :=
  let r := renderWithin n o t (.ofList [data]) (.buffer "") store
  r.result = .ok () ∧ t.invert (r.final.streams.textOf 0) = some data

section

variable {o : Options} {l : Loader} {store : Store} {n : Nat} {t : Template}

/-- Data without deferred computations return if their text is written and they are recovered
    from it. -/
theorem returns_of_writes (hhandler : o.handler = .standard) (hstore : store.Faithful o l)
    {data : Value} (hdata : data.Immediate) {text : List Char}
    (hwrites : ((Plain.within o l .counting n).nodes t.bare.codes (.ofList [data]) .start).Writes
      text) (hinvert : Code.invert t.codes (.ofList text) = some data) :
    t.Returns o store n data := by
  rw [← String.toList_ofList (l := text)] at hwrites
  have hscopes : (Scopes.ofList [data]).All Value.Immediate := fun u hu =>
    List.mem_singleton.mp hu ▸ hdata
  obtain ⟨hresult, htext⟩ := renderWithin_of_writes hhandler hstore hscopes hwrites
  refine ⟨hresult, ?_⟩
  rw [htext]
  exact hinvert

/-- **Forms give back their data.**  What a form is filled in with is recovered from what it renders
    as, and a section over a form gives back the list of what its rounds were filled in with, with
    any options. -/
theorem returns_form (hhandler : o.handler = .standard) (hstore : store.Faithful o l)
    {form : List Code} (hform : Code.IsForm form) (hn : 2 ≤ n) :
    (∀ (t : Template) (f : String → String), t.codes = form ++ [.eof] → Code.Fits f form →
      t.Returns o store n (Code.data f form)) ∧
    ∀ (t : Template) (s : Section Code) (fs : List (String → String)),
      t.codes = [.sect s, .eof] → s.negated = false → s.body = form → IsWord s.name →
      Code.fields form ≠ [] → fs ≠ [] → (∀ f ∈ fs, Code.Fits f form) →
        t.Returns o store n (Code.sectData fs s) := by
  obtain ⟨n, rfl⟩ : ∃ k, n = k + 2 := ⟨n - 2, by omega⟩
  constructor
  · intro t f hcodes hfits
    have hwrites : ((Plain.within o l .counting (n + 2)).nodes (Code.bareAll (form ++ [.eof]))
        (.ofList [Code.data f form]) .start).Writes (Code.filled f form ++ []) :=
      Plain.writes_filled hhandler hform.punctuated (hform.resolve_data []) .nothing
    rw [List.append_nil, ← hcodes] at hwrites
    exact returns_of_writes hhandler hstore Code.immediate_data hwrites
      (hcodes ▸ Code.invert_form hform hfits)
  · rintro t s fs hcodes hpositive rfl hname hfields hfs hfits
    have hwrites : ((Plain.within o l .counting (n + 2)).nodes (Code.bareAll [.sect s, .eof]) _
        .start).Writes (fs.flatMap (Code.filled · s.body) ++ ([] ++ [])) :=
      (Plain.writes_rounds_filled hhandler s hpositive hname hform hfs).bind
        (.bind .nothing .nothing)
    rw [List.append_nil, List.append_nil, ← hcodes] at hwrites
    exact returns_of_writes hhandler hstore Code.immediate_sectData hwrites
      (hcodes ▸ Code.invert_sect hpositive hname hform hfields hfs hfits)

end

/-- The cells of a menu, and rows of them, under strict options and with a schedule. -/
theorem returns_form_menu :
    let o : Options :=
      { Options.standard with strict := true, failOnMiss := true, schedule := some .oldestFirst }
    let cells := "<td>\x7b\x7bname\x7d\x7d</td><td>\x7b\x7b&price\x7d\x7d</td>"
    let cell : Template :=
      ⟨"menu", cells, (Code.parse ⟨"menu", 0, []⟩ .standard cells).toOption.getD []⟩
    let form := cell.codes.dropLast
    let rows : Section Code :=
      ⟨⟨.standard, "menu", 1, true, .parsed 1 0⟩, "rows", false, .standard, cells, form⟩
    let fish (name : String) : String := if name = "name" then "Fish & chips" else "<b>8</b>"
    let cake (name : String) : String := if name = "name" then "<i>Cake</i>" else ""
    Code.IsForm form ∧ (Code.Fits fish form ∧ Code.Fits cake form) ∧
      cell.Returns o (.new (.memory [])) 2 (Code.data fish form) ∧
        Returns o (.new (.memory [])) 2 ⟨"menu", "", [.sect rows, .eof]⟩
          (Code.sectData [fish, cake] rows) := by
  intro o cells cell form rows fish cake
  obtain ⟨hparses, hform, hfish, hcake, hfields⟩ :
      (Code.parse ⟨"menu", 0, []⟩ .standard cells).toOption.isSome = true ∧ Code.IsForm form ∧
        Code.Fits fish form ∧ Code.Fits cake form ∧ (Code.fields form).isEmpty = false := by
    decide +kernel
  have hcodes : cell.codes = form ++ [.eof] := by
    have hlast : cell.codes.getLast? = some .eof :=
      Code.getLast?_of_parse (Code.eq_ok_of_isSome hparses [])
    exact (List.dropLast_append_getLast? _ hlast).symm
  have hstore := Store.faithful_new o (.memory [])
  refine ⟨hform, ⟨hfish, hcake⟩,
    (returns_form rfl hstore hform (Nat.le_refl 2)).1 cell fish hcodes hfish,
    (returns_form rfl hstore hform (Nat.le_refl 2)).2 _ rows [fish, cake] rfl rfl rfl (by decide)
      (List.isEmpty_eq_false_iff.mp hfields) (List.cons_ne_nil _ _) ?_⟩
  simpa using And.intro hfish hcake

end Template

end Mustache
