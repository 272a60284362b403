import Mustache.Proofs.Code.RawText
import Mustache.Proofs.Render.Schedules
import Mustache.Proofs.Render.Unlined

/-! # Lambdas that return the raw text

A template lambda is given the raw text of its section, and what it returns is rendered in the place
of the body.  If it returns the raw text as it is, the body is rendered after all: the raw text of a
section whose tags stand alone is parsed to the body of the section, but for lines.

* `Render.Alike` — two runs that show the same, but for lines.
* `Plain.sectionLambda_raw` — a plain lambda that returns the raw text does what the body does.
* `Section.raw_stands_for_body` — the raw text of a section, parsed and rendered.
-/

namespace Mustache

open Code (adjustAll WrittenIn)

/-! ## Runs that show the same -/

/-- Two runs from the same world, over one of its destinations, show the same: they have written the
    same there and have changed nothing else, they have ended in the same way but for the line that
    an error tells, and the same computations have run. -/
structure Render.Alike (o : Options) (l : Loader) (k : Nat) (w : World)
    (r r' : Except Stop Writer × World) : Prop where
  ending : SameButLines r.1 r'.1
  wrote : ∃ dest, World.Wrote o l k dest w r.2 ∧ World.Wrote o l k dest w r'.2
  runs : ∀ out, r.1 = .ok out → r.2.runs = r'.2.runs

variable {o : Options} {l : Loader} {k n : Nat} {dest : Output} {w : World}

/-- Runs that did what plain actions do show the same if the plain actions do. -/
theorem Ran.alike {texts : List String} {ending ending' : Except Stop Unit} {s : Table Nat Nat}
    {r r' : Except Stop Writer × World} (h : Ran o l Eq k dest w texts ending s r)
    (h' : Ran o l Eq k dest w texts ending' s r') (hending : SameButLines ending ending') :
    Render.Alike o l k w r r' := by
  obtain ⟨result, w₁⟩ := r
  obtain ⟨result', w₂⟩ := r'
  simp only [Ran] at h h'
  rcases hfeed : dest.feed texts with ⟨_ | cause, dest'⟩
  · rw [hfeed] at h h'
    obtain ⟨rfl, hwrote, hruns⟩ := h
    obtain ⟨rfl, hwrote', hruns'⟩ := h'
    refine ⟨?_, ⟨dest', hwrote, hwrote'⟩, fun _ _ => hruns.trans hruns'.symm⟩
    obtain ⟨a, rfl, rfl⟩ | ⟨e, e', rfl, rfl, he⟩ := hending
    · exact .refl _
    · exact .inr ⟨e, e', rfl, rfl, he⟩
  · rw [hfeed] at h h'
    obtain ⟨rfl, hwrote⟩ := h
    obtain ⟨rfl, hwrote'⟩ := h'
    exact ⟨.refl _, ⟨dest', hwrote, hwrote'⟩, fun _ hok => by cases hok⟩

/-! ## Trees without lines -/

/-- The node for the end of a template shows nowhere. -/
theorem Plain.nodes_eof {σ : Type} (q : Oracle σ) (codes : List Code) (scopes : Scopes)
    (cx : Context) : (Plain.within o l q (n + 1)).nodes (codes ++ [.eof]) scopes cx =
      (Plain.within o l q (n + 1)).nodes codes scopes cx := by
  induction codes with
  | nil => rfl
  | cons c cs ih =>
    rw [List.cons_append, Plain.Renderer.nodes, Plain.each]
    rw [Plain.Renderer.nodes] at ih
    rw [ih]
    rfl

/-- What one action means, another means that does the same but for lines. -/
theorem Plain.Unlined.means {p p' : Plain Unit Unit} {text : String} {good : Bool}
    (h : p.Unlined p') (hmeans : p'.Means text good) : p.Means text good := by
  obtain ⟨htexts, hending, -⟩ := h ()
  obtain ⟨htext, hwithin, hgood⟩ := hmeans
  refine ⟨htexts ▸ htext, fun hexhausted => hwithin ?_, hgood ▸ ?_⟩
  · obtain ⟨a, ha, -⟩ | ⟨e, e', he, he', hsame⟩ := hending
    · cases ha.symm.trans hexhausted
    · obtain rfl : e = .exhausted := Except.error.inj (he.symm.trans hexhausted)
      rw [he', Stop.eq_exhausted hsame.symm]
  · obtain ⟨a, ha, ha'⟩ | ⟨e, e', he, he', -⟩ := hending
    · rw [ha, ha']
    · rw [he, he']
      rfl

/-- Where computations are put off, an action that owes what a plain action means owes what others
    mean that do the same but for lines. -/
theorem Scheduled.unlined {V : Value → Prop} {top : Nat} {x : Writer → Render Writer}
    {p p' : Plain Unit Unit} (h : Scheduled o l V top x p) (hp : p.Unlined p') :
    Scheduled o l V top x p' := by
  intro w out hstore hclosed hout
  obtain ⟨jobs, hput, howes⟩ := h w out hstore hclosed hout
  exact ⟨jobs, hput, fun hheld hmeans => howes hheld (hp.means hmeans)⟩

/-! ## Lambdas -/

theorem Loading.compiled_of_parse {d : Delimiters} {file raw : String} {codes : List Code}
    (hparse : Code.parse ⟨file, 0, o.pragmas⟩ d raw = .ok codes) :
    compiled o raw file d = .ok (Template.bare ⟨file, raw, codes⟩) := by
  simp only [compiled, hparse]

section

variable {sec : Section Code} {f : Lambda} {codes : List Code}
  (hparse : Code.parse ⟨sec.origin.file, 0, o.pragmas⟩ sec.origin.delimiters sec.raw = .ok codes)
  (hcodes : adjustAll .unlined codes = adjustAll .unlined (sec.body ++ [.eof]))
  (hkind : f.kind = .template) (hraw : f.apply sec.raw = sec.raw)
include hparse hcodes hkind hraw

/-- A template lambda that returns the raw text renders a tree that is the body, but for lines. -/
theorem Renderer.exists_sectionLambda_raw (hw : w.store.Faithful o l) :
    ∃ (t : Template) (store : Store), store.Faithful o l ∧
      adjustAll .unlined t.codes = adjustAll .unlined (sec.body ++ [.eof]) ∧
      ∀ (r : Renderer) (scopes : Scopes) (cx : Context) (out : Writer),
        r.sectionLambda o sec f scopes cx out w =
          r.nodes t.codes scopes cx out { w with store } := by
  have hcompiled := Loading.compiled_of_parse hparse
  obtain ⟨t, store, hfragment, ht, hstore⟩ | ⟨e, -, he⟩ :=
    Store.answers_fragment sec.raw sec.origin.delimiters sec.origin.file w.store hw
  · have hbare : Code.bareAll t.codes = Code.bareAll codes :=
      congrArg Template.codes (Except.ok.inj (ht.symm.trans hcompiled))
    refine ⟨t, store, hstore, ?_, fun r scopes cx out => ?_⟩
    · rw [← hcodes, ← Code.adjustAll_unlined_bareAll, hbare, Code.adjustAll_unlined_bareAll]
    · simp only [Renderer.sectionLambda, hkind, hraw, bind, Render.withStore, hfragment]
  · rw [hcompiled] at he
    cases he

/-- In the plain render, such a lambda does what the body does, but for lines. -/
theorem Plain.sectionLambda_raw {σ : Type} (q : Oracle σ) (n : Nat) (scopes : Scopes)
    (cx : Context) :
    ((Plain.within o l q (n + 1)).sectionLambda o sec.bare f scopes cx).Unlined
      ((Plain.within o l q (n + 1)).nodes (Code.bareAll sec.body) scopes cx) := by
  have hcompiled : Loading.compiled o (f.apply sec.bare.raw) sec.bare.origin.file
      sec.bare.origin.delimiters = .ok (Template.bare ⟨sec.origin.file, sec.raw, codes⟩) := by
    rw [show f.apply sec.bare.raw = sec.raw from hraw]
    exact Loading.compiled_of_parse hparse
  have hlambda : (Plain.within o l q (n + 1)).sectionLambda o sec.bare f scopes cx =
      (Plain.within o l q (n + 1)).nodes (Code.bareAll codes) scopes cx := by
    simp only [Plain.Renderer.sectionLambda, hkind, hcompiled]
    rfl
  have hbare : adjustAll .unlined (Code.bareAll codes) =
      adjustAll .unlined (Code.bareAll sec.body ++ [.eof]) := by
    rw [Code.adjustAll_append, Code.adjustAll_unlined_bareAll, Code.adjustAll_unlined_bareAll,
      hcodes, Code.adjustAll_append]
  have hnodes := (Plain.unlined_within o l q (n + 1)).nodes_congr hbare scopes cx
  rwa [Plain.nodes_eof, ← hlambda] at hnodes

variable (hreuse : ∀ name, Lookup.Reusable (o.handler.find name))
include hreuse

/-- Where nothing is put off, such a lambda writes what the body writes, and ends as the body
    does. -/
theorem Renderer.sectionLambda_alike (n : Nat) (scopes : Scopes) {cx : Context}
    (hcx : cx.isInline = true ∨ o.schedule = none) (hw : w.store.Faithful o l)
    (hdest : w.streams.outputs[k]? = some dest) :
    Render.Alike o l k w
      ((Renderer.within o (n + 1)).sectionLambda o sec f scopes cx (.direct k) w)
      ((Renderer.within o (n + 1)).nodes sec.body scopes cx (.direct k) w) := by
  have hsim : Simulation o l .counting _ (n + 1) 0 _ :=
    inline_simulation hreuse o.handler.keeps_true Oracle.counting_models
  have hsimulates := hsim.simulates (Nat.le_refl (n + 1))
  have hscopes : scopes.All fun _ => True := fun _ _ => trivial
  have hran := hsim.sectionLambda hsimulates hscopes cx sec f hcx w w.runs k dest hw rfl hdest
  have hran' := hsim.nodes hsimulates hscopes cx sec.body hcx w w.runs k dest hw rfl hdest
  obtain ⟨htexts, hending, hruns⟩ :=
    Plain.sectionLambda_raw (l := l) hparse hcodes hkind hraw .counting n scopes cx w.runs
  rw [htexts, hruns] at hran
  exact hran.alike hran' hending

/-- Where computations are put off, such a lambda owes what the body means. -/
theorem Renderer.sectionLambda_scheduled {V : Value → Prop} {top : Nat} (hn : n < top)
    (hkeeps : o.handler.Keeps V) (hq : Oracle.steady.Models V fun _ _ => True) {scopes : Scopes}
    (hscopes : scopes.All V) {cx : Context} (hcx : cx.isInline = false) :
    let body := (Plain.within o l .steady (n + 1)).nodes (Code.bareAll sec.body) scopes cx
    Scheduled o l V top ((Renderer.within o (n + 1)).sectionLambda o sec f scopes cx) body ∧
      Scheduled o l V top ((Renderer.within o (n + 1)).nodes sec.body scopes cx) body := by
  have hsim : Simulation o l .steady V top 0 (Follows o l V top) :=
    scheduled_simulation hreuse hkeeps hq
  have hsimulates := hsim.simulates hn
  exact ⟨((hsim.sectionLambda hsimulates hscopes cx sec f).scheduled hcx).unlined
    (Plain.sectionLambda_raw hparse hcodes hkind hraw .steady n scopes cx),
    (hsim.nodes hsimulates hscopes cx sec.body).scheduled hcx⟩

end

/-- **The raw text of a section stands for its body.**  If both tags of a section stand alone on
    their lines, its raw text is parsed to its body, but for lines, in the delimiters of its open
    tag.  So a template lambda that returns it renders the body in the current scopes.

    In any case it renders a tree that is the body without its lines, with the same scopes, context
    and writer.  Where nothing is put off, it writes what the body writes, runs what the body runs
    and ends as the body does.  Where computations are put off, it owes what the body owes. -/
theorem Section.raw_stands_for_body (hreuse : ∀ name, Lookup.Reusable (o.handler.find name))
    {file text : String} {number : Nat} {d : Delimiters} {codes : List Code} {sec : Section Code}
    (hd : d.isValid = true) (hparse : Code.parse ⟨file, number, o.pragmas⟩ d text = .ok codes)
    (hsec : WrittenIn (.sect sec) codes) (halone : sec.standsAlone text = true) :
    (∀ m, ∃ codes', Code.parse ⟨file, m, o.pragmas⟩ sec.origin.delimiters sec.raw = .ok codes' ∧
      adjustAll .unlined codes' = adjustAll .unlined (sec.body ++ [.eof])) ∧
    ∀ (f : Lambda) (l : Loader), f.kind = .template → f.apply sec.raw = sec.raw →
      (∀ w : World, w.store.Faithful o l → ∃ (t : Template) (store : Store),
        store.Faithful o l ∧
        adjustAll .unlined t.codes = adjustAll .unlined (sec.body ++ [.eof]) ∧
        ∀ (r : Renderer) (scopes : Scopes) (cx : Context) (out : Writer),
          r.sectionLambda o sec f scopes cx out w =
            r.nodes t.codes scopes cx out { w with store }) ∧
      (∀ (n k : Nat) (dest : Output) (scopes : Scopes) (cx : Context) (w : World),
        (cx.isInline = true ∨ o.schedule = none) → w.store.Faithful o l →
        w.streams.outputs[k]? = some dest →
        Render.Alike o l k w
          ((Renderer.within o (n + 1)).sectionLambda o sec f scopes cx (.direct k) w)
          ((Renderer.within o (n + 1)).nodes sec.body scopes cx (.direct k) w)) ∧
      ∀ (n top : Nat) (scopes : Scopes) (cx : Context), n < top → cx.isInline = false →
        o.handler.Keeps Value.Steady → scopes.All Value.Steady →
        let body := (Plain.within o l .steady (n + 1)).nodes (Code.bareAll sec.body) scopes cx
        Scheduled o l Value.Steady top
          ((Renderer.within o (n + 1)).sectionLambda o sec f scopes cx) body ∧
        Scheduled o l Value.Steady top
          ((Renderer.within o (n + 1)).nodes sec.body scopes cx) body := by
  have hraw := Code.exists_parse_raw hd hparse hsec halone
  refine ⟨hraw, fun f l hkind hreturns => ?_⟩
  obtain ⟨codes', hparse', hcodes⟩ := hraw 0
  have hfile : sec.origin.file = file := Code.file_of_writtenIn hd hparse hsec
  rw [← hfile] at hparse'
  refine ⟨fun w hw => ?_, fun n k dest scopes cx w hcx hw hdest => ?_,
    fun n top scopes cx hn hcx hkeeps hscopes => ?_⟩
  · exact Renderer.exists_sectionLambda_raw hparse' hcodes hkind hreturns hw
  · exact Renderer.sectionLambda_alike hparse' hcodes hkind hreturns hreuse n scopes hcx hw hdest
  · exact Renderer.sectionLambda_scheduled hparse' hcodes hkind hreturns hreuse hn hkeeps
      Oracle.steady_models hscopes hcx

/-- A section in a section, with other delimiters and an inclusion that is indented, and a lambda
    that returns what it is given. -/
theorem Section.raw_stands_for_body_page :
    let text := "{{#s}}\n{{=| |=}}\n  |#item|\n\t|> part|\n{{name}} |name|\n  |/item|\n|/s|\n"
    let f : Lambda := ⟨0, .template, id⟩
    let w : World := .start (.new (.memory [("part", .text "<|.|>")])) ⟨[.buffer ""], []⟩
    ∃ codes sec, Code.parse ⟨"page", 0, []⟩ .standard text = .ok codes ∧
      WrittenIn (.sect sec) codes ∧ sec.standsAlone text = true ∧
      (∃ codes', Code.parse ⟨"page", 1, []⟩ sec.origin.delimiters sec.raw = .ok codes' ∧
        adjustAll .unlined codes' = adjustAll .unlined (sec.body ++ [.eof])) ∧
      Render.Alike .standard (.memory [("part", .text "<|.|>")]) 0 w
        ((Renderer.within .standard 9).sectionLambda .standard sec f (.ofList []) .start (.direct 0)
          w)
        ((Renderer.within .standard 9).nodes sec.body (.ofList []) .start (.direct 0) w) := by
  intro text f w
  have hparse := Code.eq_ok_of_isSome (x := Code.parse ⟨"page", 0, []⟩ .standard text)
    (by decide +kernel) []
  generalize hcodes : (Code.parse ⟨"page", 0, []⟩ .standard text).toOption.getD [] = codes at hparse
  have hfind : (Code.sectionsOf codes).any (fun outer => (Code.sectionsOf outer.body).any
      fun sec => sec.standsAlone text) = true := by
    rw [← hcodes]
    decide +kernel
  obtain ⟨outer, houter, hinner⟩ := List.any_eq_true.mp hfind
  obtain ⟨sec, hsec, halone⟩ := List.any_eq_true.mp hinner
  have hwritten : WrittenIn (.sect sec) codes :=
    .inside (Code.mem_of_mem_sectionsOf houter) (.here (Code.mem_of_mem_sectionsOf hsec))
  obtain ⟨hraw, hlambda⟩ := Section.raw_stands_for_body (o := .standard) Lookup.reusable_find
    (by decide +kernel) hparse hwritten halone
  obtain ⟨-, halike, -⟩ := hlambda f (.memory [("part", .text "<|.|>")]) rfl rfl
  exact ⟨codes, sec, hparse, hwritten, halone, hraw 1,
    halike 8 0 (.buffer "") (.ofList []) .start w (.inr rfl) (Store.faithful_new _ _) rfl⟩

end Mustache
