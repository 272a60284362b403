import Mustache.Proofs.Code.Marks

/-! # Positions

The marks that a scan has passed tell all that it has come to: what the nodes keep of their tags,
which tags are open, and which tags stand directly in their bodies.  So the positions in a tree, and
those that faults are reported at, can be told from the text.

* `enclosures` — what is open behind some marks, and what stands in it.
* `Scan.Marked` — what a scan has come to, told by the marks that it has passed.
* `Scan.Blames` — the place that a fault is about.
* `parse_positions` — the positions in a tree, and those of faults.
* `parse_illegalExtendContent` — the position of the fault in an extension.
-/

namespace Mustache.Code

/-! ## What is open -/

/-- An open tag, and the tags of the nodes so far that stand directly in its body. -/
structure Enclosure where
  mark : Mark
  children : List Mark

/-- A tag stands in the body that is innermost. -/
def Enclosure.add (m : Mark) : List Enclosure → List Enclosure
  | [] => []
  | l :: ls => { l with children := l.children ++ [m] } :: ls

/-- What is open behind a tag, given what is open in front of it. -/
def Enclosure.behind (ls : List Enclosure) (m : Mark) : List Enclosure :=
  match m.content with
  | .opening _ _ => ⟨m, []⟩ :: ls
  | .close _ =>
    -- What is closed is a node of the body around it.
    match ls with
    | [] => []
    | l :: ls => Enclosure.add l.mark ls
  | .value _ _ | .inclusion _ | .dynamic _ => Enclosure.add m ls
  | .comment | .delimiters _ | .pragma _ => ls

/-- What is open behind some tags, the innermost first. -/
def enclosures (ms : List Mark) : List Enclosure :=
  ms.foldl Enclosure.behind []

variable {src : Source} {d : Delimiters} {text : List Char} {m : Mark} {ms : List Mark} {tag : Tag}
  {c code : Code} {cs : List Code} {found : Tag.Found} {s t : Scan} {e : SyntaxError}
  {frames : List Frame} {ls : List Enclosure}

theorem enclosures_snoc (ms : List Mark) (m : Mark) :
    enclosures (ms ++ [m]) = Enclosure.behind (enclosures ms) m := by
  simp [enclosures]

/-- The frames of a scan, with the nodes so far of the innermost body, are what is open. -/
inductive Agrees (src : Source) : List Code → List Frame → List Enclosure → Prop
  | nil (cs : List Code) : Agrees src cs [] []
  | cons {cs : List Code} {f : Frame} {frames : List Frame} {l : Enclosure} {ls : List Enclosure}
      (htag : l.mark.Of f.tag) (hcontent : f.tag.content = .opening f.bracket f.name)
      (hcodes : cs.filterMap heading? = l.children.map (Mark.heading src))
      (hrest : Agrees src f.before frames ls) : Agrees src cs (f :: frames) (l :: ls)

theorem filterMap_heading?_flush (text : List Char) (cs : List Code) :
    (flush text cs).filterMap heading? = cs.filterMap heading? := by
  unfold flush
  split <;> rfl

theorem Agrees.congr (h : Agrees src cs frames ls) {cs' : List Code}
    (hcs : cs'.filterMap heading? = cs.filterMap heading?) : Agrees src cs' frames ls := by
  cases h with
  | nil => exact .nil _
  | cons htag hcontent hcodes hrest => exact .cons htag hcontent (hcs.trans hcodes) hrest

theorem Agrees.add (h : Agrees src cs frames ls) (hcode : code.heading? = some (m.heading src)) :
    Agrees src (cs ++ [code]) frames (Enclosure.add m ls) := by
  cases h with
  | nil => exact .nil _
  | cons htag hcontent hcodes hrest =>
    refine .cons htag hcontent ?_ hrest
    simp [hcodes, hcode]

theorem Agrees.body (h : Agrees src s.codes frames ls) (found : Tag.Found) :
    Agrees src (s.body found) frames ls := by
  apply h.congr
  simp [Scan.body, filterMap_heading?_flush]

/-- Passing a tag changes what is open as its mark says. -/
theorem Agrees.passes (h : Agrees src s.codes s.frames ls) (hm : m.Of found.tag)
    (hpasses : s.Passes src found t) : Agrees src t.codes t.frames (Enclosure.behind ls m) := by
  have hcontent := hm.content
  cases hpasses with
  | comment hc | delimiters hc | pragma hc => simpa [Enclosure.behind, ← hcontent, hc] using h
  | leaf hleaf =>
    have hadd := (h.body found).add ((heading?_leaf hleaf).1.trans (congrArg some (hm.heading src)))
    have hbehind : Enclosure.behind ls m = Enclosure.add m ls := by
      cases hc : found.tag.content with
      | value | inclusion | dynamic => simp [Enclosure.behind, ← hcontent, hc]
      | _ => simp [Scan.leaf?, hc] at hleaf
    rw [hbehind]
    exact hadd
  | opening hc =>
    have hbehind : Enclosure.behind ls m = ⟨m, []⟩ :: ls := by
      simp [Enclosure.behind, ← hcontent, hc]
    rw [hbehind]
    exact .cons hm hc rfl (h.body found)
  | @close f frames code hc hframes hcode =>
    rw [hframes] at h
    cases h with
    | @cons _ _ _ l ls htag hopening _ hrest =>
      have hbehind : Enclosure.behind (l :: ls) m = Enclosure.add l.mark ls := by
        simp [Enclosure.behind, ← hcontent, hc]
      have hheading := (heading?_ofBody hcode).trans (congrArg some (hopening ▸ htag.heading src))
      rw [hbehind]
      exact hrest.add hheading

/-! ## What a scan has come to -/

namespace Scan

/-- The headings of open tags and of the nodes in front of them. -/
def headingsBefore (src : Source) : List Frame → List Heading
  | [] => []
  | f :: frames =>
    headingsBefore src frames ++ headingsAll f.before ++
      [(.opening f.bracket f.name, src.origin f.tag)]

/-- The headings so far, in the order of the tags. -/
def headings (src : Source) (s : Scan) : List Heading :=
  headingsBefore src s.frames ++ headingsAll s.codes

theorem headingsAll_body (s : Scan) (found : Tag.Found) :
    headingsAll (s.body found) = headingsAll s.codes := by
  simp [body]

/-- A tag that makes a node adds a heading, and no other tag does. -/
theorem headings_passes (h : s.Passes src found t) :
    t.headings src = s.headings src ++
      if found.tag.content.makesNode then [(found.tag.content, src.origin found.tag)] else [] := by
  cases h with
  | comment h | delimiters h | pragma h => simp [headings, h, Tag.Content.makesNode]
  | leaf h =>
    obtain ⟨hheading, hbody, hmakes⟩ := heading?_leaf h
    simp [headings, headingsAll_body, headingsAll_singleton, headings_eq, hheading, hbody, hmakes]
  | opening h =>
    simp [headings, headingsBefore, headingsAll_body, h, Tag.Content.makesNode]
  | close h hframes hcode =>
    have hbody := (congrArg headingsAll (writtenBody_ofBody hcode)).trans (headingsAll_body s found)
    simp [headings, headingsBefore, hframes, h, Tag.Content.makesNode, headingsAll_singleton,
      headings_eq, heading?_ofBody hcode, hbody]

/-- What a scan has come to, told by the marks that it has passed. -/
structure Marked (src : Source) (text : List Char) (ms : List Mark) (s : Scan) : Prop where
  stands : s.StandsIn text
  headings : s.headings src = (ms.filter fun m => m.content.makesNode).map (Mark.heading src)
  fits : Agrees src s.codes s.frames (enclosures ms)

theorem marked_start (src : Source) (d : Delimiters) (text : String) :
    (start d text).Marked src text.toList [] :=
  ⟨standsIn_start d text, rfl, .nil _⟩

theorem Marked.step (h : s.Marked src text ms) (hstep : s.Step src t) :
    ∃ m, s.Finds text m ∧ t.Marked src text (ms ++ [m]) := by
  obtain ⟨found, hmeets, hpasses⟩ := hstep
  obtain ⟨m, hfinds, hm, q, r, htext, hafter⟩ := h.stands.exists_mark hmeets
  refine ⟨m, hfinds, ⟨q, r, htext, (cursor_passes hpasses).trans hafter⟩, ?_, ?_⟩
  · rw [headings_passes hpasses, h.headings, hm.content]
    cases hmakes : m.content.makesNode with
    | true => simp [hmakes, ← hm.heading src, hm.content]
    | false => simp [hmakes]
  · rw [enclosures_snoc]
    exact h.fits.passes hm hpasses

/-- A scan passes marks on its way, and they tell what it has come to. -/
theorem exists_walks {text : String} (h : (start d text).Reaches src s) :
    ∃ ms, (start d text).Walks src text.toList ms s ∧ s.Marked src text.toList ms := by
  induction h with
  | refl => exact ⟨[], .refl, marked_start src d text⟩
  | tail _ hstep ih =>
    obtain ⟨ms, hwalks, hmarked⟩ := ih
    obtain ⟨m, hfinds, hmarked⟩ := hmarked.step hstep
    exact ⟨ms ++ [m], hwalks.tail hfinds hstep, hmarked⟩

/-! ## What a fault is about -/

/-- The text in front of the tag that a fault is about: the next tag, or the innermost one that is
    still open. -/
inductive Blames (text : List Char) (ms : List Mark) (s : Scan) :
    List Char → SyntaxError.Cause → Prop
  | lexing {passed inside : List Char} {cause : SyntaxError.Cause}
      (h : s.ComesTo text passed inside)
      (hcause : Tag.scanInside s.delimiters inside = .error cause) :
      Blames text ms s passed cause
  | unexpectedClose {m : Mark} {name : String} (h : s.Finds text m) (hm : m.content = .close name)
      (hopen : enclosures ms = []) : Blames text ms s m.passed (.unexpectedClose name)
  | mismatchedSection {m : Mark} {l : Enclosure} {ls : List Enclosure} {bracket : Tag.Bracket}
      {expected name : String} (h : s.Finds text m) (hm : m.content = .close name)
      (hopen : enclosures ms = l :: ls) (hl : l.mark.content = .opening bracket expected)
      (hname : expected ≠ name) : Blames text ms s m.passed (.mismatchedSection expected name)
  | unclosedSection {l : Enclosure} {ls : List Enclosure} {bracket : Tag.Bracket} {name : String}
      (h : Text.cut? s.delimiters.opening.toList s.cursor.rest = none)
      (hopen : enclosures ms = l :: ls) (hl : l.mark.content = .opening bracket name) :
      Blames text ms s l.mark.passed (.unclosedSection name)

/-- The tag that is open innermost. -/
theorem Marked.exists_enclosure {f : Frame} (h : s.Marked src text ms)
    (hframes : s.frames = f :: frames) :
    ∃ l ls, enclosures ms = l :: ls ∧ l.mark.Of f.tag ∧
      l.mark.content = .opening f.bracket f.name ∧
      s.codes.filterMap heading? = l.children.map (Mark.heading src) := by
  have hfits := h.fits
  rw [hframes] at hfits
  generalize enclosures ms = ls' at hfits
  cases hfits with
  | cons htag hcontent hcodes _ => exact ⟨_, _, rfl, htag, htag.content ▸ hcontent, hcodes⟩

theorem Marked.enclosures_eq_nil (h : s.Marked src text ms) (hframes : s.frames = []) :
    enclosures ms = [] := by
  have hfits := h.fits
  rw [hframes] at hfits
  generalize enclosures ms = ls at hfits ⊢
  cases hfits
  rfl

/-- A fault is reported at the tag that it is about. -/
theorem Marked.exists_blames (h : s.Marked src text ms) (hfault : s.Fault src e)
    (hcause : ∀ name, e.cause ≠ .illegalExtendContent name) :
    ∃ passed, s.Blames text ms passed e.cause ∧
      e = ⟨src.file, Text.lineNumber passed, Text.columnNumber passed, e.cause⟩ := by
  cases hfault with
  | lexing hnext =>
    obtain ⟨q, r, rfl, hcursor⟩ := h.stands
    rw [hcursor] at hnext
    obtain ⟨before, inside, cause, hcut, hscan, rfl⟩ := Tag.next_eq_error_iff.mp hnext
    refine ⟨q ++ before, .lexing ⟨?_, before, ?_⟩ hscan, rfl⟩
    · rw [Text.eq_append_of_cut? hcut, List.append_assoc]
    · rw [hcursor]
      exact hcut
  | unexpectedClose hmeets hcontent hframes =>
    obtain ⟨m, hfinds, hm, -⟩ := h.stands.exists_mark hmeets
    have hopen := h.enclosures_eq_nil hframes
    refine ⟨m.passed, .unexpectedClose hfinds (hm.content ▸ hcontent) hopen, ?_⟩
    rw [Source.fault, hm.line, hm.column]
  | mismatchedSection hmeets hcontent hframes hname =>
    obtain ⟨m, hfinds, hm, -⟩ := h.stands.exists_mark hmeets
    obtain ⟨l, ls, hopen, -, hl, -⟩ := h.exists_enclosure hframes
    refine ⟨m.passed, .mismatchedSection hfinds (hm.content ▸ hcontent) hopen hl hname, ?_⟩
    rw [Source.fault, hm.line, hm.column]
  | illegalExtendContent => exact absurd rfl (hcause _)
  | unclosedSection hnext hframes =>
    obtain ⟨l, ls, hopen, hl, hcontent, -⟩ := h.exists_enclosure hframes
    refine ⟨l.mark.passed, .unclosedSection (Tag.next_eq_none_iff.mp hnext) hopen hcontent, ?_⟩
    rw [Source.fault, hl.line, hl.column]

end Scan

/-- **Positions.**  What the nodes of a tree keep of their tags is what can be told of the tags that
    make nodes from the text in front of each, in their order; that goes for every node, wherever it
    stands.  A fault that is not about the body of an extension is reported at the line and the
    column where the tag starts that it is about. -/
theorem parse_positions (src : Source) (d : Delimiters) (text : String) :
    (∀ codes, parse src d text = .ok codes →
      ∃ ms s, (Scan.start d text).Walks src text.toList ms s ∧ s.Ends src codes ∧
        headingsAll codes =
          (ms.filter fun m => m.content.makesNode).map (fun m =>
            (m.content, src.originAt m.delimiters m.passed)) ∧
        ∀ c h, Inside c codes → c.heading? = some h → h ∈ headingsAll codes) ∧
    ∀ e, parse src d text = .error e → (∀ name, e.cause ≠ .illegalExtendContent name) →
      ∃ ms s passed, (Scan.start d text).Walks src text.toList ms s ∧
        s.Blames text.toList ms passed e.cause ∧ e.file = src.file ∧
        e.line = Text.lineNumber passed ∧ e.column = Text.columnNumber passed := by
  constructor
  · intro codes hparse
    have hwritten := asWritten_of_parse hparse
    rw [← Scan.answer_start] at hparse
    obtain ⟨s, hreaches, hends⟩ := Scan.answer_eq_ok_iff.mp hparse
    obtain ⟨ms, hwalks, hmarked⟩ := Scan.exists_walks hreaches
    refine ⟨ms, s, hwalks, hends, ?_, fun c h hc hh => heading_mem_headingsAll hwritten hc hh⟩
    obtain ⟨-, hframes, rfl⟩ := hends
    have hheadings := hmarked.headings
    simp only [Scan.headings, hframes, Scan.headingsBefore, List.nil_append] at hheadings
    rw [headingsAll_append, headingsAll_flush, hheadings]
    exact List.append_nil _
  · intro e hparse hcause
    rw [← Scan.answer_start] at hparse
    obtain ⟨s, hreaches, hfault⟩ := Scan.answer_eq_error_iff.mp hparse
    obtain ⟨ms, hwalks, hmarked⟩ := Scan.exists_walks hreaches
    obtain ⟨passed, hblames, heq⟩ := hmarked.exists_blames hfault hcause
    refine ⟨ms, s, passed, hwalks, hblames, ?_, ?_, ?_⟩
    · rw [heq]
    · exact congrArg SyntaxError.line heq
    · exact congrArg SyntaxError.column heq

/-! ## Extensions -/

/-- Whether a node may stand in the body of an extension is told by its tag. -/
theorem mayBeInExtension_eq (c : Code) :
    c.mayBeInExtension = (c.heading?.all fun h => h.1.mayBeInExtension) := by
  cases c with
  | sect s => cases hnegated : s.negated <;> simp [mayBeInExtension, heading?, hnegated,
      Tag.Content.mayBeInExtension]
  | _ => rfl

/-- The first node at fault is the one of the first tag at fault. -/
theorem exists_find?_mark (hcs : cs.filterMap heading? = ms.map (Mark.heading src))
    (hfind : cs.find? (fun c => !c.mayBeInExtension) = some code) :
    ∃ m, ms.find? (fun m => !m.content.mayBeInExtension) = some m ∧
      code.heading? = some (m.heading src) := by
  induction cs generalizing ms with
  | nil => cases hfind
  | cons c cs ih =>
    have hc := mayBeInExtension_eq c
    cases hheading : c.heading? with
    | none =>
      simp only [hheading, Option.all_none] at hc
      simp only [List.find?_cons, hc, Bool.not_true] at hfind
      simp only [List.filterMap_cons, hheading] at hcs
      exact ih hcs hfind
    | some h =>
      simp only [List.filterMap_cons, hheading] at hcs
      cases ms with
      | nil => cases hcs
      | cons m ms =>
        obtain ⟨rfl, hrest⟩ := List.cons.inj hcs
        simp only [hheading, Option.all_some] at hc
        simp only [List.find?_cons, hc] at hfind ⊢
        cases hmay : m.content.mayBeInExtension with
        | true =>
          simp only [Mark.heading, hmay, Bool.not_true] at hfind ⊢
          exact ih hrest hfind
        | false =>
          simp only [Mark.heading, hmay, Bool.not_false] at hfind ⊢
          cases hfind
          exact ⟨m, rfl, hheading⟩

theorem origin?_eq (c : Code) : c.origin? = c.heading?.map fun h => h.2 := by
  cases c <;> rfl

/-- A scan comes to the close tag of an extension, which is open innermost, and `child` is the first
    of the tags directly in its body that may not stand there. -/
structure Scan.ClosesOver (s : Scan) (text : List Char) (ms : List Mark) (name : String)
    (extension child : Mark) : Prop where
  close : ∃ m, s.Finds text m ∧ m.content = .close name
  opening : extension.content = .opening .extend name
  child : ∃ l ls, enclosures ms = l :: ls ∧ l.mark = extension ∧
    l.children.find? (fun m => !m.content.mayBeInExtension) = some child

/-- **The position of the fault in an extension.**  Its line is the one of the first tag directly in
    the body that may not stand there, but its column is the one of the open tag.  So it is the
    position of the tag at fault just if the two tags start in the same column. -/
theorem parse_illegalExtendContent {text name : String} (h : parse src d text = .error e)
    (hcause : e.cause = .illegalExtendContent name) :
    ∃ ms s extension child, (Scan.start d text).Walks src text.toList ms s ∧
      s.ClosesOver text.toList ms name extension child ∧ e.file = src.file ∧
      e.line = Text.lineNumber child.passed ∧ e.column = Text.columnNumber extension.passed ∧
      (e.line = Text.lineNumber child.passed ∧ e.column = Text.columnNumber child.passed ↔
        Text.columnNumber extension.passed = Text.columnNumber child.passed) := by
  rw [← Scan.answer_start] at h
  obtain ⟨s, hreaches, hfault⟩ := Scan.answer_eq_error_iff.mp h
  obtain ⟨ms, hwalks, hmarked⟩ := Scan.exists_walks hreaches
  cases hfault with
  | lexing hnext =>
    -- What is said inside a tag is never about an extension.
    obtain ⟨_, _, -, hcursor⟩ := hmarked.stands
    rw [hcursor] at hnext
    obtain ⟨_, inside, cause, -, hscan, rfl⟩ := Tag.next_eq_error_iff.mp hnext
    obtain rfl : cause = .illegalExtendContent name := hcause
    exact absurd hscan (Tag.scanInside_ne_illegalExtendContent _ _ _)
  | unexpectedClose | mismatchedSection | unclosedSection => cases hcause
  | @illegalExtendContent found f frames code hmeets hcontent hframes hbracket hcode =>
    obtain rfl : f.name = name := by simpa using hcause
    obtain ⟨m, hfinds, hm, -⟩ := hmarked.stands.exists_mark hmeets
    obtain ⟨l, ls, hopen, hl, hopening, hchildren⟩ := hmarked.exists_enclosure hframes
    have hbody : (s.body found).filterMap heading? = l.children.map (Mark.heading src) := by
      simp [Scan.body, filterMap_heading?_flush, hchildren]
    obtain ⟨child, hfind, hheading⟩ := exists_find?_mark hbody hcode
    have hline : (code.origin?.map Origin.line).getD f.tag.place.line =
        Text.lineNumber child.passed := by
      rw [origin?_eq, hheading]
      rfl
    refine ⟨ms, s, l.mark, child, hwalks, ⟨⟨m, hfinds, hm.content ▸ hcontent⟩, ?_, l, ls, hopen,
      rfl, hfind⟩, rfl, hline, hl.column, ?_⟩
    · rw [hopening, hbracket]
    · rw [hl.column]
      exact and_iff_right hline

/-- What is at fault with a text, if anything is. -/
def fault? {α : Type} : Except SyntaxError α → Option SyntaxError
  | .ok _ => none
  | .error e => some e

theorem eq_error_of_fault? {α : Type} {x : Except SyntaxError α} (h : fault? x = some e) :
    x = .error e := by
  cases x with
  | ok a => cases h
  | error e => cases h; rfl

/-- An extension in a section, and a variable in its body that starts in the same column. -/
theorem parse_illegalExtendContent_aligned :
    let text := "é {{#s}}\n  {{<p}}\n ü {{$b}}{{y}}{{/b}}\n  {{x}}{{/p}}{{/s}}"
    let e : SyntaxError := ⟨"page", 4, 3, .illegalExtendContent "p"⟩
    parse ⟨"page", 0, []⟩ .standard text = .error e ∧ e.cause = .illegalExtendContent "p" ∧
      ∃ ms s extension child,
        (Scan.start .standard text).Walks ⟨"page", 0, []⟩ text.toList ms s ∧
        s.ClosesOver text.toList ms "p" extension child ∧ e.file = "page" ∧
        e.line = Text.lineNumber child.passed ∧ e.column = Text.columnNumber extension.passed ∧
        (e.line = Text.lineNumber child.passed ∧ e.column = Text.columnNumber child.passed ↔
          Text.columnNumber extension.passed = Text.columnNumber child.passed) := by
  intro text e
  have hparse : parse ⟨"page", 0, []⟩ .standard text = .error e :=
    eq_error_of_fault? (by decide +kernel)
  exact ⟨hparse, rfl, parse_illegalExtendContent hparse rfl⟩

/-- Where the tag at fault starts in another column, no tag at all starts where the fault is
    reported. -/
theorem parse_illegalExtendContent_nowhere :
    let text := "{{<p}}\n {{x}}{{/p}}"
    let e : SyntaxError := ⟨"page", 2, 1, .illegalExtendContent "p"⟩
    parse ⟨"page", 0, []⟩ .standard text = .error e ∧
      ∀ passed inside, text.toList = passed ++ (Delimiters.standard.opening.toList ++ inside) →
        ¬ (e.line = Text.lineNumber passed ∧ e.column = Text.columnNumber passed) := by
  intro text e
  refine ⟨eq_error_of_fault? (by decide +kernel), fun passed inside htext => ?_⟩
  -- The text in front of a tag is told by its length.
  have hnowhere : ∀ n < text.toList.length + 1,
      Delimiters.standard.opening.toList <+: text.toList.drop n →
        ¬ (e.line = Text.lineNumber (text.toList.take n) ∧
          e.column = Text.columnNumber (text.toList.take n)) := by
    decide +kernel
  have hlength : passed.length < text.toList.length + 1 := by
    rw [htext, List.length_append]
    omega
  have hplace := hnowhere passed.length hlength
  rw [htext, List.drop_left, List.take_left] at hplace
  exact hplace (List.prefix_append _ _)

end Mustache.Code
