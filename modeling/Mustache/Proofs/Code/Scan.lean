import Mathlib.Logic.Relation
import Mustache.Proofs.Code.Bodies

/-! # Scanning

The parser calls itself for the body of a tag.  A scan makes one pass instead, and keeps the tags
that are open in a stack, with what is needed to go on after each of them: above all the delimiters
that were in force when it was opened.

A scan stops where a template is at fault, so the first fault in the order of the text is the one
that is reported.  What the parser makes of a template is what the scan comes to.

* `Scan.Step` — passing one tag.
* `Scan.Fault` — what may be wrong where a scan stands; `Scan.Checks` says that nothing is.
* `Scan.answer` — what the parser makes of the rest of a template, from a scan's state on.
* `parse_scan` — parser and scan agree.
-/

namespace Mustache.Code

/-- A tag whose body is being read. -/
structure Frame where
  bracket : Tag.Bracket
  name : String
  tag : Tag
  /-- The delimiters in force where the tag was opened. -/
  delimiters : Delimiters
  start : Cursor
  /-- The nodes in front of the tag, in the body that it stands in itself. -/
  before : List Code

structure Scan where
  /-- The open tags, the innermost first. -/
  frames : List Frame
  delimiters : Delimiters
  /-- The literal text held back. -/
  text : List Char
  /-- The nodes so far of the body that is being read. -/
  codes : List Code
  cursor : Cursor

namespace Scan

def start (d : Delimiters) (text : String) : Scan :=
  ⟨[], d, [], [], .start text.toList⟩

/-! ## Passing a tag -/

def Meets (src : Source) (s : Scan) (found : Tag.Found) : Prop :=
  Tag.next src.file s.delimiters s.cursor = .ok (some found)

/-- The nodes of the body that is being read, up to a tag. -/
def body (s : Scan) (found : Tag.Found) : List Code :=
  s.codes ++ flush (settleFound s.text found).text []

def closed (s : Scan) (found : Tag.Found) : Body where
  codes := s.body found
  stop := found.tag.place.offset - (settleFound s.text found).indent.length
  close := found.tag.delimiters
  after := (settleFound s.text found).after

/-- The node of a tag that has no body. -/
def leaf? (src : Source) (tag : Tag) (indent : List Char) : Option Code :=
  match tag.content with
  | .value style name => some (.value ⟨src.origin tag, name, style⟩)
  | .inclusion name => some (.inclusion ⟨src.origin tag, name, .ofList indent⟩)
  | .dynamic name => some (.dynamic ⟨src.origin tag, name, .ofList indent⟩)
  | _ => none

/-- Passing a tag, once it is lexed and its line is taken away if it stands alone there. -/
inductive Passes (src : Source) (s : Scan) (found : Tag.Found) : Scan → Prop
  | comment (h : found.tag.content = .comment) :
      Passes src s found { s with
        text := (settleFound s.text found).text
        cursor := (settleFound s.text found).after }
  | delimiters {d : Delimiters} (h : found.tag.content = .delimiters d) :
      Passes src s found { s with
        delimiters := d
        text := (settleFound s.text found).text
        cursor := (settleFound s.text found).after }
  | pragma {body : List Char} (h : found.tag.content = .pragma body) :
      Passes src s found { s with
        text := (settleFound s.text found).text ++ src.pragmaText body
        cursor := (settleFound s.text found).after }
  | leaf {code : Code} (h : leaf? src found.tag (settleFound s.text found).indent = some code) :
      Passes src s found { s with
        text := []
        codes := s.body found ++ [code]
        cursor := (settleFound s.text found).after }
  | opening {bracket : Tag.Bracket} {name : String}
      (h : found.tag.content = .opening bracket name) :
      Passes src s found {
        frames := ⟨bracket, name, found.tag, s.delimiters, (settleFound s.text found).after,
          s.body found⟩ :: s.frames
        delimiters := s.delimiters
        text := []
        codes := []
        cursor := (settleFound s.text found).after }
  | close {f : Frame} {frames : List Frame} {code : Code}
      (h : found.tag.content = .close f.name) (hframes : s.frames = f :: frames)
      (hcode : ofBody src f.tag f.bracket f.name f.start (s.closed found) = .ok code) :
      Passes src s found {
        frames
        delimiters := f.delimiters
        text := []
        codes := f.before ++ [code]
        cursor := (settleFound s.text found).after }

def Step (src : Source) (s t : Scan) : Prop :=
  ∃ found, s.Meets src found ∧ s.Passes src found t

abbrev Reaches (src : Source) : Scan → Scan → Prop :=
  Relation.ReflTransGen (Step src)

/-! ## Where a scan stops -/

/-- No tag is left, and none is open. -/
def Ends (src : Source) (s : Scan) (codes : List Code) : Prop :=
  Tag.next src.file s.delimiters s.cursor = .ok none ∧ s.frames = [] ∧
    codes = s.codes ++ flush (s.text ++ s.cursor.rest) [.eof]

inductive Fault (src : Source) (s : Scan) : SyntaxError → Prop
  | lexing {e : SyntaxError} (h : Tag.next src.file s.delimiters s.cursor = .error e) :
      Fault src s e
  | unexpectedClose {found : Tag.Found} {name : String} (hmeets : s.Meets src found)
      (h : found.tag.content = .close name) (hframes : s.frames = []) :
      Fault src s (src.fault found.tag (.unexpectedClose name))
  | mismatchedSection {found : Tag.Found} {name : String} {f : Frame} {frames : List Frame}
      (hmeets : s.Meets src found) (h : found.tag.content = .close name)
      (hframes : s.frames = f :: frames) (hname : f.name ≠ name) :
      Fault src s (src.fault found.tag (.mismatchedSection f.name name))
  | illegalExtendContent {found : Tag.Found} {f : Frame} {frames : List Frame} {code : Code}
      (hmeets : s.Meets src found) (h : found.tag.content = .close f.name)
      (hframes : s.frames = f :: frames) (hbracket : f.bracket = .extend)
      (hcode : (s.body found).find? (fun c => !c.mayBeInExtension) = some code) :
      Fault src s ⟨src.file, (code.origin?.map Origin.line).getD f.tag.place.line,
        f.tag.place.column, .illegalExtendContent f.name⟩
  | unclosedSection {f : Frame} {frames : List Frame}
      (hnext : Tag.next src.file s.delimiters s.cursor = .ok none)
      (hframes : s.frames = f :: frames) :
      Fault src s (src.fault f.tag (.unclosedSection f.name))

/-- Nothing is wrong where a scan stands. -/
structure Checks (src : Source) (s : Scan) : Prop where
  /-- The next tag, if there is one, is lexed. -/
  lexes : ∀ e, Tag.next src.file s.delimiters s.cursor ≠ .error e
  /-- A close tag has the name of the innermost open tag. -/
  closes : ∀ found name, s.Meets src found → found.tag.content = .close name →
    ∃ f frames, s.frames = f :: frames ∧ f.name = name
  /-- An extension that is closed holds text and blocks only. -/
  holds : ∀ found name f frames, s.Meets src found → found.tag.content = .close name →
    s.frames = f :: frames → f.bracket = .extend →
      ∀ code ∈ s.body found, code.mayBeInExtension = true
  /-- Nothing is open at the end. -/
  ends : Tag.next src.file s.delimiters s.cursor = .ok none → s.frames = []

variable {src : Source} {s t : Scan} {found : Tag.Found} {e : SyntaxError} {codes : List Code}

theorem ofBody_error {tag : Tag} {bracket : Tag.Bracket} {name : String} {start : Cursor}
    {b : Body} (h : ofBody src tag bracket name start b = .error e) :
    ∃ code, bracket = .extend ∧ illegalInExtension? b.codes = some code ∧
      e = ⟨src.file, (code.origin?.map Origin.line).getD tag.place.line, tag.place.column,
        .illegalExtendContent name⟩ := by
  cases bracket with
  | positive | negated | block => cases h
  | extend =>
    simp only [ofBody] at h
    cases hcode : illegalInExtension? b.codes with
    | none => simp [hcode] at h
    | some code =>
      simp only [hcode, Except.error.injEq] at h
      exact ⟨code, rfl, rfl, h.symm⟩

/-- A scan goes on, or it has come to the end, or something is wrong. -/
theorem progress (src : Source) (s : Scan) :
    (∃ t, s.Step src t) ∨ (∃ codes, s.Ends src codes) ∨ ∃ e, s.Fault src e := by
  cases hnext : Tag.next src.file s.delimiters s.cursor with
  | error e => exact .inr (.inr ⟨e, .lexing hnext⟩)
  | ok found? =>
    cases found? with
    | none =>
      cases hframes : s.frames with
      | nil => exact .inr (.inl ⟨_, hnext, hframes, rfl⟩)
      | cons f frames => exact .inr (.inr ⟨_, .unclosedSection hnext hframes⟩)
    | some found =>
      cases hcontent : found.tag.content with
      | comment => exact .inl ⟨_, found, hnext, .comment hcontent⟩
      | delimiters d => exact .inl ⟨_, found, hnext, .delimiters hcontent⟩
      | pragma body => exact .inl ⟨_, found, hnext, .pragma hcontent⟩
      | value style name => exact .inl ⟨_, found, hnext, .leaf (by rw [leaf?, hcontent])⟩
      | inclusion name => exact .inl ⟨_, found, hnext, .leaf (by rw [leaf?, hcontent])⟩
      | dynamic name => exact .inl ⟨_, found, hnext, .leaf (by rw [leaf?, hcontent])⟩
      | opening bracket name => exact .inl ⟨_, found, hnext, .opening hcontent⟩
      | close name =>
        cases hframes : s.frames with
        | nil => exact .inr (.inr ⟨_, .unexpectedClose hnext hcontent hframes⟩)
        | cons f frames =>
          by_cases hname : f.name = name
          · subst hname
            cases hcode : ofBody src f.tag f.bracket f.name f.start (s.closed found) with
            | ok code => exact .inl ⟨_, found, hnext, .close hcontent hframes hcode⟩
            | error e =>
              obtain ⟨code, hbracket, hillegal, -⟩ := ofBody_error hcode
              exact .inr (.inr ⟨_, .illegalExtendContent hnext hcontent hframes hbracket hillegal⟩)
          · exact .inr (.inr ⟨_, .mismatchedSection hnext hcontent hframes hname⟩)

theorem checks_iff : s.Checks src ↔ ∀ e, ¬ s.Fault src e := by
  constructor
  · intro h e hfault
    cases hfault with
    | lexing hnext => exact h.lexes e hnext
    | unexpectedClose hmeets hcontent hframes =>
      obtain ⟨f, frames, hf, -⟩ := h.closes _ _ hmeets hcontent
      rw [hframes] at hf
      cases hf
    | mismatchedSection hmeets hcontent hframes hname =>
      obtain ⟨f, frames, hf, heq⟩ := h.closes _ _ hmeets hcontent
      rw [hframes, List.cons.injEq] at hf
      exact hname (hf.1 ▸ heq)
    | illegalExtendContent hmeets hcontent hframes hbracket hcode =>
      have hlegal := h.holds _ _ _ _ hmeets hcontent hframes hbracket _
        (List.mem_of_find?_eq_some hcode)
      have hillegal := List.find?_some hcode
      simp [hlegal] at hillegal
    | unclosedSection hnext hframes =>
      rw [h.ends hnext] at hframes
      cases hframes
  · intro h
    have hcloses : ∀ found name, s.Meets src found → found.tag.content = .close name →
        ∃ f frames, s.frames = f :: frames ∧ f.name = name := by
      intro found name hmeets hcontent
      cases hframes : s.frames with
      | nil => exact absurd (.unexpectedClose hmeets hcontent hframes) (h _)
      | cons f frames =>
        by_cases hname : f.name = name
        · exact ⟨f, frames, rfl, hname⟩
        · exact absurd (.mismatchedSection hmeets hcontent hframes hname) (h _)
    refine ⟨fun e hnext => h e (.lexing hnext), hcloses, ?_, ?_⟩
    · intro found name f frames hmeets hcontent hframes hbracket
      obtain ⟨f', frames', hf, rfl⟩ := hcloses found name hmeets hcontent
      rw [hframes, List.cons.injEq] at hf
      obtain ⟨rfl, rfl⟩ := hf
      cases hcode : (s.body found).find? (fun c => !c.mayBeInExtension) with
      | none => simpa using hcode
      | some code =>
        exact absurd (.illegalExtendContent hmeets hcontent hframes hbracket hcode) (h _)
    · intro hnext
      cases hframes : s.frames with
      | nil => rfl
      | cons f frames => exact absurd (.unclosedSection hnext hframes) (h _)

/-! ## What the parser makes of a state -/

def opened (frames : List Frame) : Option Opened :=
  frames.head?.map fun f => ⟨f.name, f.tag⟩

/-- What the parser goes on to make of a body that is closed: the node of its tag, then the rest of
    the body that the tag stands in. -/
def resume (src : Source) : List Frame → Body → Except SyntaxError (List Code)
  | [], b => .ok b.codes
  | f :: frames, b =>
    (ofBody src f.tag f.bracket f.name f.start b).bind fun code =>
      (bodyOf src (opened frames) f.delimiters [] b.after).bind fun rest =>
        resume src frames { rest with codes := f.before ++ code :: rest.codes }

/-- What the parser makes of a template from the state of a scan on. -/
def answer (src : Source) (s : Scan) : Except SyntaxError (List Code) :=
  (bodyOf src (opened s.frames) s.delimiters s.text s.cursor).bind fun b =>
    resume src s.frames { b with codes := s.codes ++ b.codes }

theorem answer_start (src : Source) (d : Delimiters) (text : String) :
    answer src (start d text) = parse src d text := by
  have hopened : opened (start d text).frames = none := rfl
  rw [parse_eq, answer, hopened]
  simp only [start]
  cases bodyOf src none d [] (.start text.toList) <;> rfl

theorem flush_eq (text : List Char) (codes : List Code) :
    flush text codes = flush text [] ++ codes := by
  unfold flush
  split <;> rfl

theorem bodyOf_meets (hmeets : s.Meets src found) :
    bodyOf src (opened s.frames) s.delimiters s.text s.cursor =
      bodyAtTag src (opened s.frames) s.delimiters found.tag (settleFound s.text found) := by
  rw [bodyOf_eq, hmeets]

theorem bodyAtTag_leaf {opened : Option Opened} {d : Delimiters} {l : Settled} {code : Code}
    {tag : Tag} (h : leaf? src tag l.indent = some code) :
    bodyAtTag src opened d tag l = (bodyOf src opened d [] l.after).map (.before l.text code) := by
  unfold leaf? at h
  unfold bodyAtTag
  cases hcontent : tag.content <;> simp_all

theorem answer_passes (hmeets : s.Meets src found) (h : s.Passes src found t) :
    answer src s = answer src t := by
  rw [answer, bodyOf_meets hmeets]
  cases h with
  | comment h | delimiters h | pragma h => rw [bodyAtTag, h]; rfl
  | leaf h =>
    rw [bodyAtTag_leaf h, answer]
    cases bodyOf src (opened s.frames) s.delimiters [] (settleFound s.text found).after with
    | error e => rfl
    | ok b =>
      simp only [Except.map, Except.bind, Body.before, body]
      rw [flush_eq]
      simp
  | opening h =>
    simp only [bodyAtTag, h, answer, opened, List.head?_cons, Option.map_some]
    cases bodyOf src (some ⟨_, found.tag⟩) s.delimiters [] (settleFound s.text found).after with
    | error e => rfl
    | ok inner =>
      simp only [Except.bind, resume, List.nil_append]
      cases ofBody src found.tag _ _ (settleFound s.text found).after inner with
      | error e => rfl
      | ok code =>
        simp only [opened]
        cases bodyOf src _ s.delimiters [] inner.after with
        | error e => rfl
        | ok rest =>
          simp only [Except.map, Body.before, body]
          rw [flush_eq]
          simp
  | @close f frames code h hframes hcode =>
    have hclosed : (⟨s.codes ++ flush (settleFound s.text found).text [],
        found.tag.place.offset - (settleFound s.text found).indent.length, found.tag.delimiters,
        (settleFound s.text found).after⟩ : Body) = s.closed found := rfl
    simp only [bodyAtTag, h, hframes, opened, List.head?_cons, Option.map_some, bodyAtClose, if_true,
      Except.bind, resume, hclosed, hcode, answer]
    simp [closed]

theorem answer_reaches (h : Reaches src s t) : answer src s = answer src t := by
  induction h with
  | refl => rfl
  | tail _ hstep ih =>
    obtain ⟨found, hmeets, hpasses⟩ := hstep
    exact ih.trans (answer_passes hmeets hpasses)

theorem answer_ends (h : s.Ends src codes) : answer src s = .ok codes := by
  obtain ⟨hnext, hframes, rfl⟩ := h
  rw [answer, bodyOf_eq, hnext, hframes]
  rfl

theorem answer_fault (h : s.Fault src e) : answer src s = .error e := by
  cases h with
  | lexing h => rw [answer, bodyOf_eq, h]; rfl
  | unexpectedClose hmeets h hframes =>
    rw [answer, bodyOf_meets hmeets, hframes, bodyAtTag, h]
    rfl
  | mismatchedSection hmeets h hframes hname =>
    rw [answer, bodyOf_meets hmeets, hframes]
    simp [bodyAtTag, h, bodyAtClose, opened, hname, Except.bind]
  | @illegalExtendContent found f frames code hmeets h hframes hbracket hcode =>
    have hillegal : illegalInExtension?
        (s.codes ++ flush (settleFound s.text found).text []) = some code := hcode
    rw [answer, bodyOf_meets hmeets, hframes]
    simp [bodyAtTag, h, bodyAtClose, opened, Except.bind, resume, ofBody, hbracket, hillegal]
  | unclosedSection hnext hframes =>
    rw [answer, bodyOf_eq, hnext, hframes]
    rfl

/-! ## Runs -/

theorem length_of_passes (hmeets : s.Meets src found) (h : s.Passes src found t) :
    t.cursor.rest.length < s.cursor.rest.length := by
  have hlt := length_settleFound_lt s.text hmeets
  cases h <;> exact hlt

/-- Every scan comes to the end, or to a fault. -/
theorem exists_stop (src : Source) (s : Scan) :
    ∃ t, Reaches src s t ∧ ((∃ codes, t.Ends src codes) ∨ ∃ e, t.Fault src e) := by
  -- A tag that is passed uses up text.
  induction hlen : s.cursor.rest.length using Nat.strongRecOn generalizing s with
  | _ n ih =>
    obtain ⟨t, found, hmeets, hpasses⟩ | hstop := progress src s
    · obtain ⟨u, hreaches, hstop⟩ := ih _ (hlen ▸ length_of_passes hmeets hpasses) t rfl
      exact ⟨u, .head ⟨found, hmeets, hpasses⟩ hreaches, hstop⟩
    · exact ⟨s, .refl, hstop⟩

theorem answer_eq_ok_iff :
    answer src s = .ok codes ↔ ∃ t, Reaches src s t ∧ t.Ends src codes := by
  constructor
  · intro h
    obtain ⟨t, hreaches, ⟨codes', hends⟩ | ⟨e, hfault⟩⟩ := exists_stop src s
    · have hcodes := (answer_reaches hreaches).trans (answer_ends hends)
      rw [h, Except.ok.injEq] at hcodes
      exact ⟨t, hreaches, hcodes ▸ hends⟩
    · cases h.symm.trans ((answer_reaches hreaches).trans (answer_fault hfault))
  · rintro ⟨t, hreaches, hends⟩
    exact (answer_reaches hreaches).trans (answer_ends hends)

theorem answer_eq_error_iff :
    answer src s = .error e ↔ ∃ t, Reaches src s t ∧ t.Fault src e := by
  constructor
  · intro h
    obtain ⟨t, hreaches, ⟨codes', hends⟩ | ⟨e', hfault⟩⟩ := exists_stop src s
    · cases h.symm.trans ((answer_reaches hreaches).trans (answer_ends hends))
    · have he := (answer_reaches hreaches).trans (answer_fault hfault)
      rw [h, Except.error.injEq] at he
      exact ⟨t, hreaches, he ▸ hfault⟩
  · rintro ⟨t, hreaches, hfault⟩
    exact (answer_reaches hreaches).trans (answer_fault hfault)

end Scan

/-- The parser agrees with the scan.  It gives the tree that the scan ends with, which is there
    exactly if nothing is wrong anywhere on the way; otherwise it gives the fault that the scan comes
    to first. -/
theorem parse_scan (src : Source) (d : Delimiters) (text : String) :
    (∀ codes, parse src d text = .ok codes ↔
      ∃ s, (Scan.start d text).Reaches src s ∧ s.Ends src codes) ∧
    ((∃ codes, parse src d text = .ok codes) ↔
      ∀ s, (Scan.start d text).Reaches src s → s.Checks src) ∧
    ∀ e, parse src d text = .error e ↔
      ∃ s, (Scan.start d text).Reaches src s ∧ s.Fault src e := by
  rw [← Scan.answer_start]
  refine ⟨fun codes => Scan.answer_eq_ok_iff, ?_, fun e => Scan.answer_eq_error_iff⟩
  constructor
  · rintro ⟨codes, hok⟩ s hreaches
    rw [Scan.checks_iff]
    intro e hfault
    cases hok.symm.trans (Scan.answer_eq_error_iff.mpr ⟨s, hreaches, hfault⟩)
  · intro hall
    obtain ⟨s, hreaches, ⟨codes, hends⟩ | ⟨e, hfault⟩⟩ := Scan.exists_stop src (Scan.start d text)
    · exact ⟨codes, Scan.answer_eq_ok_iff.mpr ⟨s, hreaches, hends⟩⟩
    · exact absurd hfault (Scan.checks_iff.mp (hall s hreaches) e)

end Mustache.Code
