import Mustache.Proofs.Code.Elsewhere
import Mustache.Proofs.Code.Enclosed
import Mustache.Proofs.Code.Inside

/-! # Marks

A scan counts lines as it goes, and keeps the line it is on.  A mark tells where a tag stands by the
text in front of it.  The marks of a text are the tags that a scan comes to, in their order.

* `Mark` — a tag of a text, and the text in front of it.
* `Scan.Finds`, `Scan.Walks` — the mark that a scan comes to next, and those that it passes.
* `Scan.StandsIn.exists_mark` — a tag that is met has its mark.
* `headingsAll` — what the nodes of a tree keep of their tags, in the order of the tags.
-/

namespace Mustache

namespace Text

/-- The line that the text behind another one starts on, counted from one. -/
def lineNumber (before : List Char) : Nat :=
  before.count '\n' + 1

/-- The column that the text behind another one starts in, counted in characters from one. -/
def columnNumber (before : List Char) : Nat :=
  (lastLine before).length + 1

end Text

/-- Whether a tag makes a node, once its body is closed if it has one. -/
def Tag.Content.makesNode : Tag.Content → Bool
  | .value _ _ | .opening _ _ | .inclusion _ | .dynamic _ => true
  | .close _ | .comment | .delimiters _ | .pragma _ => false

/-- Whether a tag may stand directly in the body of an extension. -/
def Tag.Content.mayBeInExtension : Tag.Content → Bool
  | .opening bracket _ => bracket = .block
  | content => !content.makesNode

namespace Code

/-- What a node keeps of its tag. -/
abbrev Heading := Tag.Content × Origin

/-- A tag of a text, and the text in front of it. -/
structure Mark where
  passed : List Char
  delimiters : Delimiters
  content : Tag.Content

/-- What a node made from a tag keeps of it, told from the text in front of the tag. -/
def Mark.heading (src : Source) (m : Mark) : Heading :=
  (m.content, src.originAt m.delimiters m.passed)

/-- The mark of a tag that has been read. -/
structure Mark.Of (m : Mark) (tag : Tag) : Prop where
  content : tag.content = m.content
  delimiters : tag.delimiters = m.delimiters
  place : ∃ rest, tag.place = .past m.passed rest

variable {src : Source} {d : Delimiters} {text : List Char} {m : Mark} {ms : List Mark} {tag : Tag}
  {c code : Code} {cs cs' : List Code} {found : Tag.Found} {s t : Scan} {e : SyntaxError}

theorem Mark.Of.origin (h : m.Of tag) (src : Source) :
    src.origin tag = src.originAt m.delimiters m.passed := by
  obtain ⟨-, hdelimiters, rest, hplace⟩ := h
  rw [← hdelimiters, ← origin_past tag.content tag.delimiters m.passed rest, ← hplace]

theorem Mark.Of.heading (h : m.Of tag) (src : Source) :
    (tag.content, src.origin tag) = m.heading src := by
  rw [Mark.heading, h.content, h.origin]

theorem Mark.Of.line (h : m.Of tag) : tag.place.line = Text.lineNumber m.passed := by
  obtain ⟨-, -, rest, hplace⟩ := h
  rw [hplace]
  rfl

theorem Mark.Of.column (h : m.Of tag) : tag.place.column = Text.columnNumber m.passed := by
  obtain ⟨-, -, rest, hplace⟩ := h
  rw [hplace]
  exact column_past _ _

/-! ## The marks that a scan passes -/

namespace Scan

/-- The next opening delimiter from a scan on stands between two texts. -/
def ComesTo (s : Scan) (text passed inside : List Char) : Prop :=
  text = passed ++ (s.delimiters.opening.toList ++ inside) ∧
    ∃ before, Text.cut? s.delimiters.opening.toList s.cursor.rest = some (before, inside)

/-- The next tag of a scan is the one of a mark. -/
structure Finds (s : Scan) (text : List Char) (m : Mark) : Prop where
  delimiters : m.delimiters = s.delimiters
  reads : ∃ inside rest, s.ComesTo text m.passed inside ∧
    Tag.scanInside s.delimiters inside = .ok (m.content, rest)

/-- A scan passes the tags of some marks, one after another. -/
inductive Walks (src : Source) (text : List Char) (s : Scan) : List Mark → Scan → Prop
  | refl : Walks src text s [] s
  | tail {ms : List Mark} {m : Mark} {t u : Scan} (h : Walks src text s ms t)
      (hfinds : t.Finds text m) (hstep : t.Step src u) : Walks src text s (ms ++ [m]) u

/-- A scan stands in a text, behind what it has passed. -/
def StandsIn (s : Scan) (text : List Char) : Prop :=
  ∃ q r, text = q ++ r ∧ s.cursor = .past q r

theorem standsIn_start (d : Delimiters) (text : String) : (start d text).StandsIn text.toList :=
  ⟨[], text.toList, rfl, Cursor.start_eq_past _⟩

/-- A tag is settled within the text. -/
theorem exists_past_settle {held q r : List Char} (tag : Tag) :
    ∃ q' r', q ++ r = q' ++ r' ∧ (settle held tag (.past q r)).after = .past q' r' := by
  unfold settle
  split
  · next n hn =>
    have hrest : Tag.blankLineRest? r = some n := by
      unfold Tag.lineRest? at hn
      split at hn
      · exact hn
      · cases hn
    obtain ⟨spacing, trail, rest, rfl, rfl, -⟩ := Text.endsLine_of_blankLineRest? hrest
    exact ⟨q ++ trail, rest, by simp, Cursor.skip_past⟩
  · exact ⟨q, r, rfl, rfl⟩

/-- The tag that a scan meets has a mark, and the scan goes on within the text. -/
theorem StandsIn.exists_mark (h : s.StandsIn text) (hmeets : s.Meets src found) :
    ∃ m, s.Finds text m ∧ m.Of found.tag ∧
      ∃ q r, text = q ++ r ∧ (settleFound s.text found).after = .past q r := by
  obtain ⟨q, r, rfl, hcursor⟩ := h
  rw [Meets, hcursor] at hmeets
  obtain ⟨inner, rest, hcut, hscan, hr, hdelimiters, hplace, hafter⟩ := Tag.next_past hmeets
  refine ⟨⟨q ++ found.before, s.delimiters, found.tag.content⟩, ⟨rfl, _, rest, ⟨?_, ?_⟩, hscan⟩,
    ⟨rfl, hdelimiters, _, hplace⟩, ?_⟩
  · conv => lhs; rw [hr]
    simp
  · exact ⟨found.before, by rw [hcursor]; exact hcut⟩
  · obtain ⟨q', r', htext, hsettle⟩ :=
      @exists_past_settle (s.text ++ found.before) _ rest found.tag
    rw [settleFound, hafter]
    refine ⟨q', r', ?_, hsettle⟩
    rw [← htext, hr]
    simp

end Scan

/-! ## What the nodes of a tree keep of their tags -/

def heading? : Code → Option Heading
  | .value v => some (.value v.style v.name, v.origin)
  | .sect s => some (.opening (if s.negated then .negated else .positive) s.name, s.origin)
  | .inclusion p => some (.inclusion p.name, p.origin)
  | .dynamic p => some (.dynamic p.name, p.origin)
  | .extend e => some (.opening .extend e.name, e.origin)
  | .block b => some (.opening .block b.name, b.origin)
  | .text _ | .eof => none

mutual

/-- The headings of a node and of the nodes in it, as they are written. -/
def headings : Code → List Heading
  | .value v => [(.value v.style v.name, v.origin)]
  | .sect ⟨origin, name, negated, _, _, body⟩ =>
    (.opening (if negated then .negated else .positive) name, origin) :: headingsAll body
  | .inclusion p => [(.inclusion p.name, p.origin)]
  | .dynamic p => [(.dynamic p.name, p.origin)]
  | .extend ⟨origin, name, _, body, _⟩ => (.opening .extend name, origin) :: headingsAll body
  | .block ⟨origin, name, _, body⟩ => (.opening .block name, origin) :: headingsAll body
  | .text _ | .eof => []

/-- The headings of the nodes of a tree, in the order in which they are written. -/
def headingsAll : List Code → List Heading
  | [] => []
  | c :: cs => headings c ++ headingsAll cs

end

theorem headings_eq (c : Code) :
    headings c = c.heading?.toList ++ headingsAll c.writtenBody := by
  cases c <;> rfl

@[simp] theorem headingsAll_nil : headingsAll [] = [] := rfl

theorem headingsAll_singleton (c : Code) : headingsAll [c] = headings c :=
  List.append_nil _

@[simp] theorem headingsAll_append (cs cs' : List Code) :
    headingsAll (cs ++ cs') = headingsAll cs ++ headingsAll cs' := by
  induction cs with
  | nil => rfl
  | cons c cs ih => simp [headingsAll, ih]

/-- Literal text has no tag. -/
@[simp] theorem headingsAll_flush (text : List Char) (cs : List Code) :
    headingsAll (flush text cs) = headingsAll cs := by
  unfold flush
  split <;> rfl

theorem headings_subset (h : c ∈ cs) : headings c ⊆ headingsAll cs := by
  induction cs with
  | nil => cases h
  | cons d cs ih =>
    rw [headingsAll]
    cases List.mem_cons.mp h with
    | inl h => exact h ▸ List.subset_append_left _ _
    | inr h => exact List.Subset.trans (ih h) (List.subset_append_right _ _)

theorem headingsAll_writtenBody_subset (h : c ∈ cs) :
    headingsAll c.writtenBody ⊆ headingsAll cs := by
  refine List.Subset.trans ?_ (headings_subset h)
  rw [headings_eq]
  exact List.subset_append_right _ _

/-- Every node of a tree is listed, those in the replacements of extensions as well. -/
theorem heading_mem_headingsAll {h : Heading} (hcs : AsWritten cs) (hinside : Inside c cs)
    (hc : c.heading? = some h) : h ∈ headingsAll cs := by
  induction hinside with
  | here hmem =>
    apply headings_subset hmem
    rw [headings_eq, hc]
    exact List.mem_append_left _ (List.mem_singleton_self _)
  | sect hs _ ih =>
    exact headingsAll_writtenBody_subset hs (ih fun e he => hcs e (.sect hs he))
  | block hb _ ih =>
    exact headingsAll_writtenBody_subset hb (ih fun e he => hcs e (.block hb he))
  | replacement he hb _ ih =>
    -- A replacement is a block of the extension's own body.
    have hreplacement := hcs _ (.here he)
    have hblock := mem_of_mem_blocksOf (hreplacement ▸ hb)
    have hbody := ih fun e he' => hcs e (.replacement he hb he')
    exact headingsAll_writtenBody_subset he (headingsAll_writtenBody_subset hblock hbody)

theorem heading?_leaf {indent : List Char} (h : Scan.leaf? src tag indent = some code) :
    code.heading? = some (tag.content, src.origin tag) ∧ code.writtenBody = [] ∧
      tag.content.makesNode = true := by
  unfold Scan.leaf? at h
  split at h <;> cases h <;> simp_all [heading?, writtenBody, Tag.Content.makesNode]

theorem heading?_ofBody {bracket : Tag.Bracket} {name : String} {start : Cursor} {b : Body}
    (h : ofBody src tag bracket name start b = .ok code) :
    code.heading? = some (.opening bracket name, src.origin tag) := by
  cases bracket with
  | positive | negated | block => cases h; rfl
  | extend =>
    simp only [ofBody] at h
    split at h <;> cases h
    rfl

end Code

end Mustache
