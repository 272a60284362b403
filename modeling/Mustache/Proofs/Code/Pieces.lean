import Mustache.Code.Print
import Mustache.Engine.Store
import Mustache.Proofs.Code.Places
import Mustache.Proofs.Code.Scan
import Mustache.Proofs.Code.Sigils

/-! # The pieces of a template

A template falls into pieces, each of them a tag with the literal text before it.  If the tag stands
alone on its line, the spacing before it and the rest of its line belong to the piece but not to
what is printed of it.

The printed template is what the pieces leave, in their order: nothing that is written between
tags gets lost, comes twice or changes its place on the way through the tree.

* `Piece` — a piece, and what is printed of it.
* `Pieces` — how a text falls into pieces, with the delimiters that are in force at each.
* `Scan.printed` — what is printed of the nodes that a scan has made so far.
* `print_compileText` — the printed template.
-/

namespace Mustache

/-- The syntax of a tag that makes a node or ends a body. -/
def Tag.Content.print (d : Delimiters) : Tag.Content → String
  | .value .escaped name => d.tag "" name
  | .value .triple name => d.opening ++ "\x7b" ++ name ++ "\x7d" ++ d.closing
  | .value .ampersand name => d.tag "&" name
  | .opening bracket name => d.tag bracket.sigil name
  | .close name => d.tag "/" name
  | .inclusion name => d.tag ">" name
  | .dynamic name => d.tag ">*" name
  | .comment | .delimiters _ | .pragma _ => ""

namespace Code

/-! ## Pieces -/

/-- A tag of a template, with the text between the tag before and the tag after. -/
structure Piece where
  literal : List Char
  /-- The spacing before the tag, if the tag stands alone. -/
  lead : List Char
  /-- What stands between the delimiters. -/
  inner : List Char
  /-- The rest of the tag's line, if the tag stands alone. -/
  trail : List Char
  delimiters : Delimiters
  content : Tag.Content

namespace Piece

def source (p : Piece) : List Char :=
  p.literal ++ p.lead ++ (p.delimiters.opening.toList ++ p.inner ++ p.delimiters.closing.toList) ++
    p.trail

/-- What a pragma leaves.  Its first word names a handler, which is given the rest of its text
    without the blanks around it, and gives a text, or nothing.  Where there is no handler of that
    name, nothing is left. -/
def output (pragmas : Table String PragmaHandler) (body : List Char) : String :=
  let args := Text.trim (body.dropWhile fun c => !Text.isBlank c)
  match pragmas.get? (.ofList (body.takeWhile fun c => !Text.isBlank c)) with
  | none => ""
  | some handler =>
    match handler (.ofList args) with
    | none => ""
    | some left => left

/-- What is printed of a piece: its literal text, then its tag, or what a pragma leaves. -/
def print (pragmas : Table String PragmaHandler) (p : Piece) : String :=
  .ofList p.literal ++ match p.content with
    | .pragma body => output pragmas body
    | content => content.print p.delimiters

theorem ofList_pragmaText (src : Source) (body : List Char) :
    .ofList (src.pragmaText body) = output src.pragmas body := by
  simp only [Source.pragmaText, output, Text.headWord]
  cases src.pragmas.get? (.ofList (body.takeWhile fun c => !Text.isBlank c)) with
  | none => rfl
  | some handler =>
    simp only [String.ofList_toList]
    cases handler (.ofList (Text.trim (body.dropWhile fun c => !Text.isBlank c))) <;> rfl

/-- A piece stands between the text passed before it and the rest: its tag is the next one, and
    spacing and line ending belong to it if the tag stands alone. -/
structure Stands (p : Piece) (passed rest : List Char) : Prop where
  next : Text.cut? p.delimiters.opening.toList (p.source ++ rest) =
    some (p.literal ++ p.lead, p.inner ++ p.delimiters.closing.toList ++ (p.trail ++ rest))
  lexed : Tag.scanInside p.delimiters
    (p.inner ++ p.delimiters.closing.toList ++ (p.trail ++ rest)) =
      .ok (p.content, p.trail ++ rest)
  line : p.content.mayStandAlone = true ∧
        Text.StandsAlone (passed ++ p.literal ++ p.lead) (p.trail ++ rest) ∧
        p.lead = Text.lastLine (passed ++ p.literal ++ p.lead) ∧
        (∃ spacing, Text.EndsLine spacing p.trail rest) ∨
      ¬ (p.content.mayStandAlone = true ∧
        Text.StandsAlone (passed ++ p.literal ++ p.lead) (p.trail ++ rest)) ∧
        p.lead = [] ∧ p.trail = []

/-- What a tag says stands between its delimiters. -/
theorem Stands.inside {p : Piece} {passed rest : List Char} (h : p.Stands passed rest) :
    p.content.Inside p.inner :=
  .of_scanInside h.lexed

/-- A tag that gives other delimiters gives usable ones. -/
theorem Stands.isValid {p : Piece} {passed rest : List Char} {d : Delimiters}
    (h : p.Stands passed rest) (hcontent : p.content = .delimiters d) : d.isValid = true := by
  have hinside := h.inside
  rw [hcontent] at hinside
  cases hinside with
  | delimiters _ _ hvalid => exact hvalid

end Piece

/-- The delimiters in force after a tag, behind those that come back into force at the close tags
    still to come. -/
def delimitersAfter (content : Tag.Content) (outer : List Delimiters) (d : Delimiters) :
    List Delimiters × Delimiters :=
  match content, outer with
  | .opening _ _, outer => (d :: outer, d)
  | .close _, d' :: outer => (outer, d')
  | .delimiters d', outer => (outer, d')
  | _, outer => (outer, d)

/-- How the rest of a text falls into pieces, behind a text that has been passed. -/
inductive Pieces : List Delimiters → Delimiters → List Char → List Char → List Piece →
    List Char → Prop
  | last {outer : List Delimiters} {d : Delimiters} {passed text : List Char}
      (h : Text.occurs d.opening.toList text = false) : Pieces outer d passed text [] text
  | piece {outer : List Delimiters} {p : Piece} {passed rest last : List Char} {ps : List Piece}
      (h : p.Stands passed rest)
      (hrest : Pieces (delimitersAfter p.content outer p.delimiters).1
        (delimitersAfter p.content outer p.delimiters).2 (passed ++ p.source) rest ps last) :
      Pieces outer p.delimiters passed (p.source ++ rest) (p :: ps) last

variable {src : Source} {d : Delimiters} {passed text rest last : List Char} {found : Tag.Found}
  {outer : List Delimiters} {p : Piece} {ps : List Piece}

theorem Pieces.inside (h : Pieces outer d passed text ps last) :
    ∀ p ∈ ps, p.content.Inside p.inner := by
  induction h with
  | last _ => exact List.forall_mem_nil _
  | piece h _ ih => exact List.forall_mem_cons.mpr ⟨h.inside, ih⟩

theorem Pieces.source_eq (h : Pieces outer d passed text ps last) :
    text = ps.flatMap Piece.source ++ last := by
  induction h with
  | last _ => rfl
  | piece _ _ ih => rw [List.flatMap_cons, List.append_assoc, ← ih]

/-! ## A tag makes a piece -/

/-- Where a piece may start: on a new line, or behind something on the line that is not spacing, or
    where nothing is left. -/
def Fresh (passed rest : List Char) : Prop :=
  (Text.lastLine passed).all Text.isSpacing = true → Text.lastLine passed = [] ∨ rest = []

section

variable {s : List Char} (h : Delimiters.isUsable s = true)
include h

theorem ne_nil_of_isUsable : s ≠ [] := by
  rintro rfl
  cases h

theorem not_isBlank_of_isUsable {c : Char} (hc : c ∈ s) : Text.isBlank c = false := by
  simp only [Delimiters.isUsable, Bool.and_eq_true, List.all_eq_true] at h
  simpa using (h.2 c hc).1

theorem not_mem_of_isUsable : '\n' ∉ s := by
  intro hmem
  cases not_isBlank_of_isUsable h hmem

theorem all_isSpacing_of_isUsable : s.all Text.isSpacing = false := by
  obtain ⟨c, hc⟩ := List.exists_mem_of_ne_nil s (ne_nil_of_isUsable h)
  refine List.all_eq_false.mpr ⟨c, hc, fun hspacing => ?_⟩
  have hblank := not_isBlank_of_isUsable h hc
  simp only [Text.isSpacing, Bool.or_eq_true, beq_iff_eq] at hspacing
  obtain rfl | rfl := hspacing <;> cases hblank

end

theorem fresh_after_tag (hd : d.isValid = true) (passed rest : List Char) :
    Fresh (passed ++ d.closing.toList) rest := by
  have hclosing := (Bool.and_eq_true_iff.mp hd).2
  intro h
  rw [Text.lastLine_append, if_neg (not_mem_of_isUsable hclosing), List.all_append,
    all_isSpacing_of_isUsable hclosing, Bool.and_false] at h
  cases h

theorem fresh_after_line {spacing trail : List Char} (h : Text.EndsLine spacing trail rest) :
    Fresh (passed ++ trail) rest := by
  intro _
  cases h with
  | lineFeed _ _ => exact .inl (by simp [Text.lastLine])
  | carriageReturn _ _ => exact .inl (by simp [Text.lastLine])
  | atEnd _ => exact .inr rfl

/-- The spacing before a tag that starts its line is all there since the tag before. -/
theorem exists_literal {before : List Char} (hfresh : Fresh passed (before ++ rest))
    (hrest : before ++ rest ≠ [])
    (h : (Text.lastLine (passed ++ before)).all Text.isSpacing = true) :
    ∃ literal, before = literal ++ Text.lastLine (passed ++ before) := by
  rw [Text.lastLine_append] at h ⊢
  by_cases hfeed : '\n' ∈ before
  · rw [if_pos hfeed]
    obtain ⟨literal, hliteral⟩ := List.takeWhile_prefix (l := before.reverse) (· != '\n')
    refine ⟨literal.reverse, ?_⟩
    rw [Text.lastLine, ← List.reverse_append, hliteral, List.reverse_reverse]
  · rw [if_neg hfeed] at h ⊢
    rw [List.all_append, Bool.and_eq_true] at h
    obtain hnil | hnil := hfresh h.1
    · exact ⟨[], by simp [hnil]⟩
    · exact absurd hnil hrest

/-- Where a tag is found there is a piece, and the tag is settled as the piece says. -/
theorem exists_piece (hd : d.isValid = true) (hfresh : Fresh passed text)
    (hnext : Tag.next src.file d (.past passed text) = .ok (some found)) :
    ∃ (p : Piece) (rest : List Char),
      text = p.source ++ rest ∧ p.Stands passed rest ∧ p.delimiters = d ∧
      p.content = found.tag.content ∧ found.tag.delimiters = d ∧
      Fresh (passed ++ p.source) rest ∧
      ∀ held, (settleFound held found).text = held ++ p.literal ∧
        (settleFound held found).after = .past (passed ++ p.source) rest := by
  obtain ⟨inner, after, hcut, hscan, htext, hdelimiters, hplace, hafter⟩ := Tag.next_past hnext
  by_cases halone : found.tag.content.mayStandAlone = true ∧
      Text.StandsAlone (passed ++ found.before) after
  · obtain ⟨hmay, hstands⟩ := halone
    obtain ⟨hbefore, spacing, trail, rest, rfl, htrail⟩ := id hstands
    have hne : found.before ++
        (d.opening.toList ++ inner ++ d.closing.toList ++ (trail ++ rest)) ≠ [] := by
      intro hnil
      simp only [List.append_eq_nil_iff] at hnil
      exact ne_nil_of_isUsable (Bool.and_eq_true_iff.mp hd).2 hnil.2.1.2
    obtain ⟨literal, hliteral⟩ := exists_literal (htext ▸ hfresh) hne hbefore
    generalize hlead : Text.lastLine (passed ++ found.before) = lead at hliteral
    have hpassed : passed ++ literal ++ lead = passed ++ found.before := by
      rw [hliteral, List.append_assoc]
    have hsource : passed ++ found.before ++ (d.opening.toList ++ inner ++ d.closing.toList) ++
        trail = passed ++ (⟨literal, lead, inner, trail, d, found.tag.content⟩ : Piece).source := by
      simp [Piece.source, hliteral]
    refine ⟨⟨literal, lead, inner, trail, d, found.tag.content⟩, rest, ?_, ⟨?_, hscan, ?_⟩, rfl,
      rfl, hdelimiters, ?_, fun held => ?_⟩
    · simp [htext, hliteral, Piece.source]
    · rw [← hliteral, ← hcut, htext]
      simp [hliteral, Piece.source]
    · simp only [hpassed]
      exact .inl ⟨hmay, hstands, hlead.symm, spacing, htrail⟩
    · rw [← hsource]
      exact fresh_after_line htrail
    · rw [settleFound, hafter, settle_of_standsAlone hplace hmay hbefore htrail, hlead, hsource]
      simp [hliteral, ← List.append_assoc]
  · have hsource : passed ++ found.before ++ (d.opening.toList ++ inner ++ d.closing.toList) =
        passed ++ (⟨found.before, [], inner, [], d, found.tag.content⟩ : Piece).source := by
      simp [Piece.source]
    refine ⟨⟨found.before, [], inner, [], d, found.tag.content⟩, after, ?_, ⟨?_, hscan, ?_⟩, rfl,
      rfl, hdelimiters, ?_, fun held => ?_⟩
    · simp [htext, Piece.source]
    · simpa [Piece.source, htext] using hcut
    · exact .inr ⟨by simpa using halone, rfl, rfl⟩
    · rw [← hsource, ← List.append_assoc]
      exact fresh_after_tag hd _ _
    · rw [settleFound, hafter,
        settle_of_not_standsAlone hplace fun hmay hstands => halone ⟨hmay, hstands⟩, hsource]
      exact ⟨rfl, rfl⟩

/-! ## What a scan has printed -/

theorem printAll_append (cs cs' : List Code) :
    printAll (cs ++ cs') = printAll cs ++ printAll cs' := by
  induction cs with
  | nil => simp [printAll]
  | cons c cs ih => simp [printAll, ih, String.append_assoc]

theorem printAll_flush (text : List Char) (cs : List Code) :
    printAll (flush text cs) = .ofList text ++ printAll cs := by
  cases text with
  | nil => simp [flush]
  | cons c text => simp [flush, printAll, print]

theorem print_ofBody {tag : Tag} {bracket : Tag.Bracket} {name : String} {start : Cursor}
    {b : Body} {code : Code} (h : ofBody src tag bracket name start b = .ok code) :
    code.print = (Tag.Content.opening bracket name).print tag.delimiters ++ printAll b.codes ++
      (Tag.Content.close name).print b.close := by
  cases bracket with
  | positive | negated | block =>
    simp only [ofBody, Except.ok.injEq] at h
    subst h
    rfl
  | extend =>
    simp only [ofBody] at h
    cases hillegal : illegalInExtension? b.codes with
    | some code => simp [hillegal] at h
    | none =>
      simp only [hillegal, Except.ok.injEq] at h
      subst h
      rfl

namespace Scan

/-- What is printed of the open tags and of the nodes in front of them. -/
def printedFrames : List Frame → String
  | [] => ""
  | f :: frames =>
    printedFrames frames ++ printAll f.before ++
      (Tag.Content.opening f.bracket f.name).print f.tag.delimiters

def printed (s : Scan) : String :=
  printedFrames s.frames ++ printAll s.codes ++ .ofList s.text

variable {s t : Scan} {codes : List Code}

theorem print_leaf {tag : Tag} {indent : List Char} {code : Code}
    (h : leaf? src tag indent = some code) : code.print = tag.content.print tag.delimiters := by
  unfold leaf? at h
  split at h
  · next style name hcontent =>
    obtain rfl := Option.some.inj h
    rw [hcontent]
    cases style <;> rfl
  · next hcontent =>
    obtain rfl := Option.some.inj h
    rw [hcontent]
    rfl
  · next hcontent =>
    obtain rfl := Option.some.inj h
    rw [hcontent]
    rfl
  · cases h

/-- A tag that is passed adds to the printed text what is printed of its piece, and what is in
    force after it is what the piece says. -/
theorem printed_passes (h : s.Passes src found t) (hcontent : p.content = found.tag.content)
    (hp : p.delimiters = s.delimiters) (hfound : found.tag.delimiters = s.delimiters)
    (hsettle : (settleFound s.text found).text = s.text ++ p.literal) :
    t.printed = s.printed ++ p.print src.pragmas ∧
      (t.frames.map Frame.delimiters, t.delimiters) =
        delimitersAfter p.content (s.frames.map Frame.delimiters) p.delimiters := by
  have hbody : printAll (s.body found) =
      printAll s.codes ++ .ofList s.text ++ .ofList p.literal := by
    rw [body, printAll_append, printAll_flush, hsettle, String.ofList_append]
    simp [printAll, String.append_assoc]
  cases h with
  | comment h | delimiters h =>
    refine ⟨?_, by simp [delimitersAfter, hcontent, h, hp]⟩
    simp [printed, Piece.print, hcontent, h, hsettle, Tag.Content.print, String.append_assoc]
  | pragma h =>
    refine ⟨?_, by simp [delimitersAfter, hcontent, h, hp]⟩
    simp [printed, Piece.print, hcontent, h, hsettle, String.append_assoc,
      Piece.ofList_pragmaText]
  | leaf h =>
    have hprint := print_leaf h
    have hleaf : (∀ body, found.tag.content ≠ .pragma body) ∧
        ∀ outer d, delimitersAfter found.tag.content outer d = (outer, d) := by
      unfold leaf? at h
      split at h <;> simp_all [delimitersAfter]
    refine ⟨?_, by rw [hcontent, hleaf.2, hp]⟩
    simp only [printed, Piece.print, hcontent, printAll_append, hbody, printAll, hprint, hfound, hp]
    cases htag : found.tag.content with
    | pragma body => exact absurd htag (hleaf.1 body)
    | _ => simp [String.append_assoc]
  | opening h =>
    refine ⟨?_, by simp [delimitersAfter, hcontent, h, hp]⟩
    simp [printed, printedFrames, Piece.print, hcontent, h, hbody, hfound, hp, printAll,
      String.append_assoc]
  | @close f frames code h hframes hcode =>
    refine ⟨?_, by simp [delimitersAfter, hcontent, h, hframes]⟩
    simp [printed, printedFrames, Piece.print, hcontent, h, hframes, printAll_append, printAll,
      print_ofBody hcode, closed, hbody, hfound, hp, String.append_assoc]

/-! ## Whole templates -/

theorem occurs_eq_false_of_next (h : Tag.next src.file d (.past passed text) = .ok none) :
    Text.occurs d.opening.toList text = false := by
  unfold Tag.next at h
  split at h
  · next hcut =>
    have hcut : Text.cut? d.opening.toList text = none := hcut
    simp [Text.occurs, hcut]
  · simp only at h
    split at h <;> cases h

theorem isValid_delimitersAfter (hp : p.Stands passed rest) (hd : p.delimiters.isValid = true)
    (houter : ∀ d ∈ outer, d.isValid = true) :
    (delimitersAfter p.content outer p.delimiters).2.isValid = true ∧
      ∀ d ∈ (delimitersAfter p.content outer p.delimiters).1, d.isValid = true := by
  unfold delimitersAfter
  split
  · exact ⟨hd, by simpa [hd] using houter⟩
  · exact ⟨houter _ List.mem_cons_self, fun d hmem => houter d (List.mem_cons_of_mem _ hmem)⟩
  · next hcontent => exact ⟨hp.isValid hcontent, houter⟩
  · exact ⟨hd, houter⟩

/-- From any state of a scan on, what is printed in the end is what has been printed so far, and
    then the pieces of the rest.  The induction is on the steps still to come. -/
theorem exists_pieces (hreaches : Reaches src s t) (hends : t.Ends src codes) :
    ∀ {passed text : List Char}, s.cursor = .past passed text → s.delimiters.isValid = true →
      (∀ d ∈ s.frames.map Frame.delimiters, d.isValid = true) → Fresh passed text →
      ∃ ps last, Pieces (s.frames.map Frame.delimiters) s.delimiters passed text ps last ∧
        printAll codes =
          s.printed ++ String.join (ps.map (Piece.print src.pragmas)) ++ .ofList last := by
  induction hreaches using Relation.ReflTransGen.head_induction_on with
  | refl =>
    intro passed text hcursor _ _ _
    obtain ⟨hnext, hframes, rfl⟩ := hends
    rw [hcursor] at hnext
    refine ⟨[], text, .last (occurs_eq_false_of_next hnext), ?_⟩
    simp [printAll_append, printAll_flush, printed, hframes, printedFrames, hcursor, Cursor.past,
      printAll, print, String.append_assoc]
  | @head s u hstep _ ih =>
    intro passed text hcursor hd houter hfresh
    obtain ⟨found, hmeets, hpasses⟩ := hstep
    have hnext := hmeets
    rw [Meets, hcursor] at hnext
    obtain ⟨p, rest, rfl, hstands, hp, hcontent, hfound, hfresh', hsettle⟩ :=
      exists_piece hd hfresh hnext
    obtain ⟨htext, hafter⟩ := hsettle s.text
    obtain ⟨hprinted, hforce⟩ := printed_passes hpasses hcontent hp hfound htext
    have hvalid := isValid_delimitersAfter hstands (hp ▸ hd) houter
    simp only [← hforce] at hvalid
    have hcursor' : u.cursor = .past (passed ++ p.source) rest := by
      cases hpasses <;> exact hafter
    obtain ⟨ps, last, hpieces, hprint⟩ := ih hcursor' hvalid.1 hvalid.2 hfresh'
    refine ⟨p :: ps, last, ?_, ?_⟩
    · rw [← hp]
      refine .piece hstands ?_
      rw [← hforce]
      exact hpieces
    · rw [hprint, hprinted, List.map_cons, String.join_cons]
      simp only [String.append_assoc]

end Scan

theorem exists_pieces_of_parse {codes : List Code} {text : String} (hd : d.isValid = true)
    (h : parse src d text = .ok codes) :
    ∃ ps last, Pieces [] d [] text.toList ps last ∧
      printAll codes = String.join (ps.map (Piece.print src.pragmas)) ++ .ofList last := by
  rw [← Scan.answer_start] at h
  obtain ⟨s, hreaches, hends⟩ := Scan.answer_eq_ok_iff.mp h
  obtain ⟨ps, last, hpieces, hprint⟩ :=
    Scan.exists_pieces hreaches hends (Cursor.start_eq_past _) hd (by simp [Scan.start])
      (fun _ => .inl rfl)
  refine ⟨ps, last, hpieces, ?_⟩
  rw [hprint]
  simp [Scan.printed, Scan.start, Scan.printedFrames, printAll]

end Code

/-- A template that compiles is printed piece by piece, in the order of its text: the literal text
    of each piece and then its tag, in the delimiters that are in force there, with the name that
    stands inside it.  The pieces make up the whole text. -/
theorem Store.print_compileText {o : Options} {source name : String} {d : Delimiters}
    {s s' : Store} {t : Template} (h : Store.compileText o source name d s = .ok (t, s')) :
    ∃ ps last, Code.Pieces [] d [] source.toList ps last ∧
      source.toList = ps.flatMap Code.Piece.source ++ last ∧
      (∀ p ∈ ps, p.content.Inside p.inner) ∧
      t.print = String.join (ps.map (Code.Piece.print o.pragmas)) ++ .ofList last := by
  unfold Store.compileText at h
  split at h
  · next hd =>
    unfold Store.build at h
    cases hparse : Code.parse ⟨name, s.compilations, o.pragmas⟩ d source with
    | error e => simp [hparse] at h
    | ok codes =>
      simp only [hparse, Except.ok.injEq, Prod.mk.injEq] at h
      obtain ⟨rfl, -⟩ := h
      obtain ⟨ps, last, hpieces, hprint⟩ := Code.exists_pieces_of_parse hd hparse
      exact ⟨ps, last, hpieces, hpieces.source_eq, hpieces.inside, hprint⟩
  · cases h

/-- Among the tags are one for each of three pragmas: one whose handler gives a text, one whose
    handler gives nothing, and one that no handler has been given for. -/
theorem Store.print_compileText_page :
    let source := "<{{ a }}\n  {{! b }}\n{{#c}}{{=| |=}}|d|\n |/c|\n{{% say  hi }}{{%hush x}}{{%none}}{{{ e }}}>"
    let o : Options := { Options.standard with
      pragmas := [("say", fun args => some (args ++ "!")), ("hush", fun _ => none)] }
    ∃ t s', Store.compileText o source "page" .standard (.new (.memory [])) = .ok (t, s') ∧
      t.print = "<{{a}}\n{{#c}}|d|\n|/c|hi!{{{e}}}>" ∧
      ∃ ps last, Code.Pieces [] .standard [] source.toList ps last ∧
        source.toList = ps.flatMap Code.Piece.source ++ last ∧
        (∀ p ∈ ps, p.content.Inside p.inner) ∧
        t.print = String.join (ps.map (Code.Piece.print o.pragmas)) ++ .ofList last := by
  intro source o
  have hprint : (Store.compileText o source "page" .standard
      (.new (.memory []))).toOption.map (·.1.print) =
        some "<{{a}}\n{{#c}}|d|\n|/c|hi!{{{e}}}>" := by
    decide +kernel
  cases h : Store.compileText o source "page" .standard (.new (.memory [])) with
  | error e => simp [h, Except.toOption] at hprint
  | ok r =>
    obtain ⟨t, s'⟩ := r
    rw [h] at hprint
    obtain ⟨ps, last, hpieces, hsource, hinside, hjoin⟩ := Store.print_compileText h
    exact ⟨t, s', rfl, Option.some.inj hprint, ps, last, hpieces, hsource, hinside, hjoin⟩

end Mustache
