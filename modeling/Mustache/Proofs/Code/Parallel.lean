import Mathlib.Data.List.Forall2
import Mustache.Proofs.Code.Adjusted
import Mustache.Proofs.Code.Pieces

/-! # Two scans side by side

A scan passes a text piece by piece.  Where two scans come upon pieces that say the same, and stand
alike, they make nodes that are alike, so two texts that fall into such pieces have trees that are
alike.  What is alike is what is the same once each side is adjusted.

* `Piece.found`, `Scan.Sound.step` — a tag that a scan passes is the tag of a piece.
* `Scan.Alike` — scans that have come to the same, up to adjustments.
* `Scan.Alike.passes` — pieces that are alike keep scans alike.
* `Scan.Alike.ends`, `Scan.Alike.fault` — such scans come to the end, or to a fault, alike.
-/

namespace Mustache.Code

/-! ## The tag of a piece -/

theorem next_of_cut? {d : Delimiters} {c : Cursor} {before inside rest : List Char}
    {content : Tag.Content} (hcut : Text.cut? d.opening.toList c.rest = some (before, inside))
    (hscan : Tag.scanInside d inside = .ok (content, rest)) (file : String) :
    Tag.next file d c = .ok (some ⟨before, ⟨content, d, c.skip before.length⟩,
      (c.skip before.length).skip ((c.skip before.length).rest.length - rest.length)⟩) := by
  simp only [Tag.next, hcut, hscan]

namespace Piece

/-- A tag as it is written. -/
def written (p : Piece) : List Char :=
  p.delimiters.opening.toList ++ p.inner ++ p.delimiters.closing.toList

def tag (p : Piece) (passed rest : List Char) : Tag where
  content := p.content
  delimiters := p.delimiters
  place := .past (passed ++ p.literal ++ p.lead) (p.written ++ (p.trail ++ rest))

/-- The tag of a piece as it is found behind a text that has been passed. -/
def found (p : Piece) (passed rest : List Char) : Tag.Found where
  before := p.literal ++ p.lead
  tag := p.tag passed rest
  after := .past (passed ++ p.literal ++ p.lead ++ p.written) (p.trail ++ rest)

variable {p : Piece} {passed rest : List Char}

theorem source_eq (p : Piece) : p.source = p.literal ++ p.lead ++ p.written ++ p.trail := rfl

/-- Where a piece stands, its tag is found. -/
theorem Stands.next_eq (h : p.Stands passed rest) (file : String) :
    Tag.next file p.delimiters (.past passed (p.source ++ rest)) =
      .ok (some (p.found passed rest)) := by
  have hplace : (Cursor.past passed (p.source ++ rest)).skip (p.literal ++ p.lead).length =
      .past (passed ++ p.literal ++ p.lead) (p.written ++ (p.trail ++ rest)) := by
    rw [source_eq, List.append_assoc (_ ++ _), List.append_assoc (_ ++ _), Cursor.skip_past,
      List.append_assoc passed]
  have hlength : (Cursor.past (passed ++ p.literal ++ p.lead)
      (p.written ++ (p.trail ++ rest))).rest.length - (p.trail ++ rest).length =
      p.written.length := by
    simp only [Cursor.past, List.length_append]
    omega
  rw [next_of_cut? h.next h.lexed, hplace, hlength, Cursor.skip_past]
  rfl

/-- A tag is settled on its line as its piece says. -/
theorem Stands.settleFound_eq (h : p.Stands passed rest) (held : List Char) :
    settleFound held (p.found passed rest) =
      ⟨held ++ p.literal, p.lead, .past (passed ++ p.source) rest⟩ := by
  have hsource : passed ++ p.literal ++ p.lead ++ p.written ++ p.trail = passed ++ p.source := by
    simp [source_eq]
  obtain ⟨hmay, ⟨hbefore, -⟩, hlead, spacing, htrail⟩ | ⟨hnot, hlead, htrail⟩ := h.line
  · rw [settleFound, found, settle_of_standsAlone rfl hmay hbefore htrail, hsource, ← hlead]
    simp [← List.append_assoc]
  · have hstays : (p.tag passed rest).content.mayStandAlone = true →
        ¬ Text.StandsAlone (passed ++ p.literal ++ p.lead) (p.trail ++ rest) :=
      fun hmay hstands => hnot ⟨hmay, hstands⟩
    rw [settleFound, found, settle_of_not_standsAlone rfl hstays]
    rw [htrail, List.append_nil] at hsource
    simp [hlead, htrail, ← hsource]

/-- Behind a piece, the spacing in front of the next tag has not been passed. -/
theorem Stands.fresh (h : p.Stands passed rest) (hd : p.delimiters.isValid = true) :
    Fresh (passed ++ p.source) rest := by
  obtain ⟨-, -, -, spacing, htrail⟩ | ⟨-, -, htrail⟩ := h.line
  · rw [source_eq, ← List.append_assoc]
    exact fresh_after_line htrail
  · have hsource : passed ++ p.source = passed ++ p.literal ++ p.lead ++
        (p.delimiters.opening.toList ++ p.inner) ++ p.delimiters.closing.toList := by
      simp [source_eq, written, htrail]
    rw [hsource]
    exact fresh_after_tag hd _ _

end Piece

/-- Where a tag is found, it is the tag of a piece. -/
theorem exists_piece_found {src : Source} {d : Delimiters} {passed text : List Char}
    {found : Tag.Found} (hd : d.isValid = true) (hfresh : Fresh passed text)
    (hnext : Tag.next src.file d (.past passed text) = .ok (some found)) :
    ∃ (p : Piece) (rest : List Char), text = p.source ++ rest ∧ p.Stands passed rest ∧
      p.delimiters = d ∧ found = p.found passed rest := by
  obtain ⟨p, rest, rfl, hstands, rfl, -, -, -, -⟩ := exists_piece hd hfresh hnext
  rw [hstands.next_eq src.file] at hnext
  exact ⟨p, rest, rfl, hstands, rfl, by simpa using hnext.symm⟩

namespace Scan

variable {src : Source} {s t : Scan} {p : Piece} {passed rest text : List Char}

/-! ## Where a scan stands -/

/-- A scan has passed a text and has another one to come, and its delimiters can delimit tags. -/
structure Sound (s : Scan) (passed rest : List Char) : Prop where
  cursor : s.cursor = .past passed rest
  delimiters : s.delimiters.isValid = true
  frames : ∀ f ∈ s.frames, f.delimiters.isValid = true
  /-- The spacing in front of the next tag has not been passed. -/
  fresh : Fresh passed rest

theorem sound_start {d : Delimiters} (hd : d.isValid = true) (text : String) :
    (start d text).Sound [] text.toList :=
  ⟨Cursor.start_eq_past _, hd, List.forall_mem_nil _, fun _ => .inl rfl⟩

/-- A scan that starts behind a text, with nothing around it. -/
theorem sound_alone {d : Delimiters} (hd : d.isValid = true) (hfresh : Fresh passed rest) :
    (⟨[], d, [], [], .past passed rest⟩ : Scan).Sound passed rest :=
  ⟨rfl, hd, List.forall_mem_nil _, hfresh⟩

theorem cursor_passes {found : Tag.Found} (h : s.Passes src found t) :
    t.cursor = (settleFound s.text found).after := by
  cases h <;> rfl

theorem isValid_passes {found : Tag.Found} (h : s.Passes src found t)
    (hd : s.delimiters.isValid = true) (hframes : ∀ f ∈ s.frames, f.delimiters.isValid = true)
    (hdirective : ∀ d, found.tag.content = .delimiters d → d.isValid = true) :
    t.delimiters.isValid = true ∧ ∀ f ∈ t.frames, f.delimiters.isValid = true := by
  cases h with
  | comment | pragma | leaf => exact ⟨hd, hframes⟩
  | delimiters h => exact ⟨hdirective _ h, hframes⟩
  | opening => exact ⟨hd, by simpa [hd] using hframes⟩
  | close _ hs _ =>
    rw [hs] at hframes
    exact ⟨hframes _ List.mem_cons_self, fun f hf => hframes f (List.mem_cons_of_mem _ hf)⟩

/-- Behind a piece that is passed, a scan stands as it did before. -/
theorem Sound.passes (h : s.Sound passed (p.source ++ rest)) (hp : p.Stands passed rest)
    (hd : p.delimiters = s.delimiters) (hpasses : s.Passes src (p.found passed rest) t) :
    t.Sound (passed ++ p.source) rest := by
  obtain ⟨hvalid, hframes⟩ := isValid_passes hpasses h.delimiters h.frames fun _ => hp.isValid
  refine ⟨?_, hvalid, hframes, hp.fresh (hd ▸ h.delimiters)⟩
  rw [cursor_passes hpasses, hp.settleFound_eq]

theorem Sound.meets (h : s.Sound passed (p.source ++ rest)) (hp : p.Stands passed rest)
    (hd : p.delimiters = s.delimiters) : s.Meets src (p.found passed rest) := by
  rw [Meets, h.cursor, ← hd]
  exact hp.next_eq src.file

/-- The tag that a scan meets is the tag of a piece. -/
theorem Sound.exists_piece {found : Tag.Found} (h : s.Sound passed text)
    (hmeets : s.Meets src found) :
    ∃ (p : Piece) (rest : List Char), text = p.source ++ rest ∧ p.Stands passed rest ∧
      p.delimiters = s.delimiters ∧ found = p.found passed rest := by
  rw [Meets, h.cursor] at hmeets
  exact exists_piece_found h.delimiters h.fresh hmeets

end Scan

/-! ## What is compared -/

/-- Two sources that differ in the number of the compilation at most, and what becomes of the trees
    on either side before they are compared. -/
structure Comparison where
  src : Source
  src' : Source
  f : Adjustment
  f' : Adjustment
  file : src.file = src'.file
  pragmas : src.pragmas = src'.pragmas
  literals : f.literals = f'.literals

/-- The same source on both sides. -/
abbrev Comparison.between (src : Source) (f f' : Adjustment) (h : f.literals = f'.literals) :
    Comparison :=
  ⟨src, src, f, f', rfl, rfl, h⟩

/-- The same source on both sides, and the same adjustment. -/
abbrev Comparison.by (src : Source) (f : Adjustment) : Comparison :=
  .between src f f rfl

variable {C : Comparison}

/-- Open tags that are the same, once they and the nodes in front of them are adjusted. -/
structure Frame.Alike (C : Comparison) (F F' : Frame) : Prop where
  bracket : F.bracket = F'.bracket
  name : F.name = F'.name
  delimiters : F.delimiters = F'.delimiters
  origin : C.f.origin (C.src.origin F.tag) = C.f'.origin (C.src'.origin F'.tag)
  before : adjustAll C.f F.before = adjustAll C.f' F'.before

/-- Pieces that say the same, once what is made of them is adjusted. -/
structure Piece.Alike (C : Comparison) (p : Piece) (passed rest : List Char) (p' : Piece)
    (passed' rest' : List Char) : Prop where
  content : p.content = p'.content
  literal : C.f.literals = true → p.literal = p'.literal
  origin : C.f.origin (C.src.origin (p.tag passed rest)) =
    C.f'.origin (C.src'.origin (p'.tag passed' rest'))
  indent : (∃ name, p.content = .inclusion name ∨ p.content = .dynamic name) →
    C.f.indent (C.src.origin (p.tag passed rest)) (.ofList p.lead) =
      C.f'.indent (C.src'.origin (p'.tag passed' rest')) (.ofList p'.lead)

namespace Scan

/-- Scans that have come to the same, once what they have made is adjusted.  Of the open tags more
    may be known. -/
structure Alike (C : Comparison) (P : Frame → Frame → Prop) (s s' : Scan) : Prop where
  frames : List.Forall₂ (fun F F' => F.Alike C F' ∧ P F F') s.frames s'.frames
  delimiters : s.delimiters = s'.delimiters
  text : C.f.literals = true → s.text = s'.text
  codes : adjustAll C.f s.codes = adjustAll C.f' s'.codes

variable {P : Frame → Frame → Prop} {s s' t : Scan} {p p' : Piece}
  {passed rest passed' rest' : List Char}

theorem Alike.frames_eq_nil (h : s.Alike C P s') (hframes : s.frames = []) : s'.frames = [] := by
  have hall := h.frames
  rw [hframes] at hall
  exact List.forall₂_nil_left_iff.mp hall

theorem Alike.exists_frames {F : Frame} {frames : List Frame} (h : s.Alike C P s')
    (hframes : s.frames = F :: frames) : ∃ F' frames', s'.frames = F' :: frames' ∧
      F.Alike C F' ∧ P F F' ∧ List.Forall₂ (fun F F' => F.Alike C F' ∧ P F F') frames frames' := by
  have hall := h.frames
  rw [hframes] at hall
  obtain ⟨F', frames', ⟨hF, hP⟩, hrest, hframes'⟩ := List.forall₂_cons_left_iff.mp hall
  exact ⟨F', frames', hframes', hF, hP, hrest⟩

theorem adjustAll_flush_congr {text text' : List Char} {cs cs' : List Code}
    (htext : C.f.literals = true → text = text') (hcs : adjustAll C.f cs = adjustAll C.f' cs') :
    adjustAll C.f (flush text cs) = adjustAll C.f' (flush text' cs') := by
  rw [adjustAll_flush, adjustAll_flush, hcs, ← C.literals]
  cases hliterals : C.f.literals with
  | true => rw [htext hliterals]
  | false => rfl

theorem body_found (hp : p.Stands passed rest) (s : Scan) :
    s.body (p.found passed rest) = s.codes ++ flush (s.text ++ p.literal) [] := by
  rw [body, hp.settleFound_eq]

/-- Where the body ends that the tag of a piece closes. -/
theorem stop_found (hp : p.Stands passed rest) (s : Scan) :
    (s.closed (p.found passed rest)).stop = (passed ++ p.literal).length := by
  have hindent : (settleFound s.text (p.found passed rest)).indent = p.lead := by
    rw [hp.settleFound_eq]
  have hoffset : (p.found passed rest).tag.place.offset = (passed ++ p.literal ++ p.lead).length :=
    rfl
  simp only [closed, hindent, hoffset, List.length_append, Nat.add_sub_cancel]

/-- Tags without a body make nodes that are alike. -/
theorem leaf?_alike (hpiece : p.Alike C passed rest p' passed' rest') {code : Code}
    (h : leaf? C.src (p.tag passed rest) p.lead = some code) :
    ∃ code', leaf? C.src' (p'.tag passed' rest') p'.lead = some code' ∧
      adjust? C.f code = adjust? C.f' code' := by
  have hindent := hpiece.indent
  have horigin := hpiece.origin
  unfold leaf? at h ⊢
  rw [show (p'.tag passed' rest').content = (p.tag passed rest).content from hpiece.content.symm]
  cases hcontent : (p.tag passed rest).content with
  | value style name =>
    simp only [hcontent, Option.some.injEq] at h
    subst h
    exact ⟨_, rfl, by simp only [adjust?, horigin]⟩
  | inclusion name =>
    simp only [hcontent, Option.some.injEq] at h
    subst h
    exact ⟨_, rfl, by simp only [adjust?, horigin, hindent ⟨name, .inl hcontent⟩]⟩
  | dynamic name =>
    simp only [hcontent, Option.some.injEq] at h
    subst h
    exact ⟨_, rfl, by simp only [adjust?, horigin, hindent ⟨name, .inr hcontent⟩]⟩
  | _ => simp [hcontent] at h

theorem Alike.held (h : s.Alike C P s') (hpiece : p.Alike C passed rest p' passed' rest')
    (hliterals : C.f.literals = true) : s.text ++ p.literal = s'.text ++ p'.literal := by
  rw [h.text hliterals, hpiece.literal hliterals]

/-- The bodies up to the tags of pieces that are alike. -/
theorem Alike.body (h : s.Alike C P s') (hp : p.Stands passed rest)
    (hp' : p'.Stands passed' rest') (hpiece : p.Alike C passed rest p' passed' rest') :
    adjustAll C.f (s.body (p.found passed rest)) =
      adjustAll C.f' (s'.body (p'.found passed' rest')) := by
  have hnil : adjustAll C.f [] = adjustAll C.f' [] := rfl
  rw [body_found hp, body_found hp', adjustAll_append, adjustAll_append, h.codes,
    adjustAll_flush_congr (h.held hpiece) hnil]

/-- The nodes of open tags that are alike, closed by pieces that are alike. -/
theorem Alike.exists_closed {F F' : Frame} {code : Code} (h : s.Alike C P s')
    (hp : p.Stands passed rest) (hp' : p'.Stands passed' rest')
    (hpiece : p.Alike C passed rest p' passed' rest') (hclose : p.delimiters = p'.delimiters)
    (hF : F.Alike C F')
    (hraw : C.f.raw (C.src.origin F.tag) (rawText F.start (passed ++ p.literal).length) =
      C.f'.raw (C.src'.origin F'.tag) (rawText F'.start (passed' ++ p'.literal).length))
    (hcode : ofBody C.src F.tag F.bracket F.name F.start (s.closed (p.found passed rest)) =
      .ok code) :
    ∃ code', ofBody C.src' F'.tag F'.bracket F'.name F'.start
        (s'.closed (p'.found passed' rest')) = .ok code' ∧
      adjust? C.f code = adjust? C.f' code' := by
  have hcodes : adjustAll C.f (s.closed (p.found passed rest)).codes =
      adjustAll C.f' (s'.closed (p'.found passed' rest')).codes := h.body hp hp' hpiece
  have hclosed : (s.closed (p.found passed rest)).close =
      (s'.closed (p'.found passed' rest')).close := hclose
  rw [← stop_found hp s, ← stop_found hp' s'] at hraw
  obtain ⟨made, code', hmade, hcode', hsame⟩ | ⟨c, -, hbracket, hillegal, -⟩ :=
    ofBody_adjust F.bracket F.name hF.origin hcodes hclosed hraw
  · obtain rfl : code = made := Except.ok.inj (hcode.symm.trans hmade)
    rw [hF.bracket, hF.name] at hcode'
    exact ⟨code', hcode', hsame⟩
  · simp [ofBody, hbracket, hillegal] at hcode

/-- **Scans stay alike.**  A piece that is passed on one side is passed on the other one, if it is
    alike there. -/
theorem Alike.passes (h : s.Alike C P s') (hp : p.Stands passed rest)
    (hp' : p'.Stands passed' rest') (hd : p.delimiters = s.delimiters)
    (hd' : p'.delimiters = s'.delimiters) (hpiece : p.Alike C passed rest p' passed' rest')
    (hopening : ∀ bracket name before before', P
      ⟨bracket, name, p.tag passed rest, s.delimiters, .past (passed ++ p.source) rest, before⟩
      ⟨bracket, name, p'.tag passed' rest', s'.delimiters, .past (passed' ++ p'.source) rest',
        before'⟩)
    (hraw : ∀ F F', P F F' →
      C.f.raw (C.src.origin F.tag) (rawText F.start (passed ++ p.literal).length) =
        C.f'.raw (C.src'.origin F'.tag) (rawText F'.start (passed' ++ p'.literal).length))
    (hpasses : s.Passes C.src (p.found passed rest) t) :
    ∃ t', s'.Passes C.src' (p'.found passed' rest') t' ∧ t.Alike C P t' := by
  have hsettle := hp.settleFound_eq s.text
  have hsettle' := hp'.settleFound_eq s'.text
  have htext := h.held hpiece
  have hbody := h.body hp hp' hpiece
  cases hpasses with
  | comment hcontent =>
    refine ⟨_, .comment (hpiece.content.symm.trans hcontent), h.frames, h.delimiters, ?_, h.codes⟩
    simpa only [hsettle, hsettle'] using htext
  | delimiters hcontent =>
    refine ⟨_, .delimiters (hpiece.content.symm.trans hcontent), h.frames, rfl, ?_, h.codes⟩
    simpa only [hsettle, hsettle'] using htext
  | pragma hcontent =>
    refine ⟨_, .pragma (hpiece.content.symm.trans hcontent), h.frames, h.delimiters, ?_, h.codes⟩
    intro hliterals
    simp only [hsettle, hsettle', htext hliterals, Source.pragmaText, C.pragmas]
  | leaf hleaf =>
    rw [hsettle] at hleaf
    obtain ⟨code', hleaf', hcode⟩ := leaf?_alike hpiece hleaf
    refine ⟨_, .leaf (by rw [hsettle']; exact hleaf'), h.frames, h.delimiters, fun _ => rfl, ?_⟩
    simp only [adjustAll_append, hbody, adjustAll, hcode]
  -- What is in front of the tag is kept with it, and compared there from now on.
  | opening hcontent =>
    refine ⟨_, .opening (hpiece.content.symm.trans hcontent), .cons ⟨?_, ?_⟩ h.frames,
      h.delimiters, fun _ => rfl, rfl⟩
    · exact ⟨rfl, rfl, h.delimiters, hpiece.origin, hbody⟩
    · rw [hsettle, hsettle']
      exact hopening _ _ _ _
  | @close F frames code hcontent hframes hcode =>
    obtain ⟨F', frames', hframes', hF, hP, hrest⟩ := h.exists_frames hframes
    have hname : p'.content = .close F'.name := by rw [← hpiece.content, ← hF.name]; exact hcontent
    have hclose : p.delimiters = p'.delimiters := hd.trans (h.delimiters.trans hd'.symm)
    obtain ⟨code', hcode', hsame⟩ := h.exists_closed hp hp' hpiece hclose hF (hraw F F' hP) hcode
    refine ⟨_, .close hname hframes' hcode', hrest, hF.delimiters, fun _ => rfl, ?_⟩
    simp only [adjustAll_append, hF.before, adjustAll, hsame]

/-! ## Where both stop -/

/-- Scans that are alike and have the same literal text left come to the end alike. -/
theorem Alike.ends {codes : List Code} (h : s.Alike C P s') (hends : s.Ends C.src codes)
    (hnext : Tag.next C.src'.file s'.delimiters s'.cursor = .ok none)
    (hrest : C.f.literals = true → s.cursor.rest = s'.cursor.rest) :
    ∃ codes', s'.Ends C.src' codes' ∧ adjustAll C.f codes = adjustAll C.f' codes' := by
  obtain ⟨-, hframes, rfl⟩ := hends
  refine ⟨_, ⟨hnext, h.frames_eq_nil hframes, rfl⟩, ?_⟩
  have htext : C.f.literals = true → s.text ++ s.cursor.rest = s'.text ++ s'.cursor.rest :=
    fun hliterals => by rw [h.text hliterals, hrest hliterals]
  have hend : adjustAll C.f [.eof] = adjustAll C.f' [.eof] := rfl
  rw [adjustAll_append, adjustAll_append, h.codes, adjustAll_flush_congr htext hend]

/-- What is wrong at a tag that is met is wrong on both sides. -/
theorem Alike.fault_found {e : SyntaxError} (h : s.Alike C P s') (hp : p.Stands passed rest)
    (hp' : p'.Stands passed' rest') (hpiece : p.Alike C passed rest p' passed' rest')
    (hcolumn : (p.tag passed rest).place.column = (p'.tag passed' rest').place.column)
    (hcolumns : ∀ F F', P F F' → F.tag.place.column = F'.tag.place.column)
    (hmeets : s.Meets C.src (p.found passed rest))
    (hmeets' : s'.Meets C.src' (p'.found passed' rest')) (hfault : s.Fault C.src e) :
    ∃ e', s'.Fault C.src' e' ∧ e'.unlined = e.unlined := by
  -- There is one next tag, so a fault at a tag is a fault at this one.
  have hsame {found : Tag.Found} (hfound : s.Meets C.src found) :
      found = p.found passed rest := by
    have hboth := hfound.symm.trans hmeets
    simpa using hboth
  have hbody : adjustAll C.f (s.body (p.found passed rest)) =
      adjustAll C.f' (s'.body (p'.found passed' rest')) := h.body hp hp' hpiece
  cases hfault with
  | lexing hnext => exact absurd (hnext.symm.trans hmeets) (by simp)
  | unclosedSection hnext _ => exact absurd (hnext.symm.trans hmeets) (by simp)
  | @unexpectedClose found name hfound hcontent hframes =>
    obtain rfl := hsame hfound
    refine ⟨_, .unexpectedClose hmeets' (hpiece.content.symm.trans hcontent)
      (h.frames_eq_nil hframes), ?_⟩
    simp only [Source.fault, SyntaxError.unlined, C.file, Piece.found, hcolumn]
  | @mismatchedSection found name F frames hfound hcontent hframes hname =>
    obtain rfl := hsame hfound
    obtain ⟨F', frames', hframes', hF, -, -⟩ := h.exists_frames hframes
    refine ⟨_, .mismatchedSection hmeets' (hpiece.content.symm.trans hcontent) hframes'
      (hF.name ▸ hname), ?_⟩
    simp only [Source.fault, SyntaxError.unlined, C.file, Piece.found, hcolumn, hF.name]
  | @illegalExtendContent found F frames c hfound hcontent hframes hbracket hillegal =>
    obtain rfl := hsame hfound
    obtain ⟨F', frames', hframes', hF, hP, -⟩ := h.exists_frames hframes
    obtain ⟨c', hillegal'⟩ := exists_illegal_of_adjustAll_eq hbody hillegal
    have hcontent' : (p'.found passed' rest').tag.content = .close F'.name := by
      rw [← hF.name, ← hcontent]
      exact hpiece.content.symm
    refine ⟨_, .illegalExtendContent hmeets' hcontent' hframes'
      (hF.bracket ▸ hbracket) hillegal', ?_⟩
    simp only [SyntaxError.unlined, C.file, hcolumns F F' hP, hF.name]

end Scan

end Mustache.Code
