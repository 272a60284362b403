import Mustache.Proofs.Code.Parallel

/-! # Sections in a scan

A scan comes upon the open tag of a section and, later, upon its close tag.  In between it goes as
if there was nothing around the section.  So every section of a tree comes with a scan of its body
alone.

* `WrittenIn` — nodes anywhere in a tree, as it is written.
* `Scan.behind` — a scan that starts behind a tag, with nothing around it.
* `Scan.Encloses` — how a section comes about.
* `Scan.Traced` — what is kept along a scan; `encloses_of_parse` is what follows for a tree.
-/

namespace Mustache.Code

/-! ## Nodes that are written in a tree -/

/-- The body of a node, as it is written. -/
def writtenBody : Code → List Code
  | .sect s => s.body
  | .block b => b.body
  | .extend e => e.body
  | .text _ | .value _ | .inclusion _ | .dynamic _ | .eof => []

/-- A node that is written somewhere in a tree: in one of its sections, blocks and extensions, or in
    none of them. -/
inductive WrittenIn (c : Code) : List Code → Prop
  | here {cs : List Code} (h : c ∈ cs) : WrittenIn c cs
  | inside {cs : List Code} {d : Code} (hd : d ∈ cs) (h : WrittenIn c d.writtenBody) :
      WrittenIn c cs

variable {src : Source} {c d code : Code} {cs ds : List Code} {sec : Section Code}

theorem writtenBody_ofBody {tag : Tag} {bracket : Tag.Bracket} {name : String} {start : Cursor}
    {b : Body} (h : ofBody src tag bracket name start b = .ok code) :
    code.writtenBody = b.codes := by
  cases bracket with
  | positive | negated | block => cases h; rfl
  | extend =>
    simp only [ofBody] at h
    split at h <;> cases h
    rfl

/-- The sections that stand directly in a list of nodes. -/
def sectionsOf (cs : List Code) : List (Section Code) :=
  cs.filterMap fun c => match c with
    | .sect s => some s
    | _ => none

theorem mem_of_mem_sectionsOf (h : sec ∈ sectionsOf cs) : .sect sec ∈ cs := by
  obtain ⟨c, hc, hsec⟩ := List.mem_filterMap.mp h
  cases c with
  | sect s => cases hsec; exact hc
  | _ => cases hsec

namespace WrittenIn

theorem mono (h : WrittenIn c cs) (hsub : cs ⊆ ds) : WrittenIn c ds := by
  cases h with
  | here h => exact .here (hsub h)
  | inside hd h => exact .inside (hsub hd) h

theorem not_nil : ¬ WrittenIn c [] := fun h => by
  cases h with
  | here h => cases h
  | inside hd => cases hd

theorem append (h : WrittenIn c (cs ++ ds)) : WrittenIn c cs ∨ WrittenIn c ds := by
  cases h with
  | here h => exact (List.mem_append.mp h).imp .here .here
  | inside hd h => exact (List.mem_append.mp hd).imp (.inside · h) (.inside · h)

theorem singleton (h : WrittenIn c [d]) : c = d ∨ WrittenIn c d.writtenBody := by
  cases h with
  | here h => exact .inl (List.mem_singleton.mp h)
  | inside hd h => exact .inr (List.mem_singleton.mp hd ▸ h)

/-- Literal text is no section and holds none. -/
theorem of_flush {text : List Char} (h : WrittenIn (.sect sec) (flush text cs)) :
    WrittenIn (.sect sec) cs := by
  unfold flush at h
  split at h
  · exact h
  · have h : WrittenIn (.sect sec) ([.text (.ofList text)] ++ cs) := h
    refine h.append.resolve_left fun h => ?_
    obtain h | h := h.singleton
    · cases h
    · exact not_nil h

/-- A tag without a body is no section and holds none. -/
theorem not_leaf {tag : Tag} {indent : List Char} (hleaf : Scan.leaf? src tag indent = some code) :
    ¬ WrittenIn (.sect sec) [code] := by
  intro h
  -- There is nothing to look into.
  have hbare : code.writtenBody = [] ∧ code ≠ .sect sec := by
    unfold Scan.leaf? at hleaf
    split at hleaf <;> cases hleaf <;> exact ⟨rfl, fun h => by cases h⟩
  obtain h | h := h.singleton
  · exact hbare.2 h.symm
  · exact not_nil (hbare.1 ▸ h)

end WrittenIn

/-! ## Scans behind a tag -/

namespace Scan

variable {s t u : Scan} {found : Tag.Found} {text : List Char}

/-- A scan that starts behind the tag of a piece, with nothing around it. -/
def behind (p : Piece) (q rest : List Char) : Scan :=
  ⟨[], p.delimiters, [], [], .past (q ++ p.source) rest⟩

/-- How a section of a text comes about: it is opened by the tag of a piece, and a scan of what is
    behind it meets its close tag. -/
inductive Encloses (src : Source) (text : List Char) (sec : Section Code) : Prop
  | intro {p : Piece} {q rest : List Char} {bracket : Tag.Bracket} {name : String} {u : Scan}
      {found : Tag.Found} (htext : text = q ++ (p.source ++ rest)) (hp : p.Stands q rest)
      (hd : p.delimiters.isValid = true) (hopening : p.content = .opening bracket name)
      (hreaches : (behind p q rest).Reaches src u) (hframes : u.frames = [])
      (hmeets : u.Meets src found) (hclose : found.tag.content = .close name)
      (hcode : ofBody src (p.tag q rest) bracket name (.past (q ++ p.source) rest)
        (u.closed found) = .ok (.sect sec)) : Encloses src text sec

/-- A tag has been opened by a piece of a text, and what is behind it has been scanned since. -/
def OpenedBy (src : Source) (text : List Char) (F : Frame) (u : Scan) : Prop :=
  ∃ (p : Piece) (q rest : List Char), text = q ++ (p.source ++ rest) ∧ p.Stands q rest ∧
    p.delimiters.isValid = true ∧ p.content = .opening F.bracket F.name ∧ F.tag = p.tag q rest ∧
    F.delimiters = p.delimiters ∧ F.start = .past (q ++ p.source) rest ∧
    (behind p q rest).Reaches src u

/-- The nodes that a scan has made so far. -/
def made (s : Scan) : List Code :=
  s.codes ++ s.frames.flatMap Frame.before

/-- How a scan has come to where it is: by scans behind all the tags that are open, and behind those
    of the sections that it has made. -/
structure Traced (src : Source) (text : List Char) (s : Scan) : Prop where
  sound : ∃ q r, text = q ++ r ∧ s.Sound q r
  opened : ∀ pre F post, s.frames = pre ++ F :: post → OpenedBy src text F { s with frames := pre }
  enclosed : ∀ sec, WrittenIn (.sect sec) s.made → Encloses src text sec

/-- A tag that is open has been open before, and what is behind it has been scanned on, or it has
    just been opened. -/
theorem frames_passes {pre post : List Frame} {F : Frame} (h : s.Passes src found t)
    (hframes : t.frames = pre ++ F :: post) :
    (∃ pre', s.frames = pre' ++ F :: post ∧
      Passes src { s with frames := pre' } found { t with frames := pre }) ∨
    found.tag.content = .opening F.bracket F.name ∧ F.tag = found.tag ∧
      F.delimiters = s.delimiters ∧ F.start = (settleFound s.text found).after ∧
      { t with frames := pre } = ⟨[], F.delimiters, [], [], F.start⟩ := by
  cases h with
  | comment h => exact .inl ⟨pre, hframes, .comment h⟩
  | delimiters h => exact .inl ⟨pre, hframes, .delimiters h⟩
  | pragma h => exact .inl ⟨pre, hframes, .pragma h⟩
  | leaf h => exact .inl ⟨pre, hframes, .leaf h⟩
  | opening h =>
    cases pre with
    | nil =>
      cases hframes
      exact .inr ⟨h, rfl, rfl, rfl, rfl⟩
    | cons G pre =>
      rw [List.cons_append, List.cons.injEq] at hframes
      obtain ⟨rfl, hframes⟩ := hframes
      exact .inl ⟨pre, hframes, .opening h⟩
  | @close G frames code h hG hcode =>
    have hopen : s.frames = (G :: pre) ++ F :: post := by
      rw [hG, show frames = pre ++ F :: post from hframes]
      rfl
    exact .inl ⟨G :: pre, hopen, .close h rfl hcode⟩

/-- A section that has been made was made before, or has just been closed. -/
theorem made_passes (h : s.Passes src found t) (hw : WrittenIn (.sect sec) t.made) :
    WrittenIn (.sect sec) s.made ∨ ∃ F frames, s.frames = F :: frames ∧
      found.tag.content = .close F.name ∧
      ofBody src F.tag F.bracket F.name F.start (s.closed found) = .ok (.sect sec) := by
  have hcodes {rest : List Code} (hw : WrittenIn (.sect sec) (s.codes ++ rest))
      (hrest : WrittenIn (.sect sec) rest → WrittenIn (.sect sec) (s.frames.flatMap Frame.before)) :
      WrittenIn (.sect sec) s.made := by
    obtain hw | hw := hw.append
    · exact hw.mono (List.subset_append_left _ _)
    · exact (hrest hw).mono (List.subset_append_right _ _)
  have hbody (hw : WrittenIn (.sect sec) (s.body found)) : WrittenIn (.sect sec) s.made :=
    hcodes hw fun hw => absurd hw.of_flush WrittenIn.not_nil
  cases h with
  | comment | delimiters | pragma => exact .inl hw
  | leaf hleaf =>
    obtain hw | hw := hw.append
    · exact .inl (hbody (hw.append.resolve_right (WrittenIn.not_leaf hleaf)))
    · exact .inl (hw.mono (List.subset_append_right _ _))
  | opening =>
    obtain hw | hw := (hw.append.resolve_left WrittenIn.not_nil).append
    · exact .inl (hbody hw)
    · exact .inl (hw.mono (List.subset_append_right _ _))
  | @close F frames code hclose hframes hcode =>
    have hbefore (hw : WrittenIn (.sect sec) (F.before ++ frames.flatMap Frame.before)) :
        WrittenIn (.sect sec) s.made := by
      refine hw.mono fun c hc => List.mem_append_right _ ?_
      rw [hframes]
      exact hc
    obtain hw | hw := hw.append
    · obtain hw | hw := hw.append
      · exact .inl (hbefore (hw.mono (List.subset_append_left _ _)))
      · obtain rfl | hw := hw.singleton
        · exact .inr ⟨F, frames, hframes, hclose, hcode⟩
        · rw [writtenBody_ofBody hcode] at hw
          exact .inl (hbody hw)
    · exact .inl (hbefore (hw.mono (List.subset_append_right _ _)))

theorem Traced.step (h : s.Traced src text) (hstep : s.Step src t) : t.Traced src text := by
  obtain ⟨q, r, htext, hsound⟩ := h.sound
  obtain ⟨found, hmeets, hpasses⟩ := hstep
  obtain ⟨p, rest, rfl, hp, hd, rfl⟩ := hsound.exists_piece hmeets
  refine ⟨⟨q ++ p.source, rest, by rw [htext, List.append_assoc], hsound.passes hp hd hpasses⟩,
    fun pre F post hframes => ?_, fun sec hsec => ?_⟩
  -- An open tag: the scan behind it makes the same step, or has yet to start.
  · obtain ⟨pre', hopen, hinner⟩ | ⟨hopening, htag, hdelimiters, hstart, hbehind⟩ :=
      frames_passes hpasses hframes
    · obtain ⟨p', q', rest', htext', hp', hd', hopening, htag, hdelimiters, hstart, hreaches⟩ :=
        h.opened pre' F post hopen
      exact ⟨p', q', rest', htext', hp', hd', hopening, htag, hdelimiters, hstart,
        hreaches.tail ⟨_, hmeets, hinner⟩⟩
    · rw [hp.settleFound_eq] at hstart
      rw [← hd] at hdelimiters
      rw [hbehind, hdelimiters, hstart]
      exact ⟨p, q, rest, htext, hp, hd ▸ hsound.delimiters, hopening, htag, hdelimiters, hstart,
        .refl⟩
  -- A section: it was there before, or its scan meets the close tag now.
  · obtain hsec | ⟨F, frames, hframes, hclose, hcode⟩ := made_passes hpasses hsec
    · exact h.enclosed sec hsec
    · obtain ⟨p', q', rest', htext', hp', hd', hopening, htag, -, hstart, hreaches⟩ :=
        h.opened [] F frames hframes
      rw [htag, hstart] at hcode
      exact .intro htext' hp' hd' hopening hreaches rfl hmeets hclose hcode

theorem Traced.reaches (h : s.Traced src text) (hreaches : s.Reaches src t) :
    t.Traced src text := by
  induction hreaches with
  | refl => exact h
  | tail _ hstep ih => exact ih.step hstep

theorem traced_start {d : Delimiters} (hd : d.isValid = true) (text : String) :
    (start d text).Traced src text.toList := by
  refine ⟨⟨[], text.toList, rfl, sound_start hd text⟩, fun pre F post hframes => ?_,
    fun sec hsec => absurd hsec WrittenIn.not_nil⟩
  have hlength := congrArg List.length hframes
  simp [start] at hlength

end Scan

/-- Every section of a template comes about by a scan of its body. -/
theorem encloses_of_parse {d : Delimiters} {text : String} {codes : List Code}
    (hd : d.isValid = true) (hparse : parse src d text = .ok codes)
    (hsec : WrittenIn (.sect sec) codes) : Scan.Encloses src text.toList sec := by
  rw [← Scan.answer_start] at hparse
  obtain ⟨t, hreaches, -, -, rfl⟩ := Scan.answer_eq_ok_iff.mp hparse
  refine ((Scan.traced_start hd text).reaches hreaches).enclosed sec ?_
  obtain hsec | hsec := hsec.append
  · exact hsec.mono (List.subset_append_left _ _)
  · obtain hsec | hsec := hsec.of_flush.singleton
    · cases hsec
    · exact absurd hsec WrittenIn.not_nil

end Mustache.Code
