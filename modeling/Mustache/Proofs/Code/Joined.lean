import Mustache.Code.Inversion
import Mustache.Proofs.Code.Seams
import Mustache.Proofs.Code.Trace

/-! # One text behind another

Two texts that compile also compile as one, if the first one consists of whole lines and leaves the
delimiters as they were.  The tree is that of the first one without its end, and then that of the
second one: a literal at the end of the first one and a literal at the start of the second one are
one literal, and lines are counted on.  Nothing else of the first text is seen in the second one.

* `join` — one tree behind another.
* `Adjustment.behind` — a tree of a text that stands behind another one.
* `Scan.outermost` — the delimiters in force outside of all open tags.
* `bodyOf_held` — literal text held back goes in front of what is parsed.
* `parse_append` — one text behind another.
-/

namespace Mustache

/-! ## Trees behind one another -/

/-- The site of a node whose text stands `n` characters further on. -/
def Site.behind (n : Nat) : Site → Site
  | .parsed compilation offset => .parsed compilation (n + offset)
  | .grafted extension node => .grafted extension node

/-- The origin of a tag whose text stands behind another text. -/
def Origin.behind (a : List Char) (o : Origin) : Origin :=
  { o with line := a.count '\n' + o.line, site := o.site.behind a.length }

/-- A tree whose text stands behind another text: lines and sites are counted on. -/
def Adjustment.behind (a : List Char) : Adjustment :=
  { same with origin := Origin.behind a }

namespace Code

/-- A node in front of others; two literals are one. -/
def joinNode : Code → List Code → List Code
  | .text s, .text t :: cs => .text (s ++ t) :: cs
  | c, cs => c :: cs

/-- Nodes in front of others; a literal at the end of the first ones and a literal at the start of
    the other ones are one literal. -/
def join : List Code → List Code → List Code
  | [], cs => cs
  | [c], cs => joinNode c cs
  | c :: c' :: cs, cs' => c :: join (c' :: cs) cs'

variable {src : Source} {opened : Option Opened} {d d' : Delimiters} {q r held text : List Char}
  {code : Code} {b : Body} {cs cs' : List Code}

theorem joinNode_of_firstLiteral? (c : Code) (h : Follow.firstLiteral? cs = none) :
    joinNode c cs = c :: cs := by
  unfold joinNode
  split
  · cases h
  · rfl

/-- Behind a node that is not a literal nothing is joined. -/
theorem join_append (h : ∀ s, cs.getLast? ≠ some (.text s)) (cs' cs'' : List Code) :
    join (cs ++ cs') cs'' = cs ++ join cs' cs'' := by
  induction cs with
  | nil => rfl
  | cons c cs ih =>
    have htail : cs ≠ [] → ∀ s, cs.getLast? ≠ some (.text s) := fun hne s hs =>
      h s (by rw [List.getLast?_cons, hs]; rfl)
    cases hrest : cs ++ cs' with
    | nil =>
      obtain ⟨rfl, rfl⟩ := List.append_eq_nil_iff.mp hrest
      have hnode : joinNode c cs'' = c :: cs'' := by
        unfold joinNode
        split
        · next s _ _ => exact absurd rfl (h s)
        · rfl
      simpa [join] using hnode
    | cons c' rest =>
      rw [List.cons_append, hrest, join, ← hrest, List.cons_append]
      cases hcs : cs with
      | nil => rfl
      | cons c₁ cs₁ =>
        have hne : cs ≠ [] := by simp [hcs]
        rw [← hcs, ih (htail hne)]

/-- Text held back is in front of the literal that nodes start with. -/
theorem join_flush (held text : List Char) (h : Follow.firstLiteral? cs = none) :
    join (flush held []) (flush text cs) = flush (held ++ text) cs := by
  cases held with
  | nil => rfl
  | cons c held =>
    cases text with
    | nil => simpa [flush, join] using joinNode_of_firstLiteral? _ h
    | cons c' text => simp [flush, join, joinNode, String.append_assoc]

/-! ## Text held back -/

/-- Text held back before a place does not matter but for being there. -/
theorem exists_settled {found : Tag.Found} (hd : d.isValid = true) (hfresh : Fresh q r)
    (hnext : Tag.next src.file d (.past q r) = .ok (some found)) :
    ∃ (p : Piece) (rest : List Char), r = p.source ++ rest ∧ p.content = found.tag.content ∧
      (∀ d', p.content = .delimiters d' → d'.isValid = true) ∧ Fresh (q ++ p.source) rest ∧
      ∀ held, settleFound held found = ⟨held ++ p.literal, p.lead, .past (q ++ p.source) rest⟩ := by
  have hmeets : (⟨[], d, [], [], .past q r⟩ : Scan).Meets src found := hnext
  obtain ⟨p, rest, rfl, hp, hpd, rfl⟩ := (Scan.sound_alone hd hfresh).exists_piece hmeets
  exact ⟨p, rest, rfl, rfl, fun _ => hp.isValid, hp.fresh (hpd ▸ hd), hp.settleFound_eq⟩

def Body.joinHeld (held : List Char) (b : Body) : Body :=
  { b with codes := join (flush held []) b.codes }

theorem Body.joinHeld_before (held text : List Char) (h : Follow.firstLiteral? [code] = none)
    (b : Body) : (b.before text code).joinHeld held = b.before (held ++ text) code := by
  have hfirst : Follow.firstLiteral? (code :: b.codes) = none := by
    cases code with
    | text s => cases h
    | _ => rfl
  simp only [Body.joinHeld, Body.before, join_flush held text hfirst]

theorem map_joinHeld_before {x : Except SyntaxError Body} (h : Follow.firstLiteral? [code] = none) :
    (x.map (Body.before text code)).map (Body.joinHeld held) =
      x.map (Body.before (held ++ text) code) := by
  rw [map_map]
  exact congrArg (x.map ·) (funext (Body.joinHeld_before held text h))

theorem firstLiteral?_of_ofBody {tag : Tag} {bracket : Tag.Bracket} {name : String}
    {start : Cursor} (h : ofBody src tag bracket name start b = .ok code) :
    Follow.firstLiteral? [code] = none := by
  cases bracket with
  | positive | negated | block => cases h; rfl
  | extend =>
    simp only [ofBody] at h
    split at h
    · cases h
    · cases h
      rfl

/-- Literal text that is held back goes in front of what is parsed, and changes nothing else. -/
theorem bodyOf_held (hd : d.isValid = true) (hfresh : Fresh q r) (held text : List Char) :
    bodyOf src opened d (held ++ text) (.past q r) =
      (bodyOf src opened d text (.past q r)).map (Body.joinHeld held) := by
  -- A tag uses up text, so the induction is on the text that is left.
  induction hlen : r.length using Nat.strongRecOn generalizing d q r text with
  | _ n ih =>
    subst hlen
    rw [bodyOf_eq, bodyOf_eq]
    cases hnext : Tag.next src.file d (.past q r) with
    | error e => rfl
    | ok found? =>
      cases found? with
      | none =>
        simp only [bodyAtEnd]
        cases opened with
        | some o => rfl
        | none =>
          rw [List.append_assoc, ← join_flush held (text ++ _) rfl]
          rfl
      | some found =>
        have hlt := length_settleFound_lt text hnext
        obtain ⟨p, rest, rfl, hcontent, hvalid, hfresh', hsettle⟩ := exists_settled hd hfresh hnext
        have hrest : ∀ d' text', d'.isValid = true →
            bodyOf src opened d' (held ++ text') (.past (q ++ p.source) rest) =
              (bodyOf src opened d' text' (.past (q ++ p.source) rest)).map
                (Body.joinHeld held) := by
          rw [hsettle] at hlt
          exact fun d' text' hd' => ih _ hlt hd' hfresh' text' rfl
        rw [hcontent] at hvalid
        simp only [bodyAtTag, hsettle, List.append_assoc]
        -- A tag without a node goes on holding the text.  Every other one lets it go as a literal,
        -- and what comes behind does not see it.
        cases hfound : found.tag.content with
        | comment => exact hrest d _ hd
        | delimiters d' => exact hrest d' _ (hvalid d' hfound)
        | pragma body => exact hrest d _ hd
        | value style name | inclusion name | dynamic name => exact (map_joinHeld_before rfl).symm
        | close name =>
          simp only [bodyAtClose]
          cases opened with
          | none => rfl
          | some o =>
            simp only
            split
            · rw [← join_flush held (text ++ p.literal) rfl]
              rfl
            · rfl
        | opening bracket name =>
          simp only
          cases bodyOf src (some ⟨name, found.tag⟩) d [] (.past (q ++ p.source) rest) with
          | error e => rfl
          | ok inner =>
            simp only [Except.bind]
            cases hcode : ofBody src found.tag bracket name (.past (q ++ p.source) rest) inner with
            | error e => rfl
            | ok code => exact (map_joinHeld_before (firstLiteral?_of_ofBody hcode)).symm

/-! ## What a scan leaves behind -/

namespace Scan

variable {s t u : Scan} {found : Tag.Found}

/-- Whether the next tag changes the delimiters. -/
def changesDelimiters (src : Source) (s : Scan) : Bool :=
  match Tag.next src.file s.delimiters s.cursor with
  | .ok (some ⟨_, ⟨.delimiters _, _, _⟩, _⟩) => true
  | _ => false

theorem changesDelimiters_of_meets (hmeets : s.Meets src found)
    (h : found.tag.content = .delimiters d) : s.changesDelimiters src = true := by
  obtain ⟨before, ⟨content, d', place⟩, after⟩ := found
  obtain rfl : content = .delimiters d := h
  rw [changesDelimiters, hmeets]

/-- The delimiters in force outside of all open tags. -/
def outermost (s : Scan) : Delimiters :=
  (s.frames.getLast?.map Frame.delimiters).getD s.delimiters

/-- A tag changes the delimiters outside of all open tags only if it stands there. -/
theorem outermost_passes (h : s.Passes src found t)
    (hchange : s.frames = [] → ∀ d, found.tag.content ≠ .delimiters d) :
    t.outermost = s.outermost := by
  -- They are at the bottom of the stack, or in force if it is empty.
  cases h with
  | comment | pragma | leaf => rfl
  | delimiters hcontent =>
    cases hframes : s.frames with
    | nil => exact absurd hcontent (hchange hframes _)
    | cons f frames => simp [outermost, hframes, List.getLast?_cons]
  | opening =>
    simp only [outermost, List.getLast?_cons]
    cases s.frames.getLast? <;> rfl
  | @close f frames code _ hframes _ =>
    simp only [outermost, hframes, List.getLast?_cons]
    cases frames.getLast? <;> rfl

theorem outermost_reaches (hreaches : s.Reaches src t)
    (hkeeps : ∀ u, s.Reaches src u → u.frames = [] → u.changesDelimiters src = false) :
    t.outermost = s.outermost := by
  induction hreaches with
  | refl => rfl
  | @tail u t hreaches hstep ih =>
    obtain ⟨found, hmeets, hpasses⟩ := hstep
    refine (outermost_passes hpasses fun hframes d hcontent => ?_).trans ih
    cases (hkeeps u hreaches hframes).symm.trans (changesDelimiters_of_meets hmeets hcontent)

/-- The nodes of a body that is being read end with a tag. -/
theorem getLast?_codes_of_reaches (h : s.Reaches src t)
    (hs : ∀ text, s.codes.getLast? ≠ some (.text text)) (text : String) :
    t.codes.getLast? ≠ some (.text text) := by
  have hlast {cs : List Code} {code : Code} (hcode : Follow.firstLiteral? [code] = none) :
      (cs ++ [code]).getLast? ≠ some (.text text) := by
    rw [List.getLast?_append, List.getLast?_singleton, Option.some_or]
    rintro ⟨⟩
    cases hcode
  induction h with
  | refl => exact hs text
  | tail _ hstep ih =>
    obtain ⟨found, -, hpasses⟩ := hstep
    cases hpasses with
    | comment | delimiters | pragma => exact ih
    | leaf hleaf =>
      refine hlast ?_
      unfold leaf? at hleaf
      split at hleaf <;> cases hleaf <;> rfl
    | opening => simp
    | close _ _ hcode => exact hlast (firstLiteral?_of_ofBody hcode)

end Scan

/-! ## Whole trees -/

open Text (WholeLines)

/-- A text does not change the delimiters outside of its sections and the like. -/
def KeepsDelimiters (src : Source) (d : Delimiters) (text : String) : Prop :=
  Scan.Throughout src d text fun s => !(s.frames.isEmpty && s.changesDelimiters src)

instance (src : Source) (d : Delimiters) (text : String) : Decidable (KeepsDelimiters src d text) :=
  inferInstanceAs (Decidable (Scan.Throughout src d text _))

theorem fits_behind (src : Source) {a : List Char} (ha : WholeLines a) :
    (Comparison.between src (.behind a) .same rfl).Fits [] a := by
  refine ⟨fun d q => ?_, fun _ _ _ => rfl, fun _ _ _ => rfl⟩
  have hlast : Text.lastLine (a ++ q) = Text.lastLine q := Text.lastLine_append_of_wholeLines ha
  simp only [Adjustment.behind, Adjustment.same, id_eq, Origin.behind, Source.originAt, Site.behind,
    List.nil_append, hlast, List.count_append, List.length_append, Nat.add_assoc]

/-- Behind whole lines a text is parsed as it is alone, but for where it stands. -/
theorem bodyOf_behind {a : List Char} {b : String} {codes : List Code} (hd : d.isValid = true)
    (ha : WholeLines a) (h : parse src d b = .ok codes) :
    ∃ body, bodyOf src none d [] (.past a b.toList) = .ok body ∧
      body.codes = adjustAll (.behind a) codes := by
  rw [← Scan.answer_start] at h
  obtain ⟨t, hreaches, hends⟩ := Scan.answer_eq_ok_iff.mp h
  have hstart : (Scan.start d b).Abreast (.between src (.behind a) .same rfl)
      (fun _ _ => False) [] a b.toList [] [] ⟨[], d, [], [], .past a b.toList⟩ := by
    refine ⟨⟨.nil, rfl, fun _ => rfl, rfl⟩, [], b.toList, rfl, ?_, ?_⟩
    · rw [List.append_nil b.toList]
      exact Scan.sound_start hd b
    · rw [List.append_nil, List.append_nil]
      exact Scan.sound_alone hd (fresh_of_wholeLines ha _)
  obtain ⟨t', hreaches', ht⟩ := hstart.reaches (fits_behind src ha) (fun _ _ hF => hF.elim)
    Text.wholeLines_nil ha (.inl rfl) hreaches ⟨_, (List.append_nil _).symm⟩
  obtain ⟨codes', hends', hcodes⟩ := ht.ends hends
  have hanswer := (Scan.answer_reaches hreaches').trans (Scan.answer_ends hends')
  obtain ⟨body, hbody, hresume⟩ := exists_ok_of_bind hanswer
  refine ⟨body, hbody, ?_⟩
  have hsame : body.codes = codes' := Except.ok.inj hresume
  rw [hsame, ← adjustAll_same codes']
  exact hcodes.symm

/-- Two texts are parsed as one, if the first one consists of whole lines and does not change the
    delimiters outside of its sections.  The tree is the first one's without its end and then the
    second one's, whose lines are counted on; two literals that come together are one. -/
theorem parse_append {a b : String} {ca cb : List Code} (hd : d.isValid = true)
    (ha : WholeLines a.toList) (hca : parse src d a = .ok ca) (hcb : parse src d b = .ok cb)
    (hkeeps : KeepsDelimiters src d a) :
    ∃ init, ca = init ++ [.eof] ∧
      parse src d (a ++ b) = .ok (join init (adjustAll (.behind a.toList) cb)) := by
  obtain ⟨body, hbody, hcodes⟩ := bodyOf_behind hd ha hcb
  rw [← Scan.answer_start] at hca
  obtain ⟨u, hreaches, hnext, hframes, rfl⟩ := Scan.answer_eq_ok_iff.mp hca
  obtain ⟨u', q, r, hreaches', hqr, hu, hu', halike⟩ :=
    Scan.exists_reaches_append hd ha (String.toList_append (s := a) (t := b)) hreaches
  -- Where the scan of the lines has come to its end, the longer text goes on as literal text.
  have hdelimiters : u.delimiters = d := by
    have hout := Scan.outermost_reaches hreaches fun t ht hopen => by
      simpa [hopen] using hkeeps t ht
    rw [Scan.outermost, hframes] at hout
    exact hout
  have hcut : Text.cut? u'.delimiters.opening.toList r = none := by
    rw [← halike.delimiters]
    rw [hu.cursor] at hnext
    exact Tag.next_eq_none_iff.mp hnext
  have hframes' : u'.frames = [] := halike.frames_eq_nil hframes
  have hcodes' : u'.codes = u.codes := by
    have hsame : adjustAll .same u.codes = adjustAll .same u'.codes := halike.codes
    rw [adjustAll_same, adjustAll_same] at hsame
    exact hsame.symm
  -- The literal text that is left goes in front of the second text.
  have hr : WholeLines r := WholeLines.right (hqr ▸ ha)
  have hlast : ∀ text, u.codes.getLast? ≠ some (.text text) :=
    Scan.getLast?_codes_of_reaches hreaches (by simp [Scan.start])
  refine ⟨u.codes ++ flush (u.text ++ r) [], ?_, ?_⟩
  · rw [hu.cursor, Scan.flush_eq, List.append_assoc]
    rfl
  · have hheld : bodyOf src none d (u.text ++ r ++ []) (.past a.toList b.toList) = _ :=
      bodyOf_held hd (fresh_of_wholeLines ha b.toList) (u.text ++ r) []
    rw [List.append_nil, hbody] at hheld
    rw [← Scan.answer_start, Scan.answer_reaches hreaches',
      Scan.answer_pass hu'.cursor hu'.delimiters hr hcut, Scan.answer]
    simp only [Scan.pass, hframes', ← halike.delimiters, hdelimiters, ← halike.text rfl, ← hqr,
      Scan.opened, List.head?_nil, Option.map_none, hheld, hcodes', ← hcodes, join_append hlast]
    rfl

theorem parse_append_page :
    let src : Source := ⟨"page", 0, []⟩
    let a := "<{{#s}}\n{{=| |=}}|y|\n|/s|\nend\n"
    let b := "start {{#z}}\n{{> p}}\n{{/z}}"
    ∃ ca cb init, parse src .standard a = .ok ca ∧ parse src .standard b = .ok cb ∧
      ca = init ++ [.eof] ∧
      parse src .standard (a ++ b) = .ok (join init (adjustAll (.behind a.toList) cb)) := by
  intro src a b
  have hca := eq_ok_of_isSome (x := parse src .standard a) (by decide +kernel) []
  have hcb := eq_ok_of_isSome (x := parse src .standard b) (by decide +kernel) []
  obtain ⟨init, hinit, hparse⟩ :=
    parse_append (by decide +kernel) (.inr (by decide +kernel)) hca hcb (by decide +kernel)
  exact ⟨_, _, init, hca, hcb, hinit, hparse⟩

end Code

end Mustache
