import Mustache.Proofs.Code.Bodies
import Mustache.Proofs.Code.Layering

/-! # Trees without sites

A site is only a key for what is remembered.  A bare tree has the same site everywhere, and what a
template is parsed to, printed as, matched with and turned into by replacements is the same for two
trees that are the same without their sites.

* `Code.bare`, `Template.bare` — what is left without the sites.
* `Code.parse_relabel`, `Code.parse_bare` — the number of a compilation shows nowhere else than in
  sites.
* `Template.print_bare`, `Template.invert_bare` — printing and matching do not look at sites.
* `Renderer.extended_bare` — replacing blocks does not look at them either.
-/

namespace Mustache

def Site.forget (_ : Site) : Site :=
  .parsed 0 0

theorem Site.forgetsGrafts_forget : ForgetsGrafts forget := fun _ _ => rfl

/-- The same source as another compilation. -/
def Source.at (src : Source) (n : Nat) : Source :=
  { src with compilation := n }

namespace Code

/-- A node without sites. -/
abbrev bare : Code → Code := relabel .forget

abbrev bareAll : List Code → List Code := relabelAll .forget

abbrev bareBlocks : List (Block Code) → List (Block Code) := relabelBlocks .forget

/-! ## Parsing -/

variable {f : Site → Site}

theorem mayBeInExtension_relabel (c : Code) :
    (relabel f c).mayBeInExtension = c.mayBeInExtension := by
  cases c <;> rfl

theorem line_relabel (c : Code) :
    (relabel f c).origin?.map Origin.line = c.origin?.map Origin.line := by
  cases c <;> rfl

theorem illegalInExtension?_relabelAll (body : List Code) :
    illegalInExtension? (relabelAll f body) = (illegalInExtension? body).map (relabel f) := by
  rw [illegalInExtension?, illegalInExtension?, relabelAll_eq_map, List.find?_map]
  congr 2
  funext c
  exact congrArg _ (mayBeInExtension_relabel c)

theorem relabelAll_flush (text : List Char) (cs : List Code) :
    relabelAll f (flush text cs) = flush text (relabelAll f cs) := by
  unfold flush
  split <;> rfl

def Body.relabel (f : Site → Site) (b : Body) : Body :=
  { b with codes := relabelAll f b.codes }

theorem Body.relabel_before (text : List Char) (code : Code) (b : Body) :
    (Body.before text code b).relabel f = Body.before text (Code.relabel f code) (b.relabel f) := by
  simp only [Body.before, Body.relabel, relabelAll_flush, relabelAll]

/-- Bodies that are the same with other sites stay so when a node is put before them. -/
theorem map_relabel_before {ε : Type} {f' : Site → Site} (text : List Char) {code code' : Code}
    (hcode : relabel f code = relabel f' code') {b b' : Except ε Body}
    (hb : b.map (Body.relabel f) = b'.map (Body.relabel f')) :
    (b.map (Body.before text code)).map (Body.relabel f) =
      (b'.map (Body.before text code')).map (Body.relabel f') := by
  have hmap : ∀ (f : Site → Site) (code : Code) (b : Except ε Body),
      (b.map (Body.before text code)).map (Body.relabel f) =
        (b.map (Body.relabel f)).map (Body.before text (relabel f code)) := by
    intro f code b
    rw [map_map, map_map]
    exact congrArg (b.map ·) (funext (Body.relabel_before text code))
  rw [hmap, hmap, hb, hcode]

/-- Two answers that are the same after a map fail in the same way or are both there. -/
theorem error_or_ok_of_map_eq {ε α β : Type} {x y : Except ε α} {g g' : α → β}
    (h : x.map g = y.map g') :
    (∃ e, x = .error e ∧ y = .error e) ∨ ∃ a b, x = .ok a ∧ y = .ok b ∧ g a = g' b := by
  cases x with
  | error e =>
    cases y with
    | error e' => exact .inl ⟨e, rfl, by simpa [Except.map] using h.symm⟩
    | ok b => simp [Except.map] at h
  | ok a =>
    cases y with
    | error e => simp [Except.map] at h
    | ok b => exact .inr ⟨a, b, rfl, rfl, by simpa [Except.map] using h⟩

section Compilations

variable (src : Source) {f' : Site → Site} {n n' : Nat}
  (hf : ∀ offset, f (.parsed n offset) = f' (.parsed n' offset))
include hf

theorem origin_relabel (tag : Tag) :
    ((src.at n).origin tag).relabel f = ((src.at n').origin tag).relabel f' :=
  congrArg (Origin.at (src.origin tag)) (hf tag.place.offset)

theorem ofBody_relabel (tag : Tag) (bracket : Tag.Bracket) (name : String) (start : Cursor)
    {b b' : Body} (h : b.relabel f = b'.relabel f') :
    (ofBody (src.at n) tag bracket name start b).map (relabel f) =
      (ofBody (src.at n') tag bracket name start b').map (relabel f') := by
  obtain ⟨codes, stop, close, after⟩ := b
  obtain ⟨codes', stop', close', after'⟩ := b'
  simp only [Body.relabel, Body.mk.injEq] at h
  obtain ⟨hcodes, rfl, rfl, rfl⟩ := h
  have horigin := origin_relabel src hf tag
  cases bracket with
  | positive | negated | block =>
    simp only [ofBody, Except.map, relabel, hcodes, horigin]
  | extend =>
    have hillegal := congrArg illegalInExtension? hcodes
    simp only [illegalInExtension?_relabelAll] at hillegal
    have hblocks := congrArg blocksOf hcodes
    simp only [← relabelBlocks_blocksOf] at hblocks
    simp only [ofBody]
    -- Which node may not stand there is the same, and the error has nothing of it but its line.
    cases hc : illegalInExtension? codes with
    | none =>
      cases hc' : illegalInExtension? codes' with
      | none => simp only [Except.map, relabel, hcodes, hblocks, horigin]
      | some c' => simp [hc, hc'] at hillegal
    | some c =>
      cases hc' : illegalInExtension? codes' with
      | none => simp [hc, hc'] at hillegal
      | some c' =>
        have hline := congrArg (fun c : Code => c.origin?.map Origin.line)
          (Option.some.inj (by simpa only [hc, hc', Option.map_some] using hillegal))
        simp only [line_relabel] at hline
        simp only [hline, Except.map]
        rfl

/-- The body of a tag is read first, then the node is made, then what comes after it. -/
theorem opening_relabel (tag : Tag) (bracket : Tag.Bracket) (name : String) (start : Cursor)
    (text : List Char) {inner inner' : Except SyntaxError Body}
    {rest rest' : Cursor → Except SyntaxError Body}
    (hinner : inner.map (Body.relabel f) = inner'.map (Body.relabel f'))
    (hrest : ∀ b, inner = .ok b →
      (rest b.after).map (Body.relabel f) = (rest' b.after).map (Body.relabel f')) :
    (inner.bind fun b => (ofBody (src.at n) tag bracket name start b).bind fun code =>
        (rest b.after).map (Body.before text code)).map (Body.relabel f) =
      (inner'.bind fun b => (ofBody (src.at n') tag bracket name start b).bind fun code =>
        (rest' b.after).map (Body.before text code)).map (Body.relabel f') := by
  obtain ⟨e, rfl, rfl⟩ | ⟨b, b', rfl, rfl, hbody⟩ := error_or_ok_of_map_eq hinner
  · rfl
  · have hafter : b.after = b'.after := (Body.mk.inj hbody).2.2.2
    simp only [Except.bind]
    rcases error_or_ok_of_map_eq (ofBody_relabel src hf tag bracket name start hbody) with
      ⟨e, hc, hc'⟩ | ⟨code, code', hc, hc', hcode⟩
    · simp only [hc, hc']
      rfl
    · simp only [hc, hc', ← hafter]
      exact map_relabel_before _ hcode (hrest b rfl)

theorem bodyOf_relabel (opened : Option Opened) (d : Delimiters) (text : List Char) (c : Cursor) :
    (bodyOf (src.at n) opened d text c).map (Body.relabel f) =
      (bodyOf (src.at n') opened d text c).map (Body.relabel f') := by
  -- A tag uses up text, so the induction is on the text that is left.
  induction hlen : c.rest.length using Nat.strongRecOn generalizing opened d text c with
  | _ k ih =>
    subst hlen
    rw [bodyOf_eq, bodyOf_eq]
    have hfile : (src.at n).file = (src.at n').file := rfl
    rw [hfile]
    cases hnext : Tag.next (src.at n').file d c with
    | error e => rfl
    | ok found? =>
      cases found? with
      | none =>
        simp only [bodyAtEnd]
        cases opened with
        | some o => rfl
        | none =>
          simp only [Except.map, Body.relabel, relabelAll_flush]
          rfl
      | some found =>
        simp only
        have hlt := length_settleFound_lt text hnext
        generalize settleFound text found = s at hlt ⊢
        have hrest : ∀ (d' : Delimiters) (text' : List Char),
            (bodyOf (src.at n) opened d' text' s.after).map (Body.relabel f) =
              (bodyOf (src.at n') opened d' text' s.after).map (Body.relabel f') :=
          fun d' text' => ih _ hlt opened d' text' s.after rfl
        simp only [bodyAtTag]
        cases found.tag.content with
        | comment => exact hrest d s.text
        | delimiters d' => exact hrest d' s.text
        | pragma body => exact hrest d _
        | value style name | inclusion name | dynamic name =>
          simp only
          refine map_relabel_before _ ?_ (hrest d [])
          simp only [relabel, origin_relabel src hf]
        | close name =>
          simp only [bodyAtClose]
          cases opened with
          | none => rfl
          | some o =>
            simp only
            split
            · simp only [Except.map, Body.relabel, relabelAll_flush]
              rfl
            · rfl
        | opening bracket name =>
          refine opening_relabel src hf found.tag bracket name s.after s.text
            (ih _ hlt (some ⟨name, found.tag⟩) d [] s.after rfl) fun b hb => ?_
          exact ih _ (Nat.lt_of_le_of_lt (length_after_of_bodyOf hb) hlt) opened d [] b.after rfl

theorem parse_relabel (d : Delimiters) (text : String) :
    (parse (src.at n) d text).map (relabelAll f) =
      (parse (src.at n') d text).map (relabelAll f') := by
  have hcodes : ∀ (f : Site → Site) (r : Except SyntaxError Body),
      (r.map Body.codes).map (relabelAll f) = (r.map (Body.relabel f)).map Body.codes := by
    intro f r
    rw [map_map, map_map]
    rfl
  rw [parse_eq, parse_eq, hcodes, hcodes, bodyOf_relabel src hf]

end Compilations

/-- The number of a compilation shows nowhere else than in sites. -/
theorem parse_bare (src : Source) (n : Nat) (d : Delimiters) (text : String) :
    (parse (src.at n) d text).map bareAll = (parse src d text).map bareAll := by
  have hforget (offset : Nat) : Site.forget (.parsed n offset) =
      Site.forget (.parsed src.compilation offset) := rfl
  exact parse_relabel src hforget d text

/-! ## Printing and matching -/

mutual

theorem print_relabel : ∀ c : Code, (relabel f c).print = c.print
  | .sect ⟨_, _, _, _, _, body⟩ => by
    simp only [relabel, print, printAll_relabelAll body]
    rfl
  | .extend ⟨_, _, _, body, _⟩ => by
    simp only [relabel, print, printAll_relabelAll body]
    rfl
  | .block ⟨_, _, _, body⟩ => by
    simp only [relabel, print, printAll_relabelAll body]
    rfl
  | .text _ => rfl
  | .value _ => rfl
  | .inclusion _ => rfl
  | .dynamic _ => rfl
  | .eof => rfl

theorem printAll_relabelAll : ∀ cs : List Code, printAll (relabelAll f cs) = printAll cs
  | [] => rfl
  | c :: cs => by
    simp only [relabelAll, printAll, print_relabel c, printAll_relabelAll cs]

end

theorem firstLiteral?_relabelAll (cs : List Code) :
    Follow.firstLiteral? (relabelAll f cs) = Follow.firstLiteral? cs := by
  cases cs with
  | nil => rfl
  | cons c cs => cases c <;> rfl

theorem isEmpty_relabelAll (cs : List Code) : (relabelAll f cs).isEmpty = cs.isEmpty := by
  cases cs <;> rfl

theorem before?_relabelAll (outer : Follow) (cs : List Code) :
    Follow.before? outer (relabelAll f cs) = Follow.before? outer cs := by
  induction cs with
  | nil => rfl
  | cons c cs ih =>
    cases c with
    | block b =>
      obtain ⟨origin, name, close, body⟩ := b
      simp only [relabelAll, relabel, Follow.before?, firstLiteral?_relabelAll,
        isEmpty_relabelAll, ih]
    | _ => rfl

mutual

theorem invertNode_relabel : ∀ (follow : Option Follow) (c : Code) (p : Progress),
    invertNode follow (relabel f c) p = invertNode follow c p
  | follow, .sect ⟨_, _, negated, _, _, body⟩, p => by
    simp only [relabel, invertNode, isEmpty_relabelAll, firstLiteral?_relabelAll,
      invertAll_relabelAll _ body]
  | follow, .block ⟨_, _, _, body⟩, p => by
    simp only [relabel, invertNode, invertAll_relabelAll _ body]
  | _, .text _, _ => rfl
  | _, .value _, _ => rfl
  | _, .inclusion _, _ => rfl
  | _, .dynamic _, _ => rfl
  | _, .extend _, _ => rfl
  | _, .eof, _ => rfl

theorem invertAll_relabelAll : ∀ (outer : Follow) (cs : List Code) (p : Progress),
    invertAll outer (relabelAll f cs) p = invertAll outer cs p
  | _, [], _ => rfl
  | outer, c :: cs, p => by
    simp only [relabelAll, invertAll, before?_relabelAll, invertNode_relabel _ c,
      invertAll_relabelAll outer cs]

end

/-! ## Replacing blocks -/

mutual

theorem used_relabel (owner owner' : Site) (outer : List (Block Code)) : ∀ c : Code,
    (substituteNode owner (relabelBlocks f outer) (relabel f c)).used =
      (substituteNode owner' outer c).used
  | .block ⟨_, name, _, body⟩ => by
    simp only [relabel, substituteNode, find?_relabelBlocks]
    cases Block.find? name outer with
    | some b => rfl
    | none => exact used_relabelAll owner owner' outer body
  | .sect ⟨_, _, _, _, _, body⟩ => used_relabelAll owner owner' outer body
  | .extend ⟨_, _, _, _, replacements⟩ => by
    simp only [relabel, substituteNode, used_relabelBlocks owner owner' outer replacements,
      name_relabelBlocks]
  | .text _ => rfl
  | .value _ => rfl
  | .inclusion _ => rfl
  | .dynamic _ => rfl
  | .eof => rfl

theorem used_relabelAll (owner owner' : Site) (outer : List (Block Code)) : ∀ cs : List Code,
    (substitute owner (relabelBlocks f outer) (relabelAll f cs)).used =
      (substitute owner' outer cs).used
  | [] => rfl
  | c :: cs => by
    simp only [relabelAll, substitute, used_relabel owner owner' outer c,
      used_relabelAll owner owner' outer cs]

theorem used_relabelBlocks (owner owner' : Site) (outer : List (Block Code)) :
    ∀ bs : List (Block Code),
    (layer owner (relabelBlocks f outer) (relabelBlocks f bs)).2 = (layer owner' outer bs).2
  | [] => rfl
  | ⟨_, name, _, body⟩ :: bs => by
    simp only [relabelBlocks, layer, find?_relabelBlocks, Option.isSome_map]
    split
    · exact used_relabelBlocks owner owner' outer bs
    · rw [used_relabelAll owner owner' outer body, used_relabelBlocks owner owner' outer bs]

end

end Code

/-! ## The parts of a tree -/

def Interpolation.bare (v : Interpolation) : Interpolation :=
  { v with origin := v.origin.relabel .forget }

def Inclusion.bare (p : Inclusion) : Inclusion :=
  { p with origin := p.origin.relabel .forget }

def Section.bare (s : Section Code) : Section Code :=
  { s with origin := s.origin.relabel .forget, body := Code.bareAll s.body }

def Extension.bare (e : Extension Code) : Extension Code :=
  { e with
    origin := e.origin.relabel .forget
    body := Code.bareAll e.body
    replacements := Code.bareBlocks e.replacements }

def Awaiting.bare : Awaiting → Awaiting
  | .value v => .value v.bare
  | .sect s => .sect s.bare
  | .inclusion codes => .inclusion (Code.bareAll codes)
  | .dynamic p => .dynamic p.bare

def Template.bare (t : Template) : Template :=
  { t with codes := Code.bareAll t.codes }

theorem Template.print_bare (t : Template) : t.bare.print = t.print :=
  Code.printAll_relabelAll t.codes

theorem Template.invert_bare (t : Template) (text : String) :
    t.bare.invert text = t.invert text := by
  simp only [Template.invert, Code.invert, Template.bare, Code.bareAll, Code.invertAll_relabelAll]

/-- What an extension makes of its parent is the plain recursion, and the names without a use do
    not depend on sites. -/
theorem Renderer.extended_bare (e : Extension Code) (parent : Template) :
    Code.bareAll (Renderer.extended e parent).1 =
      Code.rebuildAll e.bare.replacements parent.bare.codes ∧
    (Renderer.extended e parent).2 = (Renderer.extended e.bare parent.bare).2 := by
  constructor
  · rw [Code.fst_extended]
    exact (Code.relabelAll_replacedAll Site.forgetsGrafts_forget _ _ _).trans
      (Code.relabelAll_rebuildAll _ _)
  · simp only [Renderer.extended, Extension.bare, Template.bare, Code.bareAll, Code.bareBlocks,
      Code.used_relabelAll _ e.origin.site, Code.name_relabelBlocks]

end Mustache
