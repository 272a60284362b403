import Mustache.Proofs.Code.Inside
import Mustache.Proofs.Code.Matching

/-! # Trees that need other templates

Inclusions and extensions stand for other templates, and there is no text that they are matched
with.  A tree that comes to one of them does not fit any text.  A section is different: a body that
never matches is a body without a round, and the section is passed over.

* `Code.holdsExternalAll` — an inclusion or an extension outside all sections.
* `Code.invertNode_positive_external`, `Code.invertNode_negated_external` — sections around one.
* `Template.invert_external` — templates that have no inverse.
-/

namespace Mustache

namespace Code

/-- Whether a node stands for another template. -/
def isExternal : Code → Bool
  | .inclusion _ | .dynamic _ | .extend _ => true
  | _ => false

mutual

/-- Whether a node for another template stands in a node, outside all sections. -/
def holdsExternal : Code → Bool
  | .block ⟨_, _, _, body⟩ => holdsExternalAll body
  | c => c.isExternal

def holdsExternalAll : List Code → Bool
  | [] => false
  | c :: cs => holdsExternal c || holdsExternalAll cs

end

mutual

/-- No text is matched with another template. -/
theorem invertNode_external : ∀ {c : Code}, holdsExternal c = true →
    ∀ (follow : Option Follow) (p : Progress), invertNode follow c p = none
  | .inclusion _, _, _, _ | .dynamic _, _, _, _ | .extend _, _, _, _ => rfl
  | .block ⟨_, _, _, _⟩, h, follow, p => invertAll_external h (follow.getD .unknown) p
  | .text _, h, _, _ | .value _, h, _, _ | .sect _, h, _, _ | .eof, h, _, _ => by cases h

theorem invertAll_external : ∀ {cs : List Code}, holdsExternalAll cs = true →
    ∀ (outer : Follow) (p : Progress), invertAll outer cs p = none
  | [], h, _, _ => by cases h
  | c :: cs, h, outer, p => by
    rw [holdsExternalAll, Bool.or_eq_true] at h
    rw [invertAll]
    obtain hc | hcs := h
    · rw [invertNode_external hc]
    · cases invertNode (Follow.before? outer cs) c p with
      | none => rfl
      | some q => exact invertAll_external hcs outer q

end

section Sections

variable {s : Section Code} (h : holdsExternalAll s.body = true) (follow : Option Follow)
  (p : Progress)
include h

theorem isEmpty_of_holdsExternalAll : s.body.isEmpty = false := by
  cases hbody : s.body with
  | nil => rw [hbody] at h; cases h
  | cons c cs => rfl

/-- A section around another template is passed over. -/
theorem invertNode_positive_external (hpositive : s.negated = false) :
    invertNode follow (.sect s) p = some p := by
  obtain ⟨origin, name, _, close, raw, body⟩ := s
  obtain rfl := hpositive
  -- Not even the first round matches.
  have hrounds (fuel : Nat) (text : List Char) :
      rounds (turn follow body) fuel text = ([], text) := by
    cases fuel with
    | zero => rfl
    | succ fuel => rw [rounds, turn, invertAll_external h]
  have hempty : body.isEmpty = false := isEmpty_of_holdsExternalAll h
  rw [invertNode_rounds hempty, hrounds]
  rfl

/-- A negated section around another template tells that its name holds. -/
theorem invertNode_negated_external (hnegated : s.negated = true) :
    invertNode follow (.sect s) p =
      if Recovered.isBound s.name p.names then some p
      else (Recovered.bind s.name (.bool true) p.names).map fun names => ⟨names, p.rest⟩ := by
  obtain ⟨origin, name, _, close, raw, body⟩ := s
  obtain rfl := hnegated
  have hempty : body.isEmpty = false := isEmpty_of_holdsExternalAll h
  simp only [invertNode, hempty, Bool.false_eq_true, if_false, if_true, invertAll_external h]

end Sections

end Code

/-! ## Templates -/

namespace Template

/-- **Other templates have no inverse.**  A tree with an inclusion or an extension outside its
    sections, at whatever depth of its blocks, fits no text.  As the body of a section it is not
    there: the section uses up no text, and recovers at most that its name holds, if it is
    negated. -/
theorem invert_external {body : List Code} (h : Code.holdsExternalAll body = true) :
    (∀ (t : Template) (text : String), t.codes = body → t.invert text = none) ∧
      ∀ (s : Section Code) (follow : Option Follow) (p : Code.Progress), s.body = body →
        Code.invertNode follow (.sect s) p =
          if s.negated && !Recovered.isBound s.name p.names then
            (Recovered.bind s.name (.bool true) p.names).map fun names => ⟨names, p.rest⟩
          else some p := by
  constructor
  · rintro t text rfl
    rw [invert, Code.invert, Code.invertAll_external h, Option.map_none]
  · rintro s follow p rfl
    cases hnegated : s.negated with
    | false => simpa using Code.invertNode_positive_external h follow p hnegated
    | true =>
      rw [Code.invertNode_negated_external h follow p hnegated]
      cases Recovered.isBound s.name p.names <;> rfl

/-- A dynamic inclusion in a block of a block, behind a section. -/
theorem invert_external_nested :
    let source := "\x7b\x7b#s\x7d\x7dx\x7b\x7b/s\x7d\x7d\x7b\x7b$a\x7d\x7d[\x7b\x7b$b\x7d\x7d" ++
      "\x7b\x7b>*p\x7d\x7d\x7b\x7b/b\x7d\x7d]\x7b\x7b/a\x7d\x7d"
    let t : Template :=
      ⟨"page", source, (Code.parse ⟨"page", 0, []⟩ .standard source).toOption.getD []⟩
    Code.holdsExternalAll t.codes = true ∧ t.invert "x[]" = none := by
  intro source t
  have h : Code.holdsExternalAll t.codes = true := by decide +kernel
  exact ⟨h, (invert_external h).1 t "x[]" rfl⟩

/-- A section around an inclusion is passed over, and the template fits the empty text. -/
theorem invert_external_passedOver :
    let source := "\x7b\x7b#a\x7d\x7d\x7b\x7b>p\x7d\x7d\x7b\x7b/a\x7d\x7d"
    let t : Template :=
      ⟨"page", source, (Code.parse ⟨"page", 0, []⟩ .standard source).toOption.getD []⟩
    ∃ c, c.isExternal = true ∧ Code.Inside c t.codes ∧ (t.invert "").isSome = true := by
  intro source t
  have hinner : (Code.inner t.codes).any Code.isExternal = true := by decide +kernel
  obtain ⟨c, hmem, hc⟩ := List.any_eq_true.mp hinner
  exact ⟨c, hc, Code.inside_of_mem_inner hmem, by decide +kernel⟩

end Template

end Mustache
