import Mustache.Proofs.Code.Scan

/-! # Running a scan

A scan goes on in one way at most, and the states that it comes to can be computed: `Scan.states`
lists them, so that what is asked of every state of a scan can be checked for a given text.

* `Scan.step?` — the state after the next tag.
* `Scan.states` — all states that a scan comes to.
* `Scan.Throughout` — a check that all states of the scan of a text pass.
-/

namespace Mustache.Code.Scan

variable {src : Source} {s t u : Scan} {found : Tag.Found}

/-! ## One step -/

/-- Passing a tag, unless something is wrong. -/
def pass? (src : Source) (s : Scan) (found : Tag.Found) : Option Scan :=
  let line := settleFound s.text found
  match found.tag.content with
  | .comment => some { s with text := line.text, cursor := line.after }
  | .delimiters d => some { s with delimiters := d, text := line.text, cursor := line.after }
  | .pragma body =>
    some { s with text := line.text ++ src.pragmaText body, cursor := line.after }
  | .opening bracket name =>
    some ⟨⟨bracket, name, found.tag, s.delimiters, line.after, s.body found⟩ :: s.frames,
      s.delimiters, [], [], line.after⟩
  | .close name =>
    match s.frames with
    | [] => none
    | f :: frames =>
      if f.name = name then
        (ofBody src f.tag f.bracket f.name f.start (s.closed found)).toOption.map fun code =>
          ⟨frames, f.delimiters, [], f.before ++ [code], line.after⟩
      else none
  | _ =>
    (leaf? src found.tag line.indent).map fun code =>
      { s with text := [], codes := s.body found ++ [code], cursor := line.after }

/-- The state after the next tag. -/
def step? (src : Source) (s : Scan) : Option Scan :=
  match Tag.next src.file s.delimiters s.cursor with
  | .ok (some found) => pass? src s found
  | _ => none

theorem pass?_of_passes (h : s.Passes src found t) : pass? src s found = some t := by
  cases h with
  | comment h | delimiters h | pragma h | opening h => simp only [pass?, h]
  | leaf h =>
    have hleaf := h
    unfold leaf? at h
    unfold pass?
    cases hcontent : found.tag.content <;> simp [hcontent] at h ⊢ <;> simp [hleaf]
  | close h hframes hcode => simp [pass?, h, hframes, hcode, Except.toOption]

theorem step?_of_step (h : s.Step src t) : step? src s = some t := by
  obtain ⟨found, hmeets, hpasses⟩ := h
  rw [step?, hmeets]
  exact pass?_of_passes hpasses

/-- Where a scan does not go on, no state comes next. -/
theorem step?_eq_some_iff : step? src s = some t ↔ s.Step src t := by
  refine ⟨fun h => ?_, step?_of_step⟩
  obtain ⟨u, hstep⟩ | ⟨codes, hnext, -⟩ | ⟨e, hfault⟩ := progress src s
  · obtain rfl : u = t := Option.some.inj ((step?_of_step hstep).symm.trans h)
    exact hstep
  · simp [step?, hnext] at h
  · exfalso
    cases hfault with
    | lexing hnext | unclosedSection hnext => simp [step?, hnext] at h
    | unexpectedClose hmeets hcontent hframes =>
      rw [step?, hmeets] at h
      simp [pass?, hcontent, hframes] at h
    | mismatchedSection hmeets hcontent hframes hname =>
      rw [step?, hmeets] at h
      simp [pass?, hcontent, hframes, hname] at h
    | @illegalExtendContent found f frames code hmeets hcontent hframes hbracket hcode =>
      have hillegal : illegalInExtension? (s.closed found).codes = some code := hcode
      rw [step?, hmeets] at h
      simp [pass?, hcontent, hframes, hbracket, ofBody, hillegal, Except.toOption] at h

theorem not_step_of_step?_eq_none (h : step? src s = none) : ∀ t, ¬ s.Step src t := by
  intro t hstep
  cases h.symm.trans (step?_of_step hstep)

/-! ## All states -/

/-- The states that a scan comes to in at most so many steps. -/
def states (src : Source) : Nat → Scan → List Scan
  | 0, s => [s]
  | n + 1, s => s :: ((step? src s).map (states src n)).getD []

theorem reaches_of_mem_states {n : Nat} (h : t ∈ states src n s) : Reaches src s t := by
  induction n generalizing s with
  | zero =>
    obtain rfl := List.mem_singleton.mp h
    exact .refl
  | succ n ih =>
    obtain rfl | h := List.mem_cons.mp h
    · exact .refl
    · cases hstep : step? src s with
      | none => simp [hstep] at h
      | some u =>
        rw [hstep] at h
        exact .head (step?_eq_some_iff.mp hstep) (ih h)

/-- A scan comes to no other states, if there are as many steps as characters are left. -/
theorem mem_states {n : Nat} (hn : s.cursor.rest.length ≤ n) (h : Reaches src s t) :
    t ∈ states src n s := by
  induction n generalizing s with
  | zero =>
    obtain rfl | ⟨u, ⟨found, hmeets, hpasses⟩, -⟩ := h.cases_head
    · exact List.mem_singleton_self _
    · have hlt := length_of_passes hmeets hpasses
      omega
  | succ n ih =>
    obtain rfl | ⟨u, hstep, hrest⟩ := h.cases_head
    · exact List.mem_cons_self
    · obtain ⟨found, hmeets, hpasses⟩ := id hstep
      have hlt := length_of_passes hmeets hpasses
      rw [states, step?_of_step hstep]
      exact List.mem_cons_of_mem _ (ih (by omega) hrest)

/-- Every state that the scan of a text comes to passes a check. -/
def Throughout (src : Source) (d : Delimiters) (text : String) (check : Scan → Bool) : Prop :=
  ∀ s, (start d text).Reaches src s → check s = true

instance (src : Source) (d : Delimiters) (text : String) (check : Scan → Bool) :
    Decidable (Throughout src d text check) :=
  decidable_of_iff ((states src text.toList.length (start d text)).all check = true)
    (List.all_eq_true.trans ⟨fun h s hs => h s (mem_states (Nat.le_refl _) hs),
      fun h s hs => h s (reaches_of_mem_states hs)⟩)

end Mustache.Code.Scan
