import Mustache.Proofs.Code.Elsewhere
import Mustache.Proofs.Code.Tokens

/-! # Seams

Where whole lines end, another text may begin.  A scan of the lines alone is also a scan of the
lines with the other text behind them, up to where it stops; and the literal text at the end of the
lines may be passed without looking at what follows.

* `Scan.exists_reaches_front` — scans of the same lines with different texts behind them.
* `Scan.answer_pass` — literal text at the end of lines is passed.
-/

namespace Mustache

namespace Code

open Text (WholeLines)

variable {a a' q r x y y' z : List Char} {d : Delimiters}

theorem fresh_of_wholeLines (ha : WholeLines a) (rest : List Char) : Fresh a rest :=
  fun _ => .inl (Text.lastLine_eq_nil ha)

namespace Scan

variable {src : Source} {s t u : Scan}

/-! ## Lines and what is behind them -/

/-- A scan of whole lines goes the same way whatever is behind them. -/
theorem exists_reaches_front {C : Comparison} (hC : C.Fits [] []) {text text' : String}
    (hd : d.isValid = true) (ha : WholeLines a) (htext : text.toList = a ++ y)
    (htext' : text'.toList = a ++ y') (hreaches : (start d text).Reaches C.src u)
    (hrest : ∃ r, u.cursor.rest = r ++ y) :
    ∃ u', (start d text').Reaches C.src' u' ∧ u.Abreast C (fun _ _ => False) [] [] a y y' u' := by
  have hsound := sound_start hd text
  have hsound' := sound_start hd text'
  rw [htext] at hsound
  rw [htext'] at hsound'
  have hstart : (start d text).Abreast C (fun _ _ => False) [] [] a y y' (start d text') :=
    ⟨⟨.nil, rfl, fun _ => rfl, rfl⟩, [], a, rfl, hsound, hsound'⟩
  exact hstart.reaches hC (fun _ _ hF => hF.elim) Text.wholeLines_nil Text.wholeLines_nil (.inr ha)
    hreaches hrest

/-- A scan of whole lines is a scan of a longer text. -/
theorem exists_reaches_append {a text : String} (hd : d.isValid = true)
    (ha : WholeLines a.toList) (htext : text.toList = a.toList ++ z)
    (hreaches : (start d a).Reaches src u) :
    ∃ u' q r, (start d text).Reaches src u' ∧ a.toList = q ++ r ∧ u.Sound q r ∧
      u'.Sound q (r ++ z) ∧ u.Alike (.by src .same) (Frame.Abreast [] [] a.toList [] z) u' := by
  obtain ⟨u', hreaches', halike, q, r, hqr, hu, hu'⟩ :=
    exists_reaches_front (Comparison.fits_by src .same []) hd ha
      (List.append_nil a.toList).symm htext hreaches ⟨_, (List.append_nil _).symm⟩
  rw [List.append_nil] at hu
  refine ⟨u', q, r, hreaches', hqr, hu, hu', ?_, halike.delimiters, halike.text, halike.codes⟩
  exact halike.frames.imp fun F F' hF => ⟨hF.1, hF.2.resolve_right id⟩

/-! ## Literal text -/

/-- The state of a scan that has passed literal text, and has another text to come. -/
def pass (s : Scan) (q x z : List Char) : Scan :=
  { s with text := s.text ++ x, cursor := .past (q ++ x) z }

/-- Literal text at the end of lines is passed without looking at what follows. -/
theorem answer_pass (hs : s.cursor = .past q (x ++ z)) (hd : s.delimiters.isValid = true)
    (hx : WholeLines x) (hcut : Text.cut? s.delimiters.opening.toList x = none) :
    answer src s = answer src (s.pass q x z) := by
  have hfeed := not_mem_of_isUsable (Bool.and_eq_true_iff.mp hd).1
  simp only [answer, pass, hs,
    bodyOf_pass (Text.cut?_append_of_wholeLines hfeed hx hcut z)]

end Scan

end Code

end Mustache
