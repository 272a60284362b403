import Mustache.Text.Blank

/-! # Cursors

A place in a template while it is read: the text still to come, and enough about the text already
passed to tell the line, the column and what stands before on the same line.
-/

namespace Mustache

structure Cursor where
  line : Nat
  /-- The characters already passed on this line, last first. -/
  lead : List Char
  offset : Nat
  rest : List Char
deriving DecidableEq

namespace Cursor

def start (s : List Char) : Cursor :=
  ⟨1, [], 0, s⟩

/-- The column, counted in characters from one. -/
def column (c : Cursor) : Nat :=
  c.lead.length + 1

def next (c : Cursor) : Cursor :=
  match c.rest with
  | [] => c
  | ch :: s =>
    if ch = '\n' then ⟨c.line + 1, [], c.offset + 1, s⟩
    else ⟨c.line, ch :: c.lead, c.offset + 1, s⟩

/-- The place `n` characters further on, or the end if there are fewer. -/
def skip : Nat → Cursor → Cursor
  | 0, c => c
  | n + 1, c => skip n c.next

theorem rest_next (c : Cursor) : c.next.rest = c.rest.drop 1 := by
  unfold next
  split
  · next h => simp [h]
  · next h => split <;> simp [h]

/-- Skipping drops that many characters from the text to come. -/
theorem rest_skip (n : Nat) (c : Cursor) : (skip n c).rest = c.rest.drop n := by
  induction n generalizing c with
  | zero => rfl
  | succ n ih => rw [skip, ih, rest_next, List.drop_drop, Nat.add_comm]

theorem length_rest_skip_le (n : Nat) (c : Cursor) :
    (skip n c).rest.length ≤ c.rest.length := by
  rw [rest_skip, List.length_drop]
  omega

end Cursor

end Mustache
