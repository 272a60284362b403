import Mustache.Text.Search

/-! # Character references

Two readings of the text after an ampersand.  `startsReference` is the form the encoder keeps:
a name, a decimal or a hexadecimal number, then a semicolon.  `decodeReference?` is what the
decoder understands: four names, and numbers that denote a character.
-/

namespace Mustache.Html

/-! ## The well-formed references -/

def isNameChar (c : Char) : Bool :=
  c.isAlphanum

def isHexDigit (c : Char) : Bool :=
  c.isDigit || ('a' ≤ c && c ≤ 'f') || ('A' ≤ c && c ≤ 'F')

/-- Whether a text is one or more characters of a class, closed by a semicolon, with anything
    after it. -/
def closedRun (p : Char → Bool) (s : List Char) : Bool :=
  match s.takeWhile p, s.dropWhile p with
  | _ :: _, c :: _ => c == ';'
  | _, _ => false

/-- Whether the text after an ampersand makes a well-formed reference of it. -/
def startsReference : List Char → Bool
  | '#' :: 'x' :: s => closedRun isHexDigit s
  | '#' :: 'X' :: s => closedRun isHexDigit s
  | '#' :: s => closedRun Char.isDigit s
  | s => closedRun isNameChar s

/-! ## The references that decode -/

/-- The value of a digit in bases up to sixteen. -/
def digitValue? (c : Char) : Option Nat :=
  if c.isDigit then some (c.toNat - '0'.toNat)
  else if 'a' ≤ c && c ≤ 'f' then some (c.toNat - 'a'.toNat + 10)
  else if 'A' ≤ c && c ≤ 'F' then some (c.toNat - 'A'.toNat + 10)
  else none

/-- The number written by digits of a base, most significant first, continuing from `acc`. -/
def digits? (base : Nat) : Nat → List Char → Option Nat
  | acc, [] => some acc
  | acc, c :: s =>
    match digitValue? c with
    | some d => if d < base then digits? base (acc * base + d) s else none
    | none => none

/-- The number written by at least one digit of a base, after an optional plus sign. -/
def number? (base : Nat) : List Char → Option Nat
  | [] => none
  | ['+'] => none
  -- A plus sign is read, though the encoder keeps no reference that has one.
  | '+' :: s => digits? base 0 s
  | s => digits? base 0 s

/-- The character with a given number, if the number is a Unicode scalar value. -/
def scalar? (n : Nat) : Option Char :=
  if h : n.isValidChar then some (Char.ofNatAux n h) else none

/-- The character a reference stands for, given the text between the ampersand and the
    semicolon. -/
def decodeBody? (body : List Char) : Option Char :=
  if body = ['a', 'm', 'p'] then some '&'
  else if body = ['l', 't'] then some '<'
  else if body = ['g', 't'] then some '>'
  else if body = ['q', 'u', 'o', 't'] then some '"'
  else
    match body with
    | '#' :: 'x' :: s => (number? 16 s).bind scalar?
    | '#' :: 'X' :: s => (number? 16 s).bind scalar?
    | '#' :: s => (number? 10 s).bind scalar?
    | _ => none

/-- The character that the reference at an ampersand stands for, and how many characters the
    reference takes after the ampersand.  The reference reaches to the first semicolon, however
    far away. -/
def decodeReference? (s : List Char) : Option (Char × Nat) :=
  match Text.cutAtChar? ';' s with
  | none => none
  | some (body, _) => (decodeBody? body).map fun c => (c, body.length + 1)

end Mustache.Html
