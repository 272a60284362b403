import Mustache.Cursor
import Mustache.Error
import Mustache.Text.Search

/-! # Tags

One tag of a template: what it is written for, where it stands and with which delimiters.

* `Tag.Content.ofChars` — what the text inside a tag says.
* `Tag.next` — the next tag of a template, with the literal text before it.
* `Tag.lineRest?` — whether a tag stands alone on its line, and what of the line follows it.
-/

namespace Mustache

/-- The three ways to write a tag that stands for a value. -/
inductive Interpolation.Style
  /-- The name alone; the text is encoded. -/
  | escaped
  /-- The name in one more pair of braces. -/
  | triple
  /-- The name after an ampersand. -/
  | ampersand
deriving DecidableEq

/-- The four kinds of tag that enclose a body. -/
inductive Tag.Bracket
  /-- A section, after a number sign. -/
  | positive
  /-- An inverted section, after a circumflex. -/
  | negated
  /-- The extension of a parent template, after a less-than sign. -/
  | extend
  /-- A replaceable block, after a dollar sign. -/
  | block
deriving DecidableEq

/-- What a tag is written for. -/
inductive Tag.Content
  /-- A value of that name. -/
  | value (style : Interpolation.Style) (name : String)
  /-- The start of a body. -/
  | opening (bracket : Tag.Bracket) (name : String)
  /-- The end of a body. -/
  | close (name : String)
  /-- The template of that name. -/
  | inclusion (name : String)
  /-- The template whose name is the text of a value. -/
  | dynamic (name : String)
  /-- Nothing. -/
  | comment
  /-- Other delimiters from here on. -/
  | delimiters (d : Delimiters)
  /-- A directive to the engine: its name and its arguments. -/
  | pragma (body : List Char)
deriving DecidableEq

structure Tag where
  content : Tag.Content
  delimiters : Delimiters
  place : Cursor
deriving DecidableEq

namespace Tag

/-! ## Reading the text inside a tag -/

/-- The text before and after the first `n` bytes, if a character ends there. -/
def cutAtByte? : Nat → List Char → Option (List Char × List Char)
  | 0, s => some ([], s)
  | _ + 1, [] => none
  | n + 1, c :: s =>
    if c.utf8Size ≤ n + 1 then
      (cutAtByte? (n + 1 - c.utf8Size) s).map fun p => (c :: p.1, p.2)
    else none

/-- The pair written in the body of a delimiter tag: two words, or one word that is cut in
    half by bytes. -/
def pair? (body : List Char) : Option Delimiters :=
  match Text.words body with
  | [opening, closing] => some ⟨.ofList opening, .ofList closing⟩
  | [both] =>
    let size := Text.utf8Size both
    if size % 2 = 0 then
      (cutAtByte? (size / 2) both).map fun p => ⟨.ofList p.1, .ofList p.2⟩
    else none
  | _ => none

/-- The pair written in a delimiter tag, whose text starts with an equals sign and has to end
    with another one. -/
def directive? (content : List Char) : Option Delimiters :=
  let rest := content.drop 1
  if rest.getLast? = some '=' then (pair? rest.dropLast).filter Delimiters.isValid else none

/-- What a tag with a sigil is written for, given the trimmed name after the sigil. -/
def Content.ofSigil? (sigil : Char) (name : List Char) : Option Content :=
  let text := String.ofList name
  match sigil with
  | '#' => some (.opening .positive text)
  | '^' => some (.opening .negated text)
  | '/' => some (.close text)
  | '>' =>
    match name with
    | '*' :: target =>
      let target := Text.trim target
      if target.isEmpty then none else some (.dynamic (.ofList target))
    | _ => some (.inclusion text)
  | '&' => some (.value .ampersand text)
  | '%' => some (.pragma name)
  | '<' => some (.opening .extend text)
  | '$' => some (.opening .block text)
  | _ => none

/-- The characters that say what a tag is written for. -/
def isSigil (c : Char) : Bool :=
  ['!', '=', '#', '^', '/', '>', '&', '%', '<', '$'].contains c

/-- What the trimmed text inside a tag says. -/
def Content.ofChars : List Char → Except SyntaxError.Cause Content
  | [] => .error .emptyTag
  | c :: s =>
    if c = '!' then .ok .comment
    else if c = '=' then
      match directive? (c :: s) with
      | some d => .ok (.delimiters d)
      | none => .error (.invalidDelimiters (.ofList (c :: s)))
    else if isSigil c then
      let name := Text.trim s
      if name.isEmpty then .error .emptyTag
      else
        match Content.ofSigil? c name with
        | some content => .ok content
        | none => .error .emptyTag
    else .ok (.value .escaped (.ofList (c :: s)))

/-- What the trimmed text inside a tag with one more pair of braces says. -/
def Content.ofTriple (s : List Char) : Except SyntaxError.Cause Content :=
  if s.isEmpty then .error .emptyTag else .ok (.value .triple (.ofList s))

/-! ## Finding tags -/

/-- What a tag says, and the text after it, given the text after its opening delimiter. -/
def scanInside (d : Delimiters) (inside : List Char) :
    Except SyntaxError.Cause (Content × List Char) :=
  match inside with
  | '{' :: raw =>
    -- The brace that closes the name stands right before the closing delimiter.
    match Text.cut? ('}' :: d.closing.toList) raw with
    | some (s, rest) => (Content.ofTriple (Text.trim s)).map (·, rest)
    | none =>
      -- A closing delimiter without the brace is a fault of its own.
      if Text.occurs d.closing.toList inside then .error .improperlyClosedVariable
      else .error (.unterminatedTag d.closing)
  | _ =>
    match Text.cut? d.closing.toList inside with
    | some (s, rest) => (Content.ofChars (Text.trim s)).map (·, rest)
    | none => .error (.unterminatedTag d.closing)

/-- A tag, with the literal text before it and the place after it. -/
structure Found where
  before : List Char
  tag : Tag
  after : Cursor

/-- The next tag at or after a place, if an opening delimiter follows at all. -/
def next (file : String) (d : Delimiters) (c : Cursor) : Except SyntaxError (Option Found) :=
  match Text.cut? d.opening.toList c.rest with
  | none => .ok none
  | some (before, inside) =>
    let place := c.skip before.length
    match scanInside d inside with
    | .error cause => .error ⟨file, place.line, place.column, cause⟩
    | .ok (content, rest) =>
      .ok (some ⟨before, ⟨content, d, place⟩, place.skip (place.rest.length - rest.length)⟩)

/-! ## Standing alone -/

/-- Whether only spaces and tabs stand before the tag on its line. -/
def startsLine (t : Tag) : Bool :=
  t.place.lead.all Text.isSpacing

def indent (t : Tag) : List Char :=
  t.place.lead.reverse

/-- Whether a tag of this content goes away with its line when it stands alone. -/
def Content.mayStandAlone : Content → Bool
  | .value _ _ => false
  | _ => true

/-- How many characters a line goes on for, with its line ending, if nothing but spaces and tabs
    is left on it. -/
def blankLineRest? (s : List Char) : Option Nat :=
  let spacing := (s.takeWhile Text.isSpacing).length
  match s.dropWhile Text.isSpacing with
  | [] => some spacing
  | '\n' :: _ => some (spacing + 1)
  | '\r' :: '\n' :: _ => some (spacing + 2)
  | _ => none

/-- If the tag stands alone on its line, how many characters of the line follow it. -/
def lineRest? (t : Tag) (after : Cursor) : Option Nat :=
  if t.content.mayStandAlone && t.startsLine then blankLineRest? after.rest else none

/-! ## Tags use up text -/

/-- Reading a tag uses up text: the text inside it and its closing delimiter are not both empty,
    since a tag without text is an error. -/
theorem length_rest_of_scanInside {d : Delimiters} {inside rest : List Char} {content : Content}
    (h : scanInside d inside = .ok (content, rest)) : rest.length < inside.length := by
  unfold scanInside at h
  split at h
  · split at h
    · next raw s r hcut =>
      have happ := congrArg List.length (Text.eq_append_of_cut? hcut)
      simp only [Content.ofTriple] at h
      split at h
      · simp [Except.map] at h
      · simp only [Except.map, Except.ok.injEq, Prod.mk.injEq] at h
        obtain ⟨_, rfl⟩ := h
        simp only [List.length_append, List.length_cons] at happ
        simp only [List.length_cons]
        omega
    · split at h <;> simp at h
  · split at h
    · next s r hcut =>
      have happ := congrArg List.length (Text.eq_append_of_cut? hcut)
      cases hc : Content.ofChars (Text.trim s) with
      | error e => simp [hc, Except.map] at h
      | ok content =>
        simp only [hc, Except.map, Except.ok.injEq, Prod.mk.injEq] at h
        obtain ⟨_, rfl⟩ := h
        simp only [List.length_append] at happ
        cases s with
        | nil => simp [Text.trim, Text.trimStart, Text.trimEnd, Content.ofChars] at hc
        | cons a s =>
          simp only [List.length_cons] at happ
          omega
    · simp at h

/-- The text after a tag is shorter than the text it was looked for in. -/
theorem length_after_of_next {file : String} {d : Delimiters} {c : Cursor} {found : Found}
    (h : next file d c = .ok (some found)) :
    found.after.rest.length < c.rest.length := by
  unfold next at h
  split at h
  · simp at h
  · next before inside hcut =>
    simp only at h
    split at h
    · simp at h
    · next content rest hscan =>
      have happ := congrArg List.length (Text.eq_append_of_cut? hcut)
      have hlt := length_rest_of_scanInside hscan
      simp only [List.length_append] at happ
      simp only [Except.ok.injEq, Option.some.injEq] at h
      rw [← h]
      simp only [Cursor.rest_skip, List.length_drop]
      omega

end Tag

end Mustache
