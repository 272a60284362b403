import Mustache.Delimiters

/-! # Errors

Everything that compiling, loading and rendering can fail with, as causes, and the wording of
each in one place.

* `SyntaxError` — a template that does not compile, with the place of the tag at fault.
* `LoadError` — a template that cannot be read.
* `RenderError` — a render that cannot go on.
* `Error` — any of the three.
-/

namespace Mustache

/-! ## Templates that do not compile -/

inductive SyntaxError.Cause
  /-- The closing delimiter of a tag never appears. -/
  | unterminatedTag (expected : String)
  /-- A tag that encloses a body is still open at the end. -/
  | unclosedSection (name : String)
  /-- A close tag has another name than the innermost open tag. -/
  | mismatchedSection (expected found : String)
  /-- A close tag stands where nothing is open. -/
  | unexpectedClose (name : String)
  /-- The closing brace of an unescaped variable is missing. -/
  | improperlyClosedVariable
  /-- A delimiter tag holds no usable pair. -/
  | invalidDelimiters (directive : String)
  /-- A tag has no name. -/
  | emptyTag
  /-- The body of an extending tag holds more than blocks and text. -/
  | illegalExtendContent (name : String)
deriving DecidableEq

/-- A fault in a template, with the file and the one-based line and column it is reported at. -/
structure SyntaxError where
  file : String
  line : Nat
  column : Nat
  cause : SyntaxError.Cause
deriving DecidableEq

def SyntaxError.Cause.message : SyntaxError.Cause → String
  | .unterminatedTag expected => "unterminated tag, expected `" ++ expected ++ "`"
  | .unclosedSection name => "section `" ++ name ++ "` is never closed"
  | .mismatchedSection expected found =>
    "`" ++ found ++ "` does not close section `" ++ expected ++ "`"
  | .unexpectedClose name => "unexpected close tag `" ++ name ++ "`"
  | .improperlyClosedVariable => "improperly closed variable"
  | .invalidDelimiters directive => "invalid delimiter directive `" ++ directive ++ "`"
  | .emptyTag => "empty tag"
  | .illegalExtendContent name =>
    "extend `" ++ name ++ "` may only contain replacement blocks and text"

/-- The wording of a fault: its place, then its cause. -/
def SyntaxError.message (e : SyntaxError) : String :=
  e.file ++ ":" ++ Nat.repr e.line ++ ":" ++ Nat.repr e.column ++ ": " ++ e.cause.message

/-! ## Templates that cannot be read -/

inductive LoadError
  /-- There is no template of that name. -/
  | notFound (name : String)
  /-- There is one, but reading it failed. -/
  | unreadable (name cause : String)
deriving DecidableEq

def LoadError.message : LoadError → String
  | .notFound name => "template not found: " ++ name
  | .unreadable name cause => "failed to read template `" ++ name ++ "`: " ++ cause

/-! ## Renders that cannot go on -/

inductive RenderError
  /-- A deferred computation failed, or came to a halt away from the render. -/
  | deferredFailure (name message : String)
  /-- Replacement blocks that the extended template does not declare. -/
  | inheritanceMismatch (template parent : String) (blocks : List String)
  /-- Too many inclusions inside one another. -/
  | recursionLimit (name : String) (limit : Nat) (file : String) (line : Nat)
  | missing (name file : String) (line : Nat)
  | output (cause : String)
deriving DecidableEq

def commaSeparated : List String → String
  | [] => ""
  | [name] => name
  | name :: names => name ++ ", " ++ commaSeparated names

def RenderError.message : RenderError → String
  | .deferredFailure name message => "deferred value `" ++ name ++ "` failed: " ++ message
  | .inheritanceMismatch template parent blocks =>
    "`" ++ template ++ "` overrides blocks not declared by `" ++ parent ++ "`: " ++
      commaSeparated blocks
  | .recursionLimit name limit file line =>
    file ++ ":" ++ Nat.repr line ++ ": including `" ++ name ++ "` exceeds the recursion limit of " ++
      Nat.repr limit
  | .missing name file line =>
    file ++ ":" ++ Nat.repr line ++ ": `" ++ name ++ "` not found in scopes"
  | .output cause => "output error: " ++ cause

/-! ## Any of them -/

inductive Error
  | compile (e : SyntaxError)
  | load (e : LoadError)
  | render (e : RenderError)
deriving DecidableEq

def Error.message : Error → String
  | .compile e => e.message
  | .load e => e.message
  | .render e => e.message

end Mustache
