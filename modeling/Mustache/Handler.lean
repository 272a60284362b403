import Mustache.Html.Escape
import Mustache.Lookup.Find
import Mustache.Value.Display

/-! # Handlers

How a render looks names up and presents values.  Embedders may give handlers of their own:
`Handler.standard` is the usual one.  The handlers after it each change one answer of another
handler, so that what a handler decides can be told apart from what rendering does by itself.
-/

namespace Mustache

/-- How a render looks names up and presents values. -/
structure Handler where
  /-- The decision about a name on a stack. -/
  find : String → Scopes → Wrapper
  /-- What a value is looked at as. -/
  coerce : Value → Value
  isFalsey : Value → Bool
  elements : Value → List Value
  display : Value → String
  /-- The encoding of text for a tag that is not unescaped. -/
  encode : String → String

namespace Handler

/-- The usual handler: optionals are looked through, and text is encoded for HTML. -/
def standard : Handler where
  find := Lookup.find
  coerce := Value.coerce
  isFalsey := Value.isFalsey
  elements := Value.elements
  display := Value.display
  encode := Html.escape

/-- Values are displayed in capital letters. -/
def shouting (h : Handler) : Handler :=
  { h with display := fun v => Text.upper v.display }

/-- Text is not encoded. -/
def raw (h : Handler) : Handler :=
  { h with encode := id }

/-- The number zero is falsey too. -/
def zeroFalsey (h : Handler) : Handler :=
  { h with isFalsey := fun v => v.asInt? = some 0 || v.isFalsey }

/-- Sections over maps go through their values. -/
def mapEntries (h : Handler) : Handler :=
  { h with elements := fun v => match v with
      | .map entries => entries.map (·.2)
      | v => v.elements }

/-- Every look at an integer is a look at the next one. -/
def successor (h : Handler) : Handler :=
  { h with coerce := fun v => match v with
      | .int n => .int (n + 1)
      | v => v.coerce }

end Handler

end Mustache
