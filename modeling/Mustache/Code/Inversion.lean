import Mustache.Code
import Mustache.Html.Escape
import Mustache.Value.Equality

/-! # Inversion

Recovering data from rendered text.  Literals have to be there as they are.  A value takes
everything up to the next literal that can follow it.  A section repeats its body while the body
keeps matching.  Inclusions and extensions have no inverse.

* `Follow` — what may come after a node.
* `Recovered` — the names recovered so far, nested by their dots.
* `invert` — the data recovered from a text, if it fits.
-/

namespace Mustache

/-! ## What may follow -/

/-- What may come after a node: one of some literals, or the end of the text. -/
structure Follow where
  literals : List (List Char)
  mayEnd : Bool

namespace Follow

/-- Nothing is known about what follows. -/
def unknown : Follow :=
  ⟨[], false⟩

def atEnd : Follow :=
  ⟨[], true⟩

def literal (s : String) : Follow :=
  ⟨[s.toList], false⟩

/-- The literal that a list of nodes starts with. -/
def firstLiteral? : List Code → Option String
  | .text s :: _ => some s
  | _ => none

/-- What follows a node that comes before the nodes `next`, inside something that is followed by
    `outer`.  A block that starts with a literal is as good as the literal, and an empty one is
    passed over; before any other tag the boundary cannot be told. -/
def before? (outer : Follow) : List Code → Option Follow
  | [] => some outer
  | .text s :: _ => some (.literal s)
  | .eof :: _ => some .atEnd
  | .block b :: next =>
    match firstLiteral? b.body with
    | some s => some (.literal s)
    | none => if b.body.isEmpty then before? outer next else none
  | _ => none

/-- How many characters come before the nearest literal that may follow, or are left if the text
    may end. -/
def distance? (f : Follow) (s : List Char) : Option Nat :=
  match (f.literals.filterMap fun l => (Text.cut? l s).map fun p => p.1.length).min? with
  | some n => some n
  | none => if f.mayEnd then some s.length else none

end Follow

/-! ## What is recovered -/

/-- Names recovered so far: values, and what is nested under the first part of a dotted name. -/
inductive Recovered
  | value (v : Value)
  | nested (names : List (String × Recovered))

namespace Recovered

/-- The name cut at its first dot, unless nothing stands before it. -/
def cutName (name : String) : String × Option String :=
  match Text.cutAtChar? '.' name.toList with
  | some (c :: head, tail) => (.ofList (c :: head), some (.ofList tail))
  | _ => (name, none)

/-- The parts of a dotted name in the order names nest: a name is cut at its dots as long as
    something stands before the first one. -/
def parts : Nat → String → List String
  | 0, name => [name]
  | fuel + 1, name =>
    match cutName name with
    | (head, some tail) => head :: parts fuel tail
    | (_, none) => [name]

def path (name : String) : List String :=
  parts name.length name

/-- A single value at the end of nested names. -/
def single (v : Value) : List String → Recovered
  | [] => .value v
  | name :: names => .nested [(name, single v names)]

/-- The names with a value at the end of a path.  A name that holds another value, or holds names
    where a value is wanted, or the other way round, cannot be given one. -/
def bindAt (v : Value) : List String → List (String × Recovered) → Option (List (String × Recovered))
  | [], names => some names
  | [name], names =>
    match Table.get? name names with
    | none => some (Table.insert name (.value v) names)
    | some (.value old) => if old.eq v then some names else none
    | some (.nested _) => none
  | name :: more, names =>
    match Table.get? name names with
    | none => some (Table.insert name (single v more) names)
    | some (.nested inner) =>
      (bindAt v more inner).map fun inner => Table.insert name (.nested inner) names
    | some (.value _) => none

/-- The names with a value under a dotted name. -/
def bind (name : String) (v : Value) (names : List (String × Recovered)) :
    Option (List (String × Recovered)) :=
  bindAt v (path name) names

/-- Whether a dotted name holds anything, as it stands or by its parts. -/
def isBoundAt : Nat → String → List (String × Recovered) → Bool
  | 0, name, names => Table.contains name names
  | fuel + 1, name, names =>
    Table.contains name names ||
      match Text.cutAtChar? '.' name.toList with
      | some (head, tail) =>
        match Table.get? (.ofList head) names with
        | some (.nested inner) => isBoundAt fuel (.ofList tail) inner
        | _ => false
      | none => false

def isBound (name : String) (names : List (String × Recovered)) : Bool :=
  isBoundAt name.length name names

mutual

def toValue : Recovered → Value
  | .value v => v
  | .nested names => .map (toEntries names)

def toEntries : List (String × Recovered) → List (String × Value)
  | [] => []
  | (name, r) :: names => (name, r.toValue) :: toEntries names

end

/-- The name that stands for a whole scope. -/
def currentName : String := "."

/-- One round of a section as a value: the text of the whole scope if it was recovered, or the
    names that were. -/
def toItem (names : List (String × Recovered)) : Value :=
  match Table.get? currentName names with
  | some (.value v) => v
  | _ => .map (toEntries (Table.erase currentName names))

end Recovered

/-! ## Matching -/

namespace Code

/-- The names recovered so far, and the text still to match. -/
structure Progress where
  names : List (String × Recovered)
  rest : List Char

/-- The rounds of a body that match one after another, each using up text; `turn` matches one
    round.  `fuel` bounds the number of rounds. -/
def rounds (turn : List Char → Option Progress) :
    Nat → List Char → List (List (String × Recovered)) × List Char
  | 0, s => ([], s)
  | fuel + 1, s =>
    match turn s with
    | some p =>
      if p.rest.length < s.length then
        let (more, rest) := rounds turn fuel p.rest
        (p.names :: more, rest)
      else ([], s)
    | none => ([], s)

/-- The names with what the rounds of a section stand for: nothing without a round, truth for one
    round that recovered nothing, a list otherwise. -/
def bindRounds (name : String) (names : List (String × Recovered)) :
    List (List (String × Recovered)) → Option (List (String × Recovered))
  | [] => some names
  | [[]] => Recovered.bind name (.bool true) names
  | items => Recovered.bind name (.list (items.map Recovered.toItem)) names

/-- Matches a value before what follows it. -/
def invertValue (v : Interpolation) (follow : Follow) (p : Progress) : Option Progress :=
  match follow.distance? p.rest with
  | none => none
  | some n =>
    let raw := p.rest.take n
    let s := if v.style = .escaped then Html.unescapeChars raw else raw
    (Recovered.bind v.name (.text (.ofList s)) p.names).map fun names => ⟨names, p.rest.drop n⟩

mutual

/-- Matches nodes one after another, inside something that is followed by `outer`. -/
def invertAll (outer : Follow) : List Code → Progress → Option Progress
  | [], p => some p
  | c :: cs, p =>
    match invertNode (Follow.before? outer cs) c p with
    | some p => invertAll outer cs p
    | none => none

/-- Matches a node that is followed by `follow`, if that can be told. -/
def invertNode (follow : Option Follow) : Code → Progress → Option Progress
  | .text s, p =>
    if s.toList.isPrefixOf p.rest then some ⟨p.names, p.rest.drop s.toList.length⟩ else none
  | .eof, p => if p.rest.isEmpty then some p else none
  | .block ⟨_, _, _, body⟩, p => invertAll (follow.getD .unknown) body p
  | .value v, p =>
    match follow with
    | some f => invertValue v f p
    | none => none
  | .sect ⟨_, name, negated, _, _, body⟩, p =>
    if body.isEmpty then some p
    else if negated then
      -- A body that is there means the name was falsey; one that is not, that it was truthy.
      match invertAll (follow.getD .unknown) body p with
      | some q => some q
      | none =>
        if Recovered.isBound name p.names then some p
        else (Recovered.bind name (.bool true) p.names).map fun names => ⟨names, p.rest⟩
    else
      -- After one round comes what follows the section, or the next round.
      let f := follow.getD .unknown
      let repeated : Follow :=
        match Follow.firstLiteral? body with
        | some s => ⟨f.literals ++ [s.toList], f.mayEnd⟩
        | none => f
      let (items, rest) := rounds (fun s => invertAll repeated body ⟨[], s⟩) p.rest.length p.rest
      (bindRounds name p.names items).map fun names => ⟨names, rest⟩
  | .inclusion _, _ => none
  | .dynamic _, _ => none
  | .extend _, _ => none

end

/-- The data that a template renders as a text, if any can be recovered. -/
def invert (codes : List Code) (text : String) : Option Value :=
  (invertAll .atEnd codes ⟨[], text.toList⟩).map fun p =>
    .map (Recovered.toEntries (Table.erase Recovered.currentName p.names))

end Code

end Mustache
