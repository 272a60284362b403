import Mustache.Code

/-! # Substitution

Putting replacement blocks in the place of the blocks of a parent template.  A tree without a
block to replace and without an extension is left as it is, and so is every part of a tree that
has neither; only the lists on the way to a change are built anew.

An extension inside the parent is not descended into.  The replacements are layered over its own
instead: the outer ones win, and reach into the bodies of the ones they leave standing.

Copies of sections and extensions are new nodes, with sites of their own.
-/

namespace Mustache.Code

/-- A result of substitution: what came of the change, if there was one, and the names of
    replacements that found a use. -/
structure Substituted (α : Type) where
  changed : Option α
  used : List String

mutual

/-- A node with blocks replaced by the blocks of `outer`, for the extension at `owner`. -/
def substituteNode (owner : Site) (outer : List (Block Code)) : Code → Substituted Code
  | .block ⟨origin, name, close, body⟩ =>
    match Block.find? name outer with
    -- The replacement goes in as it stands and is not substituted into again.
    | some b => ⟨some (.block b), [name]⟩
    | none =>
      let r := substitute owner outer body
      ⟨r.changed.map fun body => .block ⟨origin, name, close, body⟩, r.used⟩
  | .sect ⟨origin, name, negated, close, raw, body⟩ =>
    let r := substitute owner outer body
    ⟨r.changed.map fun body =>
      .sect ⟨origin.at (.grafted owner origin.site), name, negated, close, raw, body⟩, r.used⟩
  | .extend ⟨origin, name, close, body, replacements⟩ =>
    -- Whether the outer names find a use in the end is for the copy to tell when it is rendered.
    let r := layer owner outer replacements
    ⟨some (.extend ⟨origin.at (.grafted owner origin.site), name, close, body,
      r.1 ++ outer⟩), r.2 ++ outer.map Block.name⟩
  | .text _ => ⟨none, []⟩
  | .value _ => ⟨none, []⟩
  | .inclusion _ => ⟨none, []⟩
  | .dynamic _ => ⟨none, []⟩
  | .eof => ⟨none, []⟩

/-- Nodes with blocks replaced by the blocks of `outer`, for the extension at `owner`. -/
def substitute (owner : Site) (outer : List (Block Code)) : List Code → Substituted (List Code)
  | [] => ⟨none, []⟩
  | c :: cs =>
    let r := substituteNode owner outer c
    let rs := substitute owner outer cs
    ⟨match r.changed, rs.changed with
      | none, none => none
      | c', cs' => some (c'.getD c :: cs'.getD cs), r.used ++ rs.used⟩

/-- The replacements that `outer` has none of the name of, with `outer` put into their bodies, and
    the names that found a use there. -/
def layer (owner : Site) (outer : List (Block Code)) :
    List (Block Code) → List (Block Code) × List String
  | [] => ([], [])
  | ⟨origin, name, close, body⟩ :: bs =>
    let r := substitute owner outer body
    let rs := layer owner outer bs
    -- A replacement that is replaced itself is not looked into, so nothing finds a use there.
    if (Block.find? name outer).isSome then rs
    else (⟨origin, name, close, r.changed.getD body⟩ :: rs.1, r.used ++ rs.2)

end

end Mustache.Code
