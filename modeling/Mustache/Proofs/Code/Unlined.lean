import Mustache.Proofs.Code.Adjusted

/-! # Trees without lines

A tree may be adjusted once more, and an adjusted tree may have its blocks replaced.  Either way it
does not matter which comes first.  So a tree without lines goes through all that a renderer does
with trees.

* `Adjustment.after`, `Code.adjustAll_adjustAll` — one adjustment after another.
* `Code.adjustAll_relabeling` — sites are passed through a map by an adjustment.
* `Code.adjustAll_rebuildAll` — replacing blocks in an adjusted tree.
* `Code.used_adjustAll` — the replacements that find a use there.
-/

namespace Mustache

/-- Only sites change. -/
def Adjustment.relabeling (g : Site → Site) : Adjustment :=
  { same with origin := Origin.relabel g }

/-- What becomes of the data of nodes by one adjustment after another. -/
def Adjustment.after (f g : Adjustment) : Adjustment where
  origin o := f.origin (g.origin o)
  raw o x := f.raw (g.origin o) (g.raw o x)
  indent o x := f.indent (g.origin o) (g.indent o x)
  literals := g.literals && f.literals

namespace Code

/-! ## One adjustment after another -/

mutual

theorem bind_adjust? (f g : Adjustment) : ∀ c : Code,
    (adjust? g c).bind (adjust? f) = adjust? (f.after g) c
  | .text _ => by
    by_cases h : g.literals = true <;> simp [adjust?, Adjustment.after, h]
  | .value _ | .inclusion _ | .dynamic _ | .eof => rfl
  | .sect ⟨_, _, _, _, _, body⟩ => by
    simp only [adjust?, Option.bind_some, adjustAll_adjustAll f g body]
    rfl
  | .extend ⟨_, _, _, body, replacements⟩ => by
    simp only [adjust?, Option.bind_some, adjustAll_adjustAll f g body,
      adjustBlocks_adjustBlocks f g replacements]
    rfl
  | .block ⟨_, _, _, body⟩ => by
    simp only [adjust?, Option.bind_some, adjustAll_adjustAll f g body]
    rfl

theorem adjustAll_adjustAll (f g : Adjustment) : ∀ cs : List Code,
    adjustAll f (adjustAll g cs) = adjustAll (f.after g) cs
  | [] => rfl
  | c :: cs => by
    have hcode : adjustAll f (adjust? g c).toList = (adjust? (f.after g) c).toList := by
      rw [← bind_adjust? f g c]
      cases adjust? g c with
      | none => rfl
      | some c' => exact List.append_nil _
    rw [adjustAll, adjustAll_append, hcode, adjustAll_adjustAll f g cs]
    rfl

theorem adjustBlocks_adjustBlocks (f g : Adjustment) : ∀ bs : List (Block Code),
    adjustBlocks f (adjustBlocks g bs) = adjustBlocks (f.after g) bs
  | [] => rfl
  | ⟨_, _, _, body⟩ :: bs => by
    simp only [adjustBlocks, adjustAll_adjustAll f g body, adjustBlocks_adjustBlocks f g bs]
    rfl

end

/-! ## Sites -/

mutual

theorem adjust?_relabeling (g : Site → Site) : ∀ c : Code,
    adjust? (.relabeling g) c = some (relabel g c)
  | .text _ | .value _ | .inclusion _ | .dynamic _ | .eof => rfl
  | .sect ⟨_, _, _, _, _, body⟩ => by
    simp only [adjust?, relabel, adjustAll_relabeling g body]
    rfl
  | .extend ⟨_, _, _, body, replacements⟩ => by
    simp only [adjust?, relabel, adjustAll_relabeling g body,
      adjustBlocks_relabeling g replacements]
    rfl
  | .block ⟨_, _, _, body⟩ => by
    simp only [adjust?, relabel, adjustAll_relabeling g body]
    rfl

theorem adjustAll_relabeling (g : Site → Site) : ∀ cs : List Code,
    adjustAll (.relabeling g) cs = relabelAll g cs
  | [] => rfl
  | c :: cs => by
    rw [adjustAll, adjust?_relabeling g c, adjustAll_relabeling g cs]
    rfl

theorem adjustBlocks_relabeling (g : Site → Site) : ∀ bs : List (Block Code),
    adjustBlocks (.relabeling g) bs = relabelBlocks g bs
  | [] => rfl
  | ⟨_, _, _, body⟩ :: bs => by
    simp only [adjustBlocks, relabelBlocks, adjustAll_relabeling g body,
      adjustBlocks_relabeling g bs]
    rfl

end

/-- A tree without lines has no sites, either. -/
theorem adjustAll_unlined_bareAll (cs : List Code) :
    adjustAll .unlined (bareAll cs) = adjustAll .unlined cs := by
  rw [bareAll, ← adjustAll_relabeling, adjustAll_adjustAll]
  rfl

theorem adjustBlocks_unlined_unlined (bs : List (Block Code)) :
    adjustBlocks .unlined (adjustBlocks .unlined bs) = adjustBlocks .unlined bs := by
  rw [adjustBlocks_adjustBlocks]
  rfl

/-! ## Replacing blocks -/

theorem find?_adjustBlocks (f : Adjustment) (name : String) (bs : List (Block Code)) :
    Block.find? name (adjustBlocks f bs) = (Block.find? name bs).map (adjustBlock f) := by
  rw [adjustBlocks_eq_map, Block.find?, Block.find?, List.find?_map]
  rfl

theorem name_adjustBlocks (f : Adjustment) (bs : List (Block Code)) :
    (adjustBlocks f bs).map Block.name = bs.map Block.name := by
  rw [adjustBlocks_eq_map, List.map_map]
  rfl

theorem adjustBlocks_append (f : Adjustment) (as bs : List (Block Code)) :
    adjustBlocks f (as ++ bs) = adjustBlocks f as ++ adjustBlocks f bs := by
  simp [adjustBlocks_eq_map]

mutual

theorem adjust?_rebuild (f : Adjustment) (outer : List (Block Code)) : ∀ c : Code,
    adjust? f (rebuild outer c) = (adjust? f c).map (rebuild (adjustBlocks f outer))
  | .block ⟨_, name, _, body⟩ => by
    simp only [rebuild, adjust?, Option.map_some, find?_adjustBlocks]
    cases Block.find? name outer with
    | some b => rfl
    | none => simp only [adjust?, adjustAll_rebuildAll f outer body, Option.map_none]
  | .sect ⟨_, _, _, _, _, body⟩ => by
    simp only [rebuild, adjust?, Option.map_some, adjustAll_rebuildAll f outer body]
  | .extend ⟨_, _, _, _, replacements⟩ => by
    simp only [rebuild, adjust?, Option.map_some, adjustBlocks_append,
      adjustBlocks_rebuildBlocks f outer replacements]
  | .text _ => by
    simp only [rebuild, adjust?]
    cases f.literals <;> rfl
  | .value _ | .inclusion _ | .dynamic _ | .eof => rfl

theorem adjustAll_rebuildAll (f : Adjustment) (outer : List (Block Code)) : ∀ cs : List Code,
    adjustAll f (rebuildAll outer cs) = rebuildAll (adjustBlocks f outer) (adjustAll f cs)
  | [] => rfl
  | c :: cs => by
    rw [rebuildAll, adjustAll, adjust?_rebuild f outer c, adjustAll_rebuildAll f outer cs,
      adjustAll]
    cases adjust? f c <;> rfl

theorem adjustBlocks_rebuildBlocks (f : Adjustment) (outer : List (Block Code)) :
    ∀ bs : List (Block Code),
    adjustBlocks f (rebuildBlocks outer bs) =
      rebuildBlocks (adjustBlocks f outer) (adjustBlocks f bs)
  | [] => rfl
  | ⟨_, name, _, body⟩ :: bs => by
    simp only [rebuildBlocks, adjustBlocks, find?_adjustBlocks, Option.isSome_map]
    cases Block.find? name outer with
    | some b => exact adjustBlocks_rebuildBlocks f outer bs
    | none =>
      simp only [Option.isSome_none, Bool.false_eq_true, if_false, adjustBlocks,
        adjustAll_rebuildAll f outer body, adjustBlocks_rebuildBlocks f outer bs]

end

/-! ## Replacements that find a use -/

theorem used_append (owner : Site) (outer : List (Block Code)) (cs ds : List Code) :
    (substitute owner outer (cs ++ ds)).used =
      (substitute owner outer cs).used ++ (substitute owner outer ds).used := by
  induction cs with
  | nil => rfl
  | cons c cs ih =>
    simp only [List.cons_append, substitute, ih, List.append_assoc]

mutual

/-- The names that find a use in a node find it there when the node is adjusted. -/
theorem used_adjust? (f : Adjustment) (owner owner' : Site) (outer : List (Block Code)) :
    ∀ c : Code, (substitute owner (adjustBlocks f outer) (adjust? f c).toList).used =
      (substituteNode owner' outer c).used
  | .block ⟨_, name, _, body⟩ => by
    simp only [adjust?, Option.toList_some, substitute, substituteNode, List.append_nil,
      find?_adjustBlocks]
    cases Block.find? name outer with
    | some b => rfl
    | none => exact used_adjustAll f owner owner' outer body
  | .sect ⟨_, _, _, _, _, body⟩ => by
    simp only [adjust?, Option.toList_some, substitute, substituteNode, List.append_nil]
    exact used_adjustAll f owner owner' outer body
  | .extend ⟨_, _, _, _, replacements⟩ => by
    simp only [adjust?, Option.toList_some, substitute, substituteNode, List.append_nil,
      used_adjustBlocks f owner owner' outer replacements, name_adjustBlocks]
  | .text _ => by
    simp only [adjust?]
    cases f.literals <;> rfl
  | .value _ | .inclusion _ | .dynamic _ | .eof => rfl

theorem used_adjustAll (f : Adjustment) (owner owner' : Site) (outer : List (Block Code)) :
    ∀ cs : List Code, (substitute owner (adjustBlocks f outer) (adjustAll f cs)).used =
      (substitute owner' outer cs).used
  | [] => rfl
  | c :: cs => by
    rw [adjustAll, used_append, used_adjust? f owner owner' outer c,
      used_adjustAll f owner owner' outer cs]
    rfl

theorem used_adjustBlocks (f : Adjustment) (owner owner' : Site) (outer : List (Block Code)) :
    ∀ bs : List (Block Code), (layer owner (adjustBlocks f outer) (adjustBlocks f bs)).2 =
      (layer owner' outer bs).2
  | [] => rfl
  | ⟨_, name, _, body⟩ :: bs => by
    simp only [adjustBlocks, layer, find?_adjustBlocks, Option.isSome_map]
    split
    · exact used_adjustBlocks f owner owner' outer bs
    · rw [used_adjustAll f owner owner' outer body, used_adjustBlocks f owner owner' outer bs]

end

end Code

end Mustache
