import Mustache.Code.Substitution

/-! # Trees up to their sites

Sites only tell nodes apart.  Two trees with the same tags, texts and bodies may still differ in
them: a copy made by substitution has sites of its own, and so has a second compilation of the same
text.  `relabel f` passes every site of a tree through `f`, and two trees are the same up to sites
if they have the same relabelling.

* `Site.root` — the site of the node that a node is a copy of.
* `Site.ForgetsGrafts` — the maps under which a copy is as good as the original.
* `Code.relabel`, `Code.relabelAll`, `Code.relabelBlocks` — trees with other sites.
-/

namespace Mustache

/-- The site of the node that a node is a copy of, or a copy of a copy. -/
def Site.root : Site → Site
  | .parsed compilation offset => .parsed compilation offset
  | .grafted _ node => node.root

/-- Whether a map of sites does not tell copies from originals. -/
def Site.ForgetsGrafts (f : Site → Site) : Prop :=
  ∀ extension node, f (.grafted extension node) = f node

theorem Site.forgetsGrafts_root : ForgetsGrafts root := fun _ _ => rfl

/-- The same origin with its site passed through a map. -/
def Origin.relabel (f : Site → Site) (o : Origin) : Origin :=
  o.at (f o.site)

/-- A copy's origin is as good as the original's. -/
theorem Origin.relabel_at_grafted {f : Site → Site} (hf : Site.ForgetsGrafts f)
    (o : Origin) (extension : Site) :
    (o.at (.grafted extension o.site)).relabel f = o.relabel f := by
  simp [Origin.relabel, Origin.at, hf extension o.site]

namespace Code

mutual

/-- A node with all sites passed through a map. -/
def relabel (f : Site → Site) : Code → Code
  | .text s => .text s
  | .value ⟨origin, name, style⟩ => .value ⟨origin.relabel f, name, style⟩
  | .sect ⟨origin, name, negated, close, raw, body⟩ =>
    .sect ⟨origin.relabel f, name, negated, close, raw, relabelAll f body⟩
  | .inclusion ⟨origin, name, indent⟩ => .inclusion ⟨origin.relabel f, name, indent⟩
  | .dynamic ⟨origin, name, indent⟩ => .dynamic ⟨origin.relabel f, name, indent⟩
  | .extend ⟨origin, name, close, body, replacements⟩ =>
    .extend ⟨origin.relabel f, name, close, relabelAll f body, relabelBlocks f replacements⟩
  | .block ⟨origin, name, close, body⟩ =>
    .block ⟨origin.relabel f, name, close, relabelAll f body⟩
  | .eof => .eof

def relabelAll (f : Site → Site) : List Code → List Code
  | [] => []
  | c :: cs => relabel f c :: relabelAll f cs

def relabelBlocks (f : Site → Site) : List (Block Code) → List (Block Code)
  | [] => []
  | ⟨origin, name, close, body⟩ :: bs =>
    ⟨origin.relabel f, name, close, relabelAll f body⟩ :: relabelBlocks f bs

end

def relabelBlock (f : Site → Site) (b : Block Code) : Block Code :=
  ⟨b.origin.relabel f, b.name, b.close, relabelAll f b.body⟩

variable (f : Site → Site)

theorem relabelAll_eq_map (cs : List Code) : relabelAll f cs = cs.map (relabel f) := by
  induction cs with
  | nil => rfl
  | cons c cs ih => rw [relabelAll, ih, List.map_cons]

theorem relabelBlocks_eq_map (bs : List (Block Code)) :
    relabelBlocks f bs = bs.map (relabelBlock f) := by
  induction bs with
  | nil => rfl
  | cons b bs ih => rw [relabelBlocks, ih, List.map_cons]; rfl

@[simp] theorem relabelBlocks_append (as bs : List (Block Code)) :
    relabelBlocks f (as ++ bs) = relabelBlocks f as ++ relabelBlocks f bs := by
  simp [relabelBlocks_eq_map]

theorem name_relabelBlocks (bs : List (Block Code)) :
    (relabelBlocks f bs).map Block.name = bs.map Block.name := by
  rw [relabelBlocks_eq_map, List.map_map]
  rfl

/-- A name leads to the same block, with other sites. -/
theorem find?_relabelBlocks (name : String) (bs : List (Block Code)) :
    Block.find? name (relabelBlocks f bs) = (Block.find? name bs).map (relabelBlock f) := by
  rw [relabelBlocks_eq_map, Block.find?, Block.find?, List.find?_map]
  rfl

/-! ## The blocks of a body -/

theorem map_insert {γ : Type} {f : Block γ → Block γ} (hname : ∀ b, (f b).name = b.name)
    (b : Block γ) (bs : List (Block γ)) : (b.insert bs).map f = (f b).insert (bs.map f) := by
  induction bs with
  | nil => rfl
  | cons a bs ih =>
    simp only [Block.insert, List.map_cons, hname]
    split
    · rfl
    · rw [List.map_cons, ih]

/-- A map of nodes that takes blocks to blocks of the same name, and nothing else to blocks, takes
    the blocks of a body to those of the other body. -/
theorem map_blocksOf {f : Block Code → Block Code} {g : Code → Code}
    (hname : ∀ b, (f b).name = b.name) (hblock : ∀ b, g (.block b) = .block (f b))
    (hother : ∀ c, (∀ b, c ≠ .block b) → ∀ b, g c ≠ .block b) (body : List Code) :
    (blocksOf body).map f = blocksOf (body.map g) := by
  change _ = List.foldl _ (([] : List (Block Code)).map f) _
  rw [blocksOf]
  -- The blocks found so far may be any.
  generalize ([] : List (Block Code)) = acc
  induction body generalizing acc with
  | nil => rfl
  | cons c cs ih =>
    rw [List.map_cons, List.foldl_cons, List.foldl_cons, ih]
    congr 1
    cases c with
    | block b => simp only [hblock, map_insert hname]
    | _ =>
      dsimp only
      split
      · next heq => exact absurd heq (hother _ (by simp) _)
      · rfl

theorem relabelBlocks_blocksOf (body : List Code) :
    relabelBlocks f (blocksOf body) = blocksOf (relabelAll f body) := by
  rw [relabelBlocks_eq_map, relabelAll_eq_map]
  refine map_blocksOf (f := relabelBlock f) (g := relabel f) (fun _ => rfl) (fun _ => rfl) ?_ body
  intro c hc b
  cases c with
  | block b => exact absurd rfl (hc b)
  | _ => simp [relabel]

end Code

end Mustache
