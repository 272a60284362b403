import Mustache.Proofs.Code.Bare

/-! # Adjusted trees

Two texts may be parsed to trees that are the same but for some data of their nodes: where the tags
stand, what lies between the tags of a section, what an inclusion is indented by, or the literal
text.  An adjustment says what becomes of such data, and two trees are compared after an adjustment
of each.

* `Adjustment` — what becomes of the data of nodes.
* `adjust?`, `adjustAll`, `adjustBlocks` — adjusted trees.
* `ofBody_adjust` — the nodes of tags with bodies that are the same once they are adjusted.
-/

namespace Mustache

/-- What becomes of some data of the nodes of a tree. -/
structure Adjustment where
  origin : Origin → Origin
  /-- The raw text of the section of an origin. -/
  raw : Origin → String → String
  /-- The indent of the inclusion of an origin. -/
  indent : Origin → String → String
  /-- Whether literals stay. -/
  literals : Bool

/-- Nothing changes. -/
def Adjustment.same : Adjustment where
  origin := id
  raw _ := id
  indent _ := id
  literals := true

/-- An origin without the line and the site of its tag. -/
def Origin.unlined (o : Origin) : Origin :=
  { o.relabel .forget with line := 0 }

/-- Lines are left out, and so are sites. -/
def Adjustment.unlined : Adjustment :=
  { same with origin := Origin.unlined }

/-- An error without the line that it is reported at. -/
def SyntaxError.unlined (e : SyntaxError) : SyntaxError :=
  { e with line := 0 }

namespace Code

mutual

/-- What becomes of a node; a literal may be left out. -/
def adjust? (f : Adjustment) : Code → Option Code
  | .text s => if f.literals then some (.text s) else none
  | .value ⟨origin, name, style⟩ => some (.value ⟨f.origin origin, name, style⟩)
  | .sect ⟨origin, name, negated, close, raw, body⟩ =>
    some (.sect ⟨f.origin origin, name, negated, close, f.raw origin raw, adjustAll f body⟩)
  | .inclusion ⟨origin, name, indent⟩ =>
    some (.inclusion ⟨f.origin origin, name, f.indent origin indent⟩)
  | .dynamic ⟨origin, name, indent⟩ =>
    some (.dynamic ⟨f.origin origin, name, f.indent origin indent⟩)
  | .extend ⟨origin, name, close, body, replacements⟩ =>
    some (.extend ⟨f.origin origin, name, close, adjustAll f body, adjustBlocks f replacements⟩)
  | .block ⟨origin, name, close, body⟩ =>
    some (.block ⟨f.origin origin, name, close, adjustAll f body⟩)
  | .eof => some .eof

def adjustAll (f : Adjustment) : List Code → List Code
  | [] => []
  | c :: cs => (adjust? f c).toList ++ adjustAll f cs

def adjustBlocks (f : Adjustment) : List (Block Code) → List (Block Code)
  | [] => []
  | ⟨origin, name, close, body⟩ :: bs =>
    ⟨f.origin origin, name, close, adjustAll f body⟩ :: adjustBlocks f bs

end

def adjustBlock (f : Adjustment) (b : Block Code) : Block Code :=
  ⟨f.origin b.origin, b.name, b.close, adjustAll f b.body⟩

variable {f f' : Adjustment}

theorem adjustAll_eq_filterMap (f : Adjustment) (cs : List Code) :
    adjustAll f cs = cs.filterMap (adjust? f) := by
  induction cs with
  | nil => rfl
  | cons c cs ih =>
    rw [adjustAll, ih, List.filterMap_cons]
    cases adjust? f c <;> rfl

theorem adjustBlocks_eq_map (f : Adjustment) (bs : List (Block Code)) :
    adjustBlocks f bs = bs.map (adjustBlock f) := by
  induction bs with
  | nil => rfl
  | cons b bs ih => rw [adjustBlocks, ih, List.map_cons]; rfl

@[simp] theorem adjustAll_append (f : Adjustment) (cs cs' : List Code) :
    adjustAll f (cs ++ cs') = adjustAll f cs ++ adjustAll f cs' := by
  simp [adjustAll_eq_filterMap]

/-- A literal stays, or leaves nothing. -/
theorem adjustAll_flush (f : Adjustment) (text : List Char) (cs : List Code) :
    adjustAll f (flush text cs) = flush (if f.literals then text else []) (adjustAll f cs) := by
  unfold flush
  cases hliterals : f.literals with
  | true =>
    simp only [if_true]
    split
    · rfl
    · simp [adjustAll, adjust?, hliterals]
  | false =>
    simp only [Bool.false_eq_true, if_false, List.isEmpty_nil, if_true]
    split
    · rfl
    · simp [adjustAll, adjust?, hliterals]

/-! ## The blocks of a body -/

/-- The blocks of an adjusted body are the adjusted blocks of the body. -/
theorem adjustBlocks_blocksOf (f : Adjustment) (body : List Code) :
    adjustBlocks f (blocksOf body) = blocksOf (adjustAll f body) := by
  rw [adjustBlocks_eq_map]
  change _ = List.foldl _ (([] : List (Block Code)).map (adjustBlock f)) _
  rw [blocksOf]
  -- The blocks found so far may be any.
  generalize ([] : List (Block Code)) = acc
  induction body generalizing acc with
  | nil => rfl
  | cons c cs ih =>
    rw [adjustAll, List.foldl_append, List.foldl_cons, ih]
    congr 1
    cases c with
    | block b => exact map_insert (f := adjustBlock f) (fun _ => rfl) b acc
    | text s =>
      rw [adjust?]
      cases f.literals <;> rfl
    | _ => rfl

/-! ## Legal bodies of extensions -/

theorem mayBeInExtension_adjust {c c' : Code} (h : adjust? f c = some c') :
    c'.mayBeInExtension = c.mayBeInExtension := by
  cases c with
  | text s =>
    rw [adjust?] at h
    split at h
    · cases h
      rfl
    · cases h
  | _ => cases h; rfl

/-- A node that may not stand in an extension is not left out, so none goes unseen. -/
theorem all_mayBeInExtension_adjustAll (f : Adjustment) (cs : List Code) :
    (adjustAll f cs).all mayBeInExtension = cs.all mayBeInExtension := by
  induction cs with
  | nil => rfl
  | cons c cs ih =>
    rw [adjustAll, List.all_append, ih, List.all_cons]
    cases hc : adjust? f c with
    | some c' => simp [mayBeInExtension_adjust hc]
    | none =>
      cases c with
      | text s => rfl
      | _ => cases hc

theorem illegalInExtension?_eq_none_iff {cs : List Code} :
    illegalInExtension? cs = none ↔ cs.all mayBeInExtension = true := by
  simp [illegalInExtension?]

/-- A body that is the same once it is adjusted holds something that may not stand in an extension
    if the other one does. -/
theorem exists_illegal_of_adjustAll_eq {cs cs' : List Code} {c : Code}
    (h : adjustAll f cs = adjustAll f' cs') (hc : illegalInExtension? cs = some c) :
    ∃ c', illegalInExtension? cs' = some c' := by
  have hall : cs.all mayBeInExtension = cs'.all mayBeInExtension := by
    rw [← all_mayBeInExtension_adjustAll f, h, all_mayBeInExtension_adjustAll]
  cases hc' : illegalInExtension? cs' with
  | some c' => exact ⟨c', rfl⟩
  | none =>
    rw [illegalInExtension?_eq_none_iff, ← hall, ← illegalInExtension?_eq_none_iff, hc] at hc'
    cases hc'

/-! ## Tags with bodies -/

/-- Bodies that are the same once they are adjusted make nodes that are, unless both hold what may
    not stand in an extension. -/
theorem ofBody_adjust {src src' : Source} {tag tag' : Tag} (bracket : Tag.Bracket) (name : String)
    {start start' : Cursor} {b b' : Body}
    (horigin : f.origin (src.origin tag) = f'.origin (src'.origin tag'))
    (hcodes : adjustAll f b.codes = adjustAll f' b'.codes) (hclose : b.close = b'.close)
    (hraw : f.raw (src.origin tag) (rawText start b.stop) =
      f'.raw (src'.origin tag') (rawText start' b'.stop)) :
    (∃ code code', ofBody src tag bracket name start b = .ok code ∧
      ofBody src' tag' bracket name start' b' = .ok code' ∧ adjust? f code = adjust? f' code') ∨
    ∃ c c', bracket = .extend ∧ illegalInExtension? b.codes = some c ∧
      illegalInExtension? b'.codes = some c' := by
  cases bracket with
  | positive | negated | block =>
    exact .inl ⟨_, _, rfl, rfl, by simp only [adjust?, horigin, hcodes, hclose, hraw]⟩
  | extend =>
    have hblocks : adjustBlocks f (blocksOf b.codes) = adjustBlocks f' (blocksOf b'.codes) := by
      rw [adjustBlocks_blocksOf, adjustBlocks_blocksOf, hcodes]
    cases hc : illegalInExtension? b.codes with
    | some c =>
      obtain ⟨c', hc'⟩ := exists_illegal_of_adjustAll_eq hcodes hc
      exact .inr ⟨c, c', rfl, rfl, hc'⟩
    | none =>
      cases hc' : illegalInExtension? b'.codes with
      | some c' =>
        obtain ⟨c, hillegal⟩ := exists_illegal_of_adjustAll_eq hcodes.symm hc'
        rw [hc] at hillegal
        cases hillegal
      | none =>
        simp only [ofBody, hc, hc']
        exact .inl ⟨_, _, rfl, rfl, by simp only [adjust?, horigin, hcodes, hclose, hblocks]⟩

/-! ## Nothing changes -/

mutual

theorem adjust?_same : ∀ c : Code, adjust? .same c = some c
  | .text _ | .value _ | .inclusion _ | .dynamic _ | .eof => rfl
  | .sect ⟨_, _, _, _, _, body⟩ => by rw [adjust?, adjustAll_same body]; rfl
  | .extend ⟨_, _, _, body, replacements⟩ => by
    rw [adjust?, adjustAll_same body, adjustBlocks_same replacements]
    rfl
  | .block ⟨_, _, _, body⟩ => by rw [adjust?, adjustAll_same body]; rfl

theorem adjustAll_same : ∀ cs : List Code, adjustAll .same cs = cs
  | [] => rfl
  | c :: cs => by rw [adjustAll, adjust?_same c, adjustAll_same cs]; rfl

theorem adjustBlocks_same : ∀ bs : List (Block Code), adjustBlocks .same bs = bs
  | [] => rfl
  | ⟨_, _, _, body⟩ :: bs => by rw [adjustBlocks, adjustAll_same body, adjustBlocks_same bs]; rfl

end

end Code

end Mustache
