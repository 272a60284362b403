import Mustache.Loader
import Mustache.Proofs.Path.Segments

/-! # Paths below a root

A tree of files is kept below a root directory, and the path of a template's file is the root with
the name of the template after it.  Read part by part, as a file system reads it, the path goes on
from the root through names only: nothing in it leads upwards, or starts anew.  That holds for
every name that is not refused, wherever it comes from, and the names that tags stand for are never
refused.

* `Path.components` — the parts of a path, and `Path.place`, where they lead.
* `Path.LeadsDown` — paths that go on from a root through names only.
* `FileTree.path?` — the path of the file that a name stands for.
* `FileTree.node?_of_descend` — the way that reading takes through the tree.
* `FileTree.path?_leadsDown`, `FileTree.names_lead_down` — every name leads down, or is refused.
-/

namespace Mustache

namespace Path

/-! ## The parts of a path -/

/-- A part of a path, as a file system reads it. -/
inductive Component
  /-- The slash that a path may start with. -/
  | root
  /-- The dot that a path may start with. -/
  | current
  /-- The two dots that lead to the directory above. -/
  | parent
  | named (segment : List Char)
deriving DecidableEq

/-- The part that a segment makes.  An empty segment makes none, and neither does a dot that does
    not start the path. -/
def Component.ofSegment? (seg : List Char) : Option Component :=
  if seg = [] ∨ seg = ['.'] then none
  else if seg = ['.', '.'] then some .parent
  else some (.named seg)

/-- Whether a part neither starts anew nor leads upwards. -/
def Component.leadsDown : Component → Bool
  | .root => false
  | .current => true
  | .parent => false
  | .named _ => true

def Component.name? : Component → Option (List Char)
  | .named seg => some seg
  | _ => none

/-- The part at the start of a path that its segments do not make. -/
def start (path : List Char) : List Component :=
  if path.head? = some '/' then [.root]
  else if (Text.splitAtChar '/' path).head? = some ['.'] then [.current]
  else []

/-- The parts that the segments of a path make. -/
def body (path : List Char) : List Component :=
  (Text.splitAtChar '/' path).filterMap Component.ofSegment?

def components (path : List Char) : List Component :=
  start path ++ body path

/-- Where a part leads from a place, which is told by the parts on the straight way to it. -/
def advance (place : List Component) : Component → List Component
  | .root => [.root]
  | .current => place
  | .parent =>
    match place.getLast? with
    | some (.named _) => place.dropLast
    -- There is nothing above the root of all files.
    | some .root => place
    | _ => place ++ [.parent]
  | .named seg => place ++ [.named seg]

/-- Where a path leads, going by its parts alone. -/
def place (path : List Char) : List Component :=
  (components path).foldl advance []

/-- A path after another one.  A path that starts with a slash stands for itself. -/
def under (root path : List Char) : List Char :=
  if path.head? = some '/' then path
  else if root.getLast?.all (· == '/') then root ++ path
  else root ++ '/' :: path

/-- A path goes on from a root through names: it has the parts of the root, and after them nothing
    that leads upwards or starts anew; so it leads to where the names lead from there. -/
structure LeadsDown (root path : List Char) (names : List (List Char)) : Prop where
  goesOn : ∃ rest, components path = components root ++ rest ∧ ∀ c ∈ rest, c.leadsDown
  place_eq : place path = place root ++ names.map .named

/-- The segments of a path that name something. -/
def names (path : List Char) : List (List Char) :=
  (Text.splitAtChar '/' path).filter IsOrdinary

/-! ## Paths put together -/

theorem body_append (a b : List Char) : body (a ++ '/' :: b) = body a ++ body b := by
  rw [body, Text.splitAtChar_append, List.filterMap_append]
  rfl

/-- How a path starts is settled before its first slash. -/
theorem start_append (a b : List Char) :
    start (a ++ '/' :: b) = if a = [] then [.root] else start a := by
  cases a with
  | nil => rfl
  | cons c a =>
    have hsegment : (Text.splitAtChar '/' (c :: a ++ '/' :: b)).head? =
        (Text.splitAtChar '/' (c :: a)).head? := by
      rw [Text.splitAtChar_append]
      cases hsplit : Text.splitAtChar '/' (c :: a) with
      | nil => exact absurd hsplit (Text.splitAtChar_ne_nil '/' _)
      | cons seg segs => rfl
    rw [start, hsegment, if_neg (List.cons_ne_nil c a)]
    rfl

/-- A path that is put after a root has the parts of the root and then its own.  A dot at its start
    counts only if there is nothing before it. -/
theorem components_under (root : List Char) {path : List Char} (hpath : path.head? ≠ some '/') :
    components (under root path) =
      components root ++ (if root = [] then components path else body path) := by
  rw [under, if_neg hpath]
  by_cases hroot : root = []
  · subst hroot
    rfl
  · rw [if_neg hroot]
    split
    · next hlast =>
      -- The root ends with a slash, so its last segment is empty and makes no part.
      obtain ⟨a, rfl⟩ : ∃ a, root = a ++ '/' :: [] := by
        rw [List.getLast?_eq_some_getLast hroot, Option.all_some, beq_iff_eq] at hlast
        refine ⟨root.dropLast, ?_⟩
        rw [← hlast, List.dropLast_concat_getLast]
      have hempty : body [] = [] := rfl
      rw [List.append_assoc, List.singleton_append, components, components, start_append,
        start_append, body_append, body_append, hempty, List.append_nil, List.append_assoc]
    · rw [components, components, start_append, if_neg hroot, body_append, List.append_assoc]

/-! ## Where names lead -/

/-- Parts that lead down lead on from any place by their names. -/
theorem foldl_advance {parts : List Component} (hparts : ∀ c ∈ parts, c.leadsDown)
    (place : List Component) :
    parts.foldl advance place = place ++ (parts.filterMap Component.name?).map .named := by
  induction parts generalizing place with
  | nil => exact (List.append_nil place).symm
  | cons c parts ih =>
    have hc := hparts c List.mem_cons_self
    have hrest := fun place => ih (fun d hd => hparts d (List.mem_cons_of_mem _ hd)) place
    cases c with
    | root => cases hc
    | parent => cases hc
    -- A dot stays where it is, and has no name.
    | current => exact hrest place
    | named seg =>
      rw [List.foldl_cons, advance, hrest, List.append_assoc]
      rfl

theorem filterMap_name?_body (path : List Char) :
    (body path).filterMap Component.name? = names path := by
  have hname : (fun seg => (Component.ofSegment? seg).bind Component.name?) =
      Option.guard fun seg => decide (IsOrdinary seg) := by
    funext seg
    by_cases hparent : seg = ['.', '.']
    · subst hparent
      rfl
    · by_cases hskipped : seg = [] ∨ seg = ['.']
      · obtain rfl | rfl := hskipped <;> rfl
      · have hordinary : IsOrdinary seg :=
          ⟨fun h => hskipped (.inl h), fun h => hskipped (.inr h), hparent⟩
        simp [Component.ofSegment?, hskipped, hparent, Component.name?, Option.guard, hordinary]
  rw [body, names, List.filterMap_filterMap, hname, List.filterMap_eq_filter]

theorem filterMap_name?_start (path : List Char) :
    (start path).filterMap Component.name? = [] := by
  rw [start]
  split
  · rfl
  · split <;> rfl

/-- A path leads down if it does not start with a slash and has no two dots for a segment. -/
theorem leadsDown_components_iff {path : List Char} (hpath : path.head? ≠ some '/') :
    (∀ c ∈ components path, c.leadsDown) ↔ ['.', '.'] ∉ Text.splitAtChar '/' path := by
  constructor
  · intro hdown hmem
    have hparent : Component.parent ∈ components path := by
      refine List.mem_append_right _ (List.mem_filterMap.mpr ⟨_, hmem, rfl⟩)
    exact absurd (hdown _ hparent) (by decide)
  · intro hparent c hc
    obtain hc | hc := List.mem_append.mp hc
    · rw [start, if_neg hpath] at hc
      split at hc
      · obtain rfl := List.mem_singleton.mp hc
        rfl
      · cases hc
    · obtain ⟨seg, hseg, hmade⟩ := List.mem_filterMap.mp hc
      have hne : seg ≠ ['.', '.'] := fun h => hparent (h ▸ hseg)
      rw [Component.ofSegment?, if_neg hne] at hmade
      split at hmade
      · cases hmade
      · cases hmade
        rfl

/-- A path that leads down leads down from any root. -/
theorem LeadsDown.of_components {path : List Char} (hpath : path.head? ≠ some '/')
    (hdown : ∀ c ∈ components path, c.leadsDown) (root : List Char) :
    LeadsDown root (under root path) (names path) := by
  have hunder := components_under root hpath
  have hrest : ∀ c ∈ (if root = [] then components path else body path), c.leadsDown := by
    intro c hc
    split at hc
    · exact hdown c hc
    · exact hdown c (List.mem_append_right _ hc)
  refine ⟨⟨_, hunder, hrest⟩, ?_⟩
  rw [place, hunder, List.foldl_append, foldl_advance hrest, ← place]
  split
  · rw [components, List.filterMap_append, filterMap_name?_start, filterMap_name?_body]
    rfl
  · rw [filterMap_name?_body]

end Path

/-! ## Files below a root -/

namespace FileTree

open Mustache.Path (Component IsFolded IsOrdinary LeadsDown)

/-- A name as a path from the root. -/
def relative (name : List Char) : List Char :=
  name.dropWhile (· == '/')

/-- The path of the file that a name stands for below a root; none if a part of the name leads
    anywhere but down. -/
def path? (root name : List Char) : Option (List Char) :=
  if (Path.components (relative name)).all Component.leadsDown then
    some (Path.under root (relative name))
  else none

theorem head?_relative (name : List Char) : (relative name).head? ≠ some '/' := by
  intro h
  have hslash := List.head?_dropWhile_not (· == '/') name
  rw [relative] at h
  rw [h] at hslash
  cases hslash

theorem ofList_eq_iff (seg : List Char) (s : String) : String.ofList seg = s ↔ seg = s.toList := by
  constructor
  · rintro rfl
    exact String.toList_ofList.symm
  · rintro rfl
    exact String.ofList_toList

/-- A name is refused for a segment of two dots, and for nothing else. -/
theorem segments?_eq (name : String) :
    segments? name =
      if ['.', '.'] ∈ Text.splitAtChar '/' (relative name.toList) then none
      else some ((Text.splitAtChar '/' (relative name.toList)).map String.ofList) := by
  have hcontains : ((Text.splitAtChar '/' (relative name.toList)).map String.ofList).contains ".." ↔
      ['.', '.'] ∈ Text.splitAtChar '/' (relative name.toList) := by
    rw [List.contains_iff_mem, List.mem_map]
    constructor
    · rintro ⟨seg, hseg, heq⟩
      rw [(ofList_eq_iff seg "..").mp heq] at hseg
      exact hseg
    · exact fun hmem => ⟨_, hmem, rfl⟩
  rw [segments?]
  by_cases hmem : ['.', '.'] ∈ Text.splitAtChar '/' (relative name.toList)
  · rw [if_pos hmem]
    exact if_pos (hcontains.mpr hmem)
  · rw [if_neg hmem]
    exact if_neg (mt hcontains.mp hmem)

theorem path?_eq (root : List Char) (name : String) :
    path? root name.toList =
      (segments? name).map fun _ => Path.under root (relative name.toList) := by
  have hdown := Path.leadsDown_components_iff (head?_relative name.toList)
  rw [path?, segments?_eq]
  by_cases hmem : ['.', '.'] ∈ Text.splitAtChar '/' (relative name.toList)
  · rw [if_pos hmem, if_neg]
    · rfl
    · rw [List.all_eq_true]
      exact fun h => hdown.mp h hmem
  · rw [if_neg hmem, if_pos]
    · rfl
    · rw [List.all_eq_true]
      exact hdown.mpr hmem

/-- The path of every name that is not refused leads down from the root. -/
theorem path?_leadsDown (root : List Char) {name : String} {segs : List String}
    (h : segments? name = some segs) :
    path? root name.toList = some (Path.under root (relative name.toList)) ∧
      LeadsDown root (Path.under root (relative name.toList)) (Path.names (relative name.toList)) := by
  have hrelative := head?_relative name.toList
  refine ⟨by rw [path?_eq, h, Option.map_some], .of_components hrelative ?_ root⟩
  rw [Path.leadsDown_components_iff hrelative]
  intro hmem
  rw [segments?_eq, if_pos hmem] at h
  cases h

/-! ## Reading -/

/-- Whether a segment leads on to something below. -/
def isStep (seg : String) : Bool :=
  ¬(seg = "" ∨ seg = ".")

/-- Segments lead to the node that those of them lead to that lead on. -/
theorem node?_of_descend {t : FileTree} {node : Node} {segs path : List String}
    (h : t.descend path segs = .ok node) :
    t.node? (path ++ segs.filter isStep) = some node := by
  -- What has been passed of the segments is the path so far, so it varies with them.
  induction segs generalizing path with
  | nil =>
    rw [descend] at h
    split at h
    · next hnode =>
      cases h
      rwa [List.filter_nil, List.append_nil]
    · cases h
  | cons seg segs ih =>
    rw [descend] at h
    split at h
    · cases h
    · cases h
    · split at h
      · next hskipped =>
        rw [List.filter_cons_of_neg (by simpa [isStep, Decidable.or_iff_not_imp_left] using hskipped)]
        exact ih h
      · next hkept =>
        split at h
        · cases h
        · have hnode := ih h
          rw [List.append_assoc, List.singleton_append] at hnode
          rwa [List.filter_cons_of_pos (by simpa [isStep] using hkept)]

theorem filter_segments {path : List Char} (hparent : ['.', '.'] ∉ Text.splitAtChar '/' path) :
    ((Text.splitAtChar '/' path).map String.ofList).filter isStep =
      (Path.names path).map String.ofList := by
  rw [List.filter_map, Path.names]
  congr 1
  refine List.filter_congr fun seg hseg => ?_
  have hne : seg ≠ ['.', '.'] := fun h => hparent (h ▸ hseg)
  have hempty : String.ofList seg = "" ↔ seg = [] := ofList_eq_iff seg ""
  have hdot : String.ofList seg = "." ↔ seg = ['.'] := ofList_eq_iff seg "."
  simp only [Function.comp_apply, isStep, hempty, hdot, IsOrdinary, hne, ne_eq, not_false_eq_true,
    and_true, not_or]

theorem descend_of_lookUp {t : FileTree} {segs : List String} {node : Node}
    (h : t.lookUp segs = .ok node) : t.descend [] segs = .ok node := by
  rw [lookUp] at h
  split at h
  · cases h
  · split at h
    · cases h
    · exact h

/-- What it takes to read a name: it is not refused, and its segments lead to a file with a text. -/
theorem exists_lookUp_of_read {t : FileTree} {name source : String}
    (h : t.read name = .ok source) :
    ∃ segs content, segments? name = some segs ∧ t.lookUp segs = .ok (.file content) ∧
      content.read = .ok source := by
  rw [read] at h
  cases hsegs : segments? name with
  | none =>
    rw [hsegs] at h
    cases h
  | some segs =>
    rw [hsegs] at h
    cases hlook : t.lookUp segs with
    | error fault => cases fault <;> simp [hlook] at h
    | ok node =>
      cases node with
      | directory => simp [hlook] at h
      | file content =>
        refine ⟨segs, content, rfl, hlook, ?_⟩
        simp only [hlook] at h
        cases hread : content.read with
        | ok s =>
          rw [hread] at h
          injection h with hs
          rw [hs]
        | error cause =>
          rw [hread] at h
          injection h

/-- A text that is read is the text of the file below the root that the names in a name lead to. -/
theorem exists_of_read {t : FileTree} {name source : String} (h : t.read name = .ok source) :
    ∃ content, t.node? ((Path.names (relative name.toList)).map String.ofList) =
      some (.file content) ∧ content.read = .ok source := by
  obtain ⟨segs, content, hsegs, hlook, hread⟩ := exists_lookUp_of_read h
  have hnode := node?_of_descend (descend_of_lookUp hlook)
  rw [segments?_eq] at hsegs
  split at hsegs
  · cases hsegs
  · next hparent =>
    cases hsegs
    rw [List.nil_append, filter_segments hparent] at hnode
    exact ⟨content, hnode, hread⟩

/-! ## Folded paths as names -/

/-- A folded path does not start with a slash, so it is a path from the root as it is. -/
theorem relative_of_isFolded {path : List Char} (h : IsFolded path) : relative path = path := by
  obtain rfl | h := h
  · rfl
  · cases path with
    | nil => rfl
    | cons c path =>
      have hc : c ≠ '/' := by
        rintro rfl
        exact (h [] (by simp [Text.splitAtChar])).1 rfl
      rw [relative, List.dropWhile_cons_of_neg (by simpa using hc)]

/-- A folded path is the names in it, joined. -/
theorem join_names_of_isFolded {path : List Char} (h : IsFolded path) :
    Path.join (Path.names path) = path := by
  obtain rfl | h := h
  · rfl
  · have hall : Path.names path = Text.splitAtChar '/' path :=
      List.filter_eq_self.mpr fun seg hseg => decide_eq_true (h seg hseg)
    rw [hall, Path.join_splitAtChar]

/-- A folded path is not refused. -/
theorem segments?_of_isFolded {path : String} (h : IsFolded path.toList) :
    segments? path = some ((Text.splitAtChar '/' path.toList).map String.ofList) := by
  rw [segments?_eq, relative_of_isFolded h, if_neg]
  intro hmem
  obtain hempty | h := h
  · rw [hempty] at hmem
    cases List.mem_singleton.mp hmem
  · exact (h _ hmem).2.2 rfl

/-- **Names lead down from the root.**  The path that a name stands for in a tag is empty, or has
    slash-separated segments none of which is empty, one dot or two.  No such path is refused, and
    put after a root it leads down from there by just its own segments.  Any other name is refused
    and read from no tree of files, or it leads down from the root too, and what is read for it is
    the file at the names in it, below the root. -/
theorem names_lead_down (root : List Char) :
    (∀ name including : String, IsFolded (Path.resolve name including).toList) ∧
    (∀ path : String, IsFolded path.toList →
      segments? path = some ((Text.splitAtChar '/' path.toList).map String.ofList) ∧
      path? root path.toList = some (Path.under root path.toList) ∧
      ∃ names, Path.join names = path.toList ∧
        LeadsDown root (Path.under root path.toList) names) ∧
    ∀ name : String,
      (path? root name.toList = none ∧ ∀ t : FileTree, t.read name = .error (.notFound name)) ∨
      ∃ file names, path? root name.toList = some file ∧ LeadsDown root file names ∧
        ∀ (t : FileTree) (source : String), t.read name = .ok source →
          ∃ content, t.node? (names.map String.ofList) = some (.file content) ∧
            content.read = .ok source := by
  refine ⟨Path.isFolded_resolve, fun path hpath => ?_, fun name => ?_⟩
  · have hsegs := segments?_of_isFolded hpath
    obtain ⟨hfile, hdown⟩ := path?_leadsDown root hsegs
    rw [relative_of_isFolded hpath] at hfile hdown
    exact ⟨hsegs, hfile, _, join_names_of_isFolded hpath, hdown⟩
  · cases hsegs : segments? name with
    | none =>
      refine .inl ⟨by rw [path?_eq, hsegs, Option.map_none], fun t => ?_⟩
      rw [read, hsegs]
    | some segs =>
      obtain ⟨hfile, hdown⟩ := path?_leadsDown root hsegs
      exact .inr ⟨_, _, hfile, hdown, fun t source hread => exists_of_read hread⟩

/-- A name with slashes and dots to pass over leads to the same file as the folded path. -/
theorem names_lead_down_page :
    (IsFolded "pages/item.html".toList ∧
      (ofNames [("pages/item.html", .text "{{name}}")]).read "//pages/./item.html" =
        .ok "{{name}}") ∧
    (∃ names, Path.join names = "pages/item.html".toList ∧
      LeadsDown "templates".toList "templates/pages/item.html".toList names) ∧
    ∃ file names, LeadsDown "templates".toList file names ∧
      ∃ content, (ofNames [("pages/item.html", .text "{{name}}")]).node? (names.map String.ofList) =
        some (.file content) ∧ content.read = .ok "{{name}}" := by
  obtain ⟨-, haccepts, hleads⟩ := names_lead_down "templates".toList
  have hfolded : IsFolded "pages/item.html".toList := by decide +kernel
  have hread : (ofNames [("pages/item.html", .text "{{name}}")]).read "//pages/./item.html" =
      .ok "{{name}}" := by
    rfl
  obtain ⟨-, -, hdown⟩ := haccepts "pages/item.html" hfolded
  refine ⟨⟨hfolded, hread⟩, hdown, ?_⟩
  obtain ⟨-, hrefused⟩ | ⟨file, names, -, hdown, hfile⟩ := hleads "//pages/./item.html"
  · rw [hrefused] at hread
    cases hread
  · exact ⟨file, names, hdown, hfile _ _ hread⟩

end FileTree
end Mustache
