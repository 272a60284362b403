import Mustache.Code.Inversion
import Mustache.Proofs.Lookup.Direct

/-! # Recovered names

Names are recovered one after another, and what a name has got it keeps.  Once all are there, the
map that is made of them has under every name what was recovered for it.

* `Recovered.IsProper`, `Recovered.path_eq_segments` — names whose parts are the segments that are
  looked up.
* `Recovered.at?` — what has been recovered at a path.
* `Recovered.Grows` — how names grow when more is recovered.
* `Recovered.Adds` — names with one more value.
* `Recovered.Shows` — the values that have what has been recovered for their members.
-/

namespace Mustache

/-! ## Names -/

namespace Text

theorem splitAtChar_eq (sep : Char) (s : List Char) :
    splitAtChar sep s =
      match cutAtChar? sep s with
      | some (a, b) => a :: splitAtChar sep b
      | none => [s] := by
  induction s with
  | nil => rfl
  | cons c s ih =>
    rw [splitAtChar, cutAtChar?]
    split
    · rfl
    · rw [ih]
      cases cutAtChar? sep s <;> rfl

theorem length_of_cutAtChar? {sep : Char} {s a b : List Char} (h : cutAtChar? sep s = some (a, b)) :
    a.length + b.length < s.length := by
  induction s generalizing a b with
  | nil => cases h
  | cons c s ih =>
    rw [cutAtChar?] at h
    split at h
    · cases h
      simp
    · cases hcut : cutAtChar? sep s with
      | none => simp [hcut] at h
      | some p =>
        simp only [hcut, Option.map_some, Option.some.injEq, Prod.mk.injEq] at h
        obtain ⟨rfl, rfl⟩ := h
        have hlt := ih hcut
        simp only [List.length_cons]
        omega

end Text

namespace Recovered

/-- Something stands between the dots of a name, before the first and after the last. -/
def IsProper (name : String) : Prop :=
  ∀ seg ∈ Text.splitAtChar '.' name.toList, seg ≠ []

instance (name : String) : Decidable (IsProper name) :=
  inferInstanceAs (Decidable (∀ seg ∈ Text.splitAtChar '.' name.toList, seg ≠ []))

/-- The name under which everything is recovered that is recovered for a name. -/
def head (name : String) : String :=
  (cutName name).1

theorem parts_eq (fuel : Nat) : ∀ {name : String}, name.length ≤ fuel → IsProper name →
    parts fuel name = (Text.splitAtChar '.' name.toList).map String.ofList := by
  induction fuel with
  | zero =>
    intro name hlen hname
    have hnil : name.toList = [] := List.eq_nil_of_length_eq_zero (by simpa using hlen)
    exact absurd rfl (hname [] (by simp [hnil, Text.splitAtChar]))
  | succ fuel ih =>
    intro name hlen hname
    rw [IsProper, Text.splitAtChar_eq] at hname
    rw [parts, cutName, Text.splitAtChar_eq]
    cases hcut : Text.cutAtChar? '.' name.toList with
    | none => simp
    | some p =>
      obtain ⟨first, rest⟩ := p
      rw [hcut] at hname
      have hlt := Text.length_of_cutAtChar? hcut
      rw [String.length_toList] at hlt
      cases first with
      | nil => exact absurd rfl (hname [] List.mem_cons_self)
      | cons c first =>
        have hshort : (String.ofList rest).length ≤ fuel := by
          simp only [String.length_ofList]
          omega
        have hproper : IsProper (String.ofList rest) := fun seg hseg =>
          hname seg (List.mem_cons_of_mem _ (by simpa using hseg))
        simpa using ih hshort hproper

/-- The parts of a proper name are its segments. -/
theorem path_eq_segments {name : String} (h : IsProper name) :
    path name = (Lookup.segments name).1 :: (Lookup.segments name).2 := by
  rw [path, parts_eq name.length (Nat.le_refl _) h, Lookup.segments]
  cases hsplit : (Text.splitAtChar '.' name.toList).map String.ofList with
  | nil =>
    rw [Text.splitAtChar_eq] at hsplit
    split at hsplit <;> cases hsplit
  | cons first rest => rfl

theorem exists_path_eq (name : String) : ∃ more, path name = head name :: more := by
  have hwhole : (cutName name).2 = none → (cutName name).1 = name := by
    unfold cutName
    split <;> simp
  rw [path, head]
  cases hlen : name.length with
  | zero =>
    have hnil : name.toList = [] := List.eq_nil_of_length_eq_zero (by simpa using hlen)
    exact ⟨[], by simp [parts, cutName, hnil, Text.cutAtChar?]⟩
  | succ n =>
    rw [parts]
    generalize cutName name = cut at hwhole ⊢
    obtain ⟨first, _ | rest⟩ := cut
    · exact ⟨[], by simp only [← hwhole rfl]⟩
    · exact ⟨_, rfl⟩

theorem head_eq {name first : String} {rest : List String} (h : path name = first :: rest) :
    head name = first := by
  obtain ⟨more, hpath⟩ := exists_path_eq name
  exact (List.cons.inj (hpath.symm.trans h)).1

/-- The current scope is a name without parts. -/
theorem path_current : path currentName = [currentName] := by
  decide

/-! ## What is recovered at a path -/

/-- The names that are recovered under what a name holds. -/
def inner : Option Recovered → List (String × Recovered)
  | some (.nested names) => names
  | _ => []

/-- What has been recovered at the end of a path. -/
def at? : List String → List (String × Recovered) → Option Recovered
  | [], _ => none
  | [name], names => Table.get? name names
  | name :: next :: more, names => at? (next :: more) (inner (Table.get? name names))

variable {names names' : List (String × Recovered)} {v w : Value} {name next : String}
  {more : List String}

theorem at?_nil : ∀ path : List String, at? path [] = none
  | [] => rfl
  | [_] => rfl
  | _ :: next :: more => at?_nil (next :: more)

/-- What is recovered at the end of a path that starts at what a name holds. -/
def along (r : Option Recovered) : List String → Option Recovered
  | [] => r
  | name :: more => at? (name :: more) (inner r)

theorem at?_cons (name : String) (more : List String) (names : List (String × Recovered)) :
    at? (name :: more) names = along (Table.get? name names) more := by
  cases more <;> rfl

theorem along_none (path : List String) : along none path = none := by
  cases path with
  | nil => rfl
  | cons name more => exact at?_nil _

/-- Nothing is recovered under a value. -/
theorem along_value (v : Value) (path : List String) :
    along (some (.value v)) path = if path = [] then some (.value v) else none := by
  cases path with
  | nil => rfl
  | cons name more => exact at?_nil _

/-! ## Giving a name a value -/

theorem bindAt_single (h : bindAt v [name] names = some names') :
    Table.get? name names = none ∧ names' = Table.insert name (.value v) names ∨
      ∃ old, Table.get? name names = some (.value old) ∧ old.eq v = true ∧ names' = names := by
  rw [bindAt] at h
  split at h
  · next hget => exact .inl ⟨hget, (Option.some.inj h).symm⟩
  · next old hget =>
    split at h
    · next heq => exact .inr ⟨old, hget, heq, (Option.some.inj h).symm⟩
    · cases h
  · cases h

theorem bindAt_nil (v : Value) (name : String) (more : List String) :
    bindAt v (name :: more) [] = some [(name, single v more)] := by
  cases more <;> rfl

/-- A value at the end of a longer path is given under what the first name holds. -/
theorem bindAt_cons (h : bindAt v (name :: next :: more) names = some names') :
    ∃ inside, bindAt v (next :: more) (inner (Table.get? name names)) = some inside ∧
      names' = Table.insert name (.nested inside) names ∧
      ∀ u, Table.get? name names ≠ some (.value u) := by
  rw [bindAt] at h
  · split at h
    · next hget =>
      rw [hget]
      exact ⟨_, bindAt_nil v next more, (Option.some.inj h).symm, by simp⟩
    · next inside hget =>
      obtain ⟨inside', hinside, rfl⟩ := Option.map_eq_some_iff.mp h
      rw [hget]
      exact ⟨inside', hinside, rfl, by simp⟩
    · cases h
  · simp

/-- The values that are recovered: they have no members. -/
inductive Leaf : Value → Prop
  | text (s : String) : Leaf (.text s)
  | truth : Leaf (.bool true)
  | list (items : List Value) : Leaf (.list items)

theorem Leaf.coerce (h : Leaf v) : v.coerce = v := by
  cases h <;> rfl

theorem Leaf.member? (h : Leaf v) (name : String) : Lookup.member? v name = none := by
  cases h <;> simp [Lookup.member?]

/-- Values stay where they are. -/
def Keeps (names names' : List (String × Recovered)) : Prop :=
  ∀ path w, at? path names = some (.value w) → at? path names' = some (.value w)

/-- Names grow: values stay where they are, and what is new are leaves under some names. -/
structure Grows (heads : List String) (names names' : List (String × Recovered)) : Prop where
  keeps : Keeps names names'
  leaf : ∀ path w, at? path names' = some (.value w) → at? path names = some (.value w) ∨ Leaf w
  keys : ∀ k, Table.get? k names' ≠ none → Table.get? k names ≠ none ∨ k ∈ heads

namespace Grows

variable {heads heads' : List String} {names'' : List (String × Recovered)}

theorem refl (names : List (String × Recovered)) : Grows heads names names :=
  ⟨fun _ _ h => h, fun _ _ h => .inl h, fun _ h => .inl h⟩

theorem trans (h : Grows heads names names') (h' : Grows heads names' names'') :
    Grows heads names names'' where
  keeps path w hw := h'.keeps path w (h.keeps path w hw)
  leaf path w hw := (h'.leaf path w hw).elim (h.leaf path w) .inr
  keys k hk := (h'.keys k hk).elim (h.keys k) .inr

theorem mono (h : Grows heads names names') (hsub : ∀ k ∈ heads, k ∈ heads') :
    Grows heads' names names' :=
  ⟨h.keeps, h.leaf, fun k hk => (h.keys k hk).imp_right (hsub k)⟩

/-- Names grow by what is put at one of them, if that holds what was there, and leaves else. -/
theorem insert {r : Recovered}
    (hkeeps : ∀ path w, along (Table.get? name names) path = some (.value w) →
      along (some r) path = some (.value w))
    (hleaf : ∀ path w, along (some r) path = some (.value w) →
      along (Table.get? name names) path = some (.value w) ∨ Leaf w) :
    Grows [name] names (Table.insert name r names) where
  keeps path w hw := by
    cases path with
    | nil => cases hw
    | cons k more =>
      rw [at?_cons] at hw ⊢
      rw [Table.get?_insert]
      by_cases hk : name = k
      · rw [if_pos hk]
        exact hkeeps more w (hk ▸ hw)
      · rwa [if_neg hk]
  leaf path w hw := by
    cases path with
    | nil => cases hw
    | cons k more =>
      rw [at?_cons, Table.get?_insert] at hw
      rw [at?_cons]
      by_cases hk : name = k
      · rw [if_pos hk] at hw
        exact hk ▸ hleaf more w hw
      · rw [if_neg hk] at hw
        exact .inl hw
  keys k hk := by
    rw [Table.get?_insert] at hk
    by_cases h : name = k
    · exact .inr (by simp [h])
    · rw [if_neg h] at hk
      exact .inl hk

/-- Names grow by what a name is given that was not there. -/
theorem insert_value (hget : Table.get? name names = none) (hleaf : Leaf v) :
    Grows [name] names (Table.insert name (.value v) names) := by
  refine insert (fun path w hw => ?_) fun path w hw => ?_
  · rw [hget, along_none] at hw
    cases hw
  · rw [along_value] at hw
    split at hw
    · cases hw
      exact .inr hleaf
    · cases hw

/-- Names grow by what grows under one of them. -/
theorem insert_nested {inside : List (String × Recovered)}
    (hget : ∀ u, Table.get? name names ≠ some (.value u))
    (hinside : Grows heads (inner (Table.get? name names)) inside) :
    Grows [name] names (Table.insert name (.nested inside) names) := by
  refine insert (fun path w hw => ?_) fun path w hw => ?_
  · cases path with
    | nil => exact absurd hw (hget w)
    | cons next more => exact hinside.keeps _ _ hw
  · cases path with
    | nil => cases hw
    | cons next more => exact hinside.leaf _ _ hw

theorem bindAt (hleaf : Leaf v) : ∀ {path : List String} {name : String}
    {names names' : List (String × Recovered)},
    bindAt v (name :: path) names = some names' → Grows [name] names names'
  | [], name, names, names', h => by
    obtain ⟨hget, rfl⟩ | ⟨_, _, _, rfl⟩ := bindAt_single h
    · exact insert_value hget hleaf
    · exact refl _
  | next :: path, name, names, names', h => by
    obtain ⟨inside, hinside, rfl, hget⟩ := bindAt_cons h
    exact insert_nested hget (bindAt hleaf hinside)

/-- Names grow when a name is given a value. -/
theorem bind (hleaf : Leaf v) (h : Recovered.bind name v names = some names') :
    Grows [head name] names names' := by
  obtain ⟨more, hpath⟩ := exists_path_eq name
  rw [Recovered.bind, hpath] at h
  exact bindAt hleaf h

end Grows

/-- A path that has been given a value holds it, or one that it held before and that is equal. -/
theorem at?_bindAt : ∀ {path : List String} {name : String} {names names' : List (String × Recovered)},
    bindAt v (name :: path) names = some names' →
      ∃ old, at? (name :: path) names' = some (.value old) ∧
        (old = v ∨ at? (name :: path) names = some (.value old) ∧ old.eq v = true)
  | [], name, names, names', h => by
    obtain ⟨-, rfl⟩ | ⟨old, hget, heq, rfl⟩ := bindAt_single h
    · exact ⟨v, by rw [at?, Table.get?_insert, if_pos rfl], .inl rfl⟩
    · exact ⟨old, hget, .inr ⟨hget, heq⟩⟩
  | next :: path, name, names, names', h => by
    obtain ⟨inside, hinside, rfl, -⟩ := bindAt_cons h
    obtain ⟨old, hat, hold⟩ := at?_bindAt hinside
    refine ⟨old, ?_, hold⟩
    rwa [at?, Table.get?_insert, if_pos rfl]

theorem at?_bind (h : bind name v names = some names') :
    ∃ old, at? (path name) names' = some (.value old) ∧
      (old = v ∨ at? (path name) names = some (.value old) ∧ old.eq v = true) := by
  obtain ⟨more, hpath⟩ := exists_path_eq name
  rw [bind, hpath] at h
  rw [hpath]
  exact at?_bindAt h

/-- A name that is given a text holds it. -/
theorem at?_bind_text {s : String} (h : bind name (.text s) names = some names') :
    at? (path name) names' = some (.value (.text s)) := by
  obtain ⟨old, hat, rfl | ⟨-, heq⟩⟩ := at?_bind h
  · exact hat
  · cases old with
    | text s' =>
      simp only [Value.eq, beq_iff_eq] at heq
      rwa [← heq]
    | _ => simp [Value.eq] at heq

/-- A name that is made true is true. -/
theorem at?_bind_truth (h : bind name (.bool true) names = some names') :
    at? (path name) names' = some (.value (.bool true)) := by
  obtain ⟨old, hat, rfl | ⟨-, heq⟩⟩ := at?_bind h
  · exact hat
  · cases old with
    | bool b =>
      simp only [Value.eq, beq_iff_eq] at heq
      rwa [heq] at hat
    | _ => simp [Value.eq] at heq

/-- A name that held nothing holds what it is given. -/
theorem at?_bind_of_none (hnone : at? (path name) names = none)
    (h : bind name v names = some names') : at? (path name) names' = some (.value v) := by
  obtain ⟨old, hat, rfl | ⟨hold, -⟩⟩ := at?_bind h
  · exact hat
  · cases hnone.symm.trans hold

/-- Names have one more value at the end of a path: it comes in behind the names that are there, or
    behind those that the first name of the path holds. -/
inductive Adds (v : Value) :
    List String → List (String × Recovered) → List (String × Recovered) → Prop
  | here {name : String} {more : List String} {names : List (String × Recovered)}
    (hget : Table.get? name names = none) :
    Adds v (name :: more) names (names ++ [(name, single v more)])
  | under {name : String} {path : List String}
    {before inside inside' behind : List (String × Recovered)}
    (hget : Table.get? name before = none) (hinside : Adds v path inside inside') :
    Adds v (name :: path) (before ++ (name, .nested inside) :: behind)
      (before ++ (name, .nested inside') :: behind)

/-- What a path is given is one more value, if it holds none. -/
theorem adds_bindAt : ∀ {path : List String} {name : String}
    {names names' : List (String × Recovered)}, bindAt v (name :: path) names = some names' →
      names' = names ∨ Adds v (name :: path) names names'
  | [], name, names, names', h => by
    obtain ⟨hget, rfl⟩ | ⟨_, _, _, rfl⟩ := bindAt_single h
    · rw [Table.insert_of_get?_eq_none hget]
      exact .inr (.here hget)
    · exact .inl rfl
  | next :: path, name, names, names', h => by
    obtain ⟨inside', hinside, rfl, hget⟩ := bindAt_cons h
    cases hname : Table.get? name names with
    | none =>
      rw [hname] at hinside
      obtain rfl := Option.some.inj ((bindAt_nil v next path).symm.trans hinside)
      rw [Table.insert_of_get?_eq_none hname]
      exact .inr (.here hname)
    | some r =>
      cases r with
      | value u => exact absurd hname (hget u)
      | nested inside =>
        rw [hname] at hinside
        obtain ⟨before, behind, hbefore, rfl, hinsert⟩ := Table.exists_insert_eq hname
        rw [hinsert]
        obtain rfl | hadds := adds_bindAt hinside
        · exact .inl rfl
        · exact .inr (.under hbefore hadds)

theorem adds_bind (h : bind name v names = some names') :
    names' = names ∨ Adds v (path name) names names' := by
  obtain ⟨more, hpath⟩ := exists_path_eq name
  rw [bind, hpath] at h
  rw [hpath]
  exact adds_bindAt h

/-! ## What the map of the names has -/

theorem toEntries_eq_map (names : List (String × Recovered)) :
    toEntries names = names.map fun e => (e.1, e.2.toValue) := by
  induction names with
  | nil => rfl
  | cons e names ih =>
    obtain ⟨name, r⟩ := e
    rw [toEntries, ih, List.map_cons]

theorem get?_toEntries (name : String) (names : List (String × Recovered)) :
    Table.get? name (toEntries names) = (Table.get? name names).map toValue := by
  induction names with
  | nil => rfl
  | cons e names ih =>
    obtain ⟨k, r⟩ := e
    rw [toEntries, Table.get?, Table.get?, ih]
    split <;> rfl

/-- All values that have been recovered are leaves. -/
def Leafy (names : List (String × Recovered)) : Prop :=
  ∀ path w, at? path names = some (.value w) → Leaf w

theorem Grows.leafy {heads : List String} (h : Grows heads names names') (hnames : Leafy names) :
    Leafy names' :=
  fun path w hw => (h.leaf path w hw).elim (hnames path w) id

/-- Where there was nothing, there are only the names that were added. -/
theorem Grows.mem_heads {heads : List String} (h : Grows heads [] names)
    (hname : Table.get? name names ≠ none) : name ∈ heads :=
  (h.keys name hname).resolve_left fun hnil => hnil rfl

theorem get?_eq_none {keys : List String} (h : ∀ k, Table.get? k names ≠ none → k ∈ keys)
    (hname : name ∉ keys) : Table.get? name names = none :=
  Classical.byContradiction fun hget => hname (h name hget)

theorem leafy_nil : Leafy [] := by
  intro path w hw
  cases (at?_nil path).symm.trans hw

theorem coerce_toValue {r : Recovered} (h : ∀ v, r = .value v → Leaf v) :
    r.toValue.coerce = r.toValue := by
  cases r with
  | value v => exact (h v rfl).coerce
  | nested names => rfl

/-- The members along a path of what a name holds are what has been recovered there. -/
theorem memberAlong_toValue : ∀ {path : List String} {r : Recovered}, (∀ k ∈ path, k ≠ "") →
    (∀ more w, along (some r) more = some (.value w) → Leaf w) →
      Lookup.memberAlong r.toValue path = ((along (some r) path).map toValue).getD .null
  | [], r, _, hleafy => coerce_toValue fun v hv => hleafy [] v (by rw [hv]; rfl)
  | name :: more, .value v, _, hleafy => by
    have hleaf := hleafy [] v rfl
    rw [Lookup.memberAlong, toValue, hleaf.coerce, hleaf.member?, along_value]
    rfl
  | name :: more, .nested inside, hproper, hleafy => by
    have hname : name.isEmpty = false := by simpa using hproper name List.mem_cons_self
    have hmember : Lookup.member? (.map (toEntries inside)) name =
        (Table.get? name inside).map toValue := by
      simp [Lookup.member?, hname, get?_toEntries]
    rw [Lookup.memberAlong, toValue, show (Value.map _).coerce = Value.map _ from rfl, hmember,
      along, inner, at?_cons]
    cases hget : Table.get? name inside with
    | none =>
      rw [along_none]
      rfl
    | some r =>
      refine memberAlong_toValue (fun k hk => hproper k (List.mem_cons_of_mem _ hk)) ?_
      intro path w hw
      refine hleafy (name :: path) w ?_
      rwa [along, inner, at?_cons, hget]

/-- A value has what has been recovered for its members, or it is what has been recovered. -/
structure Shows (names : List (String × Recovered)) (w : Value) : Prop where
  coerce : w.coerce = w
  member : ∀ name, name ≠ "" → name ≠ currentName →
    Lookup.member? w name = (Table.get? name names).map toValue
  current : ∀ s, Table.get? currentName names = some (.value (.text s)) → w = .text s

theorem shows_truth : Shows [] (.bool true) where
  coerce := rfl
  member name _ _ := by simp [Lookup.member?]
  current := nofun

/-- The map of the names without the current one has all members but that. -/
theorem member?_erase (hname : name ≠ "") (hcurrent : name ≠ currentName) :
    Lookup.member? (.map (toEntries (Table.erase currentName names))) name =
      (Table.get? name names).map toValue := by
  have hne : name.isEmpty = false := by simpa using hname
  simp [Lookup.member?, hne, get?_toEntries, Table.get?_erase, Ne.symm hcurrent]

theorem shows_map (h : Table.get? currentName names = none) :
    Shows names (.map (toEntries (Table.erase currentName names))) where
  coerce := rfl
  member _ hname hcurrent := member?_erase hname hcurrent
  current s hs := by cases h.symm.trans hs

/-- A round of a section shows what it has recovered, if that is one text or has no current name. -/
theorem shows_toItem (hleafy : Leafy names)
    (h : (∀ k, Table.get? k names ≠ none → k = currentName) ∨
      Table.get? currentName names = none) : Shows names (toItem names) := by
  cases hcurrent : Table.get? currentName names with
  | none =>
    simp only [toItem, hcurrent]
    exact shows_map hcurrent
  | some r =>
    have honly : ∀ k, Table.get? k names ≠ none → k = currentName :=
      h.resolve_right (by simp [hcurrent])
    cases r with
    | value v =>
      have hleaf : Leaf v := hleafy [currentName] v hcurrent
      simp only [toItem, hcurrent]
      refine ⟨hleaf.coerce, fun name _ hname => ?_, fun s hs => ?_⟩
      · have hnone : Table.get? name names = none := by
          cases hget : Table.get? name names with
          | none => rfl
          | some r => exact absurd (honly name (by simp [hget])) hname
        rw [hleaf.member?, hnone]
        rfl
      · cases hcurrent.symm.trans hs
        rfl
    | nested inside =>
      simp only [toItem, hcurrent]
      refine ⟨rfl, fun _ hname hother => member?_erase hname hother, fun s hs => ?_⟩
      cases hcurrent.symm.trans hs

/-! ## Looking names up -/

/-- The values that a lookup of a recovered name comes to. -/
inductive Datum : Value → Prop
  | null : Datum .null
  | map (entries : List (String × Value)) : Datum (.map entries)
  | leaf {v : Value} (h : Leaf v) : Datum v

theorem resolveIn_of_none {first : String} {rest : List String} {stack : List Value}
    (h : ∀ u ∈ stack, Lookup.member? u.coerce first = none) :
    Lookup.resolveIn first rest stack = .null := by
  induction stack with
  | nil => rfl
  | cons u stack ih =>
    rw [Lookup.resolveIn, h u List.mem_cons_self]
    exact ih fun u' hu' => h u' (List.mem_cons_of_mem _ hu')

/-- What has been recovered for a name, as a value; null if nothing has. -/
def valueOf (name : String) (names : List (String × Recovered)) : Value :=
  ((at? (path name) names).map toValue).getD .null

theorem datum_valueOf (hleafy : Leafy names) : Datum (valueOf name names) := by
  rw [valueOf]
  cases hat : at? (path name) names with
  | none => exact .null
  | some r =>
    cases r with
    | value v => exact .leaf (hleafy _ _ hat)
    | nested inside => exact .map _

theorem valueOf_eq (h : at? (path name) names = some (.value v)) : valueOf name names = v := by
  rw [valueOf, h]
  rfl

/-- The parts of a proper name are neither empty nor dots. -/
theorem ne_of_mem_path (hname : IsProper name) {part : String} (h : part ∈ path name) :
    part ≠ "" ∧ part ≠ currentName := by
  rw [path, parts_eq name.length (Nat.le_refl _) hname, List.mem_map] at h
  obtain ⟨seg, hseg, rfl⟩ := h
  constructor
  · simpa using hname seg hseg
  · intro hdot
    have hmem : '.' ∈ (String.ofList seg).toList := by simp [hdot, currentName]
    rw [String.toList_ofList] at hmem
    exact Text.not_mem_of_mem_splitAtChar hseg hmem

/-- A proper name that is recovered, or that the scopes further out do not have, has the value that
    has been recovered for it. -/
theorem resolve_eq (hname : IsProper name) (hshows : Shows names w) (hleafy : Leafy names)
    {outer : List Value}
    (houter : Table.get? (head name) names = none →
      ∀ u ∈ outer, Lookup.member? u.coerce (head name) = none) :
    Lookup.resolve name ⟨w :: outer⟩ = valueOf name names := by
  have hdot : name ≠ "." := by
    rintro rfl
    exact absurd hname (by decide)
  have hpath := path_eq_segments hname
  obtain ⟨hempty, hcurrent⟩ := ne_of_mem_path hname (hpath ▸ List.mem_cons_self)
  rw [head_eq hpath] at houter
  simp only [Lookup.resolve, if_neg hdot, Lookup.resolveIn, hshows.coerce,
    hshows.member _ hempty hcurrent, valueOf, hpath, at?_cons]
  cases hget : Table.get? (Lookup.segments name).1 names with
  | none =>
    rw [along_none]
    exact resolveIn_of_none (houter hget)
  | some r =>
    refine memberAlong_toValue (fun k hk => ?_) fun more v hv => ?_
    · exact (ne_of_mem_path hname (hpath ▸ List.mem_cons_of_mem _ hk)).1
    · exact hleafy ((Lookup.segments name).1 :: more) v (by rwa [at?_cons, hget])

theorem resolve_current {s : String} (hshows : Shows names w)
    (h : Table.get? currentName names = some (.value (.text s))) (outer : List Value) :
    Lookup.resolve currentName ⟨w :: outer⟩ = .text s := by
  obtain rfl := hshows.current s h
  rfl

end Recovered

end Mustache
