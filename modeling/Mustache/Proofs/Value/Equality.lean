import Mathlib.Data.List.Forall2
import Mathlib.Data.List.Perm.Subperm
import Mustache.Value.Equality

/-! # Equality is an equivalence

Equality of values looks at one layer of two values and goes on with their parts.  What it takes for
a layer to agree is told for each pair of constructors; that equality is symmetric and transitive
then follows from the parts, and so does that a value is equal to itself, unless there is a number
in it that is not.

Entries are compared in one direction only: each entry on the left has its counterpart on the right.
As there are as many on either side, and no key comes twice, none is left over on the right.

* `Value.Part`, `Value.Within` — what a value is made of.
* `Value.IsKeyed`, `Value.HoldsNaN` — different keys, and numbers that are none, at any depth.
* `Value.Agrees` — when two values agree, given when their parts do.
* `Value.SameEntries` — the same keys with equal values.
* `Value.eq_laws` — equality is symmetric and transitive, and reflexive without such numbers.
-/

namespace Mustache

/-! ## Numbers -/

namespace Double

variable {x y z : Double}

theorem eq_symm (h : x.eq y = true) : y.eq x = true := by
  simp only [eq, Bool.and_eq_true, Bool.or_eq_true, Bool.not_eq_true', decide_eq_true_eq] at h ⊢
  exact ⟨⟨h.1.2, h.1.1⟩, h.2.imp Eq.symm And.symm⟩

theorem eq_trans (hxy : x.eq y = true) (hyz : y.eq z = true) : x.eq z = true := by
  simp only [eq, Bool.and_eq_true, Bool.or_eq_true, Bool.not_eq_true', decide_eq_true_eq]
    at hxy hyz ⊢
  have hzero {a b : Double} (h : a.bits = b.bits) : a.isZero = b.isZero := by
    obtain ⟨a⟩ := a
    obtain ⟨b⟩ := b
    obtain rfl : a = b := h
    rfl
  refine ⟨⟨hxy.1.1, hyz.1.2⟩, ?_⟩
  obtain hxy | ⟨hx, hy⟩ := hxy.2
  · rw [hxy, hzero hxy]
    exact hyz.2
  · obtain hyz | ⟨-, hz⟩ := hyz.2
    · exact .inr ⟨hx, hzero hyz ▸ hy⟩
    · exact .inr ⟨hx, hz⟩

theorem eq_self (h : x.isNaN = false) : x.eq x = true := by
  simp [eq, h]

end Double

namespace Value

variable {u v w : Value} {as bs cs : List Value} {es fs gs : List (String × Value)}

/-! ## What values are made of -/

/-- The values that a value is directly made of: elements, values under keys, and what an optional
    holds. -/
inductive Part (v : Value) : Value → Prop
  | item {items : List Value} (h : v ∈ items) : Part v (.list items)
  | entry {entries : List (String × Value)} {key : String} (h : (key, v) ∈ entries) :
      Part v (.map entries)
  | field {type : String} {fields : List (String × Value)} {name : String}
      (h : (name, v) ∈ fields) :
      Part v (.record type fields)
  | content : Part v (.optional (some v))

/-- What a value is made of at any depth, the value itself included. -/
inductive Within (u : Value) : Value → Prop
  | self : Within u u
  | inside {v w : Value} (hpart : Part v w) (h : Within u v) : Within u w

/-- No key comes twice in a map or a record, at any depth. -/
structure IsKeyed (v : Value) : Prop where
  map : ∀ entries, Within (.map entries) v → (Table.keys entries).Nodup
  record : ∀ type fields, Within (.record type fields) v → (Table.keys fields).Nodup

/-- Some number, at any depth, is not one. -/
def HoldsNaN (v : Value) : Prop :=
  ∃ x : Double, Within (.float x) v ∧ x.isNaN = true

theorem Part.sizeOf_lt (h : Part v w) : sizeOf v < sizeOf w := by
  have hentry {key : String} {entries : List (String × Value)} (h : (key, v) ∈ entries) :
      sizeOf v < sizeOf entries := by
    have hlt := List.sizeOf_lt_of_mem h
    simp only [Prod.mk.sizeOf_spec] at hlt
    omega
  cases h with
  | item h =>
    have hlt := List.sizeOf_lt_of_mem h
    simp only [list.sizeOf_spec]
    omega
  | entry h =>
    have hlt := hentry h
    simp only [map.sizeOf_spec]
    omega
  | field h =>
    have hlt := hentry h
    simp only [record.sizeOf_spec]
    omega
  | content =>
    simp only [optional.sizeOf_spec, Option.some.sizeOf_spec]
    omega

/-- What holds of a value whenever it holds of its parts holds of every value. -/
theorem induction_on_parts {P : Value → Prop} (h : ∀ v, (∀ u, Part u v → P u) → P v) (v : Value) :
    P v := by
  induction hsize : sizeOf v using Nat.strongRecOn generalizing v with
  | _ n ih =>
    subst hsize
    exact h v fun u hu => ih _ hu.sizeOf_lt u rfl

theorem IsKeyed.part (h : w.IsKeyed) (hpart : Part v w) : v.IsKeyed :=
  ⟨fun entries hin => h.map entries (.inside hpart hin),
    fun type fields hin => h.record type fields (.inside hpart hin)⟩

theorem HoldsNaN.inside (h : v.HoldsNaN) (hpart : Part v w) : w.HoldsNaN := by
  obtain ⟨x, hin, hx⟩ := h
  exact ⟨x, .inside hpart hin, hx⟩

/-! ## One layer -/

/-- As many entries on either side, and for each one on the left an equal one on the right. -/
structure Covers (es fs : List (String × Value)) : Prop where
  length : es.length = fs.length
  entry : ∀ key v, (key, v) ∈ es → ∃ w, Table.get? key fs = some w ∧ v.eq w = true

/-- Two values agree: they are made in the same way, and their parts are equal. -/
inductive Agrees : Value → Value → Prop
  | null : Agrees .null .null
  | bool (b : Bool) : Agrees (.bool b) (.bool b)
  | int (n : Int64) : Agrees (.int n) (.int n)
  | float {x y : Double} (h : x.eq y = true) : Agrees (.float x) (.float y)
  | text (s : String) : Agrees (.text s) (.text s)
  | list {as bs : List Value} (h : List.Forall₂ (fun a b => a.eq b = true) as bs) :
      Agrees (.list as) (.list bs)
  | map {es fs : List (String × Value)} (h : Covers es fs) : Agrees (.map es) (.map fs)
  | record (type : String) {es fs : List (String × Value)} (h : Covers es fs) :
      Agrees (.record type es) (.record type fs)
  | absent : Agrees (.optional none) (.optional none)
  | present {v w : Value} (h : v.eq w = true) : Agrees (.optional (some v)) (.optional (some w))
  | object {o p : HostObject Value} (h : o.id = p.id) : Agrees (.object o) (.object p)
  | lambda {f g : Lambda} (h : f.id = g.id) : Agrees (.lambda f) (.lambda g)
  | deferred {d e : Deferred Value} (h : d.id = e.id) : Agrees (.deferred d) (.deferred e)

theorem eqItems_iff : eqItems as bs = true ↔ List.Forall₂ (fun a b => a.eq b = true) as bs := by
  induction as generalizing bs with
  | nil => cases bs <;> simp [eqItems]
  | cons a as ih => cases bs <;> simp [eqItems, ih]

theorem eqEntries_iff :
    eqEntries es fs = true ↔
      ∀ key v, (key, v) ∈ es → ∃ w, Table.get? key fs = some w ∧ v.eq w = true := by
  induction es with
  | nil => simp [eqEntries]
  | cons e es ih =>
    obtain ⟨key, v⟩ := e
    have hfirst : eqEntries ((key, v) :: es) fs =
        ((Table.get? key fs).any v.eq && eqEntries es fs) := by
      rw [eqEntries]
      cases Table.get? key fs <;> rfl
    rw [hfirst, Bool.and_eq_true, Option.any_eq_true, ih]
    constructor
    · rintro ⟨hv, hrest⟩ k u hmem
      obtain heq | hmem := List.mem_cons.mp hmem
      · cases heq
        exact hv
      · exact hrest k u hmem
    · intro h
      exact ⟨h key v List.mem_cons_self, fun k u hmem => h k u (List.mem_cons_of_mem _ hmem)⟩

theorem covers_iff : (es.length == fs.length && eqEntries es fs) = true ↔ Covers es fs := by
  rw [Bool.and_eq_true, beq_iff_eq, eqEntries_iff]
  exact ⟨fun h => ⟨h.1, h.2⟩, fun h => ⟨h.length, h.entry⟩⟩

/-- Two values are equal if they agree. -/
theorem eq_iff_agrees : v.eq w = true ↔ Agrees v w := by
  constructor
  · intro h
    unfold eq at h
    split at h
    · exact .null
    · exact beq_iff_eq.mp h ▸ .bool _
    · exact beq_iff_eq.mp h ▸ .int _
    · exact .float h
    · exact beq_iff_eq.mp h ▸ .text _
    · exact .list (eqItems_iff.mp h)
    · exact .map (covers_iff.mp h)
    · rw [Bool.and_assoc, Bool.and_eq_true, covers_iff, beq_iff_eq] at h
      exact h.1 ▸ .record _ h.2
    · exact .absent
    · exact .present h
    · exact .object (beq_iff_eq.mp h)
    · exact .lambda (beq_iff_eq.mp h)
    · exact .deferred (beq_iff_eq.mp h)
    · cases h
  · intro h
    cases h with
    | null | absent => rfl
    | bool | int | text => simp [eq]
    | float h | present h => simpa [eq] using h
    | list h => simpa [eq] using eqItems_iff.mpr h
    | map h => simpa [eq] using covers_iff.mpr h
    | record type h => simpa [eq] using covers_iff.mpr h
    | object h | lambda h | deferred h => simpa [eq] using h

/-! ## Entries -/

theorem forall₂_symm_of (h : ∀ a ∈ as, ∀ b, a.eq b = true → b.eq a = true)
    (has : List.Forall₂ (fun a b => a.eq b = true) as bs) :
    List.Forall₂ (fun a b => a.eq b = true) bs as := by
  induction has with
  | nil => exact .nil
  | cons hab _ ih =>
    exact .cons (h _ List.mem_cons_self _ hab) (ih fun a ha => h a (List.mem_cons_of_mem _ ha))

theorem forall₂_trans_of (h : ∀ a ∈ as, ∀ b c, a.eq b = true → b.eq c = true → a.eq c = true)
    (has : List.Forall₂ (fun a b => a.eq b = true) as bs)
    (hbs : List.Forall₂ (fun a b => a.eq b = true) bs cs) :
    List.Forall₂ (fun a b => a.eq b = true) as cs := by
  induction has generalizing cs with
  | nil => exact hbs
  | cons hab _ ih =>
    cases hbs with
    | cons hbc hbs =>
      exact .cons (h _ List.mem_cons_self _ _ hab hbc)
        (ih (fun a ha => h a (List.mem_cons_of_mem _ ha)) hbs)

/-- The same keys with equal values. -/
structure SameEntries (es fs : List (String × Value)) : Prop where
  keys : ∀ key, key ∈ Table.keys es ↔ key ∈ Table.keys fs
  values : ∀ key v w, (key, v) ∈ es → (key, w) ∈ fs → v.eq w = true

theorem mem_keys_iff {key : String} : key ∈ Table.keys es ↔ ∃ v, (key, v) ∈ es := by
  simp [Table.keys]

/-- If no key comes twice on the left, none does on the right, and none is left over there. -/
theorem Covers.keys_perm (h : Covers es fs) (hkeys : (Table.keys es).Nodup) :
    (Table.keys es).Perm (Table.keys fs) := by
  have hsub : Table.keys es ⊆ Table.keys fs := by
    intro key hkey
    obtain ⟨v, hv⟩ := mem_keys_iff.mp hkey
    obtain ⟨w, hw, -⟩ := h.entry key v hv
    exact mem_keys_iff.mpr ⟨w, Table.mem_of_get? hw⟩
  refine (hkeys.subperm hsub).perm_of_length_le ?_
  simp [Table.keys, h.length]

theorem covers_iff_sameEntries (hes : (Table.keys es).Nodup) (hfs : (Table.keys fs).Nodup) :
    Covers es fs ↔ SameEntries es fs := by
  constructor
  · intro h
    refine ⟨fun key => (h.keys_perm hes).mem_iff, fun key v w hv hw => ?_⟩
    obtain ⟨w', hw', heq⟩ := h.entry key v hv
    obtain rfl : w' = w := Option.some.inj (hw'.symm.trans (Table.get?_of_mem hfs hw))
    exact heq
  · intro h
    refine ⟨?_, fun key v hv => ?_⟩
    · have hlength := ((List.perm_ext_iff_of_nodup hes hfs).mpr h.keys).length_eq
      simpa [Table.keys] using hlength
    · obtain ⟨w, hw⟩ := mem_keys_iff.mp ((h.keys key).mp (mem_keys_iff.mpr ⟨v, hv⟩))
      exact ⟨w, Table.get?_of_mem hfs hw, h.values key v w hv hw⟩

/-! ## Symmetry, transitivity, reflexivity -/

theorem Covers.symm (h : Covers es fs) (hkeys : (Table.keys es).Nodup)
    (hsymm : ∀ key v, (key, v) ∈ es → ∀ w, v.eq w = true → w.eq v = true) : Covers fs es := by
  have hperm := h.keys_perm hkeys
  have hsame := (covers_iff_sameEntries hkeys (hperm.nodup_iff.mp hkeys)).mp h
  refine (covers_iff_sameEntries (hperm.nodup_iff.mp hkeys) hkeys).mpr
    ⟨fun key => (hsame.keys key).symm, fun key w v hw hv => ?_⟩
  exact hsymm key v hv w (hsame.values key v w hv hw)

theorem Covers.trans (h : Covers es fs) (h' : Covers fs gs)
    (htrans : ∀ key v, (key, v) ∈ es → ∀ w u, v.eq w = true → w.eq u = true → v.eq u = true) :
    Covers es gs := by
  refine ⟨h.length.trans h'.length, fun key v hv => ?_⟩
  obtain ⟨w, hw, hvw⟩ := h.entry key v hv
  obtain ⟨u, hu, hwu⟩ := h'.entry key w (Table.mem_of_get? hw)
  exact ⟨u, hu, htrans key v hv w u hvw hwu⟩

theorem Covers.self (hkeys : (Table.keys es).Nodup)
    (hself : ∀ key v, (key, v) ∈ es → v.eq v = true) : Covers es es :=
  ⟨rfl, fun key v hv => ⟨v, Table.get?_of_mem hkeys hv, hself key v hv⟩⟩

theorem eq_symm (hv : v.IsKeyed) (h : v.eq w = true) : w.eq v = true := by
  induction v using induction_on_parts generalizing w with
  | h v ih =>
    have hpart {u : Value} (hu : Part u v) (w : Value) (huw : u.eq w = true) : w.eq u = true :=
      ih u hu (hv.part hu) huw
    rw [eq_iff_agrees] at h ⊢
    cases h with
    | null => exact .null
    | bool b => exact .bool b
    | int n => exact .int n
    | float h => exact .float (Double.eq_symm h)
    | text s => exact .text s
    | list h => exact .list (forall₂_symm_of (fun a ha => hpart (.item ha)) h)
    | map h =>
      exact .map (h.symm (hv.map _ .self) fun key u hu => hpart (.entry hu))
    | record type h =>
      exact .record type (h.symm (hv.record _ _ .self) fun key u hu => hpart (.field hu))
    | absent => exact .absent
    | present h => exact .present (hpart .content _ h)
    | object h => exact .object h.symm
    | lambda h => exact .lambda h.symm
    | deferred h => exact .deferred h.symm

theorem eq_trans (huv : u.eq v = true) (hvw : v.eq w = true) : u.eq w = true := by
  induction u using induction_on_parts generalizing v w with
  | h u ih =>
    have hpart {t : Value} (ht : Part t u) (v w : Value) (htv : t.eq v = true)
        (hvw : v.eq w = true) : t.eq w = true :=
      ih t ht htv hvw
    rw [eq_iff_agrees] at huv hvw ⊢
    cases huv with
    | null | bool | int | text | absent => exact hvw
    | float h =>
      cases hvw with
      | float h' => exact .float (Double.eq_trans h h')
    | list h =>
      cases hvw with
      | list h' => exact .list (forall₂_trans_of (fun a ha => hpart (.item ha)) h h')
    | map h =>
      cases hvw with
      | map h' => exact .map (h.trans h' fun key t ht => hpart (.entry ht))
    | record type h =>
      cases hvw with
      | record _ h' => exact .record type (h.trans h' fun key t ht => hpart (.field ht))
    | present h =>
      cases hvw with
      | present h' => exact .present (hpart .content _ _ h h')
    | object h =>
      cases hvw with
      | object h' => exact .object (h.trans h')
    | lambda h =>
      cases hvw with
      | lambda h' => exact .lambda (h.trans h')
    | deferred h =>
      cases hvw with
      | deferred h' => exact .deferred (h.trans h')

/-- The parts of a value that is equal to itself are, too. -/
theorem Part.eq_self (hpart : Part u v) (hv : v.IsKeyed) (h : v.eq v = true) : u.eq u = true := by
  have hentry {es : List (String × Value)} {key : String} (hkeys : (Table.keys es).Nodup)
      (h : Covers es es) (hu : (key, u) ∈ es) : u.eq u = true :=
    ((covers_iff_sameEntries hkeys hkeys).mp h).values key u u hu hu
  rw [eq_iff_agrees] at h
  cases hpart with
  | item hu =>
    cases h with
    | list h => exact List.forall₂_same.mp h u hu
  | entry hu =>
    cases h with
    | map h => exact hentry (hv.map _ .self) h hu
  | field hu =>
    cases h with
    | record _ h => exact hentry (hv.record _ _ .self) h hu
  | content =>
    cases h with
    | present h => exact h

theorem not_holdsNaN_of_eq_self (hv : v.IsKeyed) (h : v.eq v = true) : ¬ v.HoldsNaN := by
  rintro ⟨x, hin, hx⟩
  induction hin with
  | self => simp [eq, Double.eq, hx] at h
  | inside hpart _ ih => exact ih (hv.part hpart) (hpart.eq_self hv h)

theorem eq_self (hv : v.IsKeyed) (hnan : ¬ v.HoldsNaN) : v.eq v = true := by
  induction v using induction_on_parts with
  | h v ih =>
    have hpart {u : Value} (hu : Part u v) : u.eq u = true :=
      ih u hu (hv.part hu) fun h => hnan (h.inside hu)
    rw [eq_iff_agrees]
    cases v with
    | null => exact .null
    | bool b => exact .bool b
    | int n => exact .int n
    | float x =>
      refine .float (Double.eq_self (Bool.eq_false_iff.mpr fun hx => hnan ⟨x, .self, hx⟩))
    | text s => exact .text s
    | list items => exact .list (List.forall₂_same.mpr fun a ha => hpart (.item ha))
    | map entries => exact .map (.self (hv.map _ .self) fun key u hu => hpart (.entry hu))
    | record type fields =>
      exact .record type (.self (hv.record _ _ .self) fun key u hu => hpart (.field hu))
    | object o => exact .object rfl
    | optional content =>
      cases content with
      | none => exact .absent
      | some u => exact .present (hpart .content)
    | lambda f => exact .lambda rfl
    | deferred d => exact .deferred rfl

/-- **Equality of values.**  It is symmetric and transitive, and a value is equal to itself just if
    there is no number in it that is none.  Maps, and records of one type, are equal just if they
    have the same keys with equal values, in whatever order; lists, if their elements are equal one
    after another. -/
theorem eq_laws :
    (∀ v w : Value, v.IsKeyed → v.eq w = true → w.eq v = true) ∧
    (∀ u v w : Value, u.eq v = true → v.eq w = true → u.eq w = true) ∧
    (∀ v : Value, v.IsKeyed → (v.eq v = true ↔ ¬ v.HoldsNaN)) ∧
    (∀ es fs, (Value.map es).IsKeyed → (Value.map fs).IsKeyed →
      ((Value.map es).eq (.map fs) = true ↔ SameEntries es fs)) ∧
    (∀ type type' es fs, (Value.record type es).IsKeyed → (Value.record type' fs).IsKeyed →
      ((Value.record type es).eq (.record type' fs) = true ↔
        type = type' ∧ SameEntries es fs)) ∧
    ∀ as bs, (Value.list as).eq (.list bs) = true ↔
      List.Forall₂ (fun a b => a.eq b = true) as bs := by
  refine ⟨fun v w hv h => eq_symm hv h, fun u v w huv hvw => eq_trans huv hvw,
    fun v hv => ⟨not_holdsNaN_of_eq_self hv, eq_self hv⟩, fun es fs hes hfs => ?_,
    fun type type' es fs hes hfs => ?_, fun as bs => ?_⟩
  · rw [← covers_iff_sameEntries (hes.map _ .self) (hfs.map _ .self), ← covers_iff, eq]
  · rw [← covers_iff_sameEntries (hes.record _ _ .self) (hfs.record _ _ .self), ← covers_iff, eq,
      Bool.and_assoc, Bool.and_eq_true, beq_iff_eq]
  · rw [← eqItems_iff, eq]

theorem isKeyed_of_parts (hmap : ∀ entries, v = .map entries → (Table.keys entries).Nodup)
    (hrecord : ∀ type fields, v = .record type fields → (Table.keys fields).Nodup)
    (hparts : ∀ u, Part u v → u.IsKeyed) : v.IsKeyed where
  map entries hin := by
    cases hin with
    | self => exact hmap entries rfl
    | inside hpart hin => exact (hparts _ hpart).map entries hin
  record type fields hin := by
    cases hin with
    | self => exact hrecord type fields rfl
    | inside hpart hin => exact (hparts _ hpart).record type fields hin

theorem isKeyed_of_not_part (h : ∀ u, ¬ Part u v) : v.IsKeyed := by
  have hempty {es : List (String × Value)} (hes : ∀ key u, (key, u) ∉ es) :
      (Table.keys es).Nodup := by
    obtain rfl : es = [] := List.eq_nil_iff_forall_not_mem.mpr fun e => hes e.1 e.2
    exact List.nodup_nil
  refine isKeyed_of_parts ?_ ?_ fun u hu => absurd hu (h u)
  · rintro es rfl
    exact hempty fun key u hu => h u (.entry hu)
  · rintro type es rfl
    exact hempty fun key u hu => h u (.field hu)

/-- Entries in another order, and zero with another sign. -/
theorem eq_laws_reordered :
    let entries (x : Double) : List (String × Value) :=
      [("a", .list [.float x, .text "x"]), ("b", .optional none)]
    let v : Value := .map (entries ⟨0⟩)
    let w : Value := .map (entries ⟨0x8000000000000000⟩).reverse
    v.IsKeyed ∧ w.IsKeyed ∧ v.eq w = true ∧ w.eq v = true ∧ w.eq w = true ∧ ¬ w.HoldsNaN := by
  intro entries v w
  have hlist (x : Double) : (Value.list [.float x, .text "x"]).IsKeyed := by
    refine isKeyed_of_parts (fun _ h => by cases h) (fun _ _ h => by cases h) fun u hu => ?_
    cases hu with
    | item hu =>
      refine isKeyed_of_not_part fun t ht => ?_
      simp only [List.mem_cons, List.not_mem_nil, or_false] at hu
      obtain rfl | rfl := hu <;> cases ht
  have hmap (x : Double) {es : List (String × Value)} (hes : ∀ e ∈ es, e ∈ entries x)
      (hkeys : (Table.keys es).Nodup) : (Value.map es).IsKeyed := by
    refine isKeyed_of_parts (fun _ h => by cases h; exact hkeys) (fun _ _ h => by cases h)
      fun u hu => ?_
    cases hu with
    | entry hu =>
      have hu := hes _ hu
      simp only [entries, List.mem_cons, List.not_mem_nil, or_false, Prod.mk.injEq] at hu
      obtain ⟨-, rfl⟩ | ⟨-, rfl⟩ := hu
      · exact hlist x
      · exact isKeyed_of_not_part fun t ht => by cases ht
  have hv : v.IsKeyed := hmap _ (fun e he => he) (by decide)
  have hw : w.IsKeyed := hmap _ (fun e he => List.mem_reverse.mp he) (by decide)
  have hvw : v.eq w = true := by decide +kernel
  obtain ⟨hsymm, htrans, hself, -⟩ := eq_laws
  have hwv := hsymm v w hv hvw
  have hww := htrans w v w hwv hvw
  exact ⟨hv, hw, hvw, hwv, hww, (hself w hw).mp hww⟩

end Value

end Mustache
