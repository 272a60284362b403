/-! # Tables

Values under keys, in the order the keys first came in.  Giving a key another value leaves the
key where it is.  Maps of template data, caches and what is registered by name are all tables.
-/

namespace Mustache

/-- Values under keys, in the order of the keys. -/
abbrev Table (α β : Type) := List (α × β)

namespace Table

variable {α β : Type} [DecidableEq α]

def get? (key : α) : Table α β → Option β
  | [] => none
  | (k, v) :: t => if k = key then some v else get? key t

def contains (key : α) (t : Table α β) : Bool :=
  (get? key t).isSome

/-- The table with a value under a key: in the place of the key's value, or at the end. -/
def insert (key : α) (value : β) : Table α β → Table α β
  | [] => [(key, value)]
  | (k, v) :: t => if k = key then (k, value) :: t else (k, v) :: insert key value t

def erase (key : α) (t : Table α β) : Table α β :=
  t.filter fun e => e.1 ≠ key

def keys (t : Table α β) : List α :=
  t.map (·.1)

/-- The table with the pairs of a list put in one after another. -/
def ofList (entries : List (α × β)) : Table α β :=
  entries.foldl (fun t e => insert e.1 e.2 t) []

/-! ## Reading what was written -/

@[simp] theorem get?_nil (key : α) : get? key ([] : Table α β) = none := rfl

/-- A key has the value it was given last, and the other keys have theirs. -/
theorem get?_insert (key other : α) (value : β) (t : Table α β) :
    get? other (insert key value t) = if key = other then some value else get? other t := by
  induction t with
  | nil => by_cases h : key = other <;> simp [insert, get?, h]
  | cons e t ih =>
    obtain ⟨k, v⟩ := e
    by_cases hk : k = key
    · by_cases h : key = other <;> simp_all [insert, get?]
    · by_cases ho : k = other
      · subst ho
        simp [insert, get?, hk, Ne.symm hk]
      · simp [insert, get?, hk, ho, ih]

/-- A key that is taken out has no value, and the other keys have theirs. -/
theorem get?_erase (key other : α) (t : Table α β) :
    get? other (erase key t) = if key = other then none else get? other t := by
  induction t with
  | nil => simp [erase]
  | cons e t ih =>
    obtain ⟨k, v⟩ := e
    by_cases hk : k = key
    · by_cases h : key = other
      · simp_all [erase]
      · have : k ≠ other := fun e => h (hk.symm.trans e)
        subst hk
        simp [erase, get?, this] at ih ⊢
        exact ih
    · by_cases ho : k = other
      · have : key ≠ other := fun h => hk (ho.trans h.symm)
        simp_all [erase, get?]
      · simp_all [erase, get?]

/-- What stands under a key is in the table. -/
theorem mem_of_get? {key : α} {v : β} {t : Table α β} (h : t.get? key = some v) :
    (key, v) ∈ t := by
  induction t with
  | nil => cases h
  | cons e t ih =>
    obtain ⟨k, w⟩ := e
    rw [Table.get?] at h
    split at h
    · next hk =>
      obtain rfl : w = v := Option.some.inj h
      exact hk ▸ List.mem_cons_self
    · exact List.mem_cons_of_mem _ (ih h)

/-- Where the keys are different, what is in the table is what stands under its key. -/
theorem get?_of_mem {key : α} {v : β} {t : Table α β} (hkeys : (keys t).Nodup)
    (h : (key, v) ∈ t) : t.get? key = some v := by
  induction t with
  | nil => cases h
  | cons e t ih =>
    obtain ⟨hnew, hkeys⟩ := List.nodup_cons.mp hkeys
    rw [Table.get?]
    obtain rfl | h := List.mem_cons.mp h
    · exact if_pos rfl
    · have hne : e.1 ≠ key := by
        rintro rfl
        exact hnew (List.mem_map.mpr ⟨_, h, rfl⟩)
      rw [if_neg hne]
      exact ih hkeys h

theorem get?_append (key : α) (t u : Table α β) :
    get? key (t ++ u) = (get? key t).or (get? key u) := by
  induction t with
  | nil => rfl
  | cons e t ih =>
    obtain ⟨k, v⟩ := e
    by_cases hk : k = key <;> simp [get?, hk, ih]

/-- A key without a value comes in at the end. -/
theorem insert_of_get?_eq_none {key : α} {t : Table α β} (h : get? key t = none) (value : β) :
    insert key value t = t ++ [(key, value)] := by
  induction t with
  | nil => rfl
  | cons e t ih =>
    obtain ⟨k, v⟩ := e
    by_cases hk : k = key
    · simp [get?, hk] at h
    · rw [get?, if_neg hk] at h
      rw [insert, if_neg hk, ih h, List.cons_append]

/-- A key with a value is given another one where it stands. -/
theorem exists_insert_eq {key : α} {v : β} {t : Table α β} (h : get? key t = some v) :
    ∃ before behind, get? key before = none ∧ t = before ++ (key, v) :: behind ∧
      ∀ w, insert key w t = before ++ (key, w) :: behind := by
  induction t with
  | nil => cases h
  | cons e t ih =>
    obtain ⟨k, u⟩ := e
    rw [get?] at h
    by_cases hk : k = key
    · rw [if_pos hk] at h
      obtain rfl := Option.some.inj h
      obtain rfl := hk
      exact ⟨[], t, rfl, rfl, fun w => by rw [insert, if_pos rfl, List.nil_append]⟩
    · rw [if_neg hk] at h
      obtain ⟨before, behind, hbefore, ht, hinsert⟩ := ih h
      refine ⟨(k, u) :: before, behind, by rwa [get?, if_neg hk], by rw [ht, List.cons_append], ?_⟩
      intro w
      rw [insert, if_neg hk, hinsert, List.cons_append]

theorem erase_of_forall_ne {key : α} {t : Table α β} (h : ∀ e ∈ t, e.1 ≠ key) :
    erase key t = t :=
  List.filter_eq_self.mpr fun e he => by simpa using h e he

end Table

end Mustache
