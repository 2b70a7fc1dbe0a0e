import Mathlib.Data.List.AList

/-!
Finite maps as association lists with distinct keys. Mathlib's `AList` has
lookup, insertion and removal; here are the operations that go over every entry,
and the update of one entry in place. Each comes with what a lookup sees.
-/
namespace BatleHub.Lib.AssocMap

/-- A finite map from `κ` to `ν`. -/
abbrev Assoc (κ ν : Type*) := AList fun _ : κ => ν

variable {κ ν : Type*}

/-- Keep the entries `keep` selects. -/
def retain (keep : κ → ν → Bool) (m : Assoc κ ν) : Assoc κ ν :=
  ⟨m.entries.filter fun e => keep e.1 e.2, m.nodupKeys.sublist List.filter_sublist⟩

/-- Change every value, keys unchanged. -/
def mapValues (f : κ → ν → ν) (m : Assoc κ ν) : Assoc κ ν :=
  ⟨m.entries.map fun e => ⟨e.1, f e.1 e.2⟩, List.NodupKeys.map₂ f m.entries m.nodupKeys⟩

variable [DecidableEq κ]

/-- Change the value under one key, if there is one. -/
def modify (key : κ) (f : ν → ν) (m : Assoc κ ν) : Assoc κ ν :=
  match m.lookup key with
  | none => m
  | some v => m.insert key (f v)

theorem lookup_eq_some_iff (m : Assoc κ ν) (key : κ) (v : ν) :
    m.lookup key = some v ↔ ⟨key, v⟩ ∈ m.entries :=
  AList.mem_lookup_iff

theorem forall_lookup_iff (m : Assoc κ ν) (p : κ → ν → Prop) :
    (∀ key v, m.lookup key = some v → p key v) ↔ ∀ e ∈ m.entries, p e.1 e.2 := by
  constructor
  · intro h e he
    exact h e.1 e.2 ((lookup_eq_some_iff m e.1 e.2).mpr he)
  · intro h key v hlookup
    exact h ⟨key, v⟩ ((lookup_eq_some_iff m key v).mp hlookup)

theorem exists_lookup_iff (m : Assoc κ ν) (p : κ → ν → Prop) :
    (∃ key v, m.lookup key = some v ∧ p key v) ↔ ∃ e ∈ m.entries, p e.1 e.2 := by
  constructor
  · rintro ⟨key, v, hlookup, hp⟩
    exact ⟨⟨key, v⟩, (lookup_eq_some_iff m key v).mp hlookup, hp⟩
  · rintro ⟨⟨key, v⟩, hmem, hp⟩
    exact ⟨key, v, (lookup_eq_some_iff m key v).mpr hmem, hp⟩

instance decidableForallLookup (m : Assoc κ ν) (p : κ → ν → Prop)
    [∀ key v, Decidable (p key v)] :
    Decidable (∀ key v, m.lookup key = some v → p key v) :=
  decidable_of_iff _ (forall_lookup_iff m p).symm

instance decidableExistsLookup (m : Assoc κ ν) (p : κ → ν → Prop)
    [∀ key v, Decidable (p key v)] :
    Decidable (∃ key v, m.lookup key = some v ∧ p key v) :=
  decidable_of_iff _ (exists_lookup_iff m p).symm

@[simp]
theorem lookup_insert_eq (m : Assoc κ ν) (key other : κ) (v : ν) :
    (m.insert key v).lookup other = if other = key then some v else m.lookup other := by
  by_cases h : other = key
  · subst h
    simp
  · simp [AList.lookup_insert_ne h, h]

@[simp]
theorem lookup_erase_eq (m : Assoc κ ν) (key other : κ) :
    (m.erase key).lookup other = if other = key then none else m.lookup other := by
  by_cases h : other = key
  · subst h
    simp
  · simp [AList.lookup_erase_ne h, h]

@[simp]
theorem lookup_retain (keep : κ → ν → Bool) (m : Assoc κ ν) (key : κ) :
    (retain keep m).lookup key = (m.lookup key).filter (keep key) := by
  ext v
  rw [lookup_eq_some_iff, Option.filter_eq_some_iff, lookup_eq_some_iff]
  simp [retain]

@[simp]
theorem lookup_mapValues (f : κ → ν → ν) (m : Assoc κ ν) (key : κ) :
    (mapValues f m).lookup key = (m.lookup key).map (f key) := by
  ext v
  rw [lookup_eq_some_iff, Option.map_eq_some_iff]
  simp only [mapValues, List.mem_map, lookup_eq_some_iff]
  constructor
  · intro hex
    obtain ⟨e, he, heq⟩ := hex
    obtain ⟨rfl, hv⟩ := Sigma.mk.inj_iff.mp heq
    exact ⟨e.2, he, eq_of_heq hv⟩
  · intro hex
    obtain ⟨w, hw, rfl⟩ := hex
    exact ⟨⟨key, w⟩, hw, rfl⟩

@[simp]
theorem lookup_modify (key other : κ) (f : ν → ν) (m : Assoc κ ν) :
    (modify key f m).lookup other =
      if other = key then (m.lookup key).map f else m.lookup other := by
  unfold modify
  cases h : m.lookup key with
  | none =>
    by_cases hk : other = key
    · subst hk
      simp [h]
    · simp [hk]
  | some v => simp

section Counting
variable [DecidableEq ν]

/-- How many keys have the value. -/
def countValue (v : ν) (m : Assoc κ ν) : ℕ := m.entries.countP fun e => decide (e.2 = v)

omit [DecidableEq κ] in
theorem countValue_pos_iff (v : ν) (m : Assoc κ ν) :
    0 < countValue v m ↔ ∃ key, ⟨key, v⟩ ∈ m.entries := by
  unfold countValue
  rw [List.countP_pos_iff]
  constructor
  · intro hex
    obtain ⟨⟨key, w⟩, he, hw⟩ := hex
    obtain rfl : w = v := by simpa using hw
    exact ⟨key, he⟩
  · intro hex
    obtain ⟨key, he⟩ := hex
    exact ⟨⟨key, v⟩, he, by simp⟩

theorem countP_kerase (v : ν) (key : κ) (entries : List (Sigma fun _ : κ => ν)) :
    entries.countP (fun e => decide (e.2 = v)) =
      (entries.kerase key).countP (fun e => decide (e.2 = v)) +
        if entries.dlookup key = some v then 1 else 0 := by
  induction entries with
  | nil => simp
  | cons e rest ih =>
    obtain ⟨k, w⟩ := e
    by_cases hk : key = k
    · subst hk
      simp [List.countP_cons]
    · have hkept : List.kerase key (⟨k, w⟩ :: rest) = ⟨k, w⟩ :: rest.kerase key :=
        List.kerase_cons_ne hk
      have hfound : List.dlookup key (⟨k, w⟩ :: rest) = rest.dlookup key :=
        List.dlookup_cons_ne rest ⟨k, w⟩ hk
      rw [hkept, hfound, List.countP_cons, List.countP_cons, ih]
      omega

/-- A removed key is counted no more under the value it had. -/
theorem countValue_erase (v : ν) (m : Assoc κ ν) (key : κ) :
    countValue v m = countValue v (m.erase key) + if m.lookup key = some v then 1 else 0 :=
  countP_kerase v key m.entries

theorem countValue_insert (v w : ν) (m : Assoc κ ν) (key : κ) :
    countValue v (m.insert key w) =
      countValue v (m.erase key) + if w = v then 1 else 0 := by
  unfold countValue
  have herase : (m.erase key).entries = m.entries.kerase key := rfl
  rw [AList.entries_insert, List.countP_cons, herase]
  simp

end Counting

end BatleHub.Lib.AssocMap
