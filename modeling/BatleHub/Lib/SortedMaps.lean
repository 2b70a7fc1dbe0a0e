import Mathlib.Data.List.Perm.Basic
import Mathlib.Order.Basic
import Mathlib.Order.Defs.LinearOrder
import Mathlib.Order.Lattice

/-!
Maps as lists of entries in the order of their keys, each key once. What an operation does
is said by lookups, and two such lists with the same lookups are the same list.
-/
namespace BatleHub.Lib.SortedMaps

variable {κ ν : Type*} [LinearOrder κ]

def Sorted (m : List (κ × ν)) : Prop := m.Pairwise fun e e' => e.1 < e'.1

instance (m : List (κ × ν)) : Decidable (Sorted m) :=
  inferInstanceAs (Decidable (m.Pairwise _))

/-- The entry in its place, instead of one with its key. -/
def insert (key : κ) (v : ν) : List (κ × ν) → List (κ × ν)
  | [] => [(key, v)]
  | e :: rest =>
    if key < e.1 then (key, v) :: e :: rest
    else if key = e.1 then (key, v) :: rest
    else e :: insert key v rest

def erase (key : κ) (m : List (κ × ν)) : List (κ × ν) := m.filter fun e => decide (e.1 ≠ key)

/-- The value of a key changed in its place. -/
def modify (key : κ) (f : ν → ν) (m : List (κ × ν)) : List (κ × ν) :=
  m.map fun e => if e.1 = key then (e.1, f e.2) else e

section Lookups

theorem lookup_entry (e : κ × ν) (m : List (κ × ν)) (k : κ) :
    (e :: m).lookup k = if k = e.1 then some e.2 else m.lookup k := by
  obtain ⟨key, v⟩ := e
  by_cases h : k = key
  · rw [if_pos h, h]
    exact List.lookup_cons_self
  · have hne : (k == key) = false := by simpa using h
    rw [if_neg h, List.lookup_cons, hne]

theorem lookup_insert (key : κ) (v : ν) (m : List (κ × ν)) (k : κ) :
    (insert key v m).lookup k = if k = key then some v else m.lookup k := by
  induction m with
  | nil => rw [insert, lookup_entry]
  | cons e rest ih =>
    rw [insert]
    split
    · rw [lookup_entry]
    · split
      · rename_i hkey
        rw [lookup_entry, lookup_entry, ← hkey]
        by_cases h : k = key
        · rw [if_pos h, if_pos h]
        · rw [if_neg h, if_neg h, if_neg h]
      · rename_i hkey
        rw [lookup_entry, lookup_entry, ih]
        by_cases h : k = e.1
        · rw [if_pos h, if_pos h, if_neg fun heq : k = key => hkey (heq.symm.trans h)]
        · rw [if_neg h, if_neg h]

theorem lookup_erase (key : κ) (m : List (κ × ν)) (k : κ) :
    (erase key m).lookup k = if k = key then none else m.lookup k := by
  unfold erase
  induction m with
  | nil => simp
  | cons e rest ih =>
    by_cases hkey : e.1 = key
    · rw [List.filter_cons_of_neg (by simpa using hkey), ih, lookup_entry, hkey]
      by_cases h : k = key
      · rw [if_pos h, if_pos h]
      · rw [if_neg h, if_neg h, if_neg h]
    · rw [List.filter_cons_of_pos (by simpa using hkey), lookup_entry, lookup_entry, ih]
      by_cases h : k = e.1
      · rw [if_pos h, if_pos h, if_neg fun heq : k = key => hkey (h.symm.trans heq)]
      · rw [if_neg h, if_neg h]

theorem lookup_modify (key : κ) (f : ν → ν) (m : List (κ × ν)) (k : κ) :
    (modify key f m).lookup k = if k = key then (m.lookup k).map f else m.lookup k := by
  unfold modify
  induction m with
  | nil => simp
  | cons e rest ih =>
    rw [List.map_cons, lookup_entry, ih, lookup_entry]
    have hfirst : (if e.1 = key then (e.1, f e.2) else e).1 = e.1 := by split <;> rfl
    rw [hfirst]
    by_cases h : k = e.1
    · rw [if_pos h, if_pos h, h]
      split <;> rfl
    · rw [if_neg h, if_neg h]

theorem modify_modify (key : κ) (f g : ν → ν) (m : List (κ × ν)) :
    modify key f (modify key g m) = modify key (fun v => f (g v)) m := by
  unfold modify
  rw [List.map_map]
  refine List.map_congr_left fun e _ => ?_
  by_cases h : e.1 = key <;> simp [h]

theorem mem_of_lookup {m : List (κ × ν)} {k : κ} {v : ν} (h : m.lookup k = some v) :
    (k, v) ∈ m := by
  obtain ⟨before, after, rfl, -⟩ := List.lookup_eq_some_iff.mp h
  simp

end Lookups

section Order

theorem Sorted.tail {e : κ × ν} {m : List (κ × ν)} (h : Sorted (e :: m)) : Sorted m :=
  (List.pairwise_cons.mp h).2

theorem Sorted.filter {m : List (κ × ν)} (h : Sorted m) (p : κ × ν → Bool) :
    Sorted (m.filter p) :=
  List.Pairwise.filter p h

theorem Sorted.erase {m : List (κ × ν)} (h : Sorted m) (key : κ) : Sorted (erase key m) :=
  h.filter _

theorem Sorted.modify {m : List (κ × ν)} (h : Sorted m) (key : κ) (f : ν → ν) :
    Sorted (modify key f m) := by
  refine List.pairwise_map.mpr (h.imp fun {e e'} hlt => ?_)
  have hkey : ∀ e : κ × ν, (if e.1 = key then (e.1, f e.2) else e).1 = e.1 := by
    intro e
    split <;> rfl
  rw [hkey, hkey]
  exact hlt

theorem mem_insert {key : κ} {v : ν} {m : List (κ × ν)} {e : κ × ν} (h : e ∈ insert key v m) :
    e = (key, v) ∨ e ∈ m := by
  induction m with
  | nil => simpa [insert] using h
  | cons e' rest ih =>
    rw [insert] at h
    split at h
    · simpa using h
    · split at h
      · rcases List.mem_cons.mp h with h | h
        · exact .inl h
        · exact .inr (List.mem_cons_of_mem e' h)
      · rcases List.mem_cons.mp h with h | h
        · exact .inr (by simp [h])
        · exact (ih h).imp_right (List.mem_cons_of_mem e')

theorem Sorted.insert {m : List (κ × ν)} (h : Sorted m) (key : κ) (v : ν) :
    Sorted (insert key v m) := by
  induction m with
  | nil => exact List.pairwise_singleton _ _
  | cons e rest ih =>
    obtain ⟨hhead, htail⟩ := List.pairwise_cons.mp h
    rw [SortedMaps.insert]
    split
    · rename_i hlt
      refine List.pairwise_cons.mpr ⟨fun e' he' => ?_, h⟩
      rcases List.mem_cons.mp he' with rfl | he'
      · exact hlt
      · exact hlt.trans (hhead e' he')
    · rename_i hnot
      split
      · rename_i hkey
        refine List.pairwise_cons.mpr ⟨fun e' he' => ?_, htail⟩
        rw [hkey]
        exact hhead e' he'
      · rename_i hne
        refine List.pairwise_cons.mpr ⟨fun e' he' => ?_, ih htail⟩
        rcases mem_insert he' with rfl | he'
        · exact lt_of_le_of_ne (not_lt.mp hnot) (Ne.symm hne)
        · exact hhead e' he'

theorem Sorted.distinct {m : List (κ × ν)} (h : Sorted m) : m.Nodup :=
  h.imp fun hlt heq => ne_of_lt hlt (congrArg Prod.fst heq)

theorem Sorted.lookup_eq_some_iff {m : List (κ × ν)} (h : Sorted m) {k : κ} {v : ν} :
    m.lookup k = some v ↔ (k, v) ∈ m := by
  refine ⟨mem_of_lookup, fun hmem => ?_⟩
  induction m with
  | nil => cases hmem
  | cons e rest ih =>
    obtain ⟨hhead, htail⟩ := List.pairwise_cons.mp h
    rcases List.mem_cons.mp hmem with heq | hrest
    · subst heq
      exact List.lookup_cons_self
    · have hne : (k == e.1) = false := by simpa using (ne_of_gt (hhead _ hrest))
      rw [List.lookup_cons, hne]
      exact ih htail hrest

theorem Sorted.lookup_filter {m : List (κ × ν)} (h : Sorted m) (p : κ × ν → Bool) (k : κ) :
    (m.filter p).lookup k = (m.lookup k).filter fun v => p (k, v) := by
  ext v
  rw [(h.filter p).lookup_eq_some_iff, List.mem_filter, Option.filter_eq_some_iff,
    h.lookup_eq_some_iff]

theorem Sorted.lookup_head {e : κ × ν} {m : List (κ × ν)} (h : Sorted (e :: m)) :
    m.lookup e.1 = none := by
  cases hlook : m.lookup e.1 with
  | none => rfl
  | some v => exact absurd ((List.pairwise_cons.mp h).1 _ (mem_of_lookup hlook)) (lt_irrefl e.1)

/-- Maps with the same lookups are one map. -/
theorem Sorted.ext {a b : List (κ × ν)} (ha : Sorted a) (hb : Sorted b)
    (h : ∀ k, a.lookup k = b.lookup k) : a = b := by
  have hmem : ∀ e, e ∈ a ↔ e ∈ b := by
    intro e
    have heq := h e.1
    rw [← ha.lookup_eq_some_iff (k := e.1) (v := e.2), heq, hb.lookup_eq_some_iff]
  have hperm : a.Perm b := (List.perm_ext_iff_of_nodup ha.distinct hb.distinct).mpr hmem
  exact hperm.eq_of_pairwise (fun e e' _ _ hlt hgt => absurd hlt (lt_asymm hgt)) ha hb

end Order

section Folds

/-- Some entries of a map, put into another one. -/
def insertAll (p : κ × ν → Bool) (f : κ × ν → ν) (m start : List (κ × ν)) : List (κ × ν) :=
  m.foldl (fun d e => if p e then insert e.1 (f e) d else d) start

theorem Sorted.insertAll {start : List (κ × ν)} (h : Sorted start) (p : κ × ν → Bool)
    (f : κ × ν → ν) (m : List (κ × ν)) : Sorted (insertAll p f m start) := by
  induction m generalizing start with
  | nil => exact h
  | cons e m ih =>
    have hnext : Sorted (if p e then SortedMaps.insert e.1 (f e) start else start) := by
      split
      · exact h.insert e.1 (f e)
      · exact h
    exact ih hnext

theorem lookup_insertAll (p : κ × ν → Bool) (f : κ × ν → ν) {m : List (κ × ν)} (hm : Sorted m)
    (start : List (κ × ν)) (k : κ) :
    (insertAll p f m start).lookup k =
      match m.lookup k with
      | some v => if p (k, v) then some (f (k, v)) else start.lookup k
      | none => start.lookup k := by
  induction m generalizing start with
  | nil => rfl
  | cons e m ih =>
    have hstep : insertAll p f (e :: m) start =
        insertAll p f m (if p e then insert e.1 (f e) start else start) := rfl
    rw [hstep, ih hm.tail, lookup_entry]
    by_cases hk : k = e.1
    · subst hk
      rw [hm.lookup_head, if_pos rfl]
      dsimp only
      split
      · rw [lookup_insert, if_pos rfl]
      · rfl
    · have hrest : (if p e then insert e.1 (f e) start else start).lookup k = start.lookup k := by
        split
        · rw [lookup_insert, if_neg hk]
        · rfl
      rw [if_neg hk, hrest]

end Folds

end BatleHub.Lib.SortedMaps
