import Mathlib.Data.List.Nodup
import Mathlib.Data.List.Perm.Basic
import Mathlib.Data.List.Sort
import Mathlib.Order.Basic

/-!
Entries under keys that may repeat. The last entry of a key is kept and those before it are
shadowed; a map holds the kept ones in the order of their keys. An editor that drops entries
as they come by and one that drops them from the map may disagree, and agree exactly where a
dropped entry shadows none that stays.
-/
namespace BatleHub.Lib.LastValues

section Entries
variable {κ ν : Type*} [DecidableEq κ]

/-- The last entry of each key. -/
def kept : List (κ × ν) → List (κ × ν)
  | [] => []
  | e :: es => if e.1 ∈ es.map Prod.fst then kept es else e :: kept es

def shadowed : List (κ × ν) → List (κ × ν)
  | [] => []
  | e :: es => if e.1 ∈ es.map Prod.fst then e :: shadowed es else shadowed es

theorem kept_append_shadowed (es : List (κ × ν)) : (kept es ++ shadowed es).Perm es := by
  induction es with
  | nil => exact List.Perm.refl _
  | cons e es ih =>
    rw [kept, shadowed]
    split_ifs
    · exact List.perm_middle.trans (ih.cons e)
    · exact ih.cons e

theorem mem_of_mem_kept {e : κ × ν} {es : List (κ × ν)} (h : e ∈ kept es) : e ∈ es :=
  (kept_append_shadowed es).subset (List.mem_append_left _ h)

theorem mem_kept_iff {e : κ × ν} {es : List (κ × ν)} :
    e ∈ kept es ↔ ∃ before after, es = before ++ e :: after ∧ e.1 ∉ after.map Prod.fst := by
  induction es with
  | nil =>
    refine iff_of_false List.not_mem_nil ?_
    rintro ⟨before, after, heq, -⟩
    exact absurd heq.symm (List.append_ne_nil_of_right_ne_nil before (List.cons_ne_nil e after))
  | cons first es ih =>
    have hlater : e ∈ kept es → ∃ before after, first :: es = before ++ e :: after ∧
        e.1 ∉ after.map Prod.fst := by
      intro hmem
      obtain ⟨before, after, rfl, hnot⟩ := ih.mp hmem
      exact ⟨first :: before, after, rfl, hnot⟩
    rw [kept]
    constructor
    · intro h
      split_ifs at h with hkey
      · exact hlater h
      · rcases List.mem_cons.mp h with rfl | hmem
        · exact ⟨[], es, rfl, hkey⟩
        · exact hlater hmem
    · rintro ⟨before, after, heq, hnot⟩
      cases before with
      | nil =>
        obtain ⟨rfl, rfl⟩ := List.cons.inj heq
        rw [if_neg hnot]
        exact List.mem_cons_self
      | cons b before =>
        obtain ⟨rfl, rfl⟩ := List.cons.inj heq
        have hmem := ih.mpr ⟨before, after, rfl, hnot⟩
        split_ifs
        · exact hmem
        · exact List.mem_cons_of_mem _ hmem

theorem keys_kept_subset (es : List (κ × ν)) {k : κ} (h : k ∈ (kept es).map Prod.fst) :
    k ∈ es.map Prod.fst := by
  obtain ⟨e, he, rfl⟩ := List.mem_map.mp h
  exact List.mem_map_of_mem (mem_of_mem_kept he)

theorem nodup_keys_kept (es : List (κ × ν)) : ((kept es).map Prod.fst).Nodup := by
  induction es with
  | nil => exact List.nodup_nil
  | cons e es ih =>
    rw [kept]
    split_ifs with hkey
    · exact ih
    · rw [List.map_cons, List.nodup_cons]
      exact ⟨fun hmem => hkey (keys_kept_subset es hmem), ih⟩

theorem eq_of_mem_kept {es : List (κ × ν)} {e e' : κ × ν} (he : e ∈ kept es) (he' : e' ∈ kept es)
    (hkey : e.1 = e'.1) : e = e' :=
  List.inj_on_of_nodup_map (nodup_keys_kept es) he he' hkey

theorem exists_mem_kept {es : List (κ × ν)} {k : κ} (h : k ∈ es.map Prod.fst) :
    ∃ e ∈ kept es, e.1 = k := by
  induction es with
  | nil => cases h
  | cons e es ih =>
    rw [kept]
    by_cases hkey : k ∈ es.map Prod.fst
    · obtain ⟨e', he', heq⟩ := ih hkey
      split_ifs
      · exact ⟨e', he', heq⟩
      · exact ⟨e', List.mem_cons_of_mem _ he', heq⟩
    · obtain rfl : k = e.1 := by
        rw [List.map_cons, List.mem_cons] at h
        exact h.resolve_right hkey
      rw [if_neg hkey]
      exact ⟨e, List.mem_cons_self, rfl⟩

theorem kept_eq_self {es : List (κ × ν)} (h : (es.map Prod.fst).Nodup) : kept es = es := by
  induction es with
  | nil => rfl
  | cons e es ih =>
    rw [List.map_cons, List.nodup_cons] at h
    rw [kept, if_neg h.1, ih h.2]

theorem kept_map {μ : Type*} (f : κ × ν → μ) (es : List (κ × ν)) :
    kept (es.map fun e => (e.1, f e)) = (kept es).map fun e => (e.1, f e) := by
  induction es with
  | nil => rfl
  | cons e es ih =>
    have hkeys : (es.map fun e => (e.1, f e)).map Prod.fst = es.map Prod.fst := by
      rw [List.map_map]
      rfl
    rw [List.map_cons, kept, kept, hkeys, ih]
    split_ifs <;> rfl

/-- Dropping from all entries and dropping from the kept ones agree exactly where no dropped
entry shadows one that stays. -/
theorem kept_filter_perm_iff (p : κ × ν → Bool) (es : List (κ × ν)) :
    (kept (es.filter p)).Perm ((kept es).filter p) ↔
      ∀ e ∈ kept es, p e = false → ∀ e' ∈ es, e'.1 = e.1 → p e' = false := by
  have hkeep : ∀ e ∈ kept es, p e = true → e ∈ kept (es.filter p) := by
    intro e he hp
    obtain ⟨before, after, rfl, hnot⟩ := mem_kept_iff.mp he
    refine mem_kept_iff.mpr ⟨before.filter p, after.filter p, ?_, ?_⟩
    · rw [List.filter_append, List.filter_cons_of_pos hp]
    · intro hmem
      obtain ⟨e', he', heq⟩ := List.mem_map.mp hmem
      exact hnot (heq ▸ List.mem_map_of_mem (List.mem_filter.mp he').1)
  constructor
  · intro hperm e he hp e' he' hkey
    by_contra hp'
    rw [Bool.not_eq_false] at hp'
    obtain ⟨last, hlast, hsame⟩ := exists_mem_kept
      (List.mem_map_of_mem (f := Prod.fst) (List.mem_filter.mpr ⟨he', hp'⟩))
    obtain ⟨hmem, hpass⟩ := List.mem_filter.mp (hperm.subset hlast)
    rw [eq_of_mem_kept hmem he (hsame.trans hkey), hp] at hpass
    cases hpass
  · intro h
    have hnodup := (nodup_keys_kept (es.filter p)).of_map
    have hnodup' := ((nodup_keys_kept es).of_map).filter p
    refine (List.perm_ext_iff_of_nodup hnodup hnodup').mpr fun e => ?_
    constructor
    · intro he
      obtain ⟨hmem, hp⟩ := List.mem_filter.mp (mem_of_mem_kept he)
      obtain ⟨last, hlast, hkey⟩ := exists_mem_kept (List.mem_map_of_mem (f := Prod.fst) hmem)
      have hpass : p last = true := by
        by_contra hdrop
        rw [Bool.not_eq_true] at hdrop
        rw [h last hlast hdrop e hmem hkey.symm] at hp
        cases hp
      rw [← eq_of_mem_kept (hkeep last hlast hpass) he hkey]
      exact List.mem_filter.mpr ⟨hlast, hpass⟩
    · intro he
      obtain ⟨hmem, hp⟩ := List.mem_filter.mp he
      exact hkeep e hmem hp

end Entries

section Maps
variable {κ ν : Type*} [LinearOrder κ]

/-- The map that entries make when they are inserted one after the other. -/
def mapOf (es : List (κ × ν)) : List (κ × ν) :=
  (kept es).insertionSort fun e e' => e.1 ≤ e'.1

theorem mapOf_perm (es : List (κ × ν)) : (mapOf es).Perm (kept es) := List.perm_insertionSort _ _

theorem mapOf_sorted (es : List (κ × ν)) : (mapOf es).Pairwise fun e e' => e.1 ≤ e'.1 := by
  have htrans : IsTrans (κ × ν) fun e e' => e.1 ≤ e'.1 := ⟨fun _ _ _ h h' => h.trans h'⟩
  have htotal : Std.Total fun e e' : κ × ν => e.1 ≤ e'.1 := ⟨fun e e' => le_total e.1 e'.1⟩
  exact List.pairwise_insertionSort _ _

theorem nodup_keys_mapOf (es : List (κ × ν)) : ((mapOf es).map Prod.fst).Nodup :=
  ((mapOf_perm es).map Prod.fst).nodup_iff.mpr (nodup_keys_kept es)

/-- Sorted entries with distinct keys are determined up to their order. -/
theorem eq_of_perm {a b : List (κ × ν)} (hperm : a.Perm b) (ha : a.Pairwise fun e e' => e.1 ≤ e'.1)
    (hb : b.Pairwise fun e e' => e.1 ≤ e'.1) (hnodup : (a.map Prod.fst).Nodup) : a = b := by
  refine hperm.eq_of_pairwise ?_ ha hb
  intro e e' he he' hle hge
  exact List.inj_on_of_nodup_map hnodup he (hperm.symm.subset he') (le_antisymm hle hge)

theorem mapOf_eq_iff (es es' : List (κ × ν)) :
    mapOf es = mapOf es' ↔ (kept es).Perm (kept es') := by
  constructor
  · intro h
    exact ((mapOf_perm es).symm.trans (List.Perm.of_eq h)).trans (mapOf_perm es')
  · intro h
    refine eq_of_perm ?_ (mapOf_sorted es) (mapOf_sorted es') (nodup_keys_mapOf es)
    exact ((mapOf_perm es).trans h).trans (mapOf_perm es').symm

theorem mapOf_eq_self {es : List (κ × ν)} (hnodup : (es.map Prod.fst).Nodup)
    (hsorted : es.Pairwise fun e e' => e.1 ≤ e'.1) : mapOf es = es := by
  refine eq_of_perm ?_ (mapOf_sorted es) hsorted (nodup_keys_mapOf es)
  exact (mapOf_perm es).trans (List.Perm.of_eq (kept_eq_self hnodup))

theorem mapOf_mapOf (es : List (κ × ν)) : mapOf (mapOf es) = mapOf es :=
  mapOf_eq_self (nodup_keys_mapOf es) (mapOf_sorted es)

/-- The map without some entries, and the map of the entries without them. -/
theorem mapOf_filter_iff (p : κ × ν → Bool) (es : List (κ × ν)) :
    mapOf (es.filter p) = (mapOf es).filter p ↔
      ∀ e ∈ kept es, p e = false → ∀ e' ∈ es, e'.1 = e.1 → p e' = false := by
  rw [← kept_filter_perm_iff]
  have hfiltered : ((mapOf es).filter p).Perm ((kept es).filter p) := (mapOf_perm es).filter p
  constructor
  · intro h
    exact ((mapOf_perm _).symm.trans (List.Perm.of_eq h)).trans hfiltered
  · intro h
    refine eq_of_perm (((mapOf_perm _).trans h).trans hfiltered.symm) (mapOf_sorted _)
      ((mapOf_sorted es).filter p) (nodup_keys_mapOf _)

variable {μ : Type*}

/-- Values changed in the map, or before it is made. -/
theorem mapOf_map (f : κ × ν → μ) (es : List (κ × ν)) :
    mapOf (es.map fun e => (e.1, f e)) = (mapOf es).map fun e => (e.1, f e) := by
  have hkeys : ((mapOf es).map fun e => (e.1, f e)).map Prod.fst = (mapOf es).map Prod.fst := by
    rw [List.map_map]
    rfl
  symm
  refine eq_of_perm ?_ ?_ (mapOf_sorted _) ?_
  · refine ((mapOf_perm es).map _).trans ?_
    rw [← kept_map]
    exact (mapOf_perm _).symm
  · exact List.pairwise_map.mpr (mapOf_sorted es)
  · rw [hkeys]
    exact nodup_keys_mapOf es

theorem mapOf_map_eq_iff (f g : κ × ν → μ) (es : List (κ × ν)) :
    mapOf (es.map fun e => (e.1, f e)) = mapOf (es.map fun e => (e.1, g e)) ↔
      ∀ e ∈ kept es, f e = g e := by
  rw [mapOf_eq_iff, kept_map, kept_map]
  constructor
  · intro h e he
    have hmem := h.subset (List.mem_map_of_mem he)
    obtain ⟨e', he', heq⟩ := List.mem_map.mp hmem
    obtain ⟨hkey, hval⟩ := Prod.mk.inj heq
    rw [← hval, eq_of_mem_kept he' he hkey]
  · intro h
    refine List.Perm.of_eq (List.map_congr_left fun e he => ?_)
    rw [h e he]

end Maps

end BatleHub.Lib.LastValues
