import Mathlib.Data.List.Nodup

/-!
Items written one after the other to a store that keeps one value per key. A read sees the
last write under its key, so a list of items with distinct keys is read back item by item,
and every other key reads as before.
-/
namespace BatleHub.Lib.KeyedWrites

/-- A store whose writes are keyed: `kept` is what is read back of an item. -/
structure KeyedStore (σ κ ι ν : Type*) [DecidableEq κ] where
  key : ι → κ
  kept : ι → ν
  read : σ → κ → Option ν
  write : σ → ι → σ
  read_write : ∀ s i k, read (write s i) k = if k = key i then some (kept i) else read s k

variable {σ κ ι ν : Type*} [DecidableEq κ] (store : KeyedStore σ κ ι ν)
namespace KeyedStore

theorem read_foldl_of_notMem {items : List ι} {k : κ} (h : k ∉ items.map store.key) (s : σ) :
    store.read (items.foldl store.write s) k = store.read s k := by
  induction items generalizing s with
  | nil => rfl
  | cons i rest ih =>
    rw [List.map_cons, List.mem_cons, not_or] at h
    rw [List.foldl_cons, ih h.2, store.read_write, if_neg h.1]

theorem read_foldl_of_mem {items : List ι} (hnodup : (items.map store.key).Nodup) {i : ι}
    (hi : i ∈ items) (s : σ) :
    store.read (items.foldl store.write s) (store.key i) = some (store.kept i) := by
  induction items generalizing s with
  | nil => cases hi
  | cons j rest ih =>
    obtain ⟨hfresh, hrest⟩ := List.nodup_cons.mp hnodup
    rw [List.foldl_cons]
    rcases List.mem_cons.mp hi with rfl | hmem
    · rw [store.read_foldl_of_notMem hfresh, store.read_write, if_pos rfl]
    · exact ih hrest hmem _

/-- Items written back rewritten, each under its own key. -/
theorem read_foldl_map_of_mem {f : ι → ι} (hkey : ∀ i, store.key (f i) = store.key i)
    {items : List ι} (hnodup : (items.map store.key).Nodup) {i : ι} (hi : i ∈ items) (s : σ) :
    store.read ((items.map f).foldl store.write s) (store.key i) = some (store.kept (f i)) := by
  have hkeys : (items.map f).map store.key = items.map store.key := by
    rw [List.map_map]
    exact List.map_congr_left fun j _ => hkey j
  rw [← hkey i]
  exact store.read_foldl_of_mem (hkeys ▸ hnodup) (List.mem_map_of_mem hi) s

theorem read_foldl_map_of_notMem {f : ι → ι} (hkey : ∀ i, store.key (f i) = store.key i)
    {items : List ι} {k : κ} (h : k ∉ items.map store.key) (s : σ) :
    store.read ((items.map f).foldl store.write s) k = store.read s k := by
  refine store.read_foldl_of_notMem ?_ s
  rw [List.map_map]
  exact fun hk => h ((List.map_congr_left fun j _ => hkey j) ▸ hk)

end KeyedStore

end BatleHub.Lib.KeyedWrites
