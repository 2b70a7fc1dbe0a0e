import Mathlib.Data.List.Chain
import Mathlib.Order.Defs.LinearOrder
import Mathlib.Order.Lattice

/-!
Half-open intervals that abut: each is nonempty and ends where the next begins. Such a
list is sorted by start, its intervals are disjoint, and a point in their range is in the
last interval that begins by it.
-/
namespace BatleHub.Lib.Intervals

variable {τ : Type*} [LinearOrder τ]

/-- The point lies in the interval. -/
def Holds (w : τ × τ) (t : τ) : Prop := w.1 ≤ t ∧ t < w.2

instance (w : τ × τ) (t : τ) : Decidable (Holds w t) :=
  inferInstanceAs (Decidable (w.1 ≤ t ∧ t < w.2))

structure Abutting (l : List (τ × τ)) : Prop where
  nonempty : ∀ w ∈ l, w.1 < w.2
  meet : l.IsChain fun a b => a.2 = b.1

theorem abutting_nil : Abutting ([] : List (τ × τ)) := ⟨by simp, List.isChain_nil⟩

/-- The list grows by an interval that begins where the last one ends. -/
theorem Abutting.append {l : List (τ × τ)} (h : Abutting l) {w : τ × τ} (hw : w.1 < w.2)
    (hmeet : ∀ last, l.getLast? = some last → last.2 = w.1) : Abutting (l ++ [w]) where
  nonempty := by
    intro v hv
    rcases List.mem_append.mp hv with hold | hnew
    · exact h.nonempty v hold
    · rw [List.mem_singleton.mp hnew]
      exact hw
  meet := by
    rw [List.isChain_append]
    refine ⟨h.meet, List.isChain_singleton w, ?_⟩
    intro x hx y hy
    obtain rfl := Option.some.inj hy
    exact hmeet x hx

theorem Abutting.tail {w : τ × τ} {l : List (τ × τ)} (h : Abutting (w :: l)) : Abutting l :=
  ⟨fun v hv => h.nonempty v (List.mem_cons_of_mem w hv), h.meet.tail⟩

theorem Abutting.of_isPrefix {front l : List (τ × τ)} (h : Abutting l) (hfront : front <+: l) :
    Abutting front := by
  obtain ⟨back, rfl⟩ := hfront
  exact ⟨fun v hv => h.nonempty v (List.mem_append_left _ hv), (List.isChain_append.mp h.meet).1⟩

/-- The first interval ends before all others begin. -/
theorem Abutting.head_le {w : τ × τ} {l : List (τ × τ)} (h : Abutting (w :: l)) :
    ∀ v ∈ l, w.2 ≤ v.1 := by
  induction l generalizing w with
  | nil => simp
  | cons x l ih =>
    have hmeet : w.2 = x.1 := (List.isChain_cons_cons.mp h.meet).1
    intro v hv
    rcases List.mem_cons.mp hv with hx | hrest
    · rw [hx, hmeet]
    · have hx := h.tail.nonempty x List.mem_cons_self
      have hv' := ih h.tail v hrest
      exact le_trans (le_of_eq hmeet) (le_trans (le_of_lt hx) hv')

theorem Abutting.pairwise {l : List (τ × τ)} (h : Abutting l) :
    l.Pairwise fun a b => a.2 ≤ b.1 := by
  induction l with
  | nil => exact List.Pairwise.nil
  | cons w l ih => exact List.Pairwise.cons h.head_le (ih h.tail)

/-- Two intervals that share a point are one. -/
theorem Abutting.eq_of_holds {l : List (τ × τ)} (h : Abutting l) {v w : τ × τ} (hv : v ∈ l)
    (hw : w ∈ l) {t : τ} (hvt : Holds v t) (hwt : Holds w t) : v = w := by
  induction l with
  | nil => simp at hv
  | cons x l ih =>
    have hfirst : ∀ y ∈ l, Holds x t → ¬ Holds y t := by
      intro y hy hxt hyt
      have hle := le_trans (h.head_le y hy) hyt.1
      exact absurd hxt.2 (not_lt_of_ge hle)
    rcases List.mem_cons.mp hv with rfl | hv'
    · rcases List.mem_cons.mp hw with rfl | hw'
      · rfl
      · exact absurd hwt (hfirst w hw' hvt)
    · rcases List.mem_cons.mp hw with rfl | hw'
      · exact absurd hvt (hfirst v hv' hwt)
      · exact ih h.tail hv' hw'

theorem Abutting.eq_of_start {l : List (τ × τ)} (h : Abutting l) {v w : τ × τ} (hv : v ∈ l)
    (hw : w ∈ l) (hstart : v.1 = w.1) : v = w :=
  h.eq_of_holds hv hw ⟨le_refl v.1, h.nonempty v hv⟩
    ⟨le_of_eq hstart.symm, hstart ▸ h.nonempty w hw⟩

/-- The last interval that begins by `t`, if it has not ended there. -/
def holding (l : List (τ × τ)) (t : τ) : Option (τ × τ) :=
  (l.filter fun w => decide (w.1 ≤ t)).getLast?.filter fun w => decide (t < w.2)

theorem eq_or_of_getLast {α : Type*} {R : α → α → Prop} {l : List α} (h : l.Pairwise R) {last : α}
    (hlast : l.getLast? = some last) : ∀ x ∈ l, x = last ∨ R x last := by
  obtain ⟨front, rfl⟩ := List.getLast?_eq_some_iff.mp hlast
  intro x hx
  rcases List.mem_append.mp hx with hfront | hend
  · exact .inr ((List.pairwise_append.mp h).2.2 x hfront last (by simp))
  · exact .inl (List.mem_singleton.mp hend)

theorem holding_eq_some {l : List (τ × τ)} {t : τ} {w : τ × τ} (h : holding l t = some w) :
    w ∈ l ∧ Holds w t := by
  unfold holding at h
  rw [Option.filter_eq_some_iff] at h
  have hmem := List.mem_of_getLast? h.1
  rw [List.mem_filter] at hmem
  exact ⟨hmem.1, by simpa using hmem.2, by simpa using h.2⟩

theorem Abutting.not_holds_of_holding_none {l : List (τ × τ)} (h : Abutting l) {t : τ}
    (hnone : holding l t = none) : ∀ w ∈ l, ¬ Holds w t := by
  intro w hw hwt
  unfold holding at hnone
  have hmem : w ∈ l.filter fun w => decide (w.1 ≤ t) := by
    rw [List.mem_filter]
    exact ⟨hw, by simpa using hwt.1⟩
  cases hlast : (l.filter fun w => decide (w.1 ≤ t)).getLast? with
  | none =>
    rw [List.getLast?_eq_none_iff] at hlast
    rw [hlast] at hmem
    exact absurd hmem List.not_mem_nil
  | some last =>
    have hpair := h.pairwise.filter fun w => decide (w.1 ≤ t)
    have hbegun : last.1 ≤ t := by
      have hin := List.mem_of_getLast? hlast
      simpa using (List.mem_filter.mp hin).2
    rcases eq_or_of_getLast hpair hlast w hmem with heq | hle
    · subst heq
      have hended : w.2 ≤ t := by simpa [hlast] using hnone
      exact absurd hwt.2 (not_lt_of_ge hended)
    · exact absurd hwt.2 (not_lt_of_ge (le_trans hle hbegun))

end BatleHub.Lib.Intervals
