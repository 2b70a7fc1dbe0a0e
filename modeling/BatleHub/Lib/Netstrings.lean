import BatleHub.Lib.Joins

/-!
Texts written after their byte length, `<byte-length>:<value>`. No delimiter is looked
for in a value, so a sequence of such fields is read back in one way, whatever the
values are.
-/
namespace BatleHub.Lib.Netstrings

/-- Append `<byte-length>:<value>`. -/
def pushField (out value : String) : String := out ++ toString value.utf8ByteSize ++ ":" ++ value

def field (value : String) : List Char :=
  (toString value.utf8ByteSize).toList ++ ':' :: value.toList

theorem toList_pushField (out value : String) :
    (pushField out value).toList = out.toList ++ field value := by
  simp [pushField, field]

theorem toList_foldl_pushField (out : String) (values : List String) :
    (values.foldl pushField out).toList = out.toList ++ values.flatMap field := by
  induction values generalizing out with
  | nil => simp
  | cons value values ih => simp [ih, toList_pushField]

theorem colon_notMem_toString (n : ℕ) : ':' ∉ (toString n).toList := by
  intro h
  have hdigit := Joins.isDigit_of_mem_toString h
  simp at hdigit

/-- Of two texts of one byte length neither goes on after the other. -/
theorem eq_of_append_eq {v w : String} {x y : List Char} (hlen : v.utf8ByteSize = w.utf8ByteSize)
    (h : v.toList ++ x = w.toList ++ y) : v = w ∧ x = y := by
  have hsame : ∀ {a b : String} {mid : List Char}, a.utf8ByteSize = b.utf8ByteSize →
      b.toList = a.toList ++ mid → mid = [] := by
    intro a b mid hsize hb
    have htext : b = a ++ String.ofList mid := by
      apply String.toList_inj.mp
      simp [hb]
    rw [htext, String.utf8ByteSize_append] at hsize
    have hzero : (String.ofList mid).utf8ByteSize = 0 := by omega
    have hempty := String.utf8ByteSize_eq_zero_iff.mp hzero
    simpa using hempty
  rcases List.append_eq_append_iff.mp h with ⟨mid, hw, hx⟩ | ⟨mid, hv, hy⟩
  · have hnil := hsame hlen hw
    subst hnil
    exact ⟨String.toList_inj.mp (by simpa using hw.symm), by simpa using hx⟩
  · have hnil := hsame hlen.symm hv
    subst hnil
    exact ⟨String.toList_inj.mp (by simpa using hv), by simpa using hy.symm⟩

theorem field_append_inj {v w : String} {x y : List Char} (h : field v ++ x = field w ++ y) :
    v = w ∧ x = y := by
  simp only [field, List.append_assoc, List.cons_append] at h
  obtain ⟨hlen, hrest⟩ :=
    Joins.field_inj (colon_notMem_toString _) (colon_notMem_toString _) h
  exact eq_of_append_eq (Joins.toString_injective (String.toList_inj.mp hlen)) hrest

theorem field_ne_nil (v : String) : field v ≠ [] := by simp [field]

/-- One sequence of fields has one reading. -/
theorem flatMap_field_injective {l m : List String} (h : l.flatMap field = m.flatMap field) :
    l = m := by
  induction l generalizing m with
  | nil =>
    cases m with
    | nil => rfl
    | cons w m => simp [field_ne_nil] at h
  | cons v l ih =>
    cases m with
    | nil => simp [field_ne_nil] at h
    | cons w m =>
      rw [List.flatMap_cons, List.flatMap_cons] at h
      obtain ⟨rfl, hrest⟩ := field_append_inj h
      rw [ih hrest]

theorem foldl_pushField_injective {out : String} {l m : List String}
    (h : l.foldl pushField out = m.foldl pushField out) : l = m := by
  have hchars := congrArg String.toList h
  rw [toList_foldl_pushField, toList_foldl_pushField] at hchars
  exact flatMap_field_injective (List.append_cancel_left hchars)

end BatleHub.Lib.Netstrings
