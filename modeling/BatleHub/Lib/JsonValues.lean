import BatleHub.Lib.JsonBytes
import BatleHub.Lib.LastValues
import Mathlib.Data.String.Basic

/-!
JSON values as a parser keeps them: an object is a map, in which the last value of a
repeated key stays. A document is one value with nothing but white space behind it.
-/
namespace BatleHub.Lib.JsonValues

open JsonBytes LastValues

section Values
variable {N : Type}

mutual
/-- The value that a spelled one stands for. -/
def value : JsonTree N → JsonTree N
  | .array items => .array (valueItems items)
  | .object members => .object (mapOf (valueMembers members))
  | .null => .null
  | .bool b => .bool b
  | .number n => .number n
  | .string s => .string s

def valueItems : List (JsonTree N) → List (JsonTree N)
  | [] => []
  | t :: items => value t :: valueItems items

def valueMembers : List (String × JsonTree N) → List (String × JsonTree N)
  | [] => []
  | (key, t) :: members => (key, value t) :: valueMembers members
end

theorem valueItems_eq_map (items : List (JsonTree N)) : valueItems items = items.map value := by
  induction items with
  | nil => rfl
  | cons t items ih => rw [valueItems, List.map_cons, ih]

theorem valueMembers_eq_map (members : List (String × JsonTree N)) :
    valueMembers members = members.map fun member => (member.1, value member.2) := by
  induction members with
  | nil => rfl
  | cons member members ih => rw [valueMembers, List.map_cons, ih]

theorem mem_of_mem_mapOf {member : String × JsonTree N} {members : List (String × JsonTree N)}
    (h : member ∈ mapOf members) : member ∈ members :=
  mem_of_mem_kept ((mapOf_perm members).subset h)

/-- A value stands for itself, and nothing is open in it that was not in its spelling. -/
theorem value_spec {k : ℕ} {t : JsonTree N} (h : t.depth ≤ k) :
    value (value t) = value t ∧ (value t).depth ≤ k := by
  induction k generalizing t with
  | zero =>
    cases t with
    | array items => cases h
    | object members => cases h
    | _ => exact ⟨rfl, h⟩
  | succ k ih =>
    cases t with
    | array items =>
      have hitems := depthItems_le.mp (Nat.le_of_succ_le_succ h)
      have hsame : (items.map value).map value = items.map value := by
        rw [List.map_map]
        exact List.map_congr_left fun t ht => (ih (hitems t ht)).1
      refine ⟨?_, Nat.succ_le_succ (depthItems_le.mpr ?_)⟩
      · rw [value, valueItems_eq_map, value, valueItems_eq_map, hsame]
      · rw [valueItems_eq_map]
        intro t ht
        obtain ⟨t, hmem, rfl⟩ := List.mem_map.mp ht
        exact (ih (hitems t hmem)).2
    | object members =>
      have hmembers := depthMembers_le.mp (Nat.le_of_succ_le_succ h)
      have hvalue : ∀ member ∈ mapOf (valueMembers members), value member.2 = member.2 ∧
          member.2.depth ≤ k := by
        intro member hmember
        have hmem := mem_of_mem_mapOf hmember
        rw [valueMembers_eq_map] at hmem
        obtain ⟨member', hmember', rfl⟩ := List.mem_map.mp hmem
        exact ih (hmembers member' hmember')
      have hsame : valueMembers (mapOf (valueMembers members)) = mapOf (valueMembers members) := by
        conv_rhs => rw [← List.map_id (mapOf (valueMembers members))]
        rw [valueMembers_eq_map (mapOf _)]
        exact List.map_congr_left fun member hmember => Prod.ext rfl (hvalue member hmember).1
      refine ⟨?_, Nat.succ_le_succ (depthMembers_le.mpr fun member hmember =>
        (hvalue member hmember).2)⟩
      rw [value, value, hsame, mapOf_mapOf]
    | _ => exact ⟨rfl, Nat.zero_le _⟩

theorem value_value (t : JsonTree N) : value (value t) = value t := (value_spec (Nat.le_refl _)).1

theorem depth_value_le (t : JsonTree N) : (value t).depth ≤ t.depth := (value_spec (Nat.le_refl _)).2

end Values

section Documents
variable {N : Type} (num : Numerals N) (limit : ℕ)

/-- `serde_json::from_slice`, of a whole document. -/
def parseDocument (bytes : Bytes) : Option (JsonTree N) :=
  match readValue num limit bytes with
  | some (t, rest) => if skipBlank rest = [] then some (value t) else none
  | none => none

/-- A written value is a document. -/
theorem parseDocument_write {t : JsonTree N} (h : t.depth ≤ limit) :
    parseDocument num limit (write num t) = some (value t) := by
  have hread : readValue num limit (write num t ++ []) = some (t, []) :=
    readValue_write h [] Spans.stops_nil
  rw [List.append_nil] at hread
  rw [parseDocument, hread]
  rfl

end Documents

end BatleHub.Lib.JsonValues
