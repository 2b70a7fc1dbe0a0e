import Mathlib.Data.List.Basic
import Mathlib.Data.String.Basic

/-!
Length-prefixed byte frames. Each frame is the four little-endian bytes of its
length and then its bytes; a sequence of frames is read back in one way, as long
as every length fits its prefix. Texts are framed as their UTF-8 bytes.
-/
namespace BatleHub.Lib.Framing

/-- The low four bytes of a number, least significant first. -/
def le32 (n : ℕ) : List UInt8 :=
  [UInt8.ofNat n, UInt8.ofNat (n / 2 ^ 8), UInt8.ofNat (n / 2 ^ 16), UInt8.ofNat (n / 2 ^ 24)]

def frame (bytes : List UInt8) : List UInt8 := le32 bytes.length ++ bytes

def frames (payloads : List (List UInt8)) : List UInt8 := payloads.flatMap frame

theorem le32_injective {m n : ℕ} (hm : m < 2 ^ 32) (hn : n < 2 ^ 32) (h : le32 m = le32 n) :
    m = n := by
  simp only [le32, List.cons.injEq, and_true] at h
  obtain ⟨h0, h1, h2, h3⟩ := h
  have toNat : ∀ {a b : ℕ}, UInt8.ofNat a = UInt8.ofNat b → a % 2 ^ 8 = b % 2 ^ 8 := by
    intro a b hab
    simpa using congrArg UInt8.toNat hab
  have e0 := toNat h0
  have e1 := toNat h1
  have e2 := toNat h2
  have e3 := toNat h3
  omega

theorem frame_append_injective {x y restX restY : List UInt8} (hx : x.length < 2 ^ 32)
    (hy : y.length < 2 ^ 32) (h : frame x ++ restX = frame y ++ restY) :
    x = y ∧ restX = restY := by
  unfold frame at h
  rw [List.append_assoc, List.append_assoc] at h
  obtain ⟨hlen, hrest⟩ := List.append_inj h (by simp [le32])
  exact List.append_inj hrest (le32_injective hx hy hlen)

/-- One sequence of frames has one reading. -/
theorem frames_injective {xs ys : List (List UInt8)} (hxs : ∀ x ∈ xs, x.length < 2 ^ 32)
    (hys : ∀ y ∈ ys, y.length < 2 ^ 32) (h : frames xs = frames ys) : xs = ys := by
  induction xs generalizing ys with
  | nil =>
    cases ys with
    | nil => rfl
    | cons y ys => simp [frames, frame, le32] at h
  | cons x xs ih =>
    cases ys with
    | nil => simp [frames, frame, le32] at h
    | cons y ys =>
      have hsplit : frame x ++ frames xs = frame y ++ frames ys := h
      obtain ⟨rfl, hrest⟩ := frame_append_injective (hxs x List.mem_cons_self)
        (hys y List.mem_cons_self) hsplit
      rw [ih (fun x hx => hxs x (List.mem_cons_of_mem _ hx))
        (fun y hy => hys y (List.mem_cons_of_mem _ hy)) hrest]

/-- The UTF-8 bytes of a text. -/
def utf8 (s : String) : List UInt8 := s.toUTF8.data.toList

theorem utf8_injective {s t : String} (h : utf8 s = utf8 t) : s = t := by
  unfold utf8 at h
  apply String.toByteArray_inj.mp
  exact ByteArray.ext (Array.toList_inj.mp h)

theorem utf8EncodeChar_ascii {c : Char} (h : c.toNat < 128) :
    String.utf8EncodeChar c = [UInt8.ofNat c.toNat] := by
  have hle : c.val.toNat ≤ 127 := Nat.le_of_lt_succ h
  unfold String.utf8EncodeChar
  simp only [if_pos hle]
  rfl

theorem utf8_eq_flatMap (s : String) : utf8 s = s.toList.flatMap String.utf8EncodeChar := by
  unfold utf8
  have hbytes : s.toUTF8 = s.toList.utf8Encode := String.utf8Encode_toList.symm
  rw [hbytes, List.utf8Encode, List.data_toByteArray]

/-- An ASCII text has one byte for each character. -/
theorem utf8_ascii {s : String} (h : ∀ c ∈ s.toList, c.toNat < 128) :
    utf8 s = s.toList.map fun c => UInt8.ofNat c.toNat := by
  rw [utf8_eq_flatMap, List.map_eq_flatMap]
  exact List.flatMap_congr fun c hc => utf8EncodeChar_ascii (h c hc)

/-- Every text is short enough for its length to fit the prefix. -/
def Fits (texts : List String) : Prop := ∀ s ∈ texts, (utf8 s).length < 2 ^ 32

instance (texts : List String) : Decidable (Fits texts) :=
  inferInstanceAs (Decidable (∀ s ∈ texts, (utf8 s).length < 2 ^ 32))

theorem frames_utf8_injective {xs ys : List String} (hxs : Fits xs) (hys : Fits ys)
    (h : frames (xs.map utf8) = frames (ys.map utf8)) : xs = ys := by
  have hmap : xs.map utf8 = ys.map utf8 := by
    apply frames_injective _ _ h
    · simpa [Fits] using hxs
    · simpa [Fits] using hys
  exact List.map_injective_iff.mpr (fun _ _ => utf8_injective) hmap

end BatleHub.Lib.Framing
