import BatleHub.Lib.Framing
import BatleHub.Lib.Hex

/-!
Percent-encoding of a text, byte by byte. What is encoded can be read back, so two texts
are encoded in two ways, and no separator of a URL is left in what is written.
-/
namespace BatleHub.Lib.PercentEncoding

/-- Letters, digits and the four marks that stand for themselves. -/
def unreserved (b : UInt8) : Bool :=
  decide (65 ≤ b.toNat ∧ b.toNat ≤ 90) || decide (97 ≤ b.toNat ∧ b.toNat ≤ 122) ||
    decide (48 ≤ b.toNat ∧ b.toNat ≤ 57) ||
    decide (b.toNat = 45 ∨ b.toNat = 95 ∨ b.toNat = 46 ∨ b.toNat = 126)

/-- The digits are capital. -/
def digit (n : ℕ) : Char := (Hex.digitOf n).toUpper

def encodeByte (b : UInt8) : List Char :=
  if unreserved b then [Char.ofNat b.toNat] else ['%', digit (b.toNat / 16), digit (b.toNat % 16)]

def encode (s : String) : String := String.ofList ((Framing.utf8 s).flatMap encodeByte)

def digitValue (c : Char) : ℕ := (Hex.valueOf c).getD 0

/-- Read the bytes back. -/
def decode : List Char → List UInt8
  | [] => []
  | [c] => [UInt8.ofNat c.toNat]
  | [c, d] => [UInt8.ofNat c.toNat, UInt8.ofNat d.toNat]
  | c :: d :: e :: rest =>
    if c = '%' then UInt8.ofNat (digitValue d * 16 + digitValue e) :: decode rest
    else UInt8.ofNat c.toNat :: decode (d :: e :: rest)

theorem digitValue_digit {n : ℕ} (h : n < 16) : digitValue (digit n) = n := by
  have hall : ∀ m : Fin 16, digitValue (digit m) = m.val := by decide
  exact hall ⟨n, h⟩

theorem toNat_ofNat_of_lt {n : ℕ} (h : n < 128) : (Char.ofNat n).toNat = n := by
  have hvalid : n.isValidChar := Or.inl (by omega)
  unfold Char.ofNat
  rw [dif_pos hvalid]
  rfl

/-- A byte that stands for itself is none of the delimiters. -/
theorem toNat_of_unreserved {b : UInt8} (h : unreserved b = true) :
    b.toNat < 128 ∧ b.toNat ≠ 37 ∧ b.toNat ≠ 47 := by
  unfold unreserved at h
  simp only [Bool.or_eq_true, decide_eq_true_eq] at h
  omega

theorem decode_cons_of_ne {c : Char} (h : c ≠ '%') (rest : List Char) :
    decode (c :: rest) = UInt8.ofNat c.toNat :: decode rest := by
  match rest with
  | [] => rfl
  | [_] => rfl
  | d :: e :: rest => rw [decode, if_neg h]

theorem decode_encodeByte_append (b : UInt8) (rest : List Char) :
    decode (encodeByte b ++ rest) = b :: decode rest := by
  unfold encodeByte
  split_ifs with h
  · obtain ⟨hlt, hpercent, -⟩ := toNat_of_unreserved h
    have hne : Char.ofNat b.toNat ≠ '%' := by
      intro hc
      have hcode := congrArg Char.toNat hc
      rw [toNat_ofNat_of_lt hlt] at hcode
      exact hpercent hcode
    rw [List.singleton_append, decode_cons_of_ne hne, toNat_ofNat_of_lt hlt, UInt8.ofNat_toNat]
  · have hb := b.toNat_lt
    have hhigh := digitValue_digit (n := b.toNat / 16) (by omega)
    have hlow := digitValue_digit (n := b.toNat % 16) (by omega)
    have hbyte : b.toNat / 16 * 16 + b.toNat % 16 = b.toNat := by omega
    rw [List.cons_append, List.cons_append, List.cons_append, List.nil_append, decode,
      if_pos rfl, hhigh, hlow, hbyte, UInt8.ofNat_toNat]

theorem decode_flatMap_encodeByte (bytes : List UInt8) :
    decode (bytes.flatMap encodeByte) = bytes := by
  induction bytes with
  | nil => rfl
  | cons b rest ih => rw [List.flatMap_cons, decode_encodeByte_append, ih]

theorem encode_injective {s t : String} (h : encode s = encode t) : s = t := by
  have hchars := congrArg String.toList h
  rw [encode, encode, String.toList_ofList, String.toList_ofList] at hchars
  have hbytes := congrArg decode hchars
  rw [decode_flatMap_encodeByte, decode_flatMap_encodeByte] at hbytes
  exact Framing.utf8_injective hbytes

theorem slash_notMem_encode (s : String) : '/' ∉ (encode s).toList := by
  rw [encode, String.toList_ofList, List.mem_flatMap]
  rintro ⟨b, -, hmem⟩
  unfold encodeByte at hmem
  split_ifs at hmem with h
  · obtain ⟨hlt, -, hslash⟩ := toNat_of_unreserved h
    have hcode := congrArg Char.toNat (List.mem_singleton.mp hmem)
    rw [toNat_ofNat_of_lt hlt] at hcode
    exact hslash hcode.symm
  · have hb := b.toNat_lt
    have hdigit : ∀ m : Fin 16, '/' ≠ digit m := by decide
    rcases List.mem_cons.mp hmem with hpercent | hmem
    · exact absurd hpercent (by decide)
    · rcases List.mem_cons.mp hmem with hhigh | hmem
      · exact hdigit ⟨b.toNat / 16, by omega⟩ hhigh
      · exact hdigit ⟨b.toNat % 16, by omega⟩ (List.mem_singleton.mp hmem)

end BatleHub.Lib.PercentEncoding
