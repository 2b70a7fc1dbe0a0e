import BatleHub.Lib.Bits
import BatleHub.Lib.Fallible
import BatleHub.Lib.Framing
import BatleHub.StorePaths

/-!
Nix's base32 digests (`nix.rs`). The text is read from its end, five bits at a time, into
bytes of eight, and written the same way. Both directions carry the bits over one by one,
which makes each the inverse of the other; what an index out of range or a subtraction below
zero aborts is an outcome of its own.
-/
namespace BatleHub.Nix

open Lib Lib.Bits
open Integrity (Bytes)

/-- What aborts a call. -/
inductive Panic where
  | subtractOverflow
  | indexOutOfRange
  deriving DecidableEq, Repr

section Codec

/-- `xs[i]`. -/
def index {α : Type} (xs : List α) (i : ℕ) : Except Panic α :=
  match xs[i]? with
  | some x => .ok x
  | none => .error .indexOutOfRange

/-- The alphabet's bytes. -/
def nix32Bytes : List UInt8 := Framing.utf8 NIX32_ALPHABET

/-- The number of characters that a digest of `bytes` bytes prints as. -/
def nix32Len (bytes : ℕ) : Except Panic ℕ :=
  if bytes = 0 then .error .subtractOverflow else .ok ((bytes * 8 - 1) / 5 + 1)

def digitOf (c : UInt8) : Option ℕ := nix32Bytes.findIdx? fun a => a == c

/-- One digit into the bytes: its low bits, and what it carries into the next byte. -/
def place (outLen n digit : ℕ) (out : Bytes) : Except Panic (Option Bytes) := do
  let b := n * 5
  let i := b / 8
  let j := b % 8
  let byte ← index out i
  let out := out.set i (byte ||| UInt8.ofNat (digit <<< j))
  let carry := digit >>> (8 - j)
  if i < outLen - 1 then
    let next ← index out (i + 1)
    return some (out.set (i + 1) (next ||| UInt8.ofNat carry))
  else if carry ≠ 0 then return none
  else return some out

/-- The characters from the end on, the first of them number `n`. -/
def placeAll (outLen : ℕ) : ℕ → List UInt8 → Bytes → Except Panic (Option Bytes)
  | _, [], out => .ok (some out)
  | n, c :: rest, out =>
    match digitOf c with
    | none => .ok none
    | some digit =>
      match place outLen n digit out with
      | .error e => .error e
      | .ok none => .ok none
      | .ok (some next) => placeAll outLen (n + 1) rest next

def nix32Decode (s : String) (outLen : ℕ) : Except Panic (Option Bytes) := do
  let len ← nix32Len outLen
  if (Framing.utf8 s).length ≠ len then return none
  else placeAll outLen 0 (Framing.utf8 s).reverse (List.replicate outLen 0)

def nix32Char (bytes : Bytes) (n : ℕ) : Except Panic Char := do
  let b := n * 5
  let i := b / 8
  let j := b % 8
  let byte ← index bytes i
  let lo := byte.toNat >>> j
  let hi ←
    if bytes.length - 1 ≤ i then .ok 0
    else (index bytes (i + 1)).map fun next => next.toNat <<< (8 - j)
  index NIX32_ALPHABET.toList ((lo ||| hi) &&& 0x1f)

def nix32Encode (bytes : Bytes) : Except Panic String := do
  let len ← nix32Len bytes.length
  let chars ← (List.range len).reverse.mapM (nix32Char bytes)
  return String.ofList chars

end Codec

section Alphabet

theorem ascii_of_nix32 {c : Char} (h : c ∈ NIX32_ALPHABET.toList) : c.toNat < 128 := by
  have hall : NIX32_ALPHABET.toList.all (fun c => decide (c.toNat < 128)) = true := by
    decide +kernel
  exact of_decide_eq_true (List.all_eq_true.mp hall c h)

theorem nix32Bytes_eq :
    nix32Bytes = NIX32_ALPHABET.toList.map fun c => UInt8.ofNat c.toNat :=
  Framing.utf8_ascii fun _ h => ascii_of_nix32 h

theorem length_alphabet : NIX32_ALPHABET.toList.length = 32 := by decide +kernel

theorem nodup_nix32Bytes : nix32Bytes.Nodup := by
  rw [nix32Bytes_eq]
  decide +kernel

theorem length_nix32Bytes : nix32Bytes.length = 32 := by
  rw [nix32Bytes_eq, List.length_map, length_alphabet]

/-- A byte is a digit by its place in the alphabet. -/
theorem digitOf_eq_some_iff (c : UInt8) (d : ℕ) :
    digitOf c = some d ↔ nix32Bytes[d]? = some c := by
  unfold digitOf
  rw [List.findIdx?_eq_some_iff_getElem]
  constructor
  · rintro ⟨hd, heq, -⟩
    exact List.getElem?_eq_some_iff.mpr ⟨hd, by simpa using heq⟩
  · intro h
    obtain ⟨hd, heq⟩ := List.getElem?_eq_some_iff.mp h
    refine ⟨hd, by simpa using heq, ?_⟩
    intro j hj hsame
    have hplace : j = d := by
      apply (List.Nodup.getElem_inj_iff nodup_nix32Bytes).mp
      rw [heq]
      simpa using hsame
    omega

theorem digitOf_lt {c : UInt8} {d : ℕ} (h : digitOf c = some d) : d < 2 ^ 5 := by
  obtain ⟨hd, -⟩ := List.getElem?_eq_some_iff.mp ((digitOf_eq_some_iff c d).mp h)
  rw [length_nix32Bytes] at hd
  exact hd

/-- The character of a digit reads as that digit. -/
theorem digitOf_char {c : Char} {d : ℕ} (h : NIX32_ALPHABET.toList[d]? = some c) :
    digitOf (UInt8.ofNat c.toNat) = some d := by
  rw [digitOf_eq_some_iff, nix32Bytes_eq, List.getElem?_map, h, Option.map_some]

/-- The digits of some characters, the first character's first. -/
def digitsOf (cs : List UInt8) : Option (List ℕ) := cs.mapM digitOf

theorem digitsOf_cons_eq_some_iff (c : UInt8) (cs : List UInt8) (ds : List ℕ) :
    digitsOf (c :: cs) = some ds ↔
      ∃ d rest, digitOf c = some d ∧ digitsOf cs = some rest ∧ ds = d :: rest := by
  unfold digitsOf
  rw [List.mapM_cons]
  cases digitOf c with
  | none => simp
  | some d =>
    cases cs.mapM digitOf with
    | none => simp
    | some rest => simp [eq_comm]

theorem fit_digitsOf {cs : List UInt8} {ds : List ℕ} (h : digitsOf cs = some ds) : Fit 5 ds := by
  induction cs generalizing ds with
  | nil =>
    obtain rfl : [] = ds := by simpa [digitsOf] using h
    intro x hx
    simp at hx
  | cons c rest ih =>
    obtain ⟨d, tail, hd, htail, rfl⟩ := (digitsOf_cons_eq_some_iff _ _ _).mp h
    intro x hx
    rcases List.mem_cons.mp hx with rfl | hx
    · exact digitOf_lt hd
    · exact ih htail x hx

theorem length_digitsOf {cs : List UInt8} {ds : List ℕ} (h : digitsOf cs = some ds) :
    ds.length = cs.length := by
  induction cs generalizing ds with
  | nil =>
    obtain rfl : [] = ds := by simpa [digitsOf] using h
    rfl
  | cons c rest ih =>
    obtain ⟨d, tail, -, htail, rfl⟩ := (digitsOf_cons_eq_some_iff _ _ _).mp h
    rw [List.length_cons, List.length_cons, ih htail]

/-- No two texts have the same digits. -/
theorem digitsOf_injective {cs other : List UInt8} {ds : List ℕ} (h : digitsOf cs = some ds)
    (hother : digitsOf other = some ds) : cs = other := by
  induction cs generalizing other ds with
  | nil =>
    have hlen := (length_digitsOf h).symm.trans (length_digitsOf hother)
    exact (List.eq_nil_of_length_eq_zero hlen.symm).symm
  | cons c rest ih =>
    obtain ⟨d, tail, hd, htail, rfl⟩ := (digitsOf_cons_eq_some_iff _ _ _).mp h
    cases other with
    | nil => simp [digitsOf] at hother
    | cons c' rest' =>
      obtain ⟨d', tail', hd', htail', heq⟩ := (digitsOf_cons_eq_some_iff _ _ _).mp hother
      obtain ⟨rfl, rfl⟩ := List.cons.inj heq
      rw [digitOf_eq_some_iff] at hd hd'
      rw [Option.some.inj (hd.symm.trans hd'), ih htail htail']

end Alphabet

section Bytes

/-- Bit `k` of a byte string. -/
def byteBit (bytes : Bytes) (k : ℕ) : Bool := bitAt 8 (bytes.map UInt8.toNat) k

theorem fit_bytes (bytes : Bytes) : Fit 8 (bytes.map UInt8.toNat) := by
  intro x hx
  obtain ⟨b, -, rfl⟩ := List.mem_map.mp hx
  exact b.toNat_lt

theorem byteBit_of_length_le {bytes : Bytes} {k : ℕ} (h : 8 * bytes.length ≤ k) :
    byteBit bytes k = false :=
  bitAt_of_length_le (by rwa [List.length_map]) (by decide)

theorem eq_of_byteBit {bytes other : Bytes} (hlen : bytes.length = other.length)
    (h : ∀ k, byteBit bytes k = byteBit other k) : bytes = other := by
  have hmap : bytes.map UInt8.toNat = other.map UInt8.toNat :=
    eq_of_bitAt (by simpa using hlen) (fit_bytes bytes) (fit_bytes other) fun k _ => h k
  exact List.map_injective_iff.mpr (fun _ _ => UInt8.toNat_inj.mp) hmap

theorem byteBit_replicate (n k : ℕ) : byteBit (List.replicate n 0) k = false := by
  have hword : (List.replicate n 0).getD (k / 8) 0 = 0 := by
    rw [List.getD_eq_getElem?_getD, List.getElem?_replicate]
    split <;> rfl
  unfold byteBit bitAt
  rw [List.map_replicate, UInt8.toNat_zero, hword, Nat.zero_testBit]

/-- What the low eight bits of a number do to the byte they are or-ed into. -/
theorem byteBit_set_or {bytes : Bytes} {i : ℕ} {byte : UInt8} (hget : bytes[i]? = some byte)
    (x k : ℕ) :
    byteBit (bytes.set i (byte ||| UInt8.ofNat x)) k =
      (byteBit bytes k || (decide (k / 8 = i) && x.testBit (k % 8))) := by
  have hget' : (bytes.map UInt8.toNat)[i]? = some byte.toNat := by
    rw [List.getElem?_map, hget, Option.map_some]
  have hlow : (UInt8.ofNat x).toNat.testBit (k % 8) = x.testBit (k % 8) := by
    have hk : k % 8 < 8 := Nat.mod_lt k (by decide)
    rw [UInt8.toNat_ofNat', Nat.testBit_mod_two_pow, decide_eq_true hk, Bool.true_and]
  unfold byteBit
  rw [List.map_set, UInt8.toNat_or, bitAt_set_or hget', hlow]

end Bytes

section Decoding

theorem index_of_lt {α : Type} {xs : List α} {i : ℕ} (h : i < xs.length) :
    ∃ x, index xs i = .ok x ∧ xs[i]? = some x := by
  unfold index
  rw [List.getElem?_eq_getElem h]
  exact ⟨_, rfl, rfl⟩

/-- A digit adds its own bits, and is refused when one of them is past the end. -/
theorem place_spec {outLen n digit : ℕ} {out : Bytes} (hlen : out.length = outLen)
    (hn : 5 * n < 8 * outLen) (hdigit : digit < 2 ^ 5) :
    (∃ next, place outLen n digit out = .ok (some next) ∧ next.length = outLen ∧
        ∀ k, byteBit next k =
          (byteBit out k || (decide (5 * n ≤ k) && digit.testBit (k - 5 * n)))) ∨
      (place outLen n digit out = .ok none ∧
        ∃ k, 8 * outLen ≤ k ∧ 5 * n ≤ k ∧ digit.testBit (k - 5 * n) = true) := by
  have hcomm : n * 5 = 5 * n := Nat.mul_comm n 5
  have hoffset : 8 * (5 * n / 8) + 5 * n % 8 = 5 * n := Nat.div_add_mod _ _
  have hsplit := testBit_straddle hdigit (by decide : 5 ≤ 8) (by decide) (5 * n)
  have hi : 5 * n / 8 < out.length := by omega
  obtain ⟨byte, hindex, hbyte⟩ := index_of_lt hi
  have hlow := byteBit_set_or hbyte (digit <<< (5 * n % 8))
  have hsetlen : (out.set (5 * n / 8) (byte ||| UInt8.ofNat (digit <<< (5 * n % 8)))).length =
      out.length := List.length_set
  unfold place
  dsimp only
  rw [hcomm, hindex]
  simp only [bind, Except.bind]
  generalize out.set (5 * n / 8) (byte ||| UInt8.ofNat (digit <<< (5 * n % 8))) = lower
    at hlow hsetlen ⊢
  by_cases hinner : 5 * n / 8 < outLen - 1
  · -- the carry has a byte to go to
    have hi' : 5 * n / 8 + 1 < lower.length := by omega
    obtain ⟨next, hindex', hnext⟩ := index_of_lt hi'
    have hhigh := byteBit_set_or hnext (digit >>> (8 - 5 * n % 8))
    refine .inl ⟨lower.set (5 * n / 8 + 1) (next ||| UInt8.ofNat (digit >>> (8 - 5 * n % 8))),
      ?_, ?_, fun k => ?_⟩
    · rw [if_pos hinner, hindex']
      rfl
    · rw [List.length_set, hsetlen, hlen]
    · rw [hhigh, hlow, hsplit, Nat.testBit_shiftLeft, Nat.testBit_shiftRight, Bool.or_assoc]
  · have hlast : outLen = 5 * n / 8 + 1 := by omega
    by_cases hcarry : digit >>> (8 - 5 * n % 8) = 0
    · refine .inl ⟨lower, ?_, hsetlen.trans hlen, fun k => ?_⟩
      · rw [if_neg hinner, if_neg (not_not_intro hcarry)]
        rfl
      · have hdropped : digit.testBit (8 - 5 * n % 8 + k % 8) = false := by
          rw [← Nat.testBit_shiftRight, hcarry, Nat.zero_testBit]
        rw [hlow, hsplit, Nat.testBit_shiftLeft, hdropped, Bool.and_false, Bool.or_false]
    · obtain ⟨t, ht⟩ := Nat.exists_testBit_of_ne_zero hcarry
      rw [Nat.testBit_shiftRight] at ht
      refine .inr ⟨?_, 8 * outLen + t, by omega, by omega, ?_⟩
      · rw [if_neg hinner, if_pos hcarry]
        rfl
      · have hpos : 8 * outLen + t - 5 * n = 8 - 5 * n % 8 + t := by omega
        rw [hpos, ht]

/-- The bits that are left to place. -/
def rest (n : ℕ) (ds : List ℕ) (k : ℕ) : Bool := decide (5 * n ≤ k) && bitAt 5 ds (k - 5 * n)

theorem rest_cons {d : ℕ} (hd : d < 2 ^ 5) (n : ℕ) (ds : List ℕ) (k : ℕ) :
    rest n (d :: ds) k =
      ((decide (5 * n ≤ k) && d.testBit (k - 5 * n)) || rest (n + 1) ds k) := by
  unfold rest
  rw [bitAt_cons hd (by decide)]
  by_cases hnext : 5 * (n + 1) ≤ k
  · have hle : 5 * n ≤ k := by omega
    have hwide : 5 ≤ k - 5 * n := by omega
    have hsub : k - 5 * n - 5 = k - 5 * (n + 1) := by omega
    rw [decide_eq_true hnext, decide_eq_true hle, decide_eq_true hwide, hsub, Bool.true_and,
      Bool.true_and, Bool.true_and]
  · by_cases hle : 5 * n ≤ k
    · have hwide : ¬ 5 ≤ k - 5 * n := by omega
      rw [decide_eq_false hnext, decide_eq_false hwide, Bool.false_and, Bool.false_and,
        Bool.or_false, Bool.or_false]
    · rw [decide_eq_false hnext, decide_eq_false hle, Bool.false_and, Bool.false_and,
        Bool.false_and, Bool.or_false]

/-- The characters from number `n` on answer, and with the bytes that have their bits. -/
theorem placeAll_spec {outLen : ℕ} (cs : List UInt8) {n : ℕ} {out : Bytes}
    (hlen : out.length = outLen) (hn : 5 * (n + cs.length) < 8 * outLen + 5) :
    ∃ r, placeAll outLen n cs out = .ok r ∧ ∀ bytes, r = some bytes ↔
      bytes.length = outLen ∧ ∃ ds, digitsOf cs = some ds ∧
        ∀ k, byteBit bytes k = (byteBit out k || rest n ds k) := by
  induction cs generalizing n out with
  | nil =>
    refine ⟨some out, rfl, fun bytes => ?_⟩
    have hnone : ∀ k, (byteBit out k || rest n [] k) = byteBit out k := by
      intro k
      rw [rest, bitAt_nil, Bool.and_false, Bool.or_false]
    constructor
    · rintro h
      obtain rfl := Option.some.inj h
      exact ⟨hlen, [], rfl, fun k => (hnone k).symm⟩
    · rintro ⟨hbytes, ds, hds, hbits⟩
      obtain rfl : [] = ds := by simpa [digitsOf] using hds
      have heq : out = bytes := by
        apply eq_of_byteBit (hlen.trans hbytes.symm)
        intro k
        rw [hbits, hnone]
      rw [heq]
  | cons c cs ih =>
    rw [List.length_cons] at hn
    rw [placeAll]
    cases hdigit : digitOf c with
    | none =>
      refine ⟨none, rfl, fun bytes => ?_⟩
      constructor
      · rintro ⟨⟩
      · rintro ⟨-, ds, hds, -⟩
        obtain ⟨d, tail, hd, -, -⟩ := (digitsOf_cons_eq_some_iff _ _ _).mp hds
        rw [hdigit] at hd
        cases hd
    | some digit =>
      have hlt := digitOf_lt hdigit
      rcases place_spec hlen (show 5 * n < 8 * outLen by omega) hlt with
        ⟨next, hplace, hnext, hbits⟩ | ⟨hplace, k, hend, hstart, hset⟩
      · obtain ⟨r, hr, hspec⟩ := ih (n := n + 1) hnext (by omega)
        simp only [hplace, hr]
        refine ⟨r, rfl, fun bytes => ?_⟩
        rw [hspec]
        refine and_congr_right fun _ => ⟨?_, ?_⟩
        · rintro ⟨ds, hds, hrest⟩
          refine ⟨digit :: ds, ?_, fun k => ?_⟩
          · exact (digitsOf_cons_eq_some_iff _ _ _).mpr ⟨digit, ds, hdigit, hds, rfl⟩
          · rw [hrest, hbits, rest_cons hlt, Bool.or_assoc]
        · rintro ⟨ds, hds, hrest⟩
          obtain ⟨d, tail, hd, htail, rfl⟩ := (digitsOf_cons_eq_some_iff _ _ _).mp hds
          obtain rfl := Option.some.inj (hd.symm.trans hdigit)
          refine ⟨tail, htail, fun k => ?_⟩
          rw [hrest, hbits, rest_cons hlt, Bool.or_assoc]
      · simp only [hplace]
        refine ⟨none, rfl, fun bytes => ?_⟩
        constructor
        · rintro ⟨⟩
        · rintro ⟨hbytes, ds, hds, hrest⟩
          obtain ⟨d, tail, hd, -, rfl⟩ := (digitsOf_cons_eq_some_iff _ _ _).mp hds
          obtain rfl := Option.some.inj (hd.symm.trans hdigit)
          -- a bit past the end would have to be set
          have hbit := hrest k
          rw [byteBit_of_length_le (by omega), rest_cons hlt, decide_eq_true hstart, hset] at hbit
          simp at hbit

end Decoding

section Encoding

/-- The digit number `n`, from the words it straddles. -/
def digitAt (bytes : Bytes) (n : ℕ) : ℕ :=
  (((bytes.map UInt8.toNat).getD (5 * n / 8) 0 >>> (5 * n % 8)) |||
    ((bytes.map UInt8.toNat).getD (5 * n / 8 + 1) 0 <<< (8 - 5 * n % 8))) &&& 0x1f

theorem digitAt_lt (bytes : Bytes) (n : ℕ) : digitAt bytes n < 2 ^ 5 :=
  lt_of_le_of_lt Nat.and_le_right (by decide)

theorem testBit_digitAt (bytes : Bytes) (n : ℕ) {t : ℕ} (ht : t < 5) :
    (digitAt bytes n).testBit t = byteBit bytes (5 * n + t) := by
  have hmask : (0x1f : ℕ).testBit t = true := by
    rw [show (0x1f : ℕ) = 2 ^ 5 - 1 from rfl, Nat.testBit_two_pow_sub_one, decide_eq_true ht]
  rw [digitAt, Nat.testBit_and, hmask, Bool.and_true,
    testBit_window (fit_bytes bytes) (Nat.lt_trans ht (by decide))]
  rfl

/-- The characters of the text, by number. -/
def charAt (bytes : Bytes) (n : ℕ) : Char := NIX32_ALPHABET.toList.getD (digitAt bytes n) '0'

theorem getElem?_charAt (bytes : Bytes) (n : ℕ) :
    NIX32_ALPHABET.toList[digitAt bytes n]? = some (charAt bytes n) := by
  have hlt : digitAt bytes n < NIX32_ALPHABET.toList.length := by
    rw [length_alphabet]
    exact digitAt_lt bytes n
  rw [charAt, List.getD_eq_getElem _ _ hlt, List.getElem?_eq_getElem hlt]

theorem nix32Char_eq {bytes : Bytes} {n : ℕ} (hn : 5 * n < 8 * bytes.length) :
    nix32Char bytes n = .ok (charAt bytes n) := by
  have hcomm : n * 5 = 5 * n := Nat.mul_comm n 5
  have hword : ∀ {i : ℕ} {byte : UInt8}, bytes[i]? = some byte →
      (bytes.map UInt8.toNat).getD i 0 = byte.toNat := by
    intro i byte h
    rw [List.getD_eq_getElem?_getD, List.getElem?_map, h, Option.map_some, Option.getD_some]
  have hchar : index NIX32_ALPHABET.toList (digitAt bytes n) = .ok (charAt bytes n) := by
    unfold index
    rw [getElem?_charAt]
  obtain ⟨byte, hindex, hbyte⟩ := index_of_lt (show 5 * n / 8 < bytes.length by omega)
  unfold nix32Char
  dsimp only
  rw [hcomm, hindex]
  simp only [bind, Except.bind]
  by_cases hlast : bytes.length - 1 ≤ 5 * n / 8
  · have hpast : (bytes.map UInt8.toNat).getD (5 * n / 8 + 1) 0 = 0 := by
      apply List.getD_eq_default
      rw [List.length_map]
      omega
    rw [if_pos hlast]
    rw [digitAt, hword hbyte, hpast, Nat.zero_shiftLeft] at hchar
    exact hchar
  · obtain ⟨next, hindex', hnext⟩ :=
      index_of_lt (show 5 * n / 8 + 1 < bytes.length by omega)
    rw [if_neg hlast, hindex']
    rw [digitAt, hword hbyte, hword hnext] at hchar
    exact hchar

/-- The text of some bytes has their bits. -/
theorem nix32Encode_spec {bytes : Bytes} (hbytes : bytes ≠ []) :
    ∃ s, nix32Encode bytes = .ok s ∧
      (Framing.utf8 s).length = (bytes.length * 8 - 1) / 5 + 1 ∧
        ∃ ds, digitsOf (Framing.utf8 s).reverse = some ds ∧
          ∀ k, bitAt 5 ds k = byteBit bytes k := by
  have hpos : 0 < bytes.length := List.length_pos_iff.mpr hbytes
  generalize hlen : (bytes.length * 8 - 1) / 5 + 1 = len
  have hlast : ∀ n < len, 5 * n < 8 * bytes.length := by
    intro n hn
    omega
  have hchars : (List.range len).reverse.mapM (nix32Char bytes) =
      .ok ((List.range len).reverse.map (charAt bytes)) := by
    apply Fallible.mapM_eq_ok
    intro n hn
    exact nix32Char_eq (hlast n (List.mem_range.mp (List.mem_reverse.mp hn)))
  have hutf8 : Framing.utf8 (String.ofList ((List.range len).reverse.map (charAt bytes))) =
      ((List.range len).map fun n => UInt8.ofNat (charAt bytes n).toNat).reverse := by
    rw [Framing.utf8_ascii, String.toList_ofList, List.map_map, ← List.map_reverse]
    · rfl
    · intro c hc
      rw [String.toList_ofList] at hc
      obtain ⟨n, -, rfl⟩ := List.mem_map.mp hc
      exact ascii_of_nix32 (List.mem_of_getElem? (getElem?_charAt bytes n))
  have hdigits : ∀ ns : List ℕ,
      digitsOf (ns.map fun n => UInt8.ofNat (charAt bytes n).toNat) =
        some (ns.map (digitAt bytes)) := by
    intro ns
    induction ns with
    | nil => rfl
    | cons n ns ih =>
      refine (digitsOf_cons_eq_some_iff _ _ _).mpr ⟨digitAt bytes n, _, ?_, ih, rfl⟩
      exact digitOf_char (getElem?_charAt bytes n)
  refine ⟨String.ofList ((List.range len).reverse.map (charAt bytes)), ?_, ?_,
    (List.range len).map (digitAt bytes), ?_, fun k => ?_⟩
  · unfold nix32Encode nix32Len
    rw [if_neg (Nat.ne_of_gt hpos), hlen]
    simp only [bind, Except.bind, hchars]
    rfl
  · rw [hutf8, List.length_reverse, List.length_map, List.length_range]
  · rw [hutf8, List.reverse_reverse, hdigits]
  · by_cases hk : k < 5 * len
    · have hdigit : ((List.range len).map (digitAt bytes)).getD (k / 5) 0 =
          digitAt bytes (k / 5) := by
        have hlt : k / 5 < len := by omega
        rw [List.getD_eq_getElem?_getD, List.getElem?_map, List.getElem?_range hlt,
          Option.map_some, Option.getD_some]
      have hbit : k % 5 < 5 := Nat.mod_lt k (by decide)
      rw [bitAt, hdigit, testBit_digitAt bytes _ hbit, Nat.div_add_mod]
    · rw [byteBit_of_length_le (by omega)]
      exact bitAt_of_length_le (by simpa using Nat.le_of_not_lt hk) (by decide)

end Encoding

section Bijection

/-- A text decodes to the bytes that have its bits, if any. -/
theorem nix32Decode_spec (s : String) {outLen : ℕ} (hpos : 0 < outLen) :
    ∃ r, nix32Decode s outLen = .ok r ∧ ∀ bytes, r = some bytes ↔
      bytes.length = outLen ∧ (Framing.utf8 s).length = (outLen * 8 - 1) / 5 + 1 ∧
        ∃ ds, digitsOf (Framing.utf8 s).reverse = some ds ∧
          ∀ k, bitAt 5 ds k = byteBit bytes k := by
  unfold nix32Decode nix32Len
  rw [if_neg (Nat.ne_of_gt hpos)]
  simp only [bind, Except.bind]
  by_cases hlen : (Framing.utf8 s).length = (outLen * 8 - 1) / 5 + 1
  · rw [if_neg (not_not_intro hlen)]
    obtain ⟨r, hr, hspec⟩ := placeAll_spec (n := 0) (Framing.utf8 s).reverse
      (List.length_replicate (n := outLen) (a := (0 : UInt8)))
      (by rw [List.length_reverse]; omega)
    refine ⟨r, hr, fun bytes => ?_⟩
    rw [hspec]
    refine and_congr_right fun _ => ?_
    rw [and_iff_right hlen]
    refine exists_congr fun ds => and_congr_right fun _ => forall_congr' fun k => ?_
    have hrest : rest 0 ds k = bitAt 5 ds k := by simp [rest]
    rw [byteBit_replicate, Bool.false_or, hrest]
    exact eq_comm
  · rw [if_pos hlen]
    refine ⟨none, rfl, fun bytes => ?_⟩
    constructor
    · rintro ⟨⟩
    · rintro ⟨-, h, -⟩
      exact absurd h hlen

theorem nix32Decode_nix32Encode {bytes : Bytes} (hbytes : bytes ≠ []) :
    ∃ s, nix32Encode bytes = .ok s ∧ nix32Decode s bytes.length = .ok (some bytes) := by
  obtain ⟨s, hs, hlen, hds⟩ := nix32Encode_spec hbytes
  obtain ⟨r, hr, hspec⟩ := nix32Decode_spec s (List.length_pos_iff.mpr hbytes)
  refine ⟨s, hs, ?_⟩
  rw [hr, (hspec bytes).mpr ⟨rfl, hlen, hds⟩]

theorem nix32Encode_of_nix32Decode {s : String} {outLen : ℕ} (hpos : 0 < outLen) {bytes : Bytes}
    (h : nix32Decode s outLen = .ok (some bytes)) : nix32Encode bytes = .ok s := by
  obtain ⟨r, hr, hspec⟩ := nix32Decode_spec s hpos
  obtain rfl := Except.ok.inj (hr.symm.trans h)
  obtain ⟨hbytes, hlen, ds, hds, hbits⟩ := (hspec bytes).mp rfl
  obtain ⟨t, ht, htlen, es, hes, htbits⟩ := nix32Encode_spec
    (List.ne_nil_of_length_pos (by omega : 0 < bytes.length))
  have heq : ds = es := by
    apply eq_of_bitAt (w := 5) ?_ (fit_digitsOf hds) (fit_digitsOf hes)
    · intro k _
      rw [hbits, htbits]
    · rw [length_digitsOf hds, length_digitsOf hes, List.length_reverse, List.length_reverse, hlen,
        htlen, hbytes]
  rw [ht, Framing.utf8_injective
    (List.reverse_injective (digitsOf_injective hds (heq ▸ hes)))]

/-- No call indexes out of range; on no bytes at all the length is what aborts. -/
theorem nix32_in_range :
    (∀ (s : String) (outLen : ℕ), nix32Decode s outLen ≠ .error .indexOutOfRange) ∧
      ∀ bytes : Bytes, nix32Encode bytes ≠ .error .indexOutOfRange := by
  constructor
  · intro s outLen
    rcases Nat.eq_zero_or_pos outLen with rfl | hpos
    · exact nofun
    · obtain ⟨r, hr, -⟩ := nix32Decode_spec s hpos
      rw [hr]
      exact nofun
  · intro bytes
    by_cases hbytes : bytes = []
    · rw [hbytes]
      exact nofun
    · obtain ⟨s, hs, -⟩ := nix32Encode_spec hbytes
      rw [hs]
      exact nofun

/-- Base32 is a bijection onto its image: what is written is read back, what is read is
written back, and every call answers. -/
theorem nix32_bijection :
    (∀ bytes : Bytes, bytes ≠ [] → ∃ s, nix32Encode bytes = .ok s ∧
        nix32Decode s bytes.length = .ok (some bytes)) ∧
      (∀ (s : String) (outLen : ℕ), 0 < outLen → ∃ r, nix32Decode s outLen = .ok r ∧
        ∀ bytes, r = some bytes → nix32Encode bytes = .ok s) ∧
      (∀ (s : String) (outLen : ℕ), nix32Decode s outLen ≠ .error .indexOutOfRange) ∧
        ∀ bytes : Bytes, nix32Encode bytes ≠ .error .indexOutOfRange := by
  refine ⟨?_, ?_, nix32_in_range⟩
  · intro bytes hbytes
    exact nix32Decode_nix32Encode hbytes
  · intro s outLen hpos
    obtain ⟨r, hr, -⟩ := nix32Decode_spec s hpos
    refine ⟨r, hr, ?_⟩
    rintro bytes rfl
    exact nix32Encode_of_nix32Decode hpos hr

theorem three_bytes_round_trip :
    ∃ s, nix32Encode [1, 255, 7] = .ok s ∧ nix32Decode s 3 = .ok (some [1, 255, 7]) :=
  nix32_bijection.1 [1, 255, 7] (by decide)

end Bijection

end BatleHub.Nix
