import BatleHub.Lib.AddressBlocks
import BatleHub.Lib.HeaderValues
import BatleHub.Lib.IpTexts
import BatleHub.Lib.Texts
import Mathlib.Algebra.Order.Ring.Nat

/-!
The addresses an upstream-supplied URL may not lead to (`registry/ssrf.rs`), and the table of
blocks that they are checked against (`fuzz_targets/fuzz_ssrf_ip.rs`). The rule tests octets
and groups, the table compares leading bits of numbers. They agree on every address, so that
neither an address of the table is let through nor a public one refused.
-/
namespace BatleHub.PublicAddresses

open Lib Lib.Bits Lib.IpTexts Lib.AddressBlocks

section Rule

def isLoopback (a : ℕ) : Bool := a == 127

def isPrivate (a b : ℕ) : Bool :=
  a == 10 || (a == 172 && (16 ≤ b && b ≤ 31)) || (a == 192 && b == 168)

def isLinkLocal (a b : ℕ) : Bool := a == 169 && b == 254

def isDocumentation (a b c : ℕ) : Bool :=
  (a == 192 && b == 0 && c == 2) || (a == 198 && b == 51 && c == 100) ||
    (a == 203 && b == 0 && c == 113)

/-- The range of the address decides, whatever its last octet is. -/
def isBlockedV4 : ℕ × ℕ × ℕ × ℕ → Bool
  | (a, b, c, _) =>
    isLoopback a || isPrivate a b || isLinkLocal a b || isDocumentation a b c ||
      a == 0 ||
      (a == 100 && (b &&& 0xc0) == 64) ||
      (a == 192 && b == 0 && c == 0) ||
      (a == 192 && b == 88 && c == 99) ||
      (a == 198 && (b &&& 0xfe) == 18) ||
      224 ≤ a

/-- The octets of two groups. -/
def octets (high low : ℕ) : ℕ × ℕ × ℕ × ℕ := (high / 256, high % 256, low / 256, low % 256)

/-- `Ipv6Addr::to_ipv4`, of the compatible and the mapped form. -/
def toIpv4 (seg : List ℕ) : Option (ℕ × ℕ × ℕ × ℕ) :=
  if seg.take 5 = [0, 0, 0, 0, 0] ∧ (seg.getD 5 0 = 0 ∨ seg.getD 5 0 = 0xffff) then
    some (octets (seg.getD 6 0) (seg.getD 7 0))
  else none

/-- The IPv4 address in a form that some stack would turn into a packet to that host. -/
def embeddedV4 (seg : List ℕ) : Option (ℕ × ℕ × ℕ × ℕ) :=
  match toIpv4 seg with
  | some v4 => some v4
  | none =>
    if seg.take 6 = [0x64, 0xff9b, 0, 0, 0, 0] then
      some (octets (seg.getD 6 0) (seg.getD 7 0))
    else if seg.getD 0 0 = 0x2002 then some (octets (seg.getD 1 0) (seg.getD 2 0))
    else none

def isBlockedNativeV6 (seg : List ℕ) : Bool :=
  (seg.getD 0 0 &&& 0xfe00) == 0xfc00 ||
    (seg.getD 0 0 &&& 0xffc0) == 0xfe80 ||
    (seg.getD 0 0 &&& 0xffc0) == 0xfec0 ||
    (seg.getD 0 0 &&& 0xff00) == 0xff00 ||
    seg.take 4 == [0x100, 0, 0, 0] ||
    (seg.getD 0 0 == 0x64 && seg.getD 1 0 == 0xff9b && seg.getD 2 0 == 1) ||
    (seg.getD 0 0 == 0x2001 && seg.getD 1 0 < 0x200) ||
    (seg.getD 0 0 == 0x2001 && seg.getD 1 0 == 0xdb8) ||
    (seg.getD 0 0 == 0x3fff && seg.getD 1 0 < 0x1000) ||
    seg.getD 0 0 == 0x5f00 ||
    seg.getD 0 0 < 0x100

def isBlockedIp : IpAddr → Bool
  | .v4 a b c d => isBlockedV4 (a, b, c, d)
  | .v6 seg =>
    match embeddedV4 seg with
    | some v4 => isBlockedV4 v4
    | none => isBlockedNativeV6 seg

end Rule

section Table

def v4BlockedRows : List String :=
  ["0.0.0.0/8", "10.0.0.0/8", "100.64.0.0/10", "127.0.0.0/8", "169.254.0.0/16",
    "172.16.0.0/12", "192.0.0.0/24", "192.0.2.0/24", "192.88.99.0/24", "192.168.0.0/16",
    "198.18.0.0/15", "198.51.100.0/24", "203.0.113.0/24", "224.0.0.0/4", "240.0.0.0/4"]

/-- Without the forms that carry an IPv4 address. -/
def v6BlockedRows : List String :=
  ["::/8", "100::/64", "64:ff9b:1::/48", "2001::/23", "2001:db8::/32", "3fff::/20", "5f00::/16",
    "fc00::/7", "fe80::/10", "fec0::/10", "ff00::/8"]

/-- The number of an address, `u32::from` or `u128::from`, and whether it is an IPv4 one. -/
def bitsOf : IpAddr → ℕ × Bool
  | .v4 a b c d => (number 8 [a, b, c, d], true)
  | .v6 seg => (number 16 seg, false)

/-- A row as its number, its length and its kind. -/
def cidr (row : String) : Option (ℕ × ℕ × Bool) :=
  (Texts.splitOnce row '/').bind fun (addr, len) =>
    (HeaderValues.parseUnsigned (2 ^ 32) len.toList).bind fun len =>
      (parseIp addr).map fun a => ((bitsOf a).1, len, (bitsOf a).2)

def inTable (table : List String) (bits : ℕ) (v4 : Bool) : Bool :=
  let width := if v4 then 32 else 128
  table.any fun row =>
    match cidr row with
    | some (net, len, _) => len == 0 || bits >>> (width - len) == net >>> (width - len)
    | none => false

def v4Blocked (bits : ℕ) : Bool := inTable v4BlockedRows bits true

def inPrefix (bits : ℕ) (row : String) : Bool := inTable [row] bits false

def expected : IpAddr → Bool
  | .v4 a b c d => v4Blocked (bitsOf (.v4 a b c d)).1
  | .v6 seg =>
    let bits := (bitsOf (.v6 seg)).1
    if inPrefix bits "::ffff:0:0/96" || inPrefix bits "::/96" ||
        inPrefix bits "64:ff9b::/96" then
      v4Blocked (bits % 2 ^ 32)
    else if inPrefix bits "2002::/16" then v4Blocked (bits / 2 ^ 80 % 2 ^ 32)
    else inTable v6BlockedRows bits false

/-- A row as the leading words of its block and the number of bits they have to agree on. -/
structure Block where
  base : List ℕ
  len : ℕ

def v4Blocks : List Block :=
  [⟨[0, 0, 0, 0], 8⟩, ⟨[10, 0, 0, 0], 8⟩, ⟨[100, 64, 0, 0], 10⟩, ⟨[127, 0, 0, 0], 8⟩,
    ⟨[169, 254, 0, 0], 16⟩, ⟨[172, 16, 0, 0], 12⟩, ⟨[192, 0, 0, 0], 24⟩, ⟨[192, 0, 2, 0], 24⟩,
    ⟨[192, 88, 99, 0], 24⟩, ⟨[192, 168, 0, 0], 16⟩, ⟨[198, 18, 0, 0], 15⟩,
    ⟨[198, 51, 100, 0], 24⟩, ⟨[203, 0, 113, 0], 24⟩, ⟨[224, 0, 0, 0], 4⟩, ⟨[240, 0, 0, 0], 4⟩]

def v6Blocks : List Block :=
  [⟨[0, 0, 0, 0, 0, 0, 0, 0], 8⟩, ⟨[0x100, 0, 0, 0, 0, 0, 0, 0], 64⟩,
    ⟨[0x64, 0xff9b, 1, 0, 0, 0, 0, 0], 48⟩, ⟨[0x2001, 0, 0, 0, 0, 0, 0, 0], 23⟩,
    ⟨[0x2001, 0xdb8, 0, 0, 0, 0, 0, 0], 32⟩, ⟨[0x3fff, 0, 0, 0, 0, 0, 0, 0], 20⟩,
    ⟨[0x5f00, 0, 0, 0, 0, 0, 0, 0], 16⟩, ⟨[0xfc00, 0, 0, 0, 0, 0, 0, 0], 7⟩,
    ⟨[0xfe80, 0, 0, 0, 0, 0, 0, 0], 10⟩, ⟨[0xfec0, 0, 0, 0, 0, 0, 0, 0], 10⟩,
    ⟨[0xff00, 0, 0, 0, 0, 0, 0, 0], 8⟩]

/-- The row reads as the block, whose words have the width and of which bits are compared. -/
def ReadsAs (w : ℕ) (v4 : Bool) (row : String) (b : Block) : Prop :=
  cidr row = some (number w b.base, b.len, v4) ∧
    b.base.length * w = (if v4 then 32 else 128) ∧ (∀ x ∈ b.base, x < 2 ^ w) ∧
    0 < b.len ∧ b.len ≤ w * b.base.length

instance (w : ℕ) (v4 : Bool) (row : String) (b : Block) : Decidable (ReadsAs w v4 row b) :=
  inferInstanceAs (Decidable (_ ∧ _ ∧ _ ∧ _ ∧ _))

theorem reads_v4Blocks : List.Forall₂ (ReadsAs 8 true) v4BlockedRows v4Blocks := by
  decide +kernel

theorem reads_v6Blocks : List.Forall₂ (ReadsAs 16 false) v6BlockedRows v6Blocks := by
  decide +kernel

/-- Some block holds the address. -/
def Held (w : ℕ) (blocks : List Block) (words : List ℕ) : Prop :=
  ∃ b ∈ blocks, Agrees w b.base b.len words

/-- A table is left at a number exactly where all its blocks are left at a word. -/
theorem inTable_iff {w : ℕ} {v4 : Bool} {table : List String} {blocks : List Block}
    {words : List ℕ} (hrows : List.Forall₂ (ReadsAs w v4) table blocks) (hwords : Fit w words)
    (hwidth : words.length * w = if v4 then 32 else 128) (hw : 0 < w) :
    inTable table (number w words) v4 = true ↔ Held w blocks words := by
  unfold inTable Held
  induction hrows with
  | nil => simp
  | @cons row b table blocks hrow _ ih =>
    obtain ⟨hcidr, hlen, hbase, hpos, hbound⟩ := hrow
    have hlength : words.length = b.base.length :=
      Nat.eq_of_mul_eq_mul_right hw (hwidth.trans hlen.symm)
    have hhere := sameLead_iff_agrees hlength hwords hbase hbound
    rw [SameLead, Nat.mul_comm w, hlen] at hhere
    dsimp only at ih ⊢
    rw [List.any_cons, Bool.or_eq_true, ih, hcidr]
    dsimp only
    simp only [List.mem_cons, exists_eq_or_imp]
    rw [Bool.or_eq_true, beq_iff_eq, beq_iff_eq, Nat.shiftRight_eq_div_pow,
      Nat.shiftRight_eq_div_pow, hhere, or_iff_right (Nat.pos_iff_ne_zero.mp hpos)]

end Table

section Agreement

theorem isBlockedV4_iff {a b c d : ℕ} (ha : a < 256) (hb : b < 256) (hc : c < 256)
    (hd : d < 256) : isBlockedV4 (a, b, c, d) = true ↔ Held 8 v4Blocks [a, b, c, d] := by
  have hcgnat : b &&& 0xc0 = 64 ↔ b / 64 = 1 :=
    and_mask_eq_iff (w := 8) (k := 6) (q := 1) hb (by decide)
  have hbench : b &&& 0xfe = 18 ↔ b / 2 = 9 :=
    and_mask_eq_iff (w := 8) (k := 1) (q := 9) hb (by decide)
  have hprivate : 16 ≤ b ∧ b ≤ 31 ↔ b / 16 = 1 := by omega
  have hhigh : 224 ≤ a ↔ a / 16 = 14 ∨ a / 16 = 15 := by omega
  simp only [isBlockedV4, isLoopback, isPrivate, isLinkLocal, isDocumentation, Bool.or_eq_true,
    Bool.and_eq_true, beq_iff_eq, decide_eq_true_eq, hcgnat, hbench, hprivate, hhigh]
  simp [Held, v4Blocks, Agrees, hb, hc, hd]
  apply iff_of_eq
  ac_rfl

theorem isBlockedNativeV6_iff {s₀ s₁ s₂ s₃ s₄ s₅ s₆ s₇ : ℕ} (h₀ : s₀ < 65536)
    (h₁ : s₁ < 65536) (h₂ : s₂ < 65536) (h₃ : s₃ < 65536) (h₄ : s₄ < 65536) :
    isBlockedNativeV6 [s₀, s₁, s₂, s₃, s₄, s₅, s₆, s₇] = true ↔
      Held 16 v6Blocks [s₀, s₁, s₂, s₃, s₄, s₅, s₆, s₇] := by
  have hlocal : s₀ &&& 0xfe00 = 0xfc00 ↔ s₀ / 512 = 126 :=
    and_mask_eq_iff (w := 16) (k := 9) (q := 126) h₀ (by decide)
  have hlink : s₀ &&& 0xffc0 = 0xfe80 ↔ s₀ / 64 = 1018 :=
    and_mask_eq_iff (w := 16) (k := 6) (q := 1018) h₀ (by decide)
  have hsite : s₀ &&& 0xffc0 = 0xfec0 ↔ s₀ / 64 = 1019 :=
    and_mask_eq_iff (w := 16) (k := 6) (q := 1019) h₀ (by decide)
  have hmulticast : s₀ &&& 0xff00 = 0xff00 ↔ s₀ / 256 = 255 :=
    and_mask_eq_iff (w := 16) (k := 8) (q := 255) h₀ (by decide)
  simp [isBlockedNativeV6, Held, v6Blocks, Agrees, hlocal, hlink, hsite, hmulticast, h₁, h₂, h₃,
    h₄, and_assoc]
  apply iff_of_eq
  ac_rfl

/-- The words of two groups are their octets. -/
theorem number_octets (high low : ℕ) :
    number 8 [high / 256, high % 256, low / 256, low % 256] = high * 65536 + low := by
  simp only [number, List.length_cons, List.length_nil]
  omega

theorem isBlockedV4_octets {high low : ℕ} (hhigh : high < 65536) (hlow : low < 65536) :
    isBlockedV4 (octets high low) = v4Blocked (high * 65536 + low) := by
  rw [Bool.eq_iff_iff, ← number_octets, octets,
    isBlockedV4_iff (by omega) (by omega) (by omega) (by omega)]
  exact (inTable_iff reads_v4Blocks (by simp [Fit]; omega) rfl (by decide)).symm

theorem inPrefix_iff {row : String} {b : Block} {seg : List ℕ} (hrow : ReadsAs 16 false row b)
    (hlen : seg.length = 8) (hfit : ∀ x ∈ seg, x < 65536) :
    inPrefix (number 16 seg) row = true ↔ Agrees 16 b.base b.len seg := by
  have htable := inTable_iff (.cons hrow .nil) hfit (by rw [hlen]; rfl) (by decide)
  refine htable.trans ?_
  unfold Held
  simp only [List.mem_singleton, exists_eq_left]

section Forms
variable {s₀ s₁ s₂ s₃ s₄ s₅ s₆ s₇ : ℕ}
  (hfit : ∀ x ∈ [s₀, s₁, s₂, s₃, s₄, s₅, s₆, s₇], x < 65536)
include hfit

theorem inPrefix_mapped :
    inPrefix (number 16 [s₀, s₁, s₂, s₃, s₄, s₅, s₆, s₇]) "::ffff:0:0/96" = true ↔
      s₀ = 0 ∧ s₁ = 0 ∧ s₂ = 0 ∧ s₃ = 0 ∧ s₄ = 0 ∧ s₅ = 0xffff := by
  have hrow : ReadsAs 16 false "::ffff:0:0/96" ⟨[0, 0, 0, 0, 0, 0xffff, 0, 0], 96⟩ := by
    decide +kernel
  have h₆ : s₆ < 65536 := hfit s₆ (by simp)
  refine (inPrefix_iff hrow rfl hfit).trans ?_
  simp [Agrees, h₆]

theorem inPrefix_compatible :
    inPrefix (number 16 [s₀, s₁, s₂, s₃, s₄, s₅, s₆, s₇]) "::/96" = true ↔
      s₀ = 0 ∧ s₁ = 0 ∧ s₂ = 0 ∧ s₃ = 0 ∧ s₄ = 0 ∧ s₅ = 0 := by
  have hrow : ReadsAs 16 false "::/96" ⟨[0, 0, 0, 0, 0, 0, 0, 0], 96⟩ := by decide +kernel
  have h₆ : s₆ < 65536 := hfit s₆ (by simp)
  refine (inPrefix_iff hrow rfl hfit).trans ?_
  simp [Agrees, h₆]

theorem inPrefix_nat64 :
    inPrefix (number 16 [s₀, s₁, s₂, s₃, s₄, s₅, s₆, s₇]) "64:ff9b::/96" = true ↔
      s₀ = 0x64 ∧ s₁ = 0xff9b ∧ s₂ = 0 ∧ s₃ = 0 ∧ s₄ = 0 ∧ s₅ = 0 := by
  have hrow : ReadsAs 16 false "64:ff9b::/96" ⟨[0x64, 0xff9b, 0, 0, 0, 0, 0, 0], 96⟩ := by
    decide +kernel
  have h₆ : s₆ < 65536 := hfit s₆ (by simp)
  refine (inPrefix_iff hrow rfl hfit).trans ?_
  simp [Agrees, h₆]

theorem inPrefix_sixToFour :
    inPrefix (number 16 [s₀, s₁, s₂, s₃, s₄, s₅, s₆, s₇]) "2002::/16" = true ↔
      s₀ = 0x2002 := by
  have hrow : ReadsAs 16 false "2002::/16" ⟨[0x2002, 0, 0, 0, 0, 0, 0, 0], 16⟩ := by
    decide +kernel
  have h₁ : s₁ < 65536 := hfit s₁ (by simp)
  refine (inPrefix_iff hrow rfl hfit).trans ?_
  simp [Agrees, h₁]

theorem isBlockedIp_v6 :
    isBlockedIp (.v6 [s₀, s₁, s₂, s₃, s₄, s₅, s₆, s₇]) =
      expected (.v6 [s₀, s₁, s₂, s₃, s₄, s₅, s₆, s₇]) := by
  have hbounds : s₀ < 65536 ∧ s₁ < 65536 ∧ s₂ < 65536 ∧ s₃ < 65536 ∧ s₄ < 65536 ∧
      s₅ < 65536 ∧ s₆ < 65536 ∧ s₇ < 65536 := by simpa using hfit
  obtain ⟨h₀, h₁, h₂, h₃, h₄, h₅, h₆, h₇⟩ := hbounds
  have hlow : number 16 [s₀, s₁, s₂, s₃, s₄, s₅, s₆, s₇] % 2 ^ 32 = s₆ * 65536 + s₇ := by
    simp only [number, List.length_cons, List.length_nil]
    omega
  have hmiddle : number 16 [s₀, s₁, s₂, s₃, s₄, s₅, s₆, s₇] / 2 ^ 80 % 2 ^ 32 =
      s₁ * 65536 + s₂ := by
    simp only [number, List.length_cons, List.length_nil]
    omega
  have hnative : isBlockedNativeV6 [s₀, s₁, s₂, s₃, s₄, s₅, s₆, s₇] =
      inTable v6BlockedRows (number 16 [s₀, s₁, s₂, s₃, s₄, s₅, s₆, s₇]) false := by
    rw [Bool.eq_iff_iff, isBlockedNativeV6_iff h₀ h₁ h₂ h₃ h₄]
    exact (inTable_iff reads_v6Blocks hfit rfl (by decide)).symm
  unfold expected
  simp only [bitsOf, Bool.or_eq_true, inPrefix_mapped hfit, inPrefix_compatible hfit,
    inPrefix_nat64 hfit, inPrefix_sixToFour hfit, hlow, hmiddle, ← hnative,
    ← isBlockedV4_octets h₆ h₇, ← isBlockedV4_octets h₁ h₂]
  unfold isBlockedIp embeddedV4 toIpv4
  simp only [List.take_succ_cons, List.take_zero, List.getD_cons_zero, List.getD_cons_succ,
    List.cons.injEq, and_true]
  by_cases hv4 : (s₀ = 0 ∧ s₁ = 0 ∧ s₂ = 0 ∧ s₃ = 0 ∧ s₄ = 0) ∧ (s₅ = 0 ∨ s₅ = 0xffff)
  · have hcarried : (s₀ = 0 ∧ s₁ = 0 ∧ s₂ = 0 ∧ s₃ = 0 ∧ s₄ = 0 ∧ s₅ = 0xffff ∨
        s₀ = 0 ∧ s₁ = 0 ∧ s₂ = 0 ∧ s₃ = 0 ∧ s₄ = 0 ∧ s₅ = 0) ∨
        s₀ = 0x64 ∧ s₁ = 0xff9b ∧ s₂ = 0 ∧ s₃ = 0 ∧ s₄ = 0 ∧ s₅ = 0 := by
      obtain ⟨⟨hs₀, hs₁, hs₂, hs₃, hs₄⟩, hs₅ | hs₅⟩ := hv4
      · exact .inl (.inr ⟨hs₀, hs₁, hs₂, hs₃, hs₄, hs₅⟩)
      · exact .inl (.inl ⟨hs₀, hs₁, hs₂, hs₃, hs₄, hs₅⟩)
    rw [if_pos hv4, if_pos hcarried]
  · rw [if_neg hv4]
    by_cases hnat : s₀ = 0x64 ∧ s₁ = 0xff9b ∧ s₂ = 0 ∧ s₃ = 0 ∧ s₄ = 0 ∧ s₅ = 0
    · rw [if_pos hnat, if_pos (.inr hnat)]
    · have hnone : ¬ ((s₀ = 0 ∧ s₁ = 0 ∧ s₂ = 0 ∧ s₃ = 0 ∧ s₄ = 0 ∧ s₅ = 0xffff ∨
          s₀ = 0 ∧ s₁ = 0 ∧ s₂ = 0 ∧ s₃ = 0 ∧ s₄ = 0 ∧ s₅ = 0) ∨
          s₀ = 0x64 ∧ s₁ = 0xff9b ∧ s₂ = 0 ∧ s₃ = 0 ∧ s₄ = 0 ∧ s₅ = 0) := by
        omega
      rw [if_neg hnat, if_neg hnone]
      by_cases hsix : s₀ = 0x2002
      · rw [if_pos hsix, if_pos hsix]
      · rw [if_neg hsix, if_neg hsix]

end Forms

theorem isBlockedIp_eq_expected {ip : IpAddr} (h : Proper ip) : isBlockedIp ip = expected ip := by
  cases ip with
  | v4 a b c d =>
    obtain ⟨ha, hb, hc, hd⟩ := h
    have hwords : Fit 8 [a, b, c, d] := by
      simpa [Fit] using ⟨ha, hb, hc, hd⟩
    rw [Bool.eq_iff_iff]
    exact (isBlockedV4_iff ha hb hc hd).trans
      (inTable_iff reads_v4Blocks hwords rfl (by decide)).symm
  | v6 seg =>
    obtain ⟨hlen, hfit⟩ := h
    match seg, hlen with
    | [s₀, s₁, s₂, s₃, s₄, s₅, s₆, s₇], _ => exact isBlockedIp_v6 hfit

/-- The rule and the table agree on every address, and so on every literal. -/
theorem rule_agrees_with_table :
    (∀ ip, Proper ip → isBlockedIp ip = expected ip) ∧
      ∀ text ip, parseIp text = some ip → isBlockedIp ip = expected ip :=
  ⟨fun _ => isBlockedIp_eq_expected,
    fun _ _ hparse => isBlockedIp_eq_expected (proper_of_parseIp hparse)⟩

/-- A NAT64 form of the metadata address of a cloud. -/
theorem metadata_behind_nat64 :
    isBlockedIp (.v6 [0x64, 0xff9b, 0, 0, 0, 0, 0xa9fe, 0xa9fe]) = true ∧
      isBlockedIp (.v6 [0x64, 0xff9b, 0, 0, 0, 0, 0xa9fe, 0xa9fe]) =
        expected (.v6 [0x64, 0xff9b, 0, 0, 0, 0, 0xa9fe, 0xa9fe]) :=
  ⟨by decide, rule_agrees_with_table.2 "64:ff9b::169.254.169.254" _ (by decide)⟩

end Agreement

end BatleHub.PublicAddresses
