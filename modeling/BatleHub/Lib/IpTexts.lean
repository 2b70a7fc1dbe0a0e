import BatleHub.Lib.Hex

/-!
Internet addresses as texts, read and written as the Rust standard library does: four
decimal octets without leading zeros, or eight groups of hexadecimal digits of which `::`
stands for the missing ones and the last two may be written as octets.
-/
namespace BatleHub.Lib.IpTexts

/-- An address as its octets or as its eight groups of sixteen bits. -/
inductive IpAddr where
  | v4 (a b c d : ℕ)
  | v6 (segments : List ℕ)
  deriving DecidableEq, Repr

section Reading

def digitValue (radix : ℕ) (c : Char) : Option ℕ := (Hex.valueOf c).filter fun d => decide (d < radix)

def takeDigits (radix : ℕ) : List Char → List ℕ × List Char
  | [] => ([], [])
  | c :: rest =>
    match digitValue radix c with
    | some d => (d :: (takeDigits radix rest).1, (takeDigits radix rest).2)
    | none => ([], c :: rest)

/-- Up to `maxDigits` digits of a number below `bound`. -/
def readNumber (radix maxDigits : ℕ) (allowZeroPrefix : Bool) (bound : ℕ) (input : List Char) :
    Option (ℕ × List Char) :=
  let (digits, rest) := takeDigits radix input
  let value := digits.foldl (fun n d => n * radix + d) 0
  if digits = [] ∨ maxDigits < digits.length then none
  else if allowZeroPrefix = false ∧ digits.head? = some 0 ∧ 1 < digits.length then none
  else if value < bound then some (value, rest)
  else none

/-- `inner` behind the separator, which the first of a sequence has not. -/
def readSeparator {α : Type*} (sep : Char) (isFirst : Bool)
    (inner : List Char → Option (α × List Char)) (input : List Char) : Option (α × List Char) :=
  if isFirst then inner input
  else
    match input with
    | [] => none
    | c :: rest => if c = sep then inner rest else none

def readOctet (isFirst : Bool) : List Char → Option (ℕ × List Char) :=
  readSeparator '.' isFirst (readNumber 10 3 false 256)

def readIpv4 (input : List Char) : Option ((ℕ × ℕ × ℕ × ℕ) × List Char) :=
  (readOctet true input).bind fun (a, rest) =>
    (readOctet false rest).bind fun (b, rest) =>
      (readOctet false rest).bind fun (c, rest) =>
        (readOctet false rest).map fun (d, rest) => ((a, b, c, d), rest)

/-- Up to `limit` groups, and whether octets ended them. Octets need room for two groups. -/
def readGroups : (limit : ℕ) → Bool → List Char → List ℕ × Bool × List Char
  | 0, _, input => ([], false, input)
  | left + 1, isFirst, input =>
    match if 0 < left then readSeparator ':' isFirst readIpv4 input else none with
    | some ((a, b, c, d), rest) => ([a * 256 + b, c * 256 + d], true, rest)
    | none =>
      match readSeparator ':' isFirst (readNumber 16 4 true 65536) input with
      | some (group, rest) =>
        let (groups, octets, rest) := readGroups left false rest
        (group :: groups, octets, rest)
      | none => ([], false, input)

def readIpv6 (input : List Char) : Option (List ℕ × List Char) :=
  let (head, octets, rest) := readGroups 8 true input
  if head.length = 8 then some (head, rest)
  else if octets then none
  else
    match rest with
    | ':' :: ':' :: rest =>
      let (tail, _, rest) := readGroups (7 - head.length) true rest
      some (head ++ List.replicate (8 - head.length - tail.length) 0 ++ tail, rest)
    | _ => none

def readIpAddr (input : List Char) : Option (IpAddr × List Char) :=
  match readIpv4 input with
  | some ((a, b, c, d), rest) => some (.v4 a b c d, rest)
  | none => (readIpv6 input).map fun (segments, rest) => (.v6 segments, rest)

/-- The address the whole text is. -/
def parseIp (text : String) : Option IpAddr :=
  match readIpAddr text.toList with
  | some (a, []) => some a
  | _ => none

end Reading

section Writing

def ipv4Text (a b c d : ℕ) : String :=
  toString a ++ "." ++ toString b ++ "." ++ toString c ++ "." ++ toString d

def groupText (group : ℕ) : String := String.ofList (Nat.toDigits 16 group)

def groupsText (groups : List ℕ) : String := ":".intercalate (groups.map groupText)

/-- Where a run of zeros starts and how long it is. -/
structure Span where
  start : ℕ
  length : ℕ

/-- The first of the longest runs of zeros, from position `i` on. -/
def longestZeroes : (i : ℕ) → (current longest : Span) → List ℕ → Span
  | _, _, longest, [] => longest
  | i, current, longest, segment :: rest =>
    if segment = 0 then
      let current := ⟨if current.length = 0 then i else current.start, current.length + 1⟩
      longestZeroes (i + 1) current (if longest.length < current.length then current else longest)
        rest
    else longestZeroes (i + 1) ⟨0, 0⟩ longest rest

def ipv6Text (segments : List ℕ) : String :=
  match segments with
  | [0, 0, 0, 0, 0, 65535, g, h] =>
    "::ffff:" ++ ipv4Text (g / 256) (g % 256) (h / 256) (h % 256)
  | _ =>
    let zeroes := longestZeroes 0 ⟨0, 0⟩ ⟨0, 0⟩ segments
    if 1 < zeroes.length then
      groupsText (segments.take zeroes.start) ++ "::" ++
        groupsText (segments.drop (zeroes.start + zeroes.length))
    else groupsText segments

end Writing

section Characters

/-- The characters that addresses are made of. -/
def IsAddressChar (c : Char) : Prop := Hex.valueOf c ≠ none ∨ c = '.' ∨ c = ':'

instance (c : Char) : Decidable (IsAddressChar c) :=
  inferInstanceAs (Decidable (_ ∨ _))

/-- What was read between `input` and `rest` is made of address characters. -/
def Reads (input rest : List Char) : Prop := ∃ used, input = used ++ rest ∧ ∀ c ∈ used, IsAddressChar c

theorem Reads.refl (input : List Char) : Reads input input := ⟨[], rfl, fun _ h => by cases h⟩

theorem Reads.trans {input mid rest : List Char} (h : Reads input mid) (h' : Reads mid rest) :
    Reads input rest := by
  obtain ⟨used, rfl, hused⟩ := h
  obtain ⟨used', rfl, hused'⟩ := h'
  refine ⟨used ++ used', (List.append_assoc _ _ _).symm, fun c hc => ?_⟩
  rcases List.mem_append.mp hc with hmem | hmem
  · exact hused c hmem
  · exact hused' c hmem

theorem Reads.cons {c : Char} {input rest : List Char} (hc : IsAddressChar c)
    (h : Reads input rest) : Reads (c :: input) rest :=
  Reads.trans ⟨[c], rfl, fun _ h => List.mem_singleton.mp h ▸ hc⟩ h

theorem reads_takeDigits (radix : ℕ) (input : List Char) :
    Reads input (takeDigits radix input).2 := by
  induction input with
  | nil => exact .refl _
  | cons c rest ih =>
    unfold takeDigits
    cases hdigit : digitValue radix c with
    | none => exact .refl _
    | some d =>
      refine ih.cons (.inl fun hnone => ?_)
      unfold digitValue at hdigit
      rw [hnone] at hdigit
      cases hdigit

theorem reads_readNumber {radix maxDigits bound value : ℕ} {allowZeroPrefix : Bool}
    {input rest : List Char}
    (h : readNumber radix maxDigits allowZeroPrefix bound input = some (value, rest)) :
    Reads input rest := by
  unfold readNumber at h
  dsimp only at h
  split at h
  · cases h
  · split at h
    · cases h
    · split at h
      · cases h
        exact reads_takeDigits radix input
      · cases h

theorem reads_readSeparator {α : Type*} {sep : Char} (hsep : IsAddressChar sep) {isFirst : Bool}
    {inner : List Char → Option (α × List Char)} {input rest : List Char} {value : α}
    (hinner : ∀ input, inner input = some (value, rest) → Reads input rest)
    (h : readSeparator sep isFirst inner input = some (value, rest)) : Reads input rest := by
  unfold readSeparator at h
  split at h
  · exact hinner input h
  · cases input with
    | nil => cases h
    | cons c input =>
      dsimp only at h
      split at h
      · rename_i hc
        subst hc
        exact (hinner input h).cons hsep
      · cases h

theorem reads_readOctet {isFirst : Bool} {input rest : List Char} {octet : ℕ}
    (h : readOctet isFirst input = some (octet, rest)) : Reads input rest :=
  reads_readSeparator (.inr (.inl rfl)) (fun _ => reads_readNumber) h

theorem reads_readIpv4 {input rest : List Char} {octets : ℕ × ℕ × ℕ × ℕ}
    (h : readIpv4 input = some (octets, rest)) : Reads input rest := by
  unfold readIpv4 at h
  obtain ⟨⟨a, rest₁⟩, ha, h⟩ := Option.bind_eq_some_iff.mp h
  obtain ⟨⟨b, rest₂⟩, hb, h⟩ := Option.bind_eq_some_iff.mp h
  obtain ⟨⟨c, rest₃⟩, hc, h⟩ := Option.bind_eq_some_iff.mp h
  obtain ⟨⟨d, rest₄⟩, hd, h⟩ := Option.map_eq_some_iff.mp h
  cases h
  exact (((reads_readOctet ha).trans (reads_readOctet hb)).trans (reads_readOctet hc)).trans
    (reads_readOctet hd)

theorem reads_readGroups (limit : ℕ) (isFirst : Bool) (input : List Char) :
    Reads input (readGroups limit isFirst input).2.2 := by
  induction limit generalizing isFirst input with
  | zero => exact .refl _
  | succ left ih =>
    unfold readGroups
    split
    · rename_i hoctets
      split at hoctets
      · exact reads_readSeparator (.inr (.inr rfl)) (fun _ => reads_readIpv4) hoctets
      · cases hoctets
    · split
      · rename_i hgroup
        exact (reads_readSeparator (.inr (.inr rfl)) (fun _ => reads_readNumber) hgroup).trans
          (ih false _)
      · exact .refl _

theorem reads_readIpv6 {input rest : List Char} {segments : List ℕ}
    (h : readIpv6 input = some (segments, rest)) : Reads input rest := by
  unfold readIpv6 at h
  have hhead := reads_readGroups 8 true input
  dsimp only at h
  split at h
  · cases h
    exact hhead
  · split at h
    · cases h
    · split at h
      · rename_i tail hrest
        cases h
        rw [hrest] at hhead
        refine hhead.trans (Reads.cons (.inr (.inr rfl)) (Reads.cons (.inr (.inr rfl)) ?_))
        exact reads_readGroups _ true tail
      · cases h

theorem reads_readIpAddr {input rest : List Char} {a : IpAddr}
    (h : readIpAddr input = some (a, rest)) : Reads input rest := by
  unfold readIpAddr at h
  split at h
  · rename_i hv4
    cases h
    exact reads_readIpv4 hv4
  · obtain ⟨⟨segments, rest'⟩, hv6, heq⟩ := Option.map_eq_some_iff.mp h
    cases heq
    exact reads_readIpv6 hv6

/-- A text with another character in it is no address. -/
theorem parseIp_eq_none {text : String} {c : Char} (hc : c ∈ text.toList)
    (hother : ¬ IsAddressChar c) : parseIp text = none := by
  unfold parseIp
  split
  · rename_i hread
    obtain ⟨used, heq, hused⟩ := reads_readIpAddr hread
    rw [heq, List.append_nil] at hc
    exact absurd (hused c hc) hother
  · rfl

end Characters

section Bounds

/-- An address of its width: octets, or eight groups of sixteen bits. -/
def Proper : IpAddr → Prop
  | .v4 a b c d => a < 256 ∧ b < 256 ∧ c < 256 ∧ d < 256
  | .v6 segments => segments.length = 8 ∧ ∀ x ∈ segments, x < 65536

instance (a : IpAddr) : Decidable (Proper a) :=
  match a with
  | .v4 _ _ _ _ => inferInstanceAs (Decidable (_ ∧ _ ∧ _ ∧ _))
  | .v6 _ => inferInstanceAs (Decidable (_ ∧ _))

theorem readNumber_lt {radix maxDigits bound value : ℕ} {allowZeroPrefix : Bool}
    {input rest : List Char}
    (h : readNumber radix maxDigits allowZeroPrefix bound input = some (value, rest)) :
    value < bound := by
  unfold readNumber at h
  dsimp only at h
  split at h
  · cases h
  · split at h
    · cases h
    · split at h
      · rename_i hlt
        cases h
        exact hlt
      · cases h

/-- What holds of all that is read behind no separator holds behind one. -/
theorem readSeparator_spec {α : Type*} {sep : Char} {isFirst : Bool} {P : α → Prop}
    {inner : List Char → Option (α × List Char)} {input rest : List Char} {value : α}
    (hinner : ∀ input rest, inner input = some (value, rest) → P value)
    (h : readSeparator sep isFirst inner input = some (value, rest)) : P value := by
  unfold readSeparator at h
  split at h
  · exact hinner input rest h
  · cases input with
    | nil => cases h
    | cons c input =>
      dsimp only at h
      split at h
      · exact hinner input rest h
      · cases h

theorem readOctet_lt {isFirst : Bool} {input rest : List Char} {octet : ℕ}
    (h : readOctet isFirst input = some (octet, rest)) : octet < 256 :=
  readSeparator_spec (P := (· < 256)) (fun _ _ => readNumber_lt) h

theorem readIpv4_lt {a b c d : ℕ} {input rest : List Char}
    (h : readIpv4 input = some ((a, b, c, d), rest)) : Proper (.v4 a b c d) := by
  unfold readIpv4 at h
  obtain ⟨⟨a, rest₁⟩, ha, h⟩ := Option.bind_eq_some_iff.mp h
  obtain ⟨⟨b, rest₂⟩, hb, h⟩ := Option.bind_eq_some_iff.mp h
  obtain ⟨⟨c, rest₃⟩, hc, h⟩ := Option.bind_eq_some_iff.mp h
  obtain ⟨⟨d, rest₄⟩, hd, h⟩ := Option.map_eq_some_iff.mp h
  cases h
  exact ⟨readOctet_lt ha, readOctet_lt hb, readOctet_lt hc, readOctet_lt hd⟩

theorem readGroups_spec (limit : ℕ) (isFirst : Bool) (input : List Char) :
    (readGroups limit isFirst input).1.length ≤ limit ∧
      ∀ x ∈ (readGroups limit isFirst input).1, x < 65536 := by
  induction limit generalizing isFirst input with
  | zero => exact ⟨Nat.le_refl _, fun x hx => by cases hx⟩
  | succ left ih =>
    unfold readGroups
    split
    · rename_i a b c d rest hoctets
      split at hoctets
      · rename_i hleft
        have hproper : Proper (.v4 a b c d) :=
          readSeparator_spec (P := fun q => Proper (.v4 q.1 q.2.1 q.2.2.1 q.2.2.2))
            (fun _ _ => readIpv4_lt) hoctets
        obtain ⟨ha, hb, hc, hd⟩ := hproper
        refine ⟨Nat.succ_le_succ hleft, fun x hx => ?_⟩
        simp only [List.mem_cons, List.not_mem_nil, or_false] at hx
        omega
      · cases hoctets
    · split
      · rename_i group rest hgroup
        have hlt : group < 65536 :=
          readSeparator_spec (P := (· < 65536)) (fun _ _ => readNumber_lt) hgroup
        have hrest := ih false rest
        refine ⟨Nat.succ_le_succ hrest.1, fun x hx => ?_⟩
        obtain rfl | hx := List.mem_cons.mp hx
        · exact hlt
        · exact hrest.2 x hx
      · exact ⟨Nat.zero_le _, fun x hx => by cases hx⟩

theorem readIpv6_proper {input rest : List Char} {segments : List ℕ}
    (h : readIpv6 input = some (segments, rest)) : Proper (.v6 segments) := by
  unfold readIpv6 at h
  have hhead := readGroups_spec 8 true input
  dsimp only at h
  split at h
  · rename_i hlen
    cases h
    exact ⟨hlen, hhead.2⟩
  · split at h
    · cases h
    · split at h
      · rename_i tail hrest
        cases h
        have htail := readGroups_spec (7 - (readGroups 8 true input).1.length) true tail
        constructor
        · rw [List.length_append, List.length_append, List.length_replicate]
          omega
        · intro x hx
          rw [List.mem_append, List.mem_append, List.mem_replicate] at hx
          obtain (hx | ⟨-, rfl⟩) | hx := hx
          · exact hhead.2 x hx
          · decide
          · exact htail.2 x hx
      · cases h

/-- What is read from a text has its width. -/
theorem proper_of_parseIp {text : String} {a : IpAddr} (h : parseIp text = some a) :
    Proper a := by
  unfold parseIp at h
  split at h
  · rename_i b hread
    cases h
    unfold readIpAddr at hread
    split at hread
    · rename_i hv4
      cases hread
      exact readIpv4_lt hv4
    · obtain ⟨⟨segments, rest⟩, hv6, heq⟩ := Option.map_eq_some_iff.mp hread
      cases heq
      exact readIpv6_proper hv6
  · cases h

end Bounds

end BatleHub.Lib.IpTexts
