import BatleHub.Lib.Framing
import BatleHub.Lib.Hex
import BatleHub.Lib.Spans
import Mathlib.Tactic.IntervalCases

/-!
JSON texts as bytes: a reader that gives the members of an object in their order, repeated
keys and all, and a writer without white space. What is written is read back. A reader may
also be given what to do with each member as it comes by, and then does what the reader of
whole values does first and the visitor afterwards.
-/
namespace BatleHub.Lib.JsonBytes

abbrev Bytes := List UInt8

/-- A JSON value as it is spelled. -/
inductive JsonTree (N : Type) where
  | null
  | bool (b : Bool)
  | number (n : N)
  | string (s : String)
  | array (items : List (JsonTree N))
  | object (members : List (String × JsonTree N))

section Depths
variable {N : Type}

mutual
/-- How many arrays and objects are open at once. -/
def JsonTree.depth : JsonTree N → ℕ
  | .array items => depthItems items + 1
  | .object members => depthMembers members + 1
  | _ => 0

def depthItems : List (JsonTree N) → ℕ
  | [] => 0
  | t :: items => max t.depth (depthItems items)

def depthMembers : List (String × JsonTree N) → ℕ
  | [] => 0
  | (_, t) :: members => max t.depth (depthMembers members)
end

theorem depthItems_le {items : List (JsonTree N)} {k : ℕ} :
    depthItems items ≤ k ↔ ∀ t ∈ items, t.depth ≤ k := by
  induction items with
  | nil => simp [depthItems]
  | cons t items ih => rw [depthItems, max_le_iff, ih, List.forall_mem_cons]

theorem depthMembers_le {members : List (String × JsonTree N)} {k : ℕ} :
    depthMembers members ≤ k ↔ ∀ member ∈ members, member.2.depth ≤ k := by
  induction members with
  | nil => simp [depthMembers]
  | cons member members ih => rw [depthMembers, max_le_iff, ih, List.forall_mem_cons]

end Depths

section Symbols

def openBrace : UInt8 := 123

def closeBrace : UInt8 := 125

def openBracket : UInt8 := 91

def closeBracket : UInt8 := 93

def comma : UInt8 := 44

def colon : UInt8 := 58

def quoteMark : UInt8 := 34

def backslash : UInt8 := 92

def isBlank (b : UInt8) : Bool := b = 32 || b = 9 || b = 10 || b = 13

def skipBlank (bytes : Bytes) : Bytes := bytes.dropWhile isBlank

def isNumberByte (b : UInt8) : Bool :=
  (48 ≤ b && b ≤ 57) || b = 43 || b = 45 || b = 46 || b = 69 || b = 101

/-- A number starts with a digit or a minus sign. -/
def startsNumber (b : UInt8) : Bool := (48 ≤ b && b ≤ 57) || b = 45

/-- How numbers are read and written. -/
structure Numerals (N : Type) where
  read : Bytes → Option N
  write : N → Bytes
  read_write : ∀ n, read (write n) = some n
  write_bytes : ∀ n, ∀ b ∈ write n, isNumberByte b = true
  write_head : ∀ n, ∃ b rest, write n = b :: rest ∧ startsNumber b = true

end Symbols

section Strings

def escapeByte (b : UInt8) : Bytes :=
  if b = quoteMark then [backslash, quoteMark]
  else if b = backslash then [backslash, backslash]
  else if b = 8 then [backslash, 98]
  else if b = 9 then [backslash, 116]
  else if b = 10 then [backslash, 110]
  else if b = 12 then [backslash, 102]
  else if b = 13 then [backslash, 114]
  else if b < 32 then
    [backslash, 117, 48, 48, UInt8.ofNat (Hex.digitOf (b.toNat / 16)).toNat,
      UInt8.ofNat (Hex.digitOf (b.toNat % 16)).toNat]
  else [b]

def writeString (s : String) : Bytes :=
  quoteMark :: ((Framing.utf8 s).flatMap escapeByte ++ [quoteMark])

def simpleEscape (b : UInt8) : Option UInt8 :=
  if b = quoteMark then some quoteMark
  else if b = backslash then some backslash
  else if b = 47 then some 47
  else if b = 98 then some 8
  else if b = 102 then some 12
  else if b = 110 then some 10
  else if b = 114 then some 13
  else if b = 116 then some 9
  else none

def hexByte (b : UInt8) : Option ℕ := Hex.valueOf (Char.ofNat b.toNat)

def readHexFour : Bytes → Option (ℕ × Bytes)
  | a :: b :: c :: d :: rest =>
    match hexByte a, hexByte b, hexByte c, hexByte d with
    | some a, some b, some c, some d => some (((a * 16 + b) * 16 + c) * 16 + d, rest)
    | _, _, _, _ => none
  | _ => none

/-- The code unit behind a backslash and a `u`, with its low surrogate where it is a high one. -/
def readUnit (bytes : Bytes) : Option (Bytes × Bytes) :=
  match readHexFour bytes with
  | none => none
  | some (n, rest) =>
    if 0xdc00 ≤ n ∧ n ≤ 0xdfff then none
    else if 0xd800 ≤ n ∧ n ≤ 0xdbff then
      match rest with
      | 92 :: 117 :: low =>
        match readHexFour low with
        | none => none
        | some (m, rest) =>
          if 0xdc00 ≤ m ∧ m ≤ 0xdfff then
            some (String.utf8EncodeChar
              (Char.ofNat (0x10000 + (n - 0xd800) * 0x400 + (m - 0xdc00))), rest)
          else none
      | _ => none
    else some (String.utf8EncodeChar (Char.ofNat n), rest)

def readEscape : Bytes → Option (Bytes × Bytes)
  | [] => none
  | b :: rest =>
    if b = 117 then readUnit rest else (simpleEscape b).map fun c => ([c], rest)

/-- The bytes up to the closing quotation mark; each step takes a byte or more. -/
def readChars : ℕ → Bytes → Option (Bytes × Bytes)
  | 0, _ => none
  | _ + 1, [] => none
  | fuel + 1, b :: rest =>
    if b = quoteMark then some ([], rest)
    else if b = backslash then
      match readEscape rest with
      | none => none
      | some (bytes, rest) =>
        (readChars fuel rest).map fun read => (bytes ++ read.1, read.2)
    else if b < 32 then none
    else (readChars fuel rest).map fun read => (b :: read.1, read.2)

def decodeUtf8 (bytes : Bytes) : Option String := String.fromUTF8? ⟨bytes.toArray⟩

/-- A string, from behind its opening quotation mark. -/
def readString (bytes : Bytes) : Option (String × Bytes) :=
  match readChars bytes.length bytes with
  | none => none
  | some (content, rest) => (decodeUtf8 content).map fun s => (s, rest)

theorem decodeUtf8_utf8 (s : String) : decodeUtf8 (Framing.utf8 s) = some s := by
  have hbytes : ByteArray.mk (Framing.utf8 s).toArray = s.toUTF8 := by
    unfold Framing.utf8
    rw [Array.toArray_toList]
  rw [decodeUtf8, hbytes, String.fromUTF8?]
  exact dif_pos s.isValidUTF8

theorem readChars_escapeByte (fuel : ℕ) (b : UInt8) (rest : Bytes) :
    readChars (fuel + 1) (escapeByte b ++ rest) =
      (readChars fuel rest).map fun read => (b :: read.1, read.2) := by
  by_cases hctl : b < 32
  · have hcontrol : ∀ n < 32, readChars (fuel + 1) (escapeByte (UInt8.ofNat n) ++ rest) =
        (readChars fuel rest).map fun read => (UInt8.ofNat n :: read.1, read.2) := by
      intro n hn
      interval_cases n <;> rfl
    rw [← UInt8.ofNat_toNat (x := b)]
    exact hcontrol b.toNat hctl
  · by_cases hquote : b = quoteMark
    · subst hquote
      rfl
    · by_cases hslash : b = backslash
      · subst hslash
        rfl
      · have hplain : escapeByte b = [b] := by
          have hne : ∀ c : UInt8, c < 32 → b ≠ c := by
            rintro c hc rfl
            exact hctl hc
          unfold escapeByte
          rw [if_neg hquote, if_neg hslash, if_neg (hne 8 (by decide)), if_neg (hne 9 (by decide)),
            if_neg (hne 10 (by decide)), if_neg (hne 12 (by decide)), if_neg (hne 13 (by decide)),
            if_neg hctl]
        rw [hplain, List.singleton_append, readChars, if_neg hquote, if_neg hslash, if_neg hctl]

theorem readChars_flatMap (content rest : Bytes) {fuel : ℕ} (h : content.length < fuel) :
    readChars fuel (content.flatMap escapeByte ++ quoteMark :: rest) = some (content, rest) := by
  induction content generalizing fuel with
  | nil =>
    obtain ⟨fuel, rfl⟩ := Nat.exists_eq_succ_of_ne_zero (Nat.ne_of_gt h)
    rfl
  | cons b content ih =>
    obtain ⟨fuel, rfl⟩ := Nat.exists_eq_succ_of_ne_zero (Nat.ne_of_gt (Nat.zero_lt_of_lt h))
    rw [List.flatMap_cons, List.append_assoc, readChars_escapeByte,
      ih (Nat.lt_of_succ_lt_succ h)]
    rfl

theorem escapeByte_ne_nil (b : UInt8) : escapeByte b ≠ [] := by
  unfold escapeByte
  split_ifs <;> exact List.cons_ne_nil _ _

theorem length_le_flatMap (content : Bytes) :
    content.length ≤ (content.flatMap escapeByte).length := by
  induction content with
  | nil => exact Nat.le_refl 0
  | cons b content ih =>
    have hpos := List.length_pos_iff.mpr (escapeByte_ne_nil b)
    rw [List.flatMap_cons, List.length_append, List.length_cons]
    omega

/-- A string is read back, and the reader stands behind it. -/
theorem readString_writeString (s : String) (rest : Bytes) :
    ∃ tail, writeString s ++ rest = quoteMark :: tail ∧ readString tail = some (s, rest) := by
  refine ⟨(Framing.utf8 s).flatMap escapeByte ++ quoteMark :: rest, by simp [writeString], ?_⟩
  have hfuel : (Framing.utf8 s).length <
      ((Framing.utf8 s).flatMap escapeByte ++ quoteMark :: rest).length := by
    have hle := length_le_flatMap (Framing.utf8 s)
    rw [List.length_append, List.length_cons]
    omega
  rw [readString, readChars_flatMap _ _ hfuel]
  simp only [decodeUtf8_utf8, Option.map_some]

end Strings

section Readers
variable {N σ : Type} (num : Numerals N)

/-- A literal behind its first byte. -/
def readLiteral (rest : Bytes) (t : JsonTree N) (bytes : Bytes) : Option (JsonTree N × Bytes) :=
  if rest.isPrefixOf bytes then some (t, bytes.drop rest.length) else none

def readNumber (bytes : Bytes) : Option (JsonTree N × Bytes) :=
  (num.read (bytes.takeWhile isNumberByte)).map fun n =>
    (.number n, bytes.dropWhile isNumberByte)

/-- A value that is neither an array nor an object, at its first byte. -/
def readScalar : Bytes → Option (JsonTree N × Bytes)
  | [] => none
  | b :: rest =>
    if b = 110 then readLiteral [117, 108, 108] .null rest
    else if b = 116 then readLiteral [114, 117, 101] (.bool true) rest
    else if b = 102 then readLiteral [97, 108, 115, 101] (.bool false) rest
    else if b = quoteMark then (readString rest).map fun read => (.string read.1, read.2)
    else if startsNumber b then readNumber num (b :: rest)
    else none

/-- What stands before the next member or item, if there is one: a comma but for the first. -/
def nextElement (first : Bool) (bytes : Bytes) : Option Bytes :=
  if first then some bytes
  else
    match bytes with
    | [] => none
    | b :: rest => if b = comma then some (skipBlank rest) else none

/-- The key of a member and the bytes behind its colon. -/
def readKey : Bytes → Option (String × Bytes)
  | [] => none
  | b :: rest =>
    if b = quoteMark then
      match readString rest with
      | none => none
      | some (key, rest) =>
        match skipBlank rest with
        | [] => none
        | c :: rest => if c = colon then some (key, rest) else none
    else none

/-- The members of an object from behind its brace, each shown to a visitor that reads its value
off the bytes. -/
def visitMembers (visit : σ → String → Bytes → Option (σ × Bytes)) :
    ℕ → Bool → σ → Bytes → Option (σ × Bytes)
  | 0, _, _, _ => none
  | fuel + 1, first, s, bytes =>
    match skipBlank bytes with
    | [] => none
    | b :: rest =>
      if b = closeBrace then some (s, rest)
      else
        match (nextElement first (b :: rest)).bind readKey with
        | none => none
        | some (key, rest) =>
          match visit s key rest with
          | none => none
          | some (s, rest) => visitMembers visit fuel false s rest

/-- The items of an array from behind its bracket. -/
def readItems (readOne : Bytes → Option (JsonTree N × Bytes)) :
    ℕ → Bool → List (JsonTree N) → Bytes → Option (List (JsonTree N) × Bytes)
  | 0, _, _, _ => none
  | fuel + 1, first, items, bytes =>
    match skipBlank bytes with
    | [] => none
    | b :: rest =>
      if b = closeBracket then some (items, rest)
      else
        match (nextElement first (b :: rest)).bind readOne with
        | none => none
        | some (t, rest) => readItems readOne fuel false (items ++ [t]) rest

/-- The visitor that keeps what it is shown. -/
def collect (readOne : Bytes → Option (JsonTree N × Bytes)) (members : List (String × JsonTree N))
    (key : String) (bytes : Bytes) : Option (List (String × JsonTree N) × Bytes) :=
  (readOne bytes).map fun read => (members ++ [(key, read.1)], read.2)

def readMembers (readOne : Bytes → Option (JsonTree N × Bytes)) (bytes : Bytes) :
    Option (List (String × JsonTree N) × Bytes) :=
  visitMembers (collect readOne) bytes.length true [] bytes

/-- An object that a visitor is shown the members of; another value is an error. -/
def visitObject (visit : σ → String → Bytes → Option (σ × Bytes)) (start : σ) (bytes : Bytes) :
    Option (σ × Bytes) :=
  match skipBlank bytes with
  | [] => none
  | b :: rest =>
    if b = openBrace then visitMembers visit rest.length true start rest else none

/-- A value, with no more than so many arrays and objects open at once. -/
def readValue : ℕ → Bytes → Option (JsonTree N × Bytes)
  | 0, bytes => readScalar num (skipBlank bytes)
  | limit + 1, bytes =>
    match skipBlank bytes with
    | [] => none
    | b :: rest =>
      if b = openBrace then
        (readMembers (readValue limit) rest).map fun read => (.object read.1, read.2)
      else if b = openBracket then
        (readItems (readValue limit) rest.length true [] rest).map fun read =>
          (.array read.1, read.2)
      else readScalar num (b :: rest)

end Readers

section Writers
variable {N : Type} (num : Numerals N)

def separator (first : Bool) : Bytes := if first then [] else [comma]

mutual
def write : JsonTree N → Bytes
  | .null => [110, 117, 108, 108]
  | .bool true => [116, 114, 117, 101]
  | .bool false => [102, 97, 108, 115, 101]
  | .number n => num.write n
  | .string s => writeString s
  | .array items => openBracket :: (writeItems true items ++ [closeBracket])
  | .object members => openBrace :: (writeMembers true members ++ [closeBrace])

def writeItems : Bool → List (JsonTree N) → Bytes
  | _, [] => []
  | first, t :: items => separator first ++ write t ++ writeItems false items

def writeMembers : Bool → List (String × JsonTree N) → Bytes
  | _, [] => []
  | first, (key, t) :: members =>
    separator first ++ writeString key ++ [colon] ++ write t ++ writeMembers false members
end

end Writers

section RoundTrip
variable {N : Type} (num : Numerals N)

/-- No number goes on here. -/
abbrev Stops (bytes : Bytes) : Prop := Spans.Stops isNumberByte bytes

theorem skipBlank_cons {b : UInt8} (h : isBlank b = false) (rest : Bytes) :
    skipBlank (b :: rest) = b :: rest := by
  unfold skipBlank
  rw [List.dropWhile_cons_of_neg (by simpa using h)]

/-- What the first byte of a value is not. -/
structure Opens (b : UInt8) : Prop where
  blank : isBlank b = false
  bracket : b ≠ closeBracket
  brace : b ≠ closeBrace

theorem opens_of_startsNumber {b : UInt8} (h : startsNumber b = true) :
    Opens b ∧ b ≠ 110 ∧ b ≠ 116 ∧ b ≠ 102 ∧ b ≠ quoteMark ∧ b ≠ openBrace ∧ b ≠ openBracket := by
  have hall : ∀ n < 256, startsNumber (UInt8.ofNat n) = true →
      isBlank (UInt8.ofNat n) = false ∧ UInt8.ofNat n ≠ closeBracket ∧
        UInt8.ofNat n ≠ closeBrace ∧ UInt8.ofNat n ≠ 110 ∧ UInt8.ofNat n ≠ 116 ∧
        UInt8.ofNat n ≠ 102 ∧ UInt8.ofNat n ≠ quoteMark ∧ UInt8.ofNat n ≠ openBrace ∧
        UInt8.ofNat n ≠ openBracket := by decide +kernel
  have hb := hall b.toNat b.toNat_lt
  rw [UInt8.ofNat_toNat] at hb
  obtain ⟨hblank, hbracket, hbrace, hother⟩ := hb h
  exact ⟨⟨hblank, hbracket, hbrace⟩, hother⟩

theorem exists_opens_write (t : JsonTree N) :
    ∃ b rest, write num t = b :: rest ∧ Opens b := by
  have hplain : ∀ b ∈ ([110, 116, 102, quoteMark, openBracket, openBrace] : Bytes),
      isBlank b = false ∧ b ≠ closeBracket ∧ b ≠ closeBrace := by
    intro b hb
    simp only [List.mem_cons, List.not_mem_nil, or_false] at hb
    rcases hb with rfl | rfl | rfl | rfl | rfl | rfl <;> decide
  have hopens : ∀ b ∈ ([110, 116, 102, quoteMark, openBracket, openBrace] : Bytes), Opens b :=
    fun b hb => ⟨(hplain b hb).1, (hplain b hb).2.1, (hplain b hb).2.2⟩
  cases t with
  | null => exact ⟨_, _, rfl, hopens _ (by decide)⟩
  | bool b =>
    cases b with
    | true => exact ⟨_, _, rfl, hopens _ (by decide)⟩
    | false => exact ⟨_, _, rfl, hopens _ (by decide)⟩
  | number n =>
    obtain ⟨b, rest, hwrite, hb⟩ := num.write_head n
    exact ⟨b, rest, by rw [write, hwrite], (opens_of_startsNumber hb).1⟩
  | string s => exact ⟨_, _, rfl, hopens _ (by decide)⟩
  | array items => exact ⟨_, _, rfl, hopens _ (by decide)⟩
  | object members => exact ⟨_, _, rfl, hopens _ (by decide)⟩

theorem readNumber_write (n : N) {rest : Bytes} (h : Stops rest) :
    readNumber num (num.write n ++ rest) = some (.number n, rest) := by
  rw [readNumber, Spans.takeWhile_append (num.write_bytes n) h,
    Spans.dropWhile_append (num.write_bytes n) h, num.read_write]
  rfl

theorem readLiteral_append (lead : Bytes) (t : JsonTree N) (rest : Bytes) :
    readLiteral lead t (lead ++ rest) = some (t, rest) := by
  rw [readLiteral, if_pos (List.isPrefixOf_iff_prefix.mpr (List.prefix_append lead rest)),
    List.drop_left]

theorem readScalar_write {t : JsonTree N} (h : t.depth = 0) {rest : Bytes} (hrest : Stops rest) :
    readScalar num (write num t ++ rest) = some (t, rest) := by
  cases t with
  | null => exact readLiteral_append [117, 108, 108] .null rest
  | bool b =>
    cases b with
    | true => exact readLiteral_append [114, 117, 101] (.bool true) rest
    | false => exact readLiteral_append [97, 108, 115, 101] (.bool false) rest
  | number n =>
    obtain ⟨b, tail, hwrite, hb⟩ := num.write_head n
    obtain ⟨-, hnull, htrue, hfalse, hquote, -, -⟩ := opens_of_startsNumber hb
    have hread := readNumber_write num n hrest
    rw [write]
    rw [hwrite, List.cons_append] at hread ⊢
    rw [readScalar, if_neg hnull, if_neg htrue, if_neg hfalse, if_neg hquote, if_pos hb, hread]
  | string s =>
    obtain ⟨tail, hwrite, hread⟩ := readString_writeString s rest
    rw [write, hwrite]
    show (readString tail).map _ = _
    rw [hread]
    rfl
  | array items => cases h
  | object members => cases h

theorem exists_scalar_write {t : JsonTree N} (h : t.depth = 0) :
    ∃ b rest, write num t = b :: rest ∧ isBlank b = false ∧ b ≠ openBrace ∧ b ≠ openBracket := by
  cases t with
  | null => exact ⟨_, _, rfl, by decide⟩
  | bool b =>
    cases b with
    | true => exact ⟨_, _, rfl, by decide⟩
    | false => exact ⟨_, _, rfl, by decide⟩
  | number n =>
    obtain ⟨b, rest, hwrite, hb⟩ := num.write_head n
    obtain ⟨hopens, -, -, -, -, hbrace, hbracket⟩ := opens_of_startsNumber hb
    exact ⟨b, rest, by rw [write, hwrite], hopens.blank, hbrace, hbracket⟩
  | string s => exact ⟨_, _, rfl, by decide⟩
  | array items => cases h
  | object members => cases h

/-- What is written for an element is found again, behind its comma where it has one. -/
theorem nextElement_separator (first : Bool) {b : UInt8} (h : isBlank b = false) (rest : Bytes) :
    ∃ c tail, skipBlank (separator first ++ b :: rest) = c :: tail ∧ (c = b ∨ c = comma) ∧
      nextElement first (c :: tail) = some (b :: rest) := by
  cases first with
  | true => exact ⟨b, rest, skipBlank_cons h rest, .inl rfl, rfl⟩
  | false =>
    refine ⟨comma, b :: rest, skipBlank_cons (by decide) _, .inr rfl, ?_⟩
    rw [nextElement, if_neg (by decide), if_pos rfl, skipBlank_cons h]

theorem stops_writeItems (items : List (JsonTree N)) (rest : Bytes) :
    Stops (writeItems num false items ++ closeBracket :: rest) := by
  cases items with
  | nil => exact Spans.stops_cons (by decide)
  | cons t items => exact Spans.stops_cons (by decide)

theorem stops_writeMembers (members : List (String × JsonTree N)) (rest : Bytes) :
    Stops (writeMembers num false members ++ closeBrace :: rest) := by
  cases members with
  | nil => exact Spans.stops_cons (by decide)
  | cons member members => exact Spans.stops_cons (by decide)

theorem length_le_writeItems (first : Bool) (items : List (JsonTree N)) :
    items.length ≤ (writeItems num first items).length := by
  induction items generalizing first with
  | nil => exact Nat.le_refl 0
  | cons t items ih =>
    obtain ⟨b, head, hwrite, -⟩ := exists_opens_write num t
    have hrest := ih false
    rw [writeItems, hwrite]
    simp only [List.length_append, List.length_cons]
    omega

theorem length_le_writeMembers (first : Bool) (members : List (String × JsonTree N)) :
    members.length ≤ (writeMembers num first members).length := by
  induction members generalizing first with
  | nil => exact Nat.le_refl 0
  | cons member members ih =>
    obtain ⟨key, t⟩ := member
    have hrest := ih false
    rw [writeMembers]
    simp only [List.length_append, List.length_cons]
    omega

variable {num} {readOne : Bytes → Option (JsonTree N × Bytes)}

/-- The reader takes a value off its text. -/
def Reads (num : Numerals N) (readOne : Bytes → Option (JsonTree N × Bytes)) (t : JsonTree N) : Prop :=
  ∀ rest, Stops rest → readOne (write num t ++ rest) = some (t, rest)

theorem readItems_writeItems (items : List (JsonTree N)) (hitems : ∀ t ∈ items, Reads num readOne t)
    (first : Bool) (before : List (JsonTree N)) (rest : Bytes) {fuel : ℕ}
    (hfuel : items.length < fuel) :
    readItems readOne fuel first before (writeItems num first items ++ closeBracket :: rest) =
      some (before ++ items, rest) := by
  induction items generalizing first before fuel with
  | nil =>
    obtain ⟨fuel, rfl⟩ := Nat.exists_eq_succ_of_ne_zero (Nat.ne_of_gt hfuel)
    rw [writeItems, List.nil_append, readItems, skipBlank_cons (by decide)]
    simp
  | cons t items ih =>
    obtain ⟨fuel, rfl⟩ := Nat.exists_eq_succ_of_ne_zero (Nat.ne_of_gt (Nat.zero_lt_of_lt hfuel))
    obtain ⟨b, head, hwrite, hopens⟩ := exists_opens_write num t
    have hread := hitems t List.mem_cons_self _ (stops_writeItems num items rest)
    obtain ⟨c, tail, hskip, hc, hnext⟩ := nextElement_separator first hopens.blank
      (head ++ (writeItems num false items ++ closeBracket :: rest))
    have hbracket : c ≠ closeBracket := by
      rcases hc with rfl | rfl
      · exact hopens.bracket
      · decide
    have htext : writeItems num first (t :: items) ++ closeBracket :: rest =
        separator first ++ b :: (head ++ (writeItems num false items ++ closeBracket :: rest)) := by
      rw [writeItems, hwrite]
      simp
    rw [hwrite, List.cons_append] at hread
    rw [htext, readItems, hskip]
    simp only [if_neg hbracket, hnext, Option.bind_some, hread]
    rw [ih (fun t' ht' => hitems t' (List.mem_cons_of_mem t ht')) false _
      (Nat.lt_of_succ_lt_succ hfuel), List.append_assoc, List.singleton_append]

theorem readKey_writeString (key : String) (rest : Bytes) :
    readKey (writeString key ++ colon :: rest) = some (key, rest) := by
  obtain ⟨tail, hwrite, hread⟩ := readString_writeString key (colon :: rest)
  rw [hwrite, readKey, if_pos rfl, hread]
  simp only [skipBlank_cons (show isBlank colon = false by decide), if_pos]

theorem visitMembers_writeMembers (members : List (String × JsonTree N))
    (hmembers : ∀ member ∈ members, Reads num readOne member.2) (first : Bool)
    (before : List (String × JsonTree N)) (rest : Bytes) {fuel : ℕ} (hfuel : members.length < fuel) :
    visitMembers (collect readOne) fuel first before
        (writeMembers num first members ++ closeBrace :: rest) =
      some (before ++ members, rest) := by
  induction members generalizing first before fuel with
  | nil =>
    obtain ⟨fuel, rfl⟩ := Nat.exists_eq_succ_of_ne_zero (Nat.ne_of_gt hfuel)
    rw [writeMembers, List.nil_append, visitMembers, skipBlank_cons (by decide)]
    simp
  | cons member members ih =>
    obtain ⟨key, t⟩ := member
    obtain ⟨fuel, rfl⟩ := Nat.exists_eq_succ_of_ne_zero (Nat.ne_of_gt (Nat.zero_lt_of_lt hfuel))
    have hread := hmembers (key, t) List.mem_cons_self _ (stops_writeMembers num members rest)
    obtain ⟨c, tail, hskip, hc, hnext⟩ := nextElement_separator first
      (show isBlank quoteMark = false by decide)
      (((Framing.utf8 key).flatMap escapeByte ++ [quoteMark]) ++
        colon :: (write num t ++ (writeMembers num false members ++ closeBrace :: rest)))
    have hbrace : c ≠ closeBrace := by
      rcases hc with rfl | rfl <;> decide
    have hkey := readKey_writeString key
      (write num t ++ (writeMembers num false members ++ closeBrace :: rest))
    have htext : writeMembers num first ((key, t) :: members) ++ closeBrace :: rest =
        separator first ++ quoteMark :: (((Framing.utf8 key).flatMap escapeByte ++ [quoteMark]) ++
          colon :: (write num t ++ (writeMembers num false members ++ closeBrace :: rest))) := by
      rw [writeMembers, writeString]
      simp
    rw [writeString, List.cons_append] at hkey
    rw [htext, visitMembers, hskip]
    simp only [if_neg hbrace, hnext, Option.bind_some, hkey, collect, hread, Option.map_some]
    rw [ih (fun m hm => hmembers m (List.mem_cons_of_mem _ hm)) false _
      (Nat.lt_of_succ_lt_succ hfuel), List.append_assoc, List.singleton_append]

/-- A value is read back, and the reader stands behind it. -/
theorem readValue_write {limit : ℕ} {t : JsonTree N} (h : t.depth ≤ limit) :
    Reads num (readValue num limit) t := by
  induction limit generalizing t with
  | zero =>
    intro rest hrest
    have hscalar := Nat.le_zero.mp h
    obtain ⟨b, head, hwrite, hblank, -, -⟩ := exists_scalar_write num hscalar
    have hread := readScalar_write num hscalar hrest
    rw [hwrite, List.cons_append] at hread ⊢
    rw [readValue, skipBlank_cons hblank, hread]
  | succ limit ih =>
    intro rest hrest
    by_cases hscalar : t.depth = 0
    · obtain ⟨b, head, hwrite, hblank, hbrace, hbracket⟩ := exists_scalar_write num hscalar
      have hread := readScalar_write num hscalar hrest
      rw [hwrite, List.cons_append] at hread ⊢
      rw [readValue, skipBlank_cons hblank]
      simp only [if_neg hbrace, if_neg hbracket, hread]
    · cases t with
      | null => exact absurd rfl hscalar
      | bool b => exact absurd rfl hscalar
      | number n => exact absurd rfl hscalar
      | string s => exact absurd rfl hscalar
      | array items =>
        have hitems : ∀ t ∈ items, Reads num (readValue num limit) t := by
          intro t ht
          exact ih (depthItems_le.mp (Nat.le_of_succ_le_succ h) t ht)
        have hfuel : items.length <
            (writeItems num true items ++ closeBracket :: rest).length := by
          have hle := length_le_writeItems num true items
          rw [List.length_append, List.length_cons]
          omega
        have hread := readItems_writeItems items hitems true [] rest hfuel
        rw [write, List.cons_append, List.append_assoc, List.singleton_append, readValue,
          skipBlank_cons (by decide)]
        simp only [if_neg (show openBracket ≠ openBrace by decide), if_pos, hread, Option.map_some,
          List.nil_append]
      | object members =>
        have hmembers : ∀ member ∈ members, Reads num (readValue num limit) member.2 := by
          intro member hmember
          exact ih (depthMembers_le.mp (Nat.le_of_succ_le_succ h) member hmember)
        have hfuel : members.length <
            (writeMembers num true members ++ closeBrace :: rest).length := by
          have hle := length_le_writeMembers num true members
          rw [List.length_append, List.length_cons]
          omega
        have hread := visitMembers_writeMembers members hmembers true [] rest hfuel
        rw [write, List.cons_append, List.append_assoc, List.singleton_append, readValue,
          skipBlank_cons (by decide)]
        simp only [if_pos, readMembers, hread, Option.map_some, List.nil_append]

end RoundTrip

section Visits
variable {N σ : Type} {readOne : Bytes → Option (JsonTree N × Bytes)}

/-- What is collected goes on from what was there. -/
theorem prefix_of_collect {fuel : ℕ} {first : Bool} {before members : List (String × JsonTree N)}
    {bytes rest : Bytes}
    (h : visitMembers (collect readOne) fuel first before bytes = some (members, rest)) :
    before <+: members := by
  induction fuel generalizing first before bytes with
  | zero => cases h
  | succ fuel ih =>
    rw [visitMembers] at h
    split at h
    · cases h
    · split_ifs at h
      · obtain ⟨rfl, rfl⟩ := Prod.mk.inj (Option.some.inj h)
        exact List.prefix_refl before
      · split at h
        · cases h
        · unfold collect at h
          split at h
          · cases h
          · rename_i key _ _ _ after _ hvisit
            obtain ⟨read, -, heq⟩ := Option.map_eq_some_iff.mp hvisit
            obtain ⟨rfl, rfl⟩ := Prod.mk.inj heq
            exact (List.prefix_append _ _).trans (ih h)

/-- A visitor that reads a value and then makes a step with it folds its step over the members. -/
theorem visitMembers_fold {visit : σ → String → Bytes → Option (σ × Bytes)}
    {step : σ → String × JsonTree N → Option σ}
    (hvisit : ∀ s key bytes, visit s key bytes =
      (readOne bytes).bind fun read => (step s (key, read.1)).map fun s => (s, read.2))
    {start s : σ} {before : List (String × JsonTree N)} (hbefore : before.foldlM step start = some s)
    (fuel : ℕ) (first : Bool) (bytes : Bytes) :
    visitMembers visit fuel first s bytes =
      (visitMembers (collect readOne) fuel first before bytes).bind fun read =>
        (read.1.foldlM step start).map fun s => (s, read.2) := by
  induction fuel generalizing first before s bytes with
  | zero => rfl
  | succ fuel ih =>
    rw [visitMembers, visitMembers]
    split
    · rfl
    · split_ifs
      · rw [Option.bind_some, hbefore, Option.map_some]
      · split
        · rfl
        · rename_i key rest _
          rw [hvisit, collect]
          cases hread : readOne rest with
          | none => rfl
          | some read =>
            simp only [Option.bind_some, Option.map_some]
            cases hstep : step s (key, read.1) with
            | none =>
              simp only [Option.map_none]
              symm
              rw [Option.bind_eq_none_iff]
              intro after hafter
              obtain ⟨more, hmore⟩ := prefix_of_collect hafter
              have hfail : after.1.foldlM step start = none := by
                rw [← hmore, List.foldlM_append, List.foldlM_append, hbefore]
                simp [hstep]
              rw [hfail, Option.map_none]
            | some next =>
              simp only [Option.map_some]
              apply ih
              rw [List.foldlM_append, hbefore]
              simp [hstep]

theorem visitMembers_eq_foldlM {visit : σ → String → Bytes → Option (σ × Bytes)}
    {step : σ → String × JsonTree N → Option σ}
    (hvisit : ∀ s key bytes, visit s key bytes =
      (readOne bytes).bind fun read => (step s (key, read.1)).map fun s => (s, read.2))
    (start : σ) (bytes : Bytes) :
    visitMembers visit bytes.length true start bytes =
      (readMembers readOne bytes).bind fun read =>
        (read.1.foldlM step start).map fun s => (s, read.2) :=
  visitMembers_fold hvisit rfl bytes.length true bytes

variable {num : Numerals N} {limit : ℕ} {t : JsonTree N} {bytes rest : Bytes}

theorem readLiteral_depth {lead : Bytes} {t' : JsonTree N}
    (h : readLiteral lead t' bytes = some (t, rest)) : t = t' := by
  unfold readLiteral at h
  split_ifs at h
  exact (congrArg Prod.fst (Option.some.inj h)).symm

theorem readScalar_depth (h : readScalar num bytes = some (t, rest)) : t.depth = 0 := by
  unfold readScalar at h
  split at h
  · cases h
  · split_ifs at h
    · rw [readLiteral_depth h]
      rfl
    · rw [readLiteral_depth h]
      rfl
    · rw [readLiteral_depth h]
      rfl
    · obtain ⟨read, -, heq⟩ := Option.map_eq_some_iff.mp h
      obtain ⟨rfl, rfl⟩ := Prod.mk.inj heq
      rfl
    · obtain ⟨read, -, heq⟩ := Option.map_eq_some_iff.mp h
      obtain ⟨rfl, rfl⟩ := Prod.mk.inj heq
      rfl

theorem readItems_forall {p : JsonTree N → Prop}
    (hone : ∀ {bytes rest t}, readOne bytes = some (t, rest) → p t) {fuel : ℕ} {first : Bool}
    {before items : List (JsonTree N)} (hbefore : ∀ t ∈ before, p t)
    (h : readItems readOne fuel first before bytes = some (items, rest)) : ∀ t ∈ items, p t := by
  induction fuel generalizing first before bytes with
  | zero => cases h
  | succ fuel ih =>
    rw [readItems] at h
    split at h
    · cases h
    · split_ifs at h
      · obtain ⟨rfl, rfl⟩ := Prod.mk.inj (Option.some.inj h)
        exact hbefore
      · split at h
        · cases h
        · rename_i t' _ hread
          obtain ⟨_, -, hread⟩ := Option.bind_eq_some_iff.mp hread
          refine ih ?_ h
          intro t ht
          rcases List.mem_append.mp ht with hmem | hnew
          · exact hbefore t hmem
          · rw [List.mem_singleton.mp hnew]
            exact hone hread

theorem visitMembers_forall {p : JsonTree N → Prop}
    (hone : ∀ {bytes rest t}, readOne bytes = some (t, rest) → p t) {fuel : ℕ} {first : Bool}
    {before members : List (String × JsonTree N)} (hbefore : ∀ member ∈ before, p member.2)
    (h : visitMembers (collect readOne) fuel first before bytes = some (members, rest)) :
    ∀ member ∈ members, p member.2 := by
  induction fuel generalizing first before bytes with
  | zero => cases h
  | succ fuel ih =>
    rw [visitMembers] at h
    split at h
    · cases h
    · split_ifs at h
      · obtain ⟨rfl, rfl⟩ := Prod.mk.inj (Option.some.inj h)
        exact hbefore
      · split at h
        · cases h
        · unfold collect at h
          split at h
          · cases h
          · rename_i hvisit
            obtain ⟨read, hread, heq⟩ := Option.map_eq_some_iff.mp hvisit
            obtain ⟨rfl, rfl⟩ := Prod.mk.inj heq
            refine ih ?_ h
            intro member hmember
            rcases List.mem_append.mp hmember with hmem | hnew
            · exact hbefore member hmem
            · rw [List.mem_singleton.mp hnew]
              exact hone hread

/-- No more is open than the limit allows. -/
theorem readValue_depth (h : readValue num limit bytes = some (t, rest)) : t.depth ≤ limit := by
  induction limit generalizing bytes t rest with
  | zero => exact Nat.le_of_eq (readScalar_depth h)
  | succ limit ih =>
    rw [readValue] at h
    split at h
    · cases h
    · split_ifs at h
      · obtain ⟨read, hread, heq⟩ := Option.map_eq_some_iff.mp h
        obtain ⟨rfl, rfl⟩ := Prod.mk.inj heq
        have hmembers := visitMembers_forall (fun hone => ih hone)
          (fun member hmem => absurd hmem List.not_mem_nil) hread
        exact Nat.succ_le_succ (depthMembers_le.mpr hmembers)
      · obtain ⟨read, hread, heq⟩ := Option.map_eq_some_iff.mp h
        obtain ⟨rfl, rfl⟩ := Prod.mk.inj heq
        have hitems := readItems_forall (fun hone => ih hone)
          (fun t hmem => absurd hmem List.not_mem_nil) hread
        exact Nat.succ_le_succ (depthItems_le.mpr hitems)
      · exact (readScalar_depth h).trans_le (Nat.zero_le _)

/-- Visiting an object does what reading it first and folding over its members does. -/
theorem visitObject_eq {visit : σ → String → Bytes → Option (σ × Bytes)}
    {step : σ → String × JsonTree N → Option σ}
    (hvisit : ∀ s key bytes, visit s key bytes =
      (readValue num limit bytes).bind fun read =>
        (step s (key, read.1)).map fun s => (s, read.2))
    (start : σ) (bytes : Bytes) :
    visitObject visit start bytes =
      (readValue num (limit + 1) bytes).bind fun read =>
        match read.1 with
        | .object members => (members.foldlM step start).map fun s => (s, read.2)
        | _ => none := by
  rw [visitObject, readValue]
  cases hskip : skipBlank bytes with
  | nil => rfl
  | cons b rest =>
    dsimp only
    by_cases hbrace : b = openBrace
    · rw [if_pos hbrace, if_pos hbrace, visitMembers_eq_foldlM hvisit]
      cases readMembers (readValue num limit) rest <;> rfl
    · rw [if_neg hbrace, if_neg hbrace]
      by_cases hbracket : b = openBracket
      · rw [if_pos hbracket]
        cases readItems (readValue num limit) rest.length true [] rest <;> rfl
      · rw [if_neg hbracket]
        cases hread : readScalar num (b :: rest) with
        | none => rfl
        | some read =>
          obtain ⟨t, after⟩ := read
          have hdepth := readScalar_depth hread
          cases t with
          | object members => cases hdepth
          | _ => rfl

end Visits

section Fuel
variable {N σ : Type} {bytes rest : Bytes}

theorem length_skipBlank_le (bytes : Bytes) : (skipBlank bytes).length ≤ bytes.length :=
  List.length_dropWhile_le _ _

theorem readHexFour_length {n : ℕ} (h : readHexFour bytes = some (n, rest)) :
    rest.length < bytes.length := by
  unfold readHexFour at h
  split at h
  · split at h
    · obtain ⟨-, rfl⟩ := Prod.mk.inj (Option.some.inj h)
      simp only [List.length_cons]
      omega
    · cases h
  · cases h

theorem readEscape_length {read : Bytes} (h : readEscape bytes = some (read, rest)) :
    rest.length < bytes.length := by
  unfold readEscape at h
  split at h
  · cases h
  · rename_i b tail
    rw [List.length_cons]
    split_ifs at h
    · unfold readUnit at h
      split at h
      · cases h
      · rename_i n after hfour
        have hlength := readHexFour_length hfour
        split_ifs at h
        · split at h
          · split at h
            · cases h
            · rename_i low _ m after' hlow
              have hlower := readHexFour_length hlow
              split_ifs at h
              obtain ⟨-, rfl⟩ := Prod.mk.inj (Option.some.inj h)
              simp only [List.length_cons] at hlength
              omega
          · cases h
        · obtain ⟨-, rfl⟩ := Prod.mk.inj (Option.some.inj h)
          omega
    · obtain ⟨c, -, heq⟩ := Option.map_eq_some_iff.mp h
      obtain ⟨-, rfl⟩ := Prod.mk.inj heq
      omega

theorem readChars_length {fuel : ℕ} {content : Bytes}
    (h : readChars fuel bytes = some (content, rest)) : rest.length < bytes.length := by
  induction fuel generalizing bytes content with
  | zero => cases h
  | succ fuel ih =>
    cases bytes with
    | nil => cases h
    | cons b tail =>
      rw [readChars] at h
      rw [List.length_cons]
      split_ifs at h
      · obtain ⟨-, rfl⟩ := Prod.mk.inj (Option.some.inj h)
        omega
      · split at h
        · cases h
        · rename_i after hescape
          have hlength := readEscape_length hescape
          obtain ⟨read, hread, heq⟩ := Option.map_eq_some_iff.mp h
          obtain ⟨-, rfl⟩ := Prod.mk.inj heq
          have hlater := ih hread
          omega
      · obtain ⟨read, hread, heq⟩ := Option.map_eq_some_iff.mp h
        obtain ⟨-, rfl⟩ := Prod.mk.inj heq
        have hlater := ih hread
        omega

/-- A reader's answers do not change with fuel beyond the length of the text. -/
theorem readChars_fuel {fuel fuel' : ℕ} (h : bytes.length ≤ fuel) (h' : bytes.length ≤ fuel') :
    readChars fuel bytes = readChars fuel' bytes := by
  induction fuel generalizing bytes fuel' with
  | zero =>
    obtain rfl := List.length_eq_zero_iff.mp (Nat.le_zero.mp h)
    cases fuel' <;> rfl
  | succ fuel ih =>
    cases bytes with
    | nil => cases fuel' <;> rfl
    | cons b tail =>
      obtain ⟨fuel', rfl⟩ := Nat.exists_eq_succ_of_ne_zero (Nat.ne_of_gt (Nat.zero_lt_of_lt h'))
      have hle : tail.length ≤ fuel := Nat.le_of_succ_le_succ h
      have hle' : tail.length ≤ fuel' := Nat.le_of_succ_le_succ h'
      rw [readChars, readChars, ih hle hle']
      cases hescape : readEscape tail with
      | none => rfl
      | some read =>
        have hlength : read.2.length < tail.length := readEscape_length hescape
        have hsame : readChars fuel read.2 = readChars fuel' read.2 :=
          ih (by omega) (by omega)
        simp only [hsame]

theorem readString_length {s : String} (h : readString bytes = some (s, rest)) :
    rest.length < bytes.length := by
  unfold readString at h
  split at h
  · cases h
  · rename_i hchars
    obtain ⟨s', -, heq⟩ := Option.map_eq_some_iff.mp h
    obtain ⟨-, rfl⟩ := Prod.mk.inj heq
    exact readChars_length hchars

theorem readKey_length {key : String} (h : readKey bytes = some (key, rest)) :
    rest.length < bytes.length := by
  unfold readKey at h
  split at h
  · cases h
  · rename_i b tail
    split_ifs at h
    split at h
    · cases h
    · rename_i name after hstring
      have hlength := readString_length hstring
      have hblank := length_skipBlank_le after
      split at h
      · cases h
      · rename_i c last hskip
        split_ifs at h
        obtain ⟨-, rfl⟩ := Prod.mk.inj (Option.some.inj h)
        rw [hskip, List.length_cons] at hblank
        rw [List.length_cons]
        omega

theorem nextElement_length {first : Bool} (h : nextElement first bytes = some rest) :
    rest.length ≤ bytes.length := by
  unfold nextElement at h
  split_ifs at h
  · rw [Option.some.inj h]
  · split at h
    · cases h
    · rename_i b tail
      split_ifs at h
      obtain rfl := Option.some.inj h
      exact (length_skipBlank_le tail).trans (Nat.le_succ _)

/-- A visitor never hands back more than it was given. -/
def Consumes (visit : σ → String → Bytes → Option (σ × Bytes)) : Prop :=
  ∀ s key bytes s' rest, visit s key bytes = some (s', rest) → rest.length ≤ bytes.length

theorem visitMembers_length {visit : σ → String → Bytes → Option (σ × Bytes)}
    (hvisit : Consumes visit) {fuel : ℕ} {first : Bool} {s s' : σ}
    (h : visitMembers visit fuel first s bytes = some (s', rest)) :
    rest.length < bytes.length := by
  induction fuel generalizing first s bytes with
  | zero => cases h
  | succ fuel ih =>
    have hblank := length_skipBlank_le bytes
    rw [visitMembers] at h
    split at h
    · cases h
    · rename_i b tail hskip
      rw [hskip, List.length_cons] at hblank
      split_ifs at h
      · obtain ⟨-, rfl⟩ := Prod.mk.inj (Option.some.inj h)
        omega
      · split at h
        · cases h
        · rename_i key after hkey
          obtain ⟨element, hnext, hkey⟩ := Option.bind_eq_some_iff.mp hkey
          have hnextLength := nextElement_length hnext
          have hkeyLength := readKey_length hkey
          rw [List.length_cons] at hnextLength
          split at h
          · cases h
          · rename_i hvalue
            have hvalueLength := hvisit _ _ _ _ _ hvalue
            have hlater := ih h
            omega

theorem visitMembers_fuel {visit : σ → String → Bytes → Option (σ × Bytes)}
    (hvisit : Consumes visit) {fuel fuel' : ℕ} {first : Bool} {s : σ} (h : bytes.length ≤ fuel)
    (h' : bytes.length ≤ fuel') :
    visitMembers visit fuel first s bytes = visitMembers visit fuel' first s bytes := by
  induction fuel generalizing first s bytes fuel' with
  | zero =>
    obtain rfl := List.length_eq_zero_iff.mp (Nat.le_zero.mp h)
    cases fuel' <;> rfl
  | succ fuel ih =>
    have hblank := length_skipBlank_le bytes
    cases fuel' with
    | zero =>
      obtain rfl := List.length_eq_zero_iff.mp (Nat.le_zero.mp h')
      rfl
    | succ fuel' =>
      rw [visitMembers, visitMembers]
      split
      · rfl
      · rename_i b tail hskip
        rw [hskip, List.length_cons] at hblank
        split_ifs
        · rfl
        · split
          · rfl
          · rename_i key after hkey
            obtain ⟨element, hnext, hkey⟩ := Option.bind_eq_some_iff.mp hkey
            have hnextLength := nextElement_length hnext
            have hkeyLength := readKey_length hkey
            rw [List.length_cons] at hnextLength
            split
            · rfl
            · rename_i hvalue
              have hvalueLength := hvisit _ _ _ _ _ hvalue
              exact ih (by omega) (by omega)

/-- A reader of a value takes a byte at least. -/
def Takes (readOne : Bytes → Option (JsonTree N × Bytes)) : Prop :=
  ∀ bytes t rest, readOne bytes = some (t, rest) → rest.length < bytes.length

theorem consumes_collect {readOne : Bytes → Option (JsonTree N × Bytes)} (h : Takes readOne) :
    Consumes (collect readOne) := by
  intro members key bytes members' rest hvisit
  obtain ⟨read, hread, heq⟩ := Option.map_eq_some_iff.mp hvisit
  obtain ⟨-, rfl⟩ := Prod.mk.inj heq
  exact Nat.le_of_lt (h bytes read.1 read.2 hread)

theorem readItems_length {readOne : Bytes → Option (JsonTree N × Bytes)} (hone : Takes readOne)
    {fuel : ℕ} {first : Bool} {before items : List (JsonTree N)}
    (h : readItems readOne fuel first before bytes = some (items, rest)) :
    rest.length < bytes.length := by
  induction fuel generalizing first before bytes with
  | zero => cases h
  | succ fuel ih =>
    have hblank := length_skipBlank_le bytes
    rw [readItems] at h
    split at h
    · cases h
    · rename_i b tail hskip
      rw [hskip, List.length_cons] at hblank
      split_ifs at h
      · obtain ⟨-, rfl⟩ := Prod.mk.inj (Option.some.inj h)
        omega
      · split at h
        · cases h
        · rename_i t after hread
          obtain ⟨element, hnext, hread⟩ := Option.bind_eq_some_iff.mp hread
          have hnextLength := nextElement_length hnext
          have hreadLength := hone _ _ _ hread
          rw [List.length_cons] at hnextLength
          have hlater := ih h
          omega

theorem readItems_fuel {readOne : Bytes → Option (JsonTree N × Bytes)} (hone : Takes readOne)
    {fuel fuel' : ℕ} {first : Bool} {before : List (JsonTree N)} (h : bytes.length ≤ fuel)
    (h' : bytes.length ≤ fuel') :
    readItems readOne fuel first before bytes = readItems readOne fuel' first before bytes := by
  induction fuel generalizing first before bytes fuel' with
  | zero =>
    obtain rfl := List.length_eq_zero_iff.mp (Nat.le_zero.mp h)
    cases fuel' <;> rfl
  | succ fuel ih =>
    have hblank := length_skipBlank_le bytes
    cases fuel' with
    | zero =>
      obtain rfl := List.length_eq_zero_iff.mp (Nat.le_zero.mp h')
      rfl
    | succ fuel' =>
      rw [readItems, readItems]
      split
      · rfl
      · rename_i b tail hskip
        rw [hskip, List.length_cons] at hblank
        split_ifs
        · rfl
        · split
          · rfl
          · rename_i t after hread
            obtain ⟨element, hnext, hread⟩ := Option.bind_eq_some_iff.mp hread
            have hnextLength := nextElement_length hnext
            have hreadLength := hone _ _ _ hread
            rw [List.length_cons] at hnextLength
            exact ih (by omega) (by omega)

theorem readScalar_length (num : Numerals N) {t : JsonTree N}
    (h : readScalar num bytes = some (t, rest)) : rest.length < bytes.length := by
  have hliteral : ∀ {lead tail : Bytes} {t' : JsonTree N},
      readLiteral lead t' tail = some (t, rest) → rest.length ≤ tail.length := by
    intro lead tail t' hread
    unfold readLiteral at hread
    split_ifs at hread
    obtain ⟨-, rfl⟩ := Prod.mk.inj (Option.some.inj hread)
    rw [List.length_drop]
    omega
  unfold readScalar at h
  split at h
  · cases h
  · rename_i b tail
    split_ifs at h with hnull htrue hfalse hquote hnumber
    · exact Nat.lt_succ_of_le (hliteral h)
    · exact Nat.lt_succ_of_le (hliteral h)
    · exact Nat.lt_succ_of_le (hliteral h)
    · obtain ⟨read, hread, heq⟩ := Option.map_eq_some_iff.mp h
      obtain ⟨-, rfl⟩ := Prod.mk.inj heq
      exact (readString_length hread).trans (Nat.lt_succ_self _)
    · obtain ⟨n, -, heq⟩ := Option.map_eq_some_iff.mp h
      obtain ⟨-, rfl⟩ := Prod.mk.inj heq
      have hbyte : isNumberByte b = true := by
        unfold startsNumber at hnumber
        unfold isNumberByte
        rcases (Bool.or_eq_true _ _).mp hnumber with hdigit | hminus
        · rw [hdigit]
          rfl
        · rw [hminus]
          simp
      rw [List.dropWhile_cons_of_pos hbyte]
      exact Nat.lt_succ_of_le (List.length_dropWhile_le _ _)

theorem takes_readValue (num : Numerals N) (limit : ℕ) : Takes (readValue num limit) := by
  induction limit with
  | zero =>
    intro bytes t rest h
    exact (readScalar_length num h).trans_le (length_skipBlank_le bytes)
  | succ limit ih =>
    intro bytes t rest h
    have hblank := length_skipBlank_le bytes
    rw [readValue] at h
    split at h
    · cases h
    · rename_i b tail hskip
      rw [hskip, List.length_cons] at hblank
      split_ifs at h
      · obtain ⟨read, hread, heq⟩ := Option.map_eq_some_iff.mp h
        obtain ⟨-, rfl⟩ := Prod.mk.inj heq
        have hlength := visitMembers_length (consumes_collect ih) hread
        omega
      · obtain ⟨read, hread, heq⟩ := Option.map_eq_some_iff.mp h
        obtain ⟨-, rfl⟩ := Prod.mk.inj heq
        have hlength := readItems_length ih hread
        omega
      · have hlength := readScalar_length num h
        rw [List.length_cons] at hlength
        omega

/-- No reader stops for want of fuel: with more than it is given it reads the same. -/
theorem fuel_suffices (num : Numerals N) (limit extra : ℕ) :
    readChars (bytes.length + extra) bytes = readChars bytes.length bytes ∧
      visitMembers (collect (readValue num limit)) (bytes.length + extra) true [] bytes =
        readMembers (readValue num limit) bytes ∧
      readItems (readValue num limit) (bytes.length + extra) true [] bytes =
        readItems (readValue num limit) bytes.length true [] bytes := by
  have hone := takes_readValue num limit
  have hle := Nat.le_add_right bytes.length extra
  exact ⟨readChars_fuel hle (Nat.le_refl _),
    visitMembers_fuel (consumes_collect hone) hle (Nat.le_refl _),
    readItems_fuel hone hle (Nat.le_refl _)⟩

end Fuel

end BatleHub.Lib.JsonBytes
