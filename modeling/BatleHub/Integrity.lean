import BatleHub.Lib.Base64
import BatleHub.Lib.Hex
import BatleHub.Lib.Texts
import Mathlib.Algebra.Order.Ring.Nat

/-!
Checksums of artifacts (`services/integrity`). An advertised checksum is one of a list of
tokens, each a subresource integrity text or bare hex; bytes are checked against it in
one piece or chunk by chunk, and both ways give the same outcome. The three hash
functions are those of the `sha1` and `sha2` crates.
-/
namespace BatleHub.Integrity

open Lib

abbrev Bytes := List UInt8

/-- A hash function of the `digest` crate: the chunks fed to it count as one text. -/
structure Digest where
  State : Type
  new : State
  update : State → Bytes → State
  finalize : State → Bytes
  digest : Bytes → Bytes
  finalize_foldl : ∀ chunks : List Bytes, finalize (chunks.foldl update new) = digest chunks.flatten

inductive ChecksumAlgo where
  | sha1
  | sha256
  | sha512
  deriving DecidableEq, Repr

def ChecksumAlgo.asStr : ChecksumAlgo → String
  | .sha1 => "sha1"
  | .sha256 => "sha256"
  | .sha512 => "sha512"

def ChecksumAlgo.digestLen : ChecksumAlgo → ℕ
  | .sha1 => 20
  | .sha256 => 32
  | .sha512 => 64

structure Hashes where
  sha1 : Digest
  sha256 : Digest
  sha512 : Digest
  length_sha256 : ∀ data, (sha256.digest data).length = 32

def Hashes.of (lib : Hashes) : ChecksumAlgo → Digest
  | .sha1 => lib.sha1
  | .sha256 => lib.sha256
  | .sha512 => lib.sha512

inductive IntegrityOutcome where
  | verified (algo : ChecksumAlgo)
  | mismatch (algo : ChecksumAlgo) (expected actual : String)
  | unparseable
  deriving DecidableEq, Repr

section Parsing

def splitWhitespace (s : String) : List String :=
  ((s.toList.splitOnP Texts.isWhiteSpace).filter (· ≠ [])).map String.ofList

/-- `str::len`, in bytes. -/
def byteLen (s : String) : ℕ := (s.toList.map Char.utf8Size).sum

def toAsciiLowercase (s : String) : String := String.ofList (s.toList.map Char.toLower)

/-- The `STANDARD` engine: `+` and `/` for the last two values, and padding to a multiple
of four characters. -/
def standardDecode (text : List Char) : Option Bytes :=
  if text.length % 4 ≠ 0 ∨ '-' ∈ text ∨ '_' ∈ text then none
  else
    let unpadded := if ['=', '='] <:+ text then text.dropLast.dropLast
      else if ['='] <:+ text then text.dropLast
      else text
    Base64.decode (unpadded.map fun c => if c = '+' then '-' else if c = '/' then '_' else c)

def parseExpectedToken (token : String) : Option (ChecksumAlgo × Bytes) :=
  match Texts.splitOnce token '-' with
  | some (lead, b64) => do
    let lead := toAsciiLowercase lead
    let algo ←
      if lead = "sha1" then some ChecksumAlgo.sha1
      else if lead = "sha256" then some .sha256
      else if lead = "sha512" then some .sha512
      else none
    let bytes ← standardDecode b64.toList
    if bytes.length = algo.digestLen then some (algo, bytes) else none
  | none => do
    let algo ←
      if byteLen token = 40 then some ChecksumAlgo.sha1
      else if byteLen token = 64 then some .sha256
      else if byteLen token = 128 then some .sha512
      else none
    let bytes ← Hex.decode (toAsciiLowercase token).toList
    some (algo, bytes)

def parseExpected (s : String) : Option (ChecksumAlgo × Bytes) :=
  (splitWhitespace s).findSome? parseExpectedToken

end Parsing

variable (lib : Hashes)

def sha256Hex (data : Bytes) : String := String.ofList (Hex.encode (lib.sha256.digest data))

structure StreamingVerifier where
  algo : ChecksumAlgo
  hasher : (lib.of algo).State
  expected : Bytes

def compare (algo : ChecksumAlgo) (expected actual : Bytes) : IntegrityOutcome :=
  if actual = expected then .verified algo
  else .mismatch algo (String.ofList (Hex.encode expected)) (String.ofList (Hex.encode actual))

def StreamingVerifier.new (expected : String) : Option (StreamingVerifier lib) :=
  (parseExpected expected).map fun parsed => ⟨parsed.1, (lib.of parsed.1).new, parsed.2⟩

variable {lib} in
def StreamingVerifier.update (v : StreamingVerifier lib) (data : Bytes) : StreamingVerifier lib :=
  { v with hasher := (lib.of v.algo).update v.hasher data }

variable {lib} in
def StreamingVerifier.finish (v : StreamingVerifier lib) : IntegrityOutcome :=
  compare v.algo v.expected ((lib.of v.algo).finalize v.hasher)

def verify (expected : String) (data : Bytes) : IntegrityOutcome :=
  match parseExpected expected with
  | none => .unparseable
  | some (algo, expectedBytes) => compare algo expectedBytes ((lib.of algo).digest data)

section Streaming
variable {lib}

theorem foldl_update (v : StreamingVerifier lib) (chunks : List Bytes) :
    chunks.foldl StreamingVerifier.update v =
      { v with hasher := chunks.foldl (lib.of v.algo).update v.hasher } := by
  induction chunks generalizing v with
  | nil => rfl
  | cons chunk rest ih => exact ih (v.update chunk)

/-- Fed chunk by chunk, a verifier says what `verify` says of the whole. -/
theorem finish_foldl_update {expected : String} {v : StreamingVerifier lib}
    (h : StreamingVerifier.new lib expected = some v) (chunks : List Bytes) :
    (chunks.foldl StreamingVerifier.update v).finish = verify lib expected chunks.flatten := by
  obtain ⟨parsed, hparsed, rfl⟩ := Option.map_eq_some_iff.mp h
  rw [foldl_update, StreamingVerifier.finish, verify, hparsed]
  show compare parsed.1 parsed.2 ((lib.of parsed.1).finalize _) = _
  rw [(lib.of parsed.1).finalize_foldl]

/-- The bytes hash to the checksum, which `StreamingVerifier` accepts. -/
def Matches (lib : Hashes) (expected : String) (data : Bytes) : Prop :=
  ∃ algo digest, parseExpected expected = some (algo, digest) ∧ (lib.of algo).digest data = digest

theorem verify_eq_verified_iff (expected : String) (data : Bytes) :
    (∃ algo, verify lib expected data = .verified algo) ↔ Matches lib expected data := by
  unfold verify Matches
  cases parseExpected expected with
  | none => simp
  | some parsed =>
    obtain ⟨algo, digest⟩ := parsed
    by_cases heq : (lib.of algo).digest data = digest
    · simp [compare, heq]
    · simp [compare, heq, Ne.symm heq]

theorem verify_eq_unparseable_iff (expected : String) (data : Bytes) :
    verify lib expected data = .unparseable ↔ parseExpected expected = none := by
  unfold verify
  cases parseExpected expected with
  | none => simp
  | some parsed =>
    by_cases heq : (lib.of parsed.1).digest data = parsed.2
    · simp [compare, heq]
    · simp [compare, heq]

end Streaming

section Recorded
variable {lib}

theorem splitWhitespace_of_notMem {s : String} (hne : s.toList ≠ [])
    (h : ∀ c ∈ s.toList, Texts.isWhiteSpace c = false) : splitWhitespace s = [s] := by
  rw [splitWhitespace, List.splitOnP_eq_singleton h]
  simp [hne]

theorem byteLen_eq_length {s : String} (h : ∀ c ∈ s.toList, c.utf8Size = 1) :
    byteLen s = s.toList.length := by
  unfold byteLen
  rw [List.map_congr_left h]
  simp

theorem toAsciiLowercase_eq_self {s : String} (h : ∀ c ∈ s.toList, c.toLower = c) :
    toAsciiLowercase s = s := by
  have hmap : s.toList.map Char.toLower = s.toList := by
    rw [List.map_congr_left h, List.map_id']
  rw [toAsciiLowercase, hmap, String.ofList_toList]

theorem splitOnce_eq_none {s : String} {c : Char} (h : c ∉ s.toList) :
    Texts.splitOnce s c = none := by
  cases hsplit : Texts.splitOnce s c with
  | none => rfl
  | some parts =>
    obtain ⟨before, after⟩ := parts
    have hchars := ((Texts.splitOnce_eq_some_iff s c before after).mp hsplit).1
    rw [hchars] at h
    simp at h

/-- A digest this server has recorded reads as itself. -/
theorem parseExpected_sha256Hex (data : Bytes) :
    parseExpected (sha256Hex lib data) = some (.sha256, lib.sha256.digest data) := by
  have hchars : (sha256Hex lib data).toList = Hex.encode (lib.sha256.digest data) :=
    String.toList_ofList
  have hlength : (sha256Hex lib data).toList.length = 64 := by
    rw [hchars, Hex.length_encode, lib.length_sha256]
  have hdigits {p : Char → Prop} (h : ∀ m : Fin 16, p (Hex.digitOf m)) :
      ∀ c ∈ (sha256Hex lib data).toList, p c := by
    rw [hchars]
    exact Hex.forall_mem_encode h _
  have hblank : ∀ c ∈ (sha256Hex lib data).toList, Texts.isWhiteSpace c = false :=
    hdigits (by decide)
  have hlen : byteLen (sha256Hex lib data) = 64 := by
    rw [byteLen_eq_length (hdigits (by decide)), hlength]
  have hdash : '-' ∉ (sha256Hex lib data).toList := by
    intro hmem
    have hall : ∀ c ∈ (sha256Hex lib data).toList, c ≠ '-' := hdigits (by decide)
    exact hall _ hmem rfl
  have hne : (sha256Hex lib data).toList ≠ [] := by
    intro hnil
    rw [hnil] at hlength
    simp at hlength
  have htoken : parseExpectedToken (sha256Hex lib data) =
      some (.sha256, lib.sha256.digest data) := by
    rw [parseExpectedToken, splitOnce_eq_none hdash,
      toAsciiLowercase_eq_self (hdigits (by decide)), hlen, hchars, Hex.decode_encode]
    rfl
  rw [parseExpected, splitWhitespace_of_notMem hne hblank]
  simp [htoken]

/-- Bytes are not in conflict with the digest recorded of them. -/
theorem verify_sha256Hex (data : Bytes) :
    verify lib (sha256Hex lib data) data = .verified .sha256 := by
  rw [verify, parseExpected_sha256Hex]
  exact if_pos rfl

end Recorded

section Samples

/-- A hash function that keeps what it is fed until the end. -/
def Digest.buffering (digest : Bytes → Bytes) : Digest where
  State := Bytes
  new := []
  update := fun fed chunk => fed ++ chunk
  finalize := digest
  digest := digest
  finalize_foldl := by
    intro chunks
    have hfed : ∀ fed : Bytes, chunks.foldl (fun fed chunk => fed ++ chunk) fed =
        fed ++ chunks.flatten := by
      induction chunks with
      | nil => exact fun fed => (List.append_nil fed).symm
      | cons chunk rest ih =>
        intro fed
        rw [List.foldl_cons, ih, List.flatten_cons, List.append_assoc]
    rw [hfed, List.nil_append]

/-- SHA-256 on the texts `a` and `b`, some 32 bytes elsewhere. -/
def sampleSha256 (data : Bytes) : Bytes :=
  if data = [97] then
    [0xca, 0x97, 0x81, 0x12, 0xca, 0x1b, 0xbd, 0xca, 0xfa, 0xc2, 0x31, 0xb3, 0x9a, 0x23,
     0xdc, 0x4d, 0xa7, 0x86, 0xef, 0xf8, 0x14, 0x7c, 0x4e, 0x72, 0xb9, 0x80, 0x77, 0x85,
     0xaf, 0xee, 0x48, 0xbb]
  else if data = [98] then
    [0x3e, 0x23, 0xe8, 0x16, 0x00, 0x39, 0x59, 0x4a, 0x33, 0x89, 0x4f, 0x65, 0x64, 0xe1,
     0xb1, 0x34, 0x8b, 0xbd, 0x7a, 0x00, 0x88, 0xd4, 0x2c, 0x4a, 0xcb, 0x73, 0xee, 0xae,
     0xd5, 0x9c, 0x00, 0x9d]
  else List.replicate 32 0

def sampleHashes : Hashes where
  sha1 := .buffering fun _ => List.replicate 20 0
  sha256 := .buffering sampleSha256
  sha512 := .buffering fun _ => List.replicate 64 0
  length_sha256 := by
    intro data
    show (sampleSha256 data).length = 32
    unfold sampleSha256
    split
    · rfl
    · split
      · rfl
      · exact List.length_replicate

end Samples

end BatleHub.Integrity
