import BatleHub.Lib.AssocMap
import BatleHub.Lib.Hex
import BatleHub.Lib.Texts
import BatleHub.LocalPackages
import Mathlib.Data.List.Sort

/-!
Air-gap bundles (`services/bundle.rs`): a tar with the manifest, its signature and one
blob for each digest. Two functions read it, one for what is imported and one for the
bytes the signature is checked against. The framing of the tar, the JSON of the manifest
and SHA-256 belong to the libraries behind the source.
-/
namespace BatleHub.Bundles

open Lib AssocMap
open LocalPackages (DateTime Json)

abbrev Bytes := List UInt8

def BUNDLE_VERSION : ℕ := 1
def MANIFEST_PATH : String := "manifest.json"
def SIGNATURE_PATH : String := "manifest.sig"
def BLOB_PREFIX : String := "blobs/"

structure BundleRef where
  ownerRepo : String
  gitRef : String
  kind : String
  sha : String

/-- One artifact: where it goes, what it is, and what the connected side learned. -/
structure BundleEntry where
  registry : String
  key : String
  digest : String
  size : ℕ
  packageName : Option String
  version : Option String
  verdict : Option String
  reasonCodes : List String
  verifiedAt : Option DateTime
  gitRef : Option BundleRef
  facts : Option Json

structure BundleManifest where
  bundleVersion : ℕ
  bundleId : String
  createdAt : DateTime
  sourcePlan : Option String
  entries : List BundleEntry

/-- Sixty-four hexadecimal digits of either case. -/
def isSha256Hex (s : String) : Bool :=
  decide (s.toList.length = 64) && s.toList.all fun c => (Hex.valueOf c).isSome

/-- The key names a place outside the store. -/
def escapes (key : String) : Bool :=
  (key.toList.tails.any fun tail => ['.', '.'].isPrefixOf tail) || Texts.startsWith key "/"

def factsAreObject : Option Json → Bool
  | none => true
  | some (.object _) => true
  | some _ => false

def BundleEntry.validate (entry : BundleEntry) : Except CoreError Unit :=
  if !isSha256Hex entry.digest then
    .error (.invalidInput ("entry '" ++ entry.key ++
      "' has a digest that is not 64 hex characters"))
  else if entry.registry = "" ∨ entry.key = "" then
    .error (.invalidInput "an entry names no registry or no key")
  else if escapes entry.key then
    .error (.invalidInput ("entry key '" ++ entry.key ++
      "' is not a storage key: a bundle names keys, and a bundle that could name any key " ++
      "would be a way to plant content anywhere"))
  else if !factsAreObject entry.facts then
    .error (.invalidInput ("entry '" ++ entry.key ++
      "' carries facts that are not an object keyed by registry kind"))
  else .ok ()

namespace BundleManifest

/-- Refuse a manifest this build cannot read, and one with an entry that is refused. -/
def validate (m : BundleManifest) : Except CoreError Unit :=
  if BUNDLE_VERSION < m.bundleVersion then
    .error (.invalidInput ("bundle_version " ++ toString m.bundleVersion ++
      " is newer than this build understands (" ++ toString BUNDLE_VERSION ++ ")"))
  else m.entries.forM BundleEntry.validate

def digests (m : BundleManifest) : List String := m.entries.map BundleEntry.digest

/-- Every distinct blob in the order of the digests, and how many keys point at it. -/
def blobs (m : BundleManifest) : List (String × ℕ) :=
  (m.digests.dedup.insertionSort (· ≤ ·)).map fun digest => (digest, m.digests.count digest)

end BundleManifest

/-- `to_vec_pretty` and `from_slice` of the manifest's type. What is written for a
manifest that validates is read back as that manifest. -/
structure SerdeJson where
  toVecPretty : BundleManifest → Except String Bytes
  fromSlice : Bytes → Except String BundleManifest
  fromSlice_toVecPretty : ∀ m bytes, m.validate = .ok () → toVecPretty m = .ok bytes →
    fromSlice bytes = .ok m

/-- A member of a tar. Its path is text already, as `to_string_lossy` gives it. -/
structure Member where
  path : Except String String
  content : Except String Bytes

/-- What the iterator over a tar's members yields. -/
abbrev Archive := Except String (List (Except String Member))

def ioError (e : String) : CoreError := .invalidInput ("reading the bundle: " ++ e)

def io {α : Type} : Except String α → Except CoreError α := Except.mapError ioError

/-- The backslash of a path counts as its separator. -/
def normalise (path : String) : String :=
  String.ofList (path.toList.map fun c => if c = Char.ofNat 92 then '/' else c)

structure Reading where
  manifestBytes : Option Bytes
  signature : Option Bytes
  blobs : Assoc String Bytes
  rejected : List String

def Reading.empty : Reading := ⟨none, none, ∅, []⟩

structure ReadBundle where
  manifest : BundleManifest
  signature : Bytes
  blobs : Assoc String Bytes
  rejected : List String

def noManifest : CoreError := .invalidInput "the bundle has no manifest.json"

section Container
variable (lib : SerdeJson) (sha256Hex : Bytes → String)

/-- The bytes the signature covers. -/
def toSignedBytes (manifest : BundleManifest) : Except CoreError Bytes :=
  (lib.toVecPretty manifest).mapError fun e => .other ("serialising the manifest: " ++ e)

/-- The members that are written, and how many of them are blobs. A digest is asked for
once. -/
def writeBundle (manifest : BundleManifest) (signature : Bytes)
    (blobs : String → Option Bytes) : Except CoreError (List (String × Bytes) × ℕ) := do
  let manifestBytes ← toSignedBytes lib manifest
  let written := manifest.blobs.filterMap fun e =>
    (blobs e.1).map fun bytes => (BLOB_PREFIX ++ e.1, bytes)
  .ok ((MANIFEST_PATH, manifestBytes) :: (SIGNATURE_PATH, signature) :: written, written.length)

/-- The tar that a reader finds where these members were written. -/
def framed (members : List (String × Bytes)) : Archive :=
  .ok (members.map fun e => .ok ⟨.ok e.1, .ok e.2⟩)

/-- One `blobs/` member of a bundle, kept or rejected. -/
def acceptBlob (name path : String) (bytes : Bytes) (r : Reading) : Reading :=
  if !isSha256Hex name then { r with rejected := r.rejected ++ [path] }
  else if sha256Hex bytes = name then { r with blobs := r.blobs.insert name bytes }
  else { r with rejected := r.rejected ++ [name] }

def readMember (path : String) (bytes : Bytes) (r : Reading) : Except CoreError Reading :=
  if path = MANIFEST_PATH then
    if r.manifestBytes.isSome then
      .error (.invalidInput ("the bundle carries more than one manifest.json; the one that is " ++
        "signed and the one that would be imported need not be the same file"))
    else .ok { r with manifestBytes := some bytes }
  else if path = SIGNATURE_PATH then
    if r.signature.isSome then
      .error (.invalidInput "the bundle carries more than one manifest.sig")
    else .ok { r with signature := some bytes }
  else
    match Texts.stripPrefix path BLOB_PREFIX with
    | some name => .ok (acceptBlob sha256Hex name path bytes r)
    | none => .ok r

def readMembers : List (Except String Member) → Reading → Except CoreError Reading
  | [], r => .ok r
  | entry :: rest, r => do
    let entry ← io entry
    let path ← io entry.path
    let bytes ← io entry.content
    let r ← readMember sha256Hex (normalise path) bytes r
    readMembers rest r

/-- Read a bundle, checking each blob against its own name. -/
def readBundle (input : Archive) : Except CoreError ReadBundle := do
  let entries ← io input
  let r ← readMembers sha256Hex entries .empty
  let manifestBytes ← r.manifestBytes.elim (.error noManifest) .ok
  let manifest ← (lib.fromSlice manifestBytes).mapError fun e =>
    .invalidInput ("manifest.json is not a manifest: " ++ e)
  manifest.validate
  let signature ← r.signature.elim (.error (.invalidInput "the bundle has no manifest.sig")) .ok
  .ok ⟨manifest, signature, r.blobs, r.rejected⟩

end Container

def firstManifest : List (Except String Member) → Except CoreError Bytes
  | [] => .error noManifest
  | entry :: rest => do
    let entry ← io entry
    let path ← io entry.path
    if normalise path = MANIFEST_PATH then io entry.content else firstManifest rest

/-- The manifest bytes exactly as they were written, for the signature check. -/
def manifestBytesOf (input : Archive) : Except CoreError Bytes := do
  let entries ← io input
  firstManifest entries

end BatleHub.Bundles
