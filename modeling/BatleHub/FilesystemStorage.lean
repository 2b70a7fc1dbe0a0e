import BatleHub.Lib.FileTree
import BatleHub.Lib.Texts
import BatleHub.StorageKeys
import Mathlib.Algebra.Order.Ring.Nat

/-!
The filesystem backend (`storage/filesystem`). A key is one file below the root; a write
lands beside its path and is renamed onto it once it is complete. The three prefix calls
work on the directory that the prefix names. The calls run one after another, and what
they find on the disk is what earlier calls left there.
-/
namespace BatleHub.FilesystemStorage

open Lib FileTree AssocMap
open StorageRouter (Bytes STAGING_PREFIX StoreOutcome)

/-- Membership among texts is decided by comparing them. -/
local instance texts_lawful : LawfulBEq (List Char) := inferInstance

abbrev Disk := Tree (List Char) Bytes

/-- The root, and what the messages and outcomes are made with: the `Debug` text of a key
and the hash of the bytes. -/
structure FilesystemStorageBackend where
  root : String
  debugText : String → String
  sha256Hex : Bytes → String

namespace FilesystemStorageBackend
variable (b : FilesystemStorageBackend)

def display (path : Path) : String := b.root ++ "/" ++ String.ofList (['/'].intercalate path)

def stagingPathFor (path : Path) (uuid : String) : String :=
  b.display path ++ "." ++ uuid ++ ".tmp"

def ensureParentDir (disk : Disk) (path : Path) : Except CoreError Disk :=
  match disk.createDirAll path.dropLast with
  | .ok disk => .ok disk
  | .error e => .error (.storage ("create dirs for " ++ b.display path ++ ": " ++ e.text))

def publishStaging (disk : Disk) (path : Path) (uuid : String) (data : Bytes) :
    Except CoreError Unit × Disk :=
  match disk.publish path data with
  | .ok disk => (.ok (), disk)
  | .error e =>
    (.error (.storage ("publish " ++ b.stagingPathFor path uuid ++ " -> " ++ b.display path ++ ": " ++
      e.text)), disk)

def store (uuid : String) (disk : Disk) (key : String) (data : Bytes) :
    Except CoreError Unit × Disk :=
  match keyToPath b.debugText key with
  | .error e => (.error e, disk)
  | .ok path =>
    match b.ensureParentDir disk path with
    | .error e => (.error e, disk)
    | .ok disk => b.publishStaging disk path uuid data

/-- The chunks of a stream and, where it breaks off, the error it ends with. -/
def storeStreaming (uuid : String) (disk : Disk) (key : String) (chunks : List Bytes)
    (failure : Option CoreError) : Except CoreError StoreOutcome × Disk :=
  match keyToPath b.debugText key with
  | .error e => (.error e, disk)
  | .ok path =>
    match b.ensureParentDir disk path with
    | .error e => (.error e, disk)
    | .ok disk =>
      match failure with
      | some e => (.error e, disk)
      | none =>
        let data := chunks.flatten
        match b.publishStaging disk path uuid data with
        | (.error e, disk) => (.error e, disk)
        | (.ok _, disk) => (.ok ⟨b.sha256Hex data, data.length⟩, disk)

/-- The upload a staging key belongs to. -/
def stagingId (key : String) : Option String :=
  (Texts.stripPrefix key STAGING_PREFIX).bind fun rest => (Texts.splitOnce rest '/').map Prod.fst

def stagingDir (id : String) : Path := components ("staging__".toList ++ id.toList)

def pruneStagingDir (disk : Disk) (key : String) : Disk :=
  match stagingId key with
  | none => disk
  | some id =>
    match disk.removeDirAll (stagingDir id) with
    | .ok disk => disk
    | .error _ => disk

def moveKey (disk : Disk) (src dst : String) : Except CoreError Unit × Disk :=
  match keyToPath b.debugText src with
  | .error e => (.error e, disk)
  | .ok srcPath =>
    match keyToPath b.debugText dst with
    | .error e => (.error e, disk)
    | .ok dstPath =>
      match b.ensureParentDir disk dstPath with
      | .error e => (.error e, disk)
      | .ok disk =>
        match disk.rename srcPath dstPath with
        | .error e =>
          (.error (.storage ("rename " ++ b.display srcPath ++ " -> " ++ b.display dstPath ++ ": " ++
            e.text)), disk)
        | .ok disk => (.ok (), pruneStagingDir disk src)

def delete (disk : Disk) (key : String) : Except CoreError Bool × Disk :=
  match keyToPath b.debugText key with
  | .error e => (.error e, disk)
  | .ok path =>
    match disk.removeFile path with
    | .ok disk => (.ok true, pruneStagingDir disk key)
    | .error .notFound => (.ok false, disk)
    | .error e => (.error (.storage ("delete file " ++ b.display path ++ ": " ++ e.text)), disk)

/-- `walk_dat_files`. -/
def walkDatFiles (disk : Disk) (dir : Path) : List Path := disk.walk hasDatExtension dir

def listKeys (disk : Disk) (lead : String) : Except CoreError (List String) := do
  let dir ← prefixToDir b.debugText lead
  .ok ((walkDatFiles disk dir).map keyOfPath)

def deleteByPrefix (disk : Disk) (lead : String) : Except CoreError ℕ × Disk :=
  match prefixToDir b.debugText lead with
  | .error e => (.error e, disk)
  | .ok dir =>
    let count := (walkDatFiles disk dir).length
    match disk.removeDirAll dir with
    | .ok disk => (.ok count, disk)
    | .error .notFound => (.ok 0, disk)
    | .error e => (.error (.storage e.text), disk)

end FilesystemStorageBackend

end BatleHub.FilesystemStorage
