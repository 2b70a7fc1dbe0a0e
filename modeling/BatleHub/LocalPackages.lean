import BatleHub.Vocabulary
import Mathlib.Data.Int.Notation
import Mathlib.Data.Nat.Notation

/-!
A version published to this instance and the tombstone it leaves
(`entities/local_package.rs`). The index line is JSON, changed field by field;
times are instants on one axis. How a day is written and how a name is lowered
belong to the libraries behind the source and are parameters of what uses them.
-/
namespace BatleHub.LocalPackages

/-- An instant. -/
abbrev DateTime := ℤ

/-- The libraries' text functions that the store uses. -/
structure TextEnv where
  toLowercase : String → String
  formatDay : DateTime → String

/-- Lowering the ASCII letters, and days written as their number. -/
def asciiEnv : TextEnv where
  toLowercase s := String.ofList (s.toList.map Char.toLower)
  formatDay t := toString (t / 86400)

inductive Json where
  | null
  | bool (b : Bool)
  | number (text : String)
  | string (s : String)
  | array (items : List Json)
  | object (fields : List (String × Json))
  deriving Repr

namespace Json

def emptyObject : Json := .object []

/-- `as_object_mut` and then `insert`: nothing happens to what is no object. -/
def insertField (j : Json) (key : String) (value : Json) : Json :=
  match j with
  | .object fields => .object ((fields.filter fun f => decide (f.1 ≠ key)) ++ [(key, value)])
  | _ => j

def removeField (j : Json) (key : String) : Json :=
  match j with
  | .object fields => .object (fields.filter fun f => decide (f.1 ≠ key))
  | _ => j

def get (j : Json) (key : String) : Option Json :=
  match j with
  | .object fields => fields.lookup key
  | _ => none

def asStr : Json → Option String
  | .string s => some s
  | _ => none

def isObject : Json → Bool
  | .object _ => true
  | _ => false

end Json

inductive Visibility where
  | isPublic
  | internal
  | team
  | isPrivate
  deriving DecidableEq, Repr

/-- A package published directly to this instance. -/
structure PublishedPackage where
  registry : String
  name : String
  version : String
  checksum : String
  yanked : Bool
  deprecated : Bool
  deprecationMessage : Option String
  unlisted : Bool
  indexMetadata : Json
  publishedAt : DateTime
  publishedBy : Option String
  signatureBytes : Option (List UInt8)
  signatureType : Option String
  visibility : Visibility
  retentionKeep : Bool
  deriving Repr

/-- A coordinate that was published and then deleted. -/
structure Tombstone where
  registry : String
  name : String
  version : String
  deletedAt : DateTime
  deletedBy : Option String
  detailCompactedAt : Option DateTime
  publishedAt : DateTime
  publishedBy : Option String
  checksum : Option String
  deriving DecidableEq, Repr

/-- The message a publish onto a spent coordinate is refused with. -/
def Tombstone.burnedCoordinateMessage (env : TextEnv) (t : Tombstone) : String :=
  t.name ++ "@" ++ t.version ++ " was published and deleted on " ++ env.formatDay t.deletedAt ++
    " in registry '" ++ t.registry ++ "'; a published version coordinate is never reused — " ++
    "publish under a new version"

/-- What one compaction run did, or would have done. -/
structure CompactionReport where
  compacted : ℕ
  skipped : ℕ
  dryRun : Bool
  coordinates : List String
  deriving DecidableEq, Repr

end BatleHub.LocalPackages
