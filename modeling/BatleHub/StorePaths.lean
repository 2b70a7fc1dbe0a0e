import BatleHub.Integrity
import BatleHub.Lib.Fallible
import BatleHub.Lib.Texts
import BatleHub.StorageKeys

/-!
Store paths of the Nix binary-cache protocol (`nix.rs`): thirty-two characters of
Nix's base32 alphabet, a dash and a name. A path that parses is spelled in characters
that no document of the protocol uses as a separator.
-/
namespace BatleHub.Nix

open Lib
open FilesystemStorage (validatePackageName)
open Integrity (byteLen)

def NIX32_ALPHABET : String := "0123456789abcdfghijklmnpqrsvwxyz"

def STORE_HASH_LEN : ℕ := 32

/-- The store directory of a document that carries none. -/
def DEFAULT_STORE_DIR : String := "/nix/store"

/-- The version of a store name with no version part. -/
def EMPTY_VERSION : String := "-"

def isNix32 (s : String) : Bool :=
  decide (s ≠ "") && s.toList.all fun c => NIX32_ALPHABET.toList.contains c

/-- The characters of Nix's `path-regex`. -/
def isNameChar (c : Char) : Bool :=
  c.isAlphanum || c = '+' || c = '-' || c = '.' || c = '_' || c = '?' || c = '='

def isStoreName (name : String) : Bool :=
  decide (name ≠ "") && decide (byteLen name ≤ 211) && decide (name.toList.head? ≠ some '.') &&
    name.toList.all isNameChar

section DrvNames

/-- A store name, the way Nix splits it. -/
structure DrvName where
  package : String
  version : String
  deriving DecidableEq, Repr

/-- What stands before and after the first dash that a letter does not follow. -/
def splitAtDash : List Char → Option (List Char × List Char)
  | '-' :: c :: rest =>
    if c.isAlpha then (splitAtDash (c :: rest)).map fun parts => ('-' :: parts.1, parts.2)
    else some ([], c :: rest)
  | [] => none
  | c :: rest => (splitAtDash rest).map fun parts => (c :: parts.1, parts.2)

def DrvName.split (name : String) : DrvName :=
  match splitAtDash name.toList with
  | some (package, version) => ⟨String.ofList package, String.ofList version⟩
  | none => ⟨name, EMPTY_VERSION⟩

example : [DrvName.split "php-curl-8.4.25", DrvName.split "nixos-system-host"] =
    [⟨"php-curl", "8.4.25"⟩, ⟨"nixos-system-host", "-"⟩] := by decide +kernel

end DrvNames

section Parsing

structure StorePath where
  storeDir : Option String
  hash : String
  name : String
  package : String
  version : String
  deriving DecidableEq, Repr

/-- The store directory, where the input carries one, and the base name. -/
def cutDir (input : String) : Option String × String :=
  match Texts.rsplitOnce input '/' with
  | some (dir, base) => (some dir, base)
  | none => (none, input)

def StorePath.parse (input : String) : Except CoreError StorePath :=
  let (storeDir, base) := cutDir input
  if byteLen base < STORE_HASH_LEN + 2 then
    .error (.invalidInput ("not a store path: '" ++ input ++
      "' is too short to be 32 hash characters, a dash and a name"))
  else
    match Texts.splitAtBytes STORE_HASH_LEN base.toList with
    | none =>
      .error (.invalidInput ("not a store path: the first 32 bytes of '" ++ base ++
        "' are not 32 characters of Nix's base32 alphabet (" ++ NIX32_ALPHABET ++ ")"))
    | some (hash, rest) =>
      if isNix32 (String.ofList hash) = false then
        .error (.invalidInput ("not a store path: '" ++ String.ofList hash ++
          "' is not 32 characters of Nix's base32 alphabet (" ++ NIX32_ALPHABET ++ ")"))
      else
        match Texts.stripPrefix (String.ofList rest) "-" with
        | none =>
          .error (.invalidInput
            ("not a store path: '" ++ input ++ "' has no dash after its hash"))
        | some name =>
          if isStoreName name = false then
            .error (.invalidInput ("not a store path: '" ++ name ++ "' is not a store name — " ++
              "Nix allows only [0-9a-zA-Z+._?=-], and it may not begin with a period"))
          else do
            validatePackageName name
            let drv := DrvName.split name
            return ⟨storeDir, String.ofList hash, name, drv.package, drv.version⟩

def StorePath.toFullPath (p : StorePath) : String :=
  p.storeDir.getD DEFAULT_STORE_DIR ++ "/" ++ p.hash ++ "-" ++ p.name

theorem isNameChar_of_nix32 {c : Char} (h : c ∈ NIX32_ALPHABET.toList) :
    isNameChar c = true := by
  have hall : NIX32_ALPHABET.toList.all isNameChar = true := by decide +kernel
  exact List.all_eq_true.mp hall c h

/-- What a parsed path is made of. -/
theorem StorePath.parse_spec {input : String} {p : StorePath}
    (h : StorePath.parse input = .ok p) :
    cutDir input = (p.storeDir, p.hash ++ "-" ++ p.name) ∧ isNix32 p.hash = true ∧
      isStoreName p.name = true := by
  unfold StorePath.parse at h
  dsimp only at h
  split_ifs at h with hshort
  split at h
  · cases h
  · rename_i hash rest hsplit
    split_ifs at h with hnix
    split at h
    · cases h
    · rename_i name hstrip
      split_ifs at h with hname
      obtain ⟨-, -, hp⟩ := (Fallible.bind_eq_ok_iff _ _ _).mp h
      obtain rfl := Except.ok.inj hp
      have hrest := (Texts.stripPrefix_eq_some_iff _ _ _).mp hstrip
      have hbase : (cutDir input).2 = String.ofList hash ++ "-" ++ name := by
        apply String.toList_inj.mp
        rw [Texts.splitAtBytes_eq_some hsplit]
        rw [String.append_assoc, ← hrest, String.toList_append, String.toList_ofList,
          String.toList_ofList]
      refine ⟨?_, by simpa using hnix, by simpa using hname⟩
      rw [← hbase]

/-- The characters of a parsed base name. -/
theorem StorePath.isNameChar_of_parse {input : String} {p : StorePath}
    (h : StorePath.parse input = .ok p) :
    ∀ c ∈ (p.hash ++ "-" ++ p.name).toList, isNameChar c = true := by
  obtain ⟨-, hhash, hname⟩ := parse_spec h
  intro c hc
  rw [String.toList_append, String.toList_append, List.mem_append, List.mem_append] at hc
  rcases hc with (hc | hc) | hc
  · rw [isNix32, Bool.and_eq_true, List.all_eq_true] at hhash
    have hmem := hhash.2 c hc
    exact isNameChar_of_nix32 (by simpa using hmem)
  · have hdash : c = '-' := by simpa using hc
    rw [hdash]
    rfl
  · rw [isStoreName, Bool.and_eq_true, List.all_eq_true] at hname
    exact hname.2 c hc

/-- A base name parses to itself, with no store directory. -/
theorem cutDir_of_notMem {base : String} (h : '/' ∉ base.toList) : cutDir base = (none, base) := by
  unfold cutDir Texts.rsplitOnce
  cases hsplit : Texts.splitAtFirst '/' base.toList.reverse with
  | none => rfl
  | some parts =>
    obtain ⟨after, before⟩ := parts
    have hrev := ((Texts.splitAtFirst_eq_some_iff _ _ _ _).mp hsplit).1
    have hmem : '/' ∈ base.toList.reverse := by
      rw [hrev]
      simp
    exact absurd (List.mem_reverse.mp hmem) h

end Parsing

end BatleHub.Nix
