import BatleHub.Lib.Fallible
import BatleHub.Lib.Joins
import BatleHub.Lib.Segments
import BatleHub.Lib.SortedSearch
import BatleHub.StorePaths

/-!
The narinfo document of the Nix protocol (`nix.rs`): the `Name: value` lines in their
order, the edits a proxy makes to them, and the text that a `Sig:` line covers. A field
is read through its lines only, so an edit of one name leaves every other field alone. The
writer ends each line and puts one blank after its colon, and the reader takes exactly that
back, as long as no name holds a colon and no line a newline.
-/
namespace BatleHub.Nix

open Lib
open FilesystemStorage (validatePackageName)
open Integrity (splitWhitespace)

section Documents

structure NarInfo where
  lines : List (String × String)
  deriving DecidableEq, Repr

def NarInfo.getAll (info : NarInfo) (name : String) : List String :=
  (info.lines.filter fun line => decide (line.1 = name)).map Prod.snd

def NarInfo.get (info : NarInfo) (name : String) : Option String :=
  (info.lines.find? fun line => decide (line.1 = name)).map Prod.snd

/-- The lines but for the later ones of a name, by the `seen` flag of `retain`. -/
def retainFirst (name : String) : Bool → List (String × String) → List (String × String)
  | _, [] => []
  | seen, line :: rest =>
    if line.1 ≠ name then line :: retainFirst name seen rest
    else if seen then retainFirst name true rest
    else line :: retainFirst name true rest

def NarInfo.set (info : NarInfo) (name value : String) : NarInfo :=
  match info.lines.findIdx? fun line => decide (line.1 = name) with
  | some first =>
    ⟨retainFirst name false (info.lines.modify first fun line => (line.1, value))⟩
  | none => ⟨info.lines ++ [(name, value)]⟩

def NarInfo.remove (info : NarInfo) (name : String) : NarInfo :=
  ⟨info.lines.filter fun line => decide (line.1 ≠ name)⟩

/-- The first part of a split at every colon. -/
def keyNameOf (signature : String) : String := String.ofList (signature.toList.takeWhile (· ≠ ':'))

/-- The document without a key's signatures, and how many there were. -/
def NarInfo.dropSignaturesBy (info : NarInfo) (keyName : String) : NarInfo × ℕ :=
  let kept := info.lines.filter fun line =>
    decide (line.1 ≠ "Sig" ∨ keyNameOf line.2 ≠ keyName)
  (⟨kept⟩, info.lines.length - kept.length)

def NarInfo.pushSignature (info : NarInfo) (signature : String) : NarInfo :=
  ⟨info.lines ++ [("Sig", signature)]⟩

theorem NarInfo.get_eq_head (info : NarInfo) (name : String) :
    info.get name = (info.getAll name).head? := by
  rw [NarInfo.get, NarInfo.getAll, List.head?_map, List.head?_filter]

end Documents

section Frames
variable (info : NarInfo) {name other : String}

theorem filter_retainFirst (h : other ≠ name) (lines : List (String × String)) (seen : Bool) :
    (retainFirst name seen lines).filter (fun line => decide (line.1 = other)) =
      lines.filter fun line => decide (line.1 = other) := by
  induction lines generalizing seen with
  | nil => rfl
  | cons line rest ih =>
    rw [retainFirst]
    by_cases hline : line.1 = name
    · have hother : line.1 ≠ other := by
        rw [hline]
        exact h.symm
      rw [if_neg (by simpa using hline), List.filter_cons_of_neg (by simpa using hother)]
      cases seen with
      | true => exact ih true
      | false =>
        rw [if_neg (by simp), List.filter_cons_of_neg (by simpa using hother)]
        exact ih true
    · rw [if_pos hline, List.filter_cons, List.filter_cons, ih]

theorem filter_modify (h : other ≠ name) (value : String) (lines : List (String × String)) (i : ℕ)
    (hi : lines.findIdx? (fun line => decide (line.1 = name)) = some i) :
    ((lines.modify i fun line => (line.1, value)).filter fun line => decide (line.1 = other)) =
      lines.filter fun line => decide (line.1 = other) := by
  induction lines generalizing i with
  | nil => simp at hi
  | cons line rest ih =>
    rw [List.findIdx?_cons] at hi
    split at hi
    · rename_i hline
      have hname : line.1 = name := of_decide_eq_true hline
      have hother : line.1 ≠ other := by
        rw [hname]
        exact h.symm
      obtain rfl := Option.some.inj hi
      rw [List.modify_zero_cons, List.filter_cons_of_neg (by simpa using hother),
        List.filter_cons_of_neg (by simpa using hother)]
    · obtain ⟨j, hj, rfl⟩ := Option.map_eq_some_iff.mp hi
      rw [List.modify_succ_cons, List.filter_cons, List.filter_cons, ih j hj]

/-- A line of another name, or lines left out of other names, change nothing of a field. -/
theorem getAll_append (lines : List (String × String)) {line : String × String}
    (h : line.1 ≠ other) :
    (NarInfo.mk (lines ++ [line])).getAll other = (NarInfo.mk lines).getAll other := by
  unfold NarInfo.getAll
  rw [List.filter_append, List.filter_cons_of_neg (by simpa using h), List.filter_nil,
    List.append_nil]

theorem getAll_filter (lines : List (String × String)) {keep : String × String → Bool}
    (h : ∀ line, line.1 = other → keep line = true) :
    (NarInfo.mk (lines.filter keep)).getAll other = (NarInfo.mk lines).getAll other := by
  unfold NarInfo.getAll
  rw [List.filter_filter]
  congr 1
  apply List.filter_congr
  intro line _
  by_cases hline : line.1 = other
  · rw [decide_eq_true hline, h line hline, Bool.and_self]
  · rw [decide_eq_false hline, Bool.false_and]

theorem getAll_set (h : other ≠ name) (value : String) :
    (info.set name value).getAll other = info.getAll other := by
  unfold NarInfo.set
  split
  · rename_i first hfirst
    unfold NarInfo.getAll
    rw [filter_retainFirst h, filter_modify h value _ _ hfirst]
  · exact getAll_append info.lines h.symm

theorem getAll_remove (h : other ≠ name) :
    (info.remove name).getAll other = info.getAll other := by
  apply getAll_filter
  intro line hline
  rw [hline]
  exact decide_eq_true h

theorem getAll_dropSignaturesBy (h : other ≠ "Sig") (keyName : String) :
    (info.dropSignaturesBy keyName).1.getAll other = info.getAll other := by
  apply getAll_filter
  intro line hline
  rw [hline]
  exact decide_eq_true (.inl h)

theorem getAll_pushSignature (h : other ≠ "Sig") (signature : String) :
    (info.pushSignature signature).getAll other = info.getAll other :=
  getAll_append info.lines h.symm

theorem find_retainFirst (lines : List (String × String)) :
    (retainFirst name false lines).find? (fun line => decide (line.1 = name)) =
      lines.find? fun line => decide (line.1 = name) := by
  induction lines with
  | nil => rfl
  | cons line rest ih =>
    rw [retainFirst]
    by_cases hline : line.1 = name
    · rw [if_neg (by simpa using hline), if_neg (by simp),
        List.find?_cons_of_pos (by simpa using hline), List.find?_cons_of_pos (by simpa using hline)]
    · rw [if_pos hline, List.find?_cons_of_neg (by simpa using hline),
        List.find?_cons_of_neg (by simpa using hline), ih]

theorem find_modify (value : String) (lines : List (String × String)) (i : ℕ)
    (hi : lines.findIdx? (fun line => decide (line.1 = name)) = some i) :
    (lines.modify i fun line => (line.1, value)).find? (fun line => decide (line.1 = name)) =
      some (name, value) := by
  induction lines generalizing i with
  | nil => simp at hi
  | cons line rest ih =>
    rw [List.findIdx?_cons] at hi
    split at hi
    · rename_i hline
      have hname : line.1 = name := of_decide_eq_true hline
      obtain rfl := Option.some.inj hi
      rw [List.modify_zero_cons, List.find?_cons_of_pos (by simpa using hname), hname]
    · rename_i hline
      obtain ⟨j, hj, rfl⟩ := Option.map_eq_some_iff.mp hi
      rw [List.modify_succ_cons, List.find?_cons_of_neg (by simpa using hline), ih j hj]

/-- A field that is set is read back. -/
theorem get_set_self (value : String) : (info.set name value).get name = some value := by
  unfold NarInfo.set NarInfo.get
  split
  · rename_i first hfirst
    rw [find_retainFirst, find_modify value _ _ hfirst]
    rfl
  · rename_i hnone
    have habsent : info.lines.find? (fun line => decide (line.1 = name)) = none := by
      rw [List.find?_eq_none]
      intro line hline
      have hnot := List.findIdx?_eq_none_iff.mp hnone line hline
      simpa using hnot
    rw [List.find?_append, habsent, List.find?_cons_of_pos (by simp)]
    rfl

end Frames

section Parsing

-- The `escape_debug` text of a value, in the messages.
variable (escapeDebug : String → String)

def parseLine (raw : String) : Except CoreError (String × String) :=
  match Texts.splitOnce raw ':' with
  | none =>
    .error (.invalidInput ("corrupt NAR info file: line without a colon: '" ++ raw ++ "'"))
  | some (name, rest) =>
    match Texts.splitAtBytes 1 rest.toList with
    | none =>
      .error (.invalidInput
        ("corrupt NAR info file: line '" ++ raw ++ "' has no value after its colon"))
    | some (_, value) => .ok (name, String.ofList value)

def bad (field value : String) : CoreError :=
  .invalidInput ("corrupt NAR info file: '" ++ field ++ "' is '" ++ escapeDebug value ++
    "', which Nix would not parse")

def isDirChar (c : Char) : Bool :=
  c.isAlphanum || c = '/' || c = '.' || c = '_' || c = '+' || c = '-'

def isStoreDir (dir : String) : Bool :=
  decide (dir.toList.head? = some '/') && dir.toList.all isDirChar

def isDigestChar (c : Char) : Bool := c.isAlphanum || c = '+' || c = '/' || c = '='

/-- `split_once([':', '-'])`. -/
def splitDigest (hash : String) : Option (String × String) :=
  match hash.toList.span fun c => decide (c ≠ ':' ∧ c ≠ '-') with
  | (_, []) => none
  | (algo, _ :: digest) => some (String.ofList algo, String.ofList digest)

def isNarHash (hash : String) : Bool :=
  match splitDigest hash with
  | some (algo, digest) =>
    ["md5", "sha1", "sha256", "sha512"].contains algo && decide (digest ≠ "") &&
      digest.toList.all isDigestChar
  | none => false

/-- Every reference, in the document's order. -/
def NarInfo.referenceTokens (info : NarInfo) : List String :=
  (info.getAll "References").flatMap splitWhitespace

def isReference (base : String) : Bool :=
  !base.toList.contains '/' && (StorePath.parse base).isOk

def checkStorePathField (info : NarInfo) : Except CoreError Unit :=
  match info.get "StorePath" with
  | none => .ok ()
  | some raw => do
    let path ← StorePath.parse raw
    match path.storeDir with
    | some dir => if isStoreDir dir then .ok () else .error (bad escapeDebug "StorePath" raw)
    | none => .ok ()

def checkReferencesField (info : NarInfo) : Except CoreError Unit :=
  match info.referenceTokens.find? fun base => !isReference base with
  | some base => .error (bad escapeDebug "References" base)
  | none => .ok ()

def checkNarHashField (info : NarInfo) : Except CoreError Unit :=
  match info.get "NarHash" with
  | some hash => if isNarHash hash then .ok () else .error (bad escapeDebug "NarHash" hash)
  | none => .ok ()

def checkFingerprintFields (info : NarInfo) : Except CoreError Unit := do
  checkStorePathField escapeDebug info
  checkReferencesField escapeDebug info
  checkNarHashField escapeDebug info

def NarInfo.parse (text : String) : Except CoreError NarInfo := do
  let raws := ((text.toList.splitOn '\n').filter (· ≠ [])).map String.ofList
  let lines ← raws.mapM parseLine
  checkFingerprintFields escapeDebug ⟨lines⟩
  return ⟨lines⟩

end Parsing

section Fingerprints

def NarInfo.requireFields (info : NarInfo) : Except CoreError Unit :=
  match ["StorePath", "NarHash", "NarSize", "URL"].find? fun field => (info.get field).isNone with
  | some field =>
    .error (.invalidInput ("corrupt NAR info file: missing '" ++ field ++ "'"))
  | none => .ok ()

def NarInfo.storePath (info : NarInfo) : Except CoreError StorePath :=
  match info.get "StorePath" with
  | none => .error (.invalidInput "corrupt NAR info file: missing 'StorePath'")
  | some raw => StorePath.parse raw

/-- `str::parse::<u64>`: an optional plus sign, digits, and no more than fits. -/
def parseU64 (text : String) : Option ℕ :=
  let digits := match text.toList with
    | '+' :: rest => rest
    | chars => chars
  let n := Nat.ofDigitChars 10 digits 0
  if digits ≠ [] ∧ digits.all Char.isDigit ∧ n < 2 ^ 64 then some n else none

def NarInfo.narSize (info : NarInfo) : Except CoreError ℕ :=
  let text := (info.get "NarSize").getD ""
  match parseU64 text with
  | some n => .ok n
  | none =>
    .error (.invalidInput ("corrupt NAR info file: 'NarSize' is '" ++ text ++ "', not a number"))

/-- The references under a store directory, sorted and each once. -/
def NarInfo.referencedPaths (info : NarInfo) (storeDir : String) : List String :=
  SortedSearch.sortDedup (info.referenceTokens.map fun base => storeDir ++ "/" ++ base)

def fingerprint (info : NarInfo) : Except CoreError String := do
  info.requireFields
  let path ← info.storePath
  let storeDir := path.storeDir.getD DEFAULT_STORE_DIR
  let narHash := (info.get "NarHash").getD ""
  let narSize ← info.narSize
  let refs := info.referencedPaths storeDir
  return "1;" ++ path.toFullPath ++ ";" ++ narHash ++ ";" ++ toString narSize ++ ";" ++
    Joins.join ',' refs

/-- The last part of a split at every slash. -/
def basenameOf (url : String) : String :=
  match Texts.rsplitOnce url '/' with
  | some (_, base) => base
  | none => url

/-- The file name, or why there is none, and the document after the call. -/
def rewriteUrl (info : NarInfo) (storeHash : String) : Except CoreError String × NarInfo :=
  match info.get "URL" with
  | none => (.error (.invalidInput "corrupt NAR info file: missing 'URL'"), info)
  | some url =>
    let base := basenameOf url
    if base = "" then
      (.error (.invalidInput ("corrupt NAR info file: 'URL' is '" ++ url ++
        "', which names no file")), info)
    else
      match validatePackageName base with
      | .error e => (.error e, info)
      | .ok _ => (.ok base, info.set "URL" ("nar/" ++ storeHash ++ "/" ++ base))

end Fingerprints

section Wire
variable {escapeDebug : String → String} {info : NarInfo} {line : String × String}

def NarInfo.toWire (info : NarInfo) : String :=
  info.lines.foldl (fun out line => out ++ line.1 ++ ": " ++ line.2 ++ "\n") ""

def wireLine (line : String × String) : List Char := line.1.toList ++ ':' :: ' ' :: line.2.toList

/-- A line that is read back from its wire form. -/
@[mk_iff]
structure PlainLine (line : String × String) : Prop where
  colon : ':' ∉ line.1.toList
  name : '\n' ∉ line.1.toList
  value : '\n' ∉ line.2.toList

def NarInfo.Plain (info : NarInfo) : Prop := ∀ line ∈ info.lines, PlainLine line

theorem toList_toWire (info : NarInfo) :
    info.toWire.toList = (info.lines.map wireLine).flatMap (· ++ ['\n']) := by
  have hrun : ∀ (lines : List (String × String)) (out : String),
      (lines.foldl (fun out line => out ++ line.1 ++ ": " ++ line.2 ++ "\n") out).toList =
        out.toList ++ (lines.map wireLine).flatMap (· ++ ['\n']) := by
    intro lines
    induction lines with
    | nil => simp
    | cons line lines ih =>
      intro out
      rw [List.foldl_cons, ih, List.map_cons, List.flatMap_cons]
      simp [wireLine]
  exact hrun info.lines ""

theorem wireLine_ne_nil (line : String × String) : wireLine line ≠ [] := by simp [wireLine]

theorem PlainLine.newline_notMem (h : PlainLine line) : '\n' ∉ wireLine line := by
  simp [wireLine, h.name, h.value]

theorem parseLine_wireLine (h : ':' ∉ line.1.toList) :
    parseLine (String.ofList (wireLine line)) = .ok line := by
  have hsplit : Texts.splitOnce (String.ofList (wireLine line)) ':' =
      some (line.1, String.ofList (' ' :: line.2.toList)) := by
    refine (Texts.splitOnce_eq_some_iff _ _ _ _).mpr ⟨?_, h⟩
    apply String.toList_inj.mp
    simp [wireLine]
  have hblank : Texts.splitAtBytes 1 (' ' :: line.2.toList) = some ([' '], line.2.toList) := by
    cases hvalue : line.2.toList <;> rfl
  unfold parseLine
  rw [hsplit]
  simp only [String.toList_ofList, hblank, String.ofList_toList]

theorem splitOn_toWire (h : info.Plain) :
    info.toWire.toList.splitOn '\n' = info.lines.map wireLine ++ [[]] := by
  have hfree : ∀ piece ∈ info.lines.map wireLine, '\n' ∉ piece := by
    intro piece hpiece
    obtain ⟨line, hline, rfl⟩ := List.mem_map.mp hpiece
    exact (h line hline).newline_notMem
  rw [toList_toWire, Segments.splitOn_flatMap_ended hfree]

/-- Reading back what was written leaves the checks of the reader. -/
theorem parse_toWire (h : info.Plain) :
    NarInfo.parse escapeDebug info.toWire =
      (checkFingerprintFields escapeDebug info).map fun _ => info := by
  have hpieces : (info.toWire.toList.splitOn '\n').filter (· ≠ []) = info.lines.map wireLine := by
    have hfull : ∀ piece ∈ info.lines.map wireLine, decide (piece ≠ []) = true := by
      intro piece hpiece
      obtain ⟨line, -, rfl⟩ := List.mem_map.mp hpiece
      exact decide_eq_true (wireLine_ne_nil line)
    rw [splitOn_toWire h, List.filter_append, List.filter_eq_self.mpr hfull]
    simp
  have hlines : ((info.lines.map wireLine).map String.ofList).mapM parseLine = .ok info.lines := by
    rw [List.map_map, List.mapM_map]
    have hread := Fallible.mapM_eq_ok (f := parseLine ∘ String.ofList ∘ wireLine) (g := id)
      fun line hline => parseLine_wireLine (h line hline).colon
    rw [hread, List.map_id]
  unfold NarInfo.parse
  rw [hpieces]
  simp only [hlines, bind, Except.bind, pure, Except.pure]
  cases checkFingerprintFields escapeDebug info <;> rfl

end Wire

end BatleHub.Nix
