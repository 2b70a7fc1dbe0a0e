import BatleHub.Lib.Doubling
import BatleHub.Lib.Framing
import BatleHub.Lib.Hex
import BatleHub.Lib.Segments
import BatleHub.Lib.Texts
import BatleHub.StorageRouter
import Mathlib.Data.List.DropRight

/-!
Storage keys as paths (`storage/filesystem`, `storage/mod`). A key is refused when it,
or anything a percent-decoder makes of it, could leave the root. An accepted key is
written as a path: a colon becomes two underscores, a suffix is appended, and the
slashes cut the components. A listing reads the path back into a key.
-/
namespace BatleHub.FilesystemStorage

open Lib Doubling Segments
open StorageRouter (Bytes STAGING_PREFIX backslash)

section Decoding

def percent : UInt8 := 37

/-- One pass over the bytes, and whether it decoded anything. -/
def percentDecodeBytes : List UInt8 → List UInt8 × Bool
  | [] => ([], false)
  | [b] => ([b], false)
  | [b, c] => ([b, c], false)
  | b :: c :: d :: rest =>
    match (if b = percent then Hex.valueOf (Char.ofNat c.toNat) else none),
        Hex.valueOf (Char.ofNat d.toNat) with
    | some hi, some lo => (UInt8.ofNat (hi * 16 + lo) :: (percentDecodeBytes rest).1, true)
    | _, _ =>
      let later := percentDecodeBytes (c :: d :: rest)
      (b :: later.1, later.2)

def isContinuation (b : UInt8) : Bool := decide (128 ≤ b ∧ b ≤ 191)

/-- The bytes that may stand second after `b`, and how many continuation bytes follow. -/
def sequenceOf (b : UInt8) : Option (UInt8 × UInt8 × ℕ) :=
  if 194 ≤ b ∧ b ≤ 223 then some (128, 191, 0)
  else if b = 224 then some (160, 191, 1)
  else if b = 237 then some (128, 159, 1)
  else if 225 ≤ b ∧ b ≤ 239 then some (128, 191, 1)
  else if b = 240 then some (144, 191, 2)
  else if 241 ≤ b ∧ b ≤ 243 then some (128, 191, 2)
  else if b = 244 then some (128, 143, 2)
  else none

def replacementChar : Char := Char.ofNat 65533

/-- The character that starts at `b`, and how many of the following bytes it takes. A
sequence that breaks off is one replacement character. -/
def lossyChar (b : UInt8) (following : List UInt8) : Char × ℕ :=
  if b < 128 then (Char.ofNat b.toNat, 0)
  else
    match sequenceOf b, following with
    | some (low, high, more), second :: rest =>
      if low ≤ second ∧ second ≤ high then
        let tail := (rest.take more).takeWhile isContinuation
        if tail.length = more then
          let lead := b.toNat % 2 ^ (5 - more)
          (Char.ofNat ((second :: tail).foldl (fun n c => n * 64 + c.toNat % 64) lead), more + 1)
        else (replacementChar, tail.length + 1)
      else (replacementChar, 0)
    | _, _ => (replacementChar, 0)

def lossyChars : ℕ → List UInt8 → List Char
  | _, [] => []
  | 0, b :: rest =>
    let (c, taken) := lossyChar b rest
    c :: lossyChars taken rest
  | taken + 1, _ :: rest => lossyChars taken rest

/-- `String::from_utf8_lossy`. -/
def fromUtf8Lossy (bytes : List UInt8) : String := String.ofList (lossyChars 0 bytes)

def percentDecodeRound (value : String) : Option String :=
  if value.toList.contains '%' then
    let decoded := percentDecodeBytes (Framing.utf8 value)
    if decoded.2 then some (fromUtf8Lossy decoded.1) else none
  else none

def MAX_PERCENT_DECODE_ROUNDS : ℕ := 8

/-- Membership among segments is decided by comparing them. -/
local instance segments_lawful : LawfulBEq (List Char) := inferInstance

/-- The traversal rules, applied to one decoding round of `value`. -/
def rejectTraversal (kind value : String) (decoded : List Char) : Except CoreError Unit :=
  let segments := decoded.splitOn '/'
  if Char.ofNat 0 ∈ decoded ∨ backslash ∈ decoded then
    .error (.invalidInput (kind ++ " '" ++ value ++ "' contains an illegal character"))
  else if ['.', '.'] ∈ segments then
    .error (.invalidInput (kind ++ " '" ++ value ++ "' contains a path-traversal segment"))
  else if [] ∈ segments.dropLast ∨
      (1 < segments.length ∧ segments.getLast? = some [] ∧ kind ≠ "path") ∨ ['.'] ∈ segments then
    .error (.invalidInput (kind ++ " '" ++ value ++ "' contains an empty or '.' path segment"))
  else if kind = "version" ∧ '/' ∈ decoded then
    .error (.invalidInput (kind ++ " '" ++ value ++ "' must not contain '/'"))
  else .ok ()

/-- `check_decoded_rounds`, with the rounds left. -/
def checkDecodedRounds (kind value : String) : ℕ → String → Except CoreError Unit
  | 0, _ =>
    .error (.invalidInput (kind ++ " '" ++ value ++ "' is excessively percent-encoded"))
  | rounds + 1, current => do
    rejectTraversal kind value current.toList
    match percentDecodeRound current with
    | some next => checkDecodedRounds kind value rounds next
    | none => .ok ()

def hasTraversalAfterDecoding (value : String) : Bool :=
  match checkDecodedRounds "path" value MAX_PERCENT_DECODE_ROUNDS value with
  | .ok _ => false
  | .error _ => true

/-- Two decodings, the second of an escape that the first one made. -/
example : hasTraversalAfterDecoding "a/%252e%252e/b" = true := by decide +kernel

/-- `validate_path_safe`, over every part of a coordinate that becomes part of a key. -/
def validatePathSafe (kind value : String) : Except CoreError Unit :=
  if value = "" then .error (.invalidInput (kind ++ " must not be empty"))
  else if value.toList.head? = some '/' ∨ value.toList.getLast? = some '/' then
    .error (.invalidInput (kind ++ " '" ++ value ++ "' must not start or end with '/'"))
  else checkDecodedRounds kind value MAX_PERCENT_DECODE_ROUNDS value

def validatePackageName (name : String) : Except CoreError Unit :=
  validatePathSafe "package name" name

end Decoding

section SafeKeys

-- The `Debug` text of a key, in the messages.
variable (debugText : String → String)

def ensureSafeKey (key : String) : Except CoreError Unit :=
  if key = "" then .error (.invalidInput "empty storage key")
  else if key.toList.contains (Char.ofNat 0) || key.toList.contains backslash then
    .error (.invalidInput ("storage key " ++ debugText key ++ " contains an illegal character"))
  else if key.toList.head? = some '/' then
    .error (.invalidInput ("storage key " ++ debugText key ++ " must not be absolute"))
  else if hasTraversalAfterDecoding key then
    .error (.invalidInput
      ("storage key " ++ debugText key ++ " contains a path-traversal segment"))
  else .ok ()

/-- The keys that `ensure_safe_key` accepts, whatever the messages are. -/
def SafeKey (key : String) : Prop := ensureSafeKey id key = .ok ()

instance (key : String) : Decidable (SafeKey key) :=
  inferInstanceAs (Decidable (ensureSafeKey id key = .ok ()))

theorem ensureSafeKey_eq_ok_iff (key : String) :
    ensureSafeKey debugText key = .ok () ↔ SafeKey key := by
  unfold SafeKey ensureSafeKey
  split_ifs <;> simp

/-- What the first round of the check looked at. -/
theorem SafeKey.segments {key : String} (h : SafeKey key) :
    key.toList ≠ [] ∧ [] ∉ (key.toList.splitOn '/').dropLast ∧
      ['.'] ∉ key.toList.splitOn '/' := by
  unfold SafeKey ensureSafeKey at h
  split_ifs at h with hempty hillegal habsolute htraversal
  have hround : rejectTraversal "path" key key.toList = .ok () := by
    unfold hasTraversalAfterDecoding MAX_PERCENT_DECODE_ROUNDS at htraversal
    rw [checkDecodedRounds] at htraversal
    cases hreject : rejectTraversal "path" key key.toList with
    | ok _ => rfl
    | error e =>
      rw [hreject] at htraversal
      exact absurd rfl htraversal
  unfold rejectTraversal at hround
  dsimp only at hround
  split_ifs at hround with hillegal hdots hsegments hversion
  rw [not_or, not_or] at hsegments
  refine ⟨?_, hsegments.1, hsegments.2.2⟩
  intro hnil
  exact hempty (String.toList_eq_nil_iff.mp hnil)

end SafeKeys

section Paths

/-- The components of a path below the root. -/
abbrev Path := List (List Char)

/-- `Path::components` below the root: empty and `.` components are no components. -/
def components (rel : List Char) : Path :=
  (rel.splitOn '/').filter fun c => decide (c ≠ [] ∧ c ≠ ['.'])

/-- `key.replace(':', "__")`. -/
def mangle (key : List Char) : List Char := double ':' '_' key

def datSuffix : List Char := ['.', 'd', 'a', 't']

def pathOf (key : String) : Path := components (mangle key.toList ++ datSuffix)

/-- A key prefix without its trailing slashes. -/
def stem (lead : String) : List Char := lead.toList.rdropWhile (· = '/')

def dirOf (lead : String) : Path :=
  components ((mangle lead.toList).rdropWhile (· = '/'))

def keyToPath (debugText : String → String) (key : String) : Except CoreError Path := do
  ensureSafeKey debugText key
  .ok (pathOf key)

def prefixToDir (debugText : String → String) (lead : String) : Except CoreError Path := do
  ensureSafeKey debugText lead
  .ok (dirOf lead)

/-- `trim_end_matches(".dat")`, on the reversed text. -/
def trimDatReversed : List Char → List Char
  | 't' :: 'a' :: 'd' :: '.' :: rest => trimDatReversed rest
  | text => text

def trimDat (text : List Char) : List Char := (trimDatReversed text.reverse).reverse

/-- The key that a listing reads off a path. -/
def keyOfPath (path : Path) : String :=
  String.ofList (undouble ':' '_' (trimDat (['/'].intercalate path)))

/-- `path.extension() == Some("dat")`: a name that is nothing but the suffix has none. -/
def hasDatExtension (path : Path) : Bool :=
  match path.getLast? with
  | none => false
  | some name => datSuffix.isSuffixOf name && decide (datSuffix.length < name.length)

theorem components_eq_splitOn {rel : List Char} (hempty : [] ∉ rel.splitOn '/')
    (hdot : ['.'] ∉ rel.splitOn '/') : components rel = rel.splitOn '/' := by
  apply List.filter_eq_self.mpr
  intro c hc
  apply decide_eq_true
  refine ⟨?_, ?_⟩
  · rintro rfl
    exact hempty hc
  · rintro rfl
    exact hdot hc

theorem splitOn_mangle (l : List Char) :
    (mangle l).splitOn '/' = (l.splitOn '/').map mangle := by
  induction l with
  | nil => rfl
  | cons a l ih =>
    unfold mangle at ih ⊢
    obtain ⟨first, rest, hsplit⟩ := List.exists_cons_of_ne_nil (List.splitOn_ne_nil '/' l)
    rw [double_cons, List.splitOn_cons_eq_if_modifyHead]
    by_cases hslash : a = '/'
    · subst hslash
      rw [if_neg (by decide), List.singleton_append, List.splitOn_cons_eq_if_modifyHead, ih]
      rfl
    · have hbeq : ¬ (a == '/') = true := by simpa using hslash
      rw [if_neg hbeq, hsplit, List.modifyHead_cons, List.map_cons, double_cons]
      rw [hsplit, List.map_cons] at ih
      by_cases hcolon : a = ':'
      · rw [if_pos hcolon, List.cons_append, List.singleton_append,
          List.splitOn_cons_eq_if_modifyHead, List.splitOn_cons_eq_if_modifyHead, ih]
        rfl
      · rw [if_neg hcolon, List.singleton_append, List.splitOn_cons_eq_if_modifyHead,
          if_neg hbeq, ih]
        rfl

theorem mangle_eq_nil_iff (l : List Char) : mangle l = [] ↔ l = [] := by
  cases l with
  | nil => simp [mangle]
  | cons a l =>
    unfold mangle
    rw [double_cons]
    split_ifs <;> simp

theorem mangle_eq_dot_iff (l : List Char) : mangle l = ['.'] ↔ l = ['.'] := by
  cases l with
  | nil => simp [mangle]
  | cons a l =>
    have hrest := mangle_eq_nil_iff l
    unfold mangle at hrest ⊢
    rw [double_cons]
    by_cases hcolon : a = ':'
    · subst hcolon
      simp
    · rw [if_neg hcolon, List.singleton_append, List.cons.injEq, List.cons.injEq, hrest]

theorem nil_mem_map_mangle_iff (segments : List (List Char)) :
    [] ∈ segments.map mangle ↔ [] ∈ segments := by
  simp only [List.mem_map, mangle_eq_nil_iff, exists_eq_right]

theorem dot_mem_map_mangle_iff (segments : List (List Char)) :
    ['.'] ∈ segments.map mangle ↔ ['.'] ∈ segments := by
  simp only [List.mem_map, mangle_eq_dot_iff, exists_eq_right]

theorem slash_notMem_name {last : List Char} (hlast : '/' ∉ last) :
    '/' ∉ mangle last ++ datSuffix := by
  rw [List.mem_append, not_or]
  refine ⟨?_, by decide⟩
  intro h
  exact hlast ((mem_double_iff (by decide) (by decide) last).mp h)

theorem splitOn_mangle_dat {before last : List Char} (hlast : '/' ∉ last) :
    (mangle (before ++ '/' :: last) ++ datSuffix).splitOn '/' =
      (mangle before).splitOn '/' ++ [mangle last ++ datSuffix] := by
  have hpath : mangle (before ++ '/' :: last) ++ datSuffix =
      mangle before ++ '/' :: (mangle last ++ datSuffix) := by
    unfold mangle
    rw [double_append, double_cons, if_neg (by decide)]
    simp
  rw [hpath, List.splitOn_append_cons_self,
    List.splitOn_eq_singleton (slash_notMem_name hlast)]

theorem name_ne_dot (name : List Char) : name ++ datSuffix ≠ [] ∧ name ++ datSuffix ≠ ['.'] := by
  refine ⟨?_, ?_⟩
  · simp [datSuffix]
  · intro h
    have hlength := congrArg List.length h
    simp [datSuffix] at hlength

/-- The path of an accepted key is cut at its slashes and nowhere else. -/
theorem SafeKey.pathOf_eq {key : String} (h : SafeKey key) :
    pathOf key = (mangle key.toList ++ datSuffix).splitOn '/' := by
  obtain ⟨-, hempty, hdot⟩ := h.segments
  unfold pathOf
  rcases exists_last_segment '/' key.toList with hnone | ⟨before, last, hkey, hlast⟩
  · have hname := slash_notMem_name hnone
    obtain ⟨hne, hnd⟩ := name_ne_dot (mangle key.toList)
    apply components_eq_splitOn
    · rw [List.splitOn_eq_singleton hname, List.mem_singleton]
      exact Ne.symm hne
    · rw [List.splitOn_eq_singleton hname, List.mem_singleton]
      exact Ne.symm hnd
  · rw [hkey, List.splitOn_append_cons_self, List.splitOn_eq_singleton hlast] at hempty hdot
    rw [List.dropLast_concat] at hempty
    rw [List.mem_append, not_or] at hdot
    obtain ⟨hne, hnd⟩ := name_ne_dot (mangle last)
    rw [hkey]
    apply components_eq_splitOn
    · rw [splitOn_mangle_dat hlast, List.mem_append, not_or, splitOn_mangle,
        nil_mem_map_mangle_iff, List.mem_singleton]
      exact ⟨hempty, Ne.symm hne⟩
    · rw [splitOn_mangle_dat hlast, List.mem_append, not_or, splitOn_mangle,
        dot_mem_map_mangle_iff, List.mem_singleton]
      exact ⟨hdot.1, Ne.symm hnd⟩

theorem notMem_splitOn_of_concat {l : List Char} (h : [] ∉ l.splitOn '/') :
    l ≠ [] ∧ l.getLast? ≠ some '/' := by
  refine ⟨?_, ?_⟩
  · rintro rfl
    exact h (by simp)
  · intro hlast
    obtain ⟨before, rfl⟩ := List.getLast?_eq_some_iff.mp hlast
    rw [List.splitOn_append_cons_self] at h
    exact h (by simp)

theorem rdropWhile_slash_eq_self {l : List Char} (h : l.getLast? ≠ some '/') :
    l.rdropWhile (· = '/') = l := by
  rcases List.eq_nil_or_concat l with rfl | ⟨before, a, rfl⟩
  · rfl
  · have ha : a ≠ '/' := by
      rintro rfl
      exact h (by simp)
    rw [List.concat_eq_append, List.rdropWhile_concat_neg _ _ _ (by simpa using ha)]

/-- An accepted prefix ends in at most one slash, and what is left of it has no empty
segment. -/
theorem SafeKey.stem_spec {lead : String} (h : SafeKey lead) :
    (lead.toList = stem lead ∧ lead.toList.getLast? ≠ some '/' ∨
      lead.toList = stem lead ++ ['/']) ∧
      [] ∉ (stem lead).splitOn '/' ∧ ['.'] ∉ (stem lead).splitOn '/' := by
  obtain ⟨hne, hempty, hdot⟩ := h.segments
  by_cases hslash : lead.toList.getLast? = some '/'
  · obtain ⟨before, hlead⟩ := List.getLast?_eq_some_iff.mp hslash
    rw [hlead, List.splitOn_append_cons_self, List.splitOn_nil] at hempty hdot
    rw [List.dropLast_concat] at hempty
    rw [List.mem_append, not_or] at hdot
    have hbefore := (notMem_splitOn_of_concat hempty).2
    have hstem : stem lead = before := by
      unfold stem
      rw [hlead, List.rdropWhile_concat_pos _ _ _ (by simp), rdropWhile_slash_eq_self hbefore]
    rw [hstem]
    exact ⟨Or.inr hlead, hempty, hdot.1⟩
  · have hstem : stem lead = lead.toList := rdropWhile_slash_eq_self hslash
    rw [hstem]
    refine ⟨Or.inl ⟨rfl, hslash⟩, ?_, hdot⟩
    rcases exists_last_segment '/' lead.toList with hnone | ⟨before, last, hlead, hlast⟩
    · rw [List.splitOn_eq_singleton hnone, List.mem_singleton]
      exact Ne.symm hne
    · have hlastne : last ≠ [] := by
        rintro rfl
        exact hslash (by rw [hlead]; simp)
      rw [hlead, List.splitOn_append_cons_self, List.splitOn_eq_singleton hlast] at hempty ⊢
      rw [List.dropLast_concat] at hempty
      rw [List.mem_append, not_or, List.mem_singleton]
      exact ⟨hempty, Ne.symm hlastne⟩

theorem rdropWhile_mangle (l : List Char) :
    (mangle l).rdropWhile (· = '/') = mangle (l.rdropWhile (· = '/')) := by
  induction l using List.reverseRecOn with
  | nil => rfl
  | append_singleton l a ih =>
    have hsplit : mangle (l ++ [a]) = mangle l ++ mangle [a] := double_append l [a]
    by_cases hslash : a = '/'
    · subst hslash
      rw [hsplit, show mangle ['/'] = ['/'] from rfl, List.rdropWhile_concat_pos _ _ _ (by simp),
        List.rdropWhile_concat_pos _ _ _ (by simp), ih]
    · rw [List.rdropWhile_concat_neg _ _ _ (by simpa using hslash)]
      apply rdropWhile_slash_eq_self
      rw [hsplit]
      by_cases hcolon : a = ':'
      · subst hcolon
        rw [show mangle [':'] = ['_', '_'] from rfl, List.getLast?_append]
        simp
      · rw [show mangle [a] = [a] from double_eq_self (by simpa using Ne.symm hcolon)]
        simpa using hslash

/-- The directory of an accepted prefix is cut at the slashes of its stem. -/
theorem SafeKey.dirOf_eq {lead : String} (h : SafeKey lead) :
    dirOf lead = (mangle (stem lead)).splitOn '/' := by
  obtain ⟨-, hempty, hdot⟩ := h.stem_spec
  have hdir : dirOf lead = components (mangle (stem lead)) := by
    unfold dirOf stem
    rw [rdropWhile_mangle]
  rw [hdir]
  apply components_eq_splitOn
  · rwa [splitOn_mangle, nil_mem_map_mangle_iff]
  · rwa [splitOn_mangle, dot_mem_map_mangle_iff]

end Paths

section PlainKeys

/-- No underscore stands before an underscore or a colon. -/
def Unmarked (text : List Char) : Prop := NoMark ':' '_' text

instance (text : List Char) : Decidable (Unmarked text) :=
  inferInstanceAs (Decidable (NoMark ':' '_' text))

/-- The keys whose paths give them back. -/
def PlainKey (key : String) : Prop :=
  SafeKey key ∧ Unmarked key.toList ∧ ¬ datSuffix <:+ key.toList ∧ key.toList.getLast? ≠ some '/'

instance (key : String) : Decidable (PlainKey key) :=
  inferInstanceAs (Decidable (SafeKey key ∧ Unmarked key.toList ∧ ¬ datSuffix <:+ key.toList ∧
    key.toList.getLast? ≠ some '/'))

/-- Two accepted keys without marks have two paths. -/
theorem pathOf_injective {a b : String} (ha : SafeKey a) (hb : SafeKey b)
    (hma : Unmarked a.toList) (hmb : Unmarked b.toList) (h : pathOf a = pathOf b) : a = b := by
  rw [ha.pathOf_eq, hb.pathOf_eq] at h
  have hrel := List.append_cancel_right (splitOn_injective '/' h)
  exact String.toList_inj.mp (double_injective hma hmb hrel)

theorem trimDatReversed_eq_self {text : List Char} (h : ¬ datSuffix <:+ text.reverse) :
    trimDatReversed text = text := by
  unfold trimDatReversed
  split
  · rename_i rest
    refine absurd ⟨rest.reverse, ?_⟩ h
    simp [datSuffix]
  · rfl

theorem trimDat_append {text : List Char} (h : ¬ datSuffix <:+ text) :
    trimDat (text ++ datSuffix) = text := by
  have hreversed : (text ++ datSuffix).reverse = 't' :: 'a' :: 'd' :: '.' :: text.reverse := by
    simp [datSuffix]
  unfold trimDat
  rw [hreversed, trimDatReversed, trimDatReversed_eq_self (by rwa [List.reverse_reverse]),
    List.reverse_reverse]

/-- Only a key that ends in the suffix is written so. -/
theorem not_datSuffix_mangle {key : List Char} (hmark : Unmarked key)
    (h : ¬ datSuffix <:+ key) : ¬ datSuffix <:+ mangle key := by
  rintro ⟨before, hbefore⟩
  apply h
  refine ⟨undouble ':' '_' before, ?_⟩
  calc undouble ':' '_' before ++ datSuffix
      = undouble ':' '_' (before ++ '.' :: ['d', 'a', 't']) :=
        (undouble_append_cons (by decide) before ['d', 'a', 't']).symm
    _ = undouble ':' '_' (mangle key) := by rw [← hbefore]; rfl
    _ = key := undouble_double hmark

theorem PlainKey.keyOfPath_pathOf {key : String} (h : PlainKey key) :
    keyOfPath (pathOf key) = key := by
  obtain ⟨hsafe, hmark, hdat, -⟩ := h
  unfold keyOfPath
  rw [hsafe.pathOf_eq, List.intercalate_splitOn, trimDat_append (not_datSuffix_mangle hmark hdat)]
  have hread : undouble ':' '_' (mangle key.toList) = key.toList := undouble_double hmark
  rw [hread, String.ofList_toList]

theorem PlainKey.hasDatExtension_pathOf {key : String} (h : PlainKey key) :
    hasDatExtension (pathOf key) = true := by
  obtain ⟨hsafe, -, -, hslash⟩ := h
  have hname : ∀ name : List Char, name ≠ [] →
      (datSuffix.isSuffixOf (mangle name ++ datSuffix) &&
        decide (datSuffix.length < (mangle name ++ datSuffix).length)) = true := by
    intro name hne
    have hmangled : 0 < (mangle name).length :=
      List.length_pos_of_ne_nil (mt (mangle_eq_nil_iff name).mp hne)
    have hlength : datSuffix.length < (mangle name ++ datSuffix).length := by
      rw [List.length_append]
      omega
    have hsuffix : datSuffix.isSuffixOf (mangle name ++ datSuffix) = true :=
      List.isSuffixOf_iff_suffix.mpr (List.suffix_append _ _)
    rw [hsuffix, decide_eq_true hlength]
    rfl
  unfold hasDatExtension
  rw [hsafe.pathOf_eq]
  rcases exists_last_segment '/' key.toList with hnone | ⟨before, last, hkey, hlast⟩
  · rw [List.splitOn_eq_singleton (slash_notMem_name hnone)]
    exact hname key.toList hsafe.segments.1
  · have hne : last ≠ [] := by
      rintro rfl
      exact hslash (by rw [hkey]; simp)
    rw [hkey, splitOn_mangle_dat hlast, List.getLast?_concat]
    exact hname last hne

/-- A key lies below the directory of a stem exactly when it goes on with a slash. -/
theorem PlainKey.below_iff {key : String} (h : PlainKey key) {d : List Char}
    (hmark : Unmarked d) :
    below ((mangle d).splitOn '/') (pathOf key) = true ↔ d ++ ['/'] <+: key.toList := by
  rw [h.1.pathOf_eq, below_splitOn_iff]
  constructor
  · rintro ⟨rest, hrest⟩
    obtain ⟨mid, hmid, -⟩ := append_eq_append_cons_of_notMem (by decide) hrest
    have hkey := double_eq_append_cons (by decide) h.2.1 hmark hmid
    rw [hkey]
    exact ⟨undouble ':' '_' mid, by simp⟩
  · rintro ⟨rest, hrest⟩
    refine ⟨mangle rest ++ datSuffix, ?_⟩
    rw [← hrest]
    unfold mangle
    rw [double_append, double_append, show double ':' '_' ['/'] = ['/'] from rfl]
    simp

end PlainKeys

end BatleHub.FilesystemStorage
