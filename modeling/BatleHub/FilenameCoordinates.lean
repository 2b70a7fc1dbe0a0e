import BatleHub.Lib.Cuts
import BatleHub.Lib.Joins

/-!
What an artifact's file name says it is (`release_import/coordinates.rs`, `apk.rs`). The
extension picks the ecosystem, and each ecosystem cuts the rest at its own separator; a
name or version that holds the separator moves the cut.
-/
namespace BatleHub.ReleaseImport

open Lib Cuts Texts

section Model

structure FilenameCoordinate where
  registryType : String
  name : String
  version : String
  deriving DecidableEq, Repr

def FilenameCoordinate.isPublishable (c : FilenameCoordinate) : Bool :=
  decide (c.name ≠ "") && decide (c.version ≠ "")

def pacmanSuffixes : List String := [".pkg.tar.zst", ".pkg.tar.xz", ".pkg.tar.gz"]

def pacmanCoordinate (fileName : String) : Option FilenameCoordinate :=
  if pacmanSuffixes.any (endsWith fileName) then
    match beforeFirst ".pkg.tar".toList fileName.toList with
    | none => none
    | some stem =>
      match (rsplitN '-' 4 stem).map String.ofList with
      | [_, pkgrel, pkgver, name] =>
        if name = "" then none else some ⟨"pacman", name, pkgver ++ "-" ++ pkgrel⟩
      | _ => none
  else none

def condaCoordinate (fileName : String) : Option FilenameCoordinate :=
  match (stripSuffix fileName ".tar.bz2").or (stripSuffix fileName ".conda") with
  | none => none
  | some stem =>
    match (rsplitN '-' 3 stem.toList).map String.ofList with
    | [_, version, name] => some ⟨"conda", name, version⟩
    | _ => some ⟨"conda", stem, ""⟩

def isReleaseSuffix (token : String) : Bool :=
  match stripPrefix token "r" with
  | some digits => decide (digits ≠ "") && digits.toList.all Char.isDigit
  | none => false

def apkCoordinate (fileName : String) : Option (String × String) :=
  match stripSuffix fileName ".apk" with
  | none => none
  | some stem =>
    match rsplitOnce stem '-' with
    | none => none
    | some (rest, release) =>
      if isReleaseSuffix release then
        match rsplitOnce rest '-' with
        | none => none
        | some (name, pkgver) =>
          if name = "" ∨ pkgver = "" then none else some (name, pkgver ++ "-" ++ release)
      else none

def apkCoordinateForImport (fileName : String) : Option FilenameCoordinate :=
  (apkCoordinate fileName).map fun parts => ⟨"apk", parts.1, parts.2⟩

def startsWithDigit (segment : List Char) : Bool :=
  match segment with
  | [] => false
  | c :: _ => c.isDigit

def joinDots (segments : List (List Char)) : String := String.ofList (['.'].intercalate segments)

/-- The version starts at the first segment with a leading digit, which is not the first one. -/
def nugetCoordinate (fileName : String) : Option FilenameCoordinate :=
  match stripSuffix fileName ".nupkg" with
  | none => none
  | some stem =>
    let parts := stem.toList.splitOn '.'
    match parts.findIdx? startsWithDigit with
    | some (start + 1) =>
      some ⟨"nuget", joinDots (parts.take (start + 1)), joinDots (parts.drop (start + 1))⟩
    | _ => none

def wheelCoordinate (fileName : String) : Option FilenameCoordinate :=
  match fileName.toList.splitOn '-' with
  | name :: version :: _ =>
    some ⟨"pypi", String.ofList (name.map fun c => if c = '_' then '-' else c),
      String.ofList version⟩
  | _ => none

def splitOnLastDash (registryType fileName tail : String) : Option FilenameCoordinate :=
  match stripSuffix fileName tail with
  | none => none
  | some stem => (rsplitOnce stem '-').map fun parts => ⟨registryType, parts.1, parts.2⟩

def byExtension (fileName ext : String) : Option FilenameCoordinate :=
  match ext with
  | "nupkg" => nugetCoordinate fileName
  | "whl" => wheelCoordinate fileName
  | "gem" => splitOnLastDash "rubygems" fileName ".gem"
  | "tgz" => splitOnLastDash "npm" fileName ".tgz"
  | "crate" => splitOnLastDash "cargo" fileName ".crate"
  | "vsix" => splitOnLastDash "openvsx" fileName ".vsix"
  | "deb" => some ⟨"deb", fileName, ""⟩
  | "rpm" => some ⟨"rpm", fileName, ""⟩
  | _ => none

def coordinateFromFilename (fileName : String) : Option FilenameCoordinate :=
  match pacmanCoordinate fileName with
  | some found => some found
  | none =>
    match condaCoordinate fileName with
    | some found => some found
    | none =>
      match apkCoordinateForImport fileName with
      | some found => some found
      | none =>
        match rsplitOnce fileName '.' with
        | some (_, ext) => byExtension fileName ext
        | none => none

/-- `FilenameCoordinates::read_from_name`, for a registry of one type. -/
def readFromName (registryType fileName : String) : Option (String × String) :=
  match coordinateFromFilename fileName with
  | some found =>
    if found.registryType = registryType ∧ found.isPublishable then some (found.name, found.version)
    else none
  | none => none

end Model

section Dispatch
variable {fileName stem ext : String}

/-- The extensions of the compound suffixes, which are asked for first. -/
def COMPOUND_EXTENSIONS : List String := ["zst", "xz", "gz", "bz2", "conda", "apk"]

theorem rsplitOnce_extension (stem : String) (h : '.' ∉ ext.toList) :
    rsplitOnce (stem ++ "." ++ ext) '.' = some (stem, ext) :=
  (rsplitOnce_eq_some_iff _ _ _ _).mpr ⟨rfl, h⟩

/-- A file name that ends in a suffix has the suffix's extension. -/
theorem ext_of_endsWith {lead e : String} (h : '.' ∉ ext.toList) (he : '.' ∉ e.toList)
    (hends : endsWith (stem ++ "." ++ ext) (lead ++ "." ++ e) = true) : e = ext := by
  obtain ⟨front, hfront⟩ := (endsWith_iff _ _).mp hends
  have hleft := rsplitOnce_extension stem h
  have hright := rsplitOnce_extension (front ++ lead) he
  have hsame : stem ++ "." ++ ext = front ++ lead ++ "." ++ e := by
    rw [hfront, String.append_assoc, String.append_assoc, String.append_assoc]
  rw [hsame, hright] at hleft
  exact congrArg Prod.snd (Option.some.inj hleft)

theorem not_endsWith {lead e : String} (h : '.' ∉ ext.toList) (he : '.' ∉ e.toList)
    (hne : e ≠ ext) : endsWith (stem ++ "." ++ ext) (lead ++ "." ++ e) = false := by
  rw [Bool.eq_false_iff]
  exact fun hends => hne (ext_of_endsWith h he hends)

theorem coordinateFromFilename_extension (h : '.' ∉ ext.toList)
    (hcompound : ext ∉ COMPOUND_EXTENSIONS) :
    coordinateFromFilename (stem ++ "." ++ ext) = byExtension (stem ++ "." ++ ext) ext := by
  have hno : ∀ (lead e : String), '.' ∉ e.toList → e ∈ COMPOUND_EXTENSIONS →
      endsWith (stem ++ "." ++ ext) (lead ++ "." ++ e) = false := by
    intro lead e he hmem
    exact not_endsWith h he fun heq => hcompound (heq ▸ hmem)
  have hzst := hno ".pkg.tar" "zst" (by decide) (by decide)
  have hxz := hno ".pkg.tar" "xz" (by decide) (by decide)
  have hgz := hno ".pkg.tar" "gz" (by decide) (by decide)
  have hbz2 := hno ".tar" "bz2" (by decide) (by decide)
  have hconda := hno "" "conda" (by decide) (by decide)
  have hapk := hno "" "apk" (by decide) (by decide)
  have hpacman : pacmanCoordinate (stem ++ "." ++ ext) = none := by
    have hany : pacmanSuffixes.any (endsWith (stem ++ "." ++ ext)) = false := by
      simp only [pacmanSuffixes, List.any_cons, List.any_nil, Bool.or_false, Bool.or_eq_false_iff]
      exact ⟨hzst, hxz, hgz⟩
    rw [pacmanCoordinate, if_neg (by rw [hany]; decide)]
  have hstrip : ∀ tail : String, endsWith (stem ++ "." ++ ext) tail = false →
      stripSuffix (stem ++ "." ++ ext) tail = none := by
    intro tail htail
    rw [stripSuffix, if_neg (by rw [htail]; decide)]
  have hcondaNone : condaCoordinate (stem ++ "." ++ ext) = none := by
    rw [condaCoordinate, hstrip ".tar.bz2" hbz2, hstrip ".conda" hconda]
    rfl
  have hapkNone : apkCoordinateForImport (stem ++ "." ++ ext) = none := by
    rw [apkCoordinateForImport, apkCoordinate, hstrip ".apk" hapk]
    rfl
  rw [coordinateFromFilename, hpacman, hcondaNone, hapkNone, rsplitOnce_extension stem h]

end Dispatch

section Dashes
variable {registryType ext : String}

/-- What a cut at the last dash reads, whatever the name and the version hold. -/
theorem splitOnLastDash_eq_iff (name version tail : String) :
    splitOnLastDash registryType (name ++ "-" ++ version ++ tail) tail =
      some ⟨registryType, name, version⟩ ↔ '-' ∉ version.toList := by
  rw [splitOnLastDash, stripSuffix_append]
  constructor
  · intro h
    obtain ⟨⟨name', version'⟩, hsplit, heq⟩ := Option.map_eq_some_iff.mp h
    cases heq
    exact ((rsplitOnce_eq_some_iff _ _ _ _).mp hsplit).2
  · intro h
    have hsplit : rsplitOnce (name ++ "-" ++ version) '-' = some (name, version) :=
      (rsplitOnce_eq_some_iff _ _ _ _).mpr ⟨rfl, h⟩
    exact Option.map_eq_some_iff.mpr ⟨(name, version), hsplit, rfl⟩

theorem coordinate_dashed_iff (h : '.' ∉ ext.toList) (hcompound : ext ∉ COMPOUND_EXTENSIONS)
    (hext : ∀ fileName, byExtension fileName ext =
      splitOnLastDash registryType fileName ("." ++ ext)) (name version : String) :
    coordinateFromFilename (name ++ "-" ++ version ++ ("." ++ ext)) =
      some ⟨registryType, name, version⟩ ↔ '-' ∉ version.toList := by
  rw [← splitOnLastDash_eq_iff name version ("." ++ ext), ← hext]
  rw [← String.append_assoc, coordinateFromFilename_extension h hcompound]

/-- A version of the semantic versioning grammar, by its parts. -/
structure SemVer where
  major : ℕ
  minor : ℕ
  patch : ℕ
  pre : List String
  build : List String

def SemVer.text (v : SemVer) : String :=
  toString v.major ++ "." ++ toString v.minor ++ "." ++ toString v.patch ++
    (if v.pre = [] then "" else "-" ++ Joins.join '.' v.pre) ++
    (if v.build = [] then "" else "+" ++ Joins.join '.' v.build)

/-- A version has no dash when it is no pre-release and no part of its build has one. -/
theorem SemVer.dash_notMem_iff (v : SemVer) :
    '-' ∉ v.text.toList ↔ v.pre = [] ∧ ∀ part ∈ v.build, '-' ∉ part.toList := by
  have hdigits : ∀ n : ℕ, '-' ∉ (toString n).toList := by
    intro n hmem
    exact absurd (Joins.isDigit_of_mem_toString hmem) (by decide)
  have hpre : '-' ∉ (if v.pre = [] then "" else "-" ++ Joins.join '.' v.pre).toList ↔
      v.pre = [] := by
    split_ifs with hnil
    · exact iff_of_true List.not_mem_nil hnil
    · refine iff_of_false ?_ hnil
      simp
  have hbuild : '-' ∉ (if v.build = [] then "" else "+" ++ Joins.join '.' v.build).toList ↔
      ∀ part ∈ v.build, '-' ∉ part.toList := by
    split_ifs with hnil
    · refine iff_of_true List.not_mem_nil fun part hpart => ?_
      rw [hnil] at hpart
      cases hpart
    · rw [String.toList_append, List.mem_append, not_or]
      constructor
      · intro h part hpart hmem
        exact h.2 (Joins.mem_join_of_mem '.' hpart hmem)
      · exact fun h => ⟨by decide, Joins.notMem_join (by decide) h⟩
  unfold SemVer.text
  simp only [String.toList_append, List.mem_append, not_or]
  rw [hpre, hbuild]
  have hdot : '-' ∉ ".".toList := by decide
  constructor
  · exact fun h => ⟨h.1.2, h.2⟩
  · exact fun h => ⟨⟨⟨⟨⟨⟨hdigits _, hdot⟩, hdigits _⟩, hdot⟩, hdigits _⟩, h.1⟩, h.2⟩

end Dashes

section Nuget

theorem startsWithDigit_head {text first : List Char} {rest : List (List Char)}
    (h : text.splitOn '.' = first :: rest) : startsWithDigit first = startsWithDigit text := by
  cases text with
  | nil =>
    rw [List.splitOn_nil, List.cons.injEq] at h
    rw [← h.1]
  | cons c text =>
    rw [List.splitOn_cons_eq_if_modifyHead] at h
    by_cases hc : c = '.'
    · rw [if_pos (beq_iff_eq.mpr hc), List.cons.injEq] at h
      rw [← h.1, hc]
      rfl
    · rw [if_neg (fun heq => hc (beq_iff_eq.mp heq))] at h
      obtain ⟨segment, others, hsplit⟩ := List.exists_cons_of_ne_nil (List.splitOn_ne_nil '.' text)
      rw [hsplit, List.modifyHead_cons, List.cons.injEq] at h
      rw [← h.1]
      rfl

theorem joinDots_eq_iff {segments : List (List Char)} (hne : segments ≠ [])
    (hdots : ∀ segment ∈ segments, '.' ∉ segment) (text : String) :
    joinDots segments = text ↔ text.toList.splitOn '.' = segments := by
  unfold joinDots
  constructor
  · rintro rfl
    rw [String.toList_ofList, List.splitOn_intercalate '.' hdots hne]
  · intro h
    apply String.toList_inj.mp
    rw [String.toList_ofList, ← h, List.intercalate_splitOn]

/-- A first match that stands where the second list begins is the head of that list. -/
theorem findIdx_append_eq_length {α : Type} {p : α → Bool} {xs ys : List α} {i : ℕ}
    (h : (xs ++ ys).findIdx? p = some i) (hcut : xs = (xs ++ ys).take i) :
    (∀ x ∈ xs, p x = false) ∧ ys.findIdx? p = some 0 := by
  have hlt : i < (xs ++ ys).length := (List.findIdx?_eq_some_iff_getElem.mp h).1
  have hlength : xs.length = i := by
    have htake := congrArg List.length hcut
    rw [List.length_take] at htake
    omega
  rw [List.findIdx?_append] at h
  cases hxs : xs.findIdx? p with
  | some j =>
    rw [hxs, Option.some_or, Option.some_inj] at h
    have hj : j < xs.length := (List.findIdx?_eq_some_iff_getElem.mp hxs).1
    omega
  | none =>
    refine ⟨List.findIdx?_eq_none_iff.mp hxs, ?_⟩
    rw [hxs, Option.none_or] at h
    obtain ⟨k, hk, hsum⟩ := Option.map_eq_some_iff.mp h
    have hzero : k = 0 := by omega
    rw [hk, hzero]

/-- The cut between an id and a version falls at the first digit behind a dot. -/
theorem nugetCoordinate_eq_iff (id version : String) :
    nugetCoordinate (id ++ "." ++ version ++ ".nupkg") = some ⟨"nuget", id, version⟩ ↔
      (∀ segment ∈ id.toList.splitOn '.', startsWithDigit segment = false) ∧
        startsWithDigit version.toList = true := by
  have hparts : (id ++ "." ++ version).toList.splitOn '.' =
      id.toList.splitOn '.' ++ version.toList.splitOn '.' := by
    rw [String.toList_append, String.toList_append, List.append_assoc]
    exact List.splitOn_append_cons_self _ _
  obtain ⟨first, rest, hversion⟩ :=
    List.exists_cons_of_ne_nil (List.splitOn_ne_nil '.' version.toList)
  rw [← startsWithDigit_head hversion]
  rw [nugetCoordinate, stripSuffix_append]
  simp only [hparts]
  constructor
  · intro h
    split at h
    · rename_i start hstart
      simp only [Option.some.injEq, FilenameCoordinate.mk.injEq, true_and] at h
      have hdots : ∀ segment ∈
          (id.toList.splitOn '.' ++ version.toList.splitOn '.').take (start + 1),
          '.' ∉ segment := by
        intro segment hsegment
        rcases List.mem_append.mp (List.mem_of_mem_take hsegment) with hid | hver
        · exact (Segments.of_mem_splitOn hid).1
        · exact (Segments.of_mem_splitOn hver).1
      have hne : (id.toList.splitOn '.' ++ version.toList.splitOn '.').take (start + 1) ≠ [] := by
        simp
      have hid := (joinDots_eq_iff hne hdots id).mp h.1
      obtain ⟨hall, hfirst⟩ := findIdx_append_eq_length hstart hid
      refine ⟨hall, ?_⟩
      rw [hversion, List.findIdx?_cons] at hfirst
      by_contra hdigit
      rw [if_neg hdigit] at hfirst
      obtain ⟨k, -, hk⟩ := Option.map_eq_some_iff.mp hfirst
      exact Nat.succ_ne_zero k hk
    · cases h
  · rintro ⟨hid, hdigit⟩
    have hnone : (id.toList.splitOn '.').findIdx? startsWithDigit = none :=
      List.findIdx?_eq_none_iff.mpr hid
    have hsome : (version.toList.splitOn '.').findIdx? startsWithDigit = some 0 := by
      rw [hversion, List.findIdx?_cons, if_pos hdigit]
    obtain ⟨start, hstart⟩ : ∃ start, (id.toList.splitOn '.').length = start + 1 :=
      Nat.exists_eq_succ_of_ne_zero fun hzero =>
        List.splitOn_ne_nil '.' id.toList (List.length_eq_zero_iff.mp hzero)
    have hfind : (id.toList.splitOn '.' ++ version.toList.splitOn '.').findIdx? startsWithDigit =
        some (start + 1) := by
      rw [List.findIdx?_append, hnone, hsome, hstart, Option.none_or, Option.map_some, Nat.zero_add]
    simp only [hfind]
    rw [← hstart, List.take_left, List.drop_left, joinDots, joinDots, List.intercalate_splitOn,
      List.intercalate_splitOn, String.ofList_toList, String.ofList_toList]

end Nuget

section Types
variable {fileName ext : String} {found : FilenameCoordinate}

/-- The types a file name can be of, but for pacman. -/
def OTHER_TYPES : List String :=
  ["conda", "apk", "nuget", "pypi", "rubygems", "npm", "cargo", "openvsx", "deb", "rpm"]

theorem splitOnLastDash_type {registryType tail : String}
    (h : splitOnLastDash registryType fileName tail = some found) :
    found.registryType = registryType := by
  unfold splitOnLastDash at h
  split at h
  · cases h
  · obtain ⟨parts, -, rfl⟩ := Option.map_eq_some_iff.mp h
    rfl

theorem byExtension_type (h : byExtension fileName ext = some found) :
    found.registryType ∈ OTHER_TYPES := by
  unfold byExtension at h
  split at h
  · unfold nugetCoordinate at h
    split at h
    · cases h
    · dsimp only at h
      split at h
      · obtain rfl := Option.some.inj h
        exact show "nuget" ∈ OTHER_TYPES by decide
      · cases h
  · unfold wheelCoordinate at h
    split at h
    · obtain rfl := Option.some.inj h
      exact show "pypi" ∈ OTHER_TYPES by decide
    · cases h
  · rw [splitOnLastDash_type h]
    decide
  · rw [splitOnLastDash_type h]
    decide
  · rw [splitOnLastDash_type h]
    decide
  · rw [splitOnLastDash_type h]
    decide
  · obtain rfl := Option.some.inj h
    exact show "deb" ∈ OTHER_TYPES by decide
  · obtain rfl := Option.some.inj h
    exact show "rpm" ∈ OTHER_TYPES by decide
  · cases h

theorem condaCoordinate_type (h : condaCoordinate fileName = some found) :
    found.registryType = "conda" := by
  unfold condaCoordinate at h
  split at h
  · cases h
  · split at h <;> exact (Option.some.inj h) ▸ rfl

/-- Only the pacman rule names a pacman package. -/
theorem pacmanCoordinate_of_type (h : coordinateFromFilename fileName = some found)
    (htype : found.registryType = "pacman") : pacmanCoordinate fileName = some found := by
  have hother : found.registryType ∉ OTHER_TYPES := by
    rw [htype]
    decide
  unfold coordinateFromFilename at h
  split at h
  · rename_i found' hpacman
    rw [hpacman, h]
  · exfalso
    split at h
    · rename_i found' hconda
      obtain rfl := Option.some.inj h
      rw [condaCoordinate_type hconda] at hother
      exact hother (by decide)
    · split at h
      · rename_i found' hapk
        obtain rfl := Option.some.inj h
        obtain ⟨parts, -, rfl⟩ := Option.map_eq_some_iff.mp hapk
        exact hother (show "apk" ∈ OTHER_TYPES by decide)
      · split at h
        · exact hother (byExtension_type h)
        · cases h

end Types

section Pacman

/-- A package as a build recipe names it: no dash but in the name. -/
structure PacmanPackage where
  name : String
  pkgver : String
  pkgrel : String
  arch : String
  name_ne : name ≠ ""
  pkgver_dash : '-' ∉ pkgver.toList
  pkgrel_dash : '-' ∉ pkgrel.toList
  arch_dash : '-' ∉ arch.toList

variable (p : PacmanPackage)

def PacmanPackage.version : String := p.pkgver ++ "-" ++ p.pkgrel

def PacmanPackage.fileName (ext : String) : String :=
  p.name ++ "-" ++ p.version ++ "-" ++ p.arch ++ ".pkg.tar" ++ ext

def packagePattern : List Char := ".pkg.tar".toList

theorem packagePattern_unbordered : Unbordered packagePattern := by decide

/-- The name and version of a file name, before its architecture. -/
def PacmanPackage.front : List Char := (p.name ++ "-" ++ p.version).toList

theorem toList_fileName (ext : String) :
    (p.fileName ext).toList = p.front ++ '-' :: p.arch.toList ++ packagePattern ++ ext.toList := by
  have hdash : "-".toList = ['-'] := by decide
  unfold PacmanPackage.fileName PacmanPackage.front packagePattern
  simp only [String.toList_append, hdash, List.append_assoc, List.cons_append, List.nil_append]

/-- The stem up to an architecture, or up to the start of one, is taken apart as it was made. -/
theorem rsplitN_front {arch : List Char} (h : '-' ∉ arch) :
    (rsplitN '-' 4 (p.front ++ '-' :: arch)).map String.ofList =
      [String.ofList arch, p.pkgrel, p.pkgver, p.name] := by
  have hfront : p.front = p.name.toList ++ '-' :: p.pkgver.toList ++ '-' :: p.pkgrel.toList := by
    simp [PacmanPackage.front, PacmanPackage.version]
  rw [rsplitN_append_cons 2 _ h, hfront, rsplitN_append_cons 1 _ p.pkgrel_dash,
    rsplitN_append_cons 0 _ p.pkgver_dash]
  simp [rsplitN]

/-- What four pieces are read from is what they are joined to. -/
theorem eq_of_rsplitN_four {stem : List Char} {arch pkgrel pkgver name : String}
    (h : (rsplitN '-' 4 stem).map String.ofList = [arch, pkgrel, pkgver, name]) :
    stem = (name ++ "-" ++ (pkgver ++ "-" ++ pkgrel)).toList ++ '-' :: arch.toList := by
  have hpieces : rsplitN '-' 4 stem =
      [arch.toList, pkgrel.toList, pkgver.toList, name.toList] := by
    have hlists := congrArg (List.map String.toList) h
    rw [List.map_map] at hlists
    simpa [Function.comp_def] using hlists
  have hjoin := intercalate_reverse_rsplitN (c := '-') 3 stem
  rw [hpieces] at hjoin
  rw [← hjoin]
  simp

theorem pacmanCoordinate_fileName {ext : String} (hext : ".pkg.tar" ++ ext ∈ pacmanSuffixes) :
    pacmanCoordinate (p.fileName ext) =
      match beforeFirst packagePattern (p.fileName ext).toList with
      | none => none
      | some stem =>
        match (rsplitN '-' 4 stem).map String.ofList with
        | [_, pkgrel, pkgver, name] =>
          if name = "" then none else some ⟨"pacman", name, pkgver ++ "-" ++ pkgrel⟩
        | _ => none := by
  have hends : pacmanSuffixes.any (endsWith (p.fileName ext)) = true := by
    have hsplit : p.fileName ext =
        p.name ++ "-" ++ p.version ++ "-" ++ p.arch ++ (".pkg.tar" ++ ext) :=
      String.append_assoc
    exact List.any_eq_true.mpr ⟨_, hext, (endsWith_iff _ _).mpr ⟨_, hsplit⟩⟩
  rw [pacmanCoordinate, if_pos hends]
  rfl

/-- Where the name and version are without the pattern, the stem ends in the architecture. -/
theorem exists_arch_of_firstAt (ext : String) (h : ¬ packagePattern <:+: p.front)
    {stem : List Char} (hstem : FirstAt packagePattern (p.fileName ext).toList stem) :
    ∃ arch, '-' ∉ arch ∧ stem = p.front ++ '-' :: arch := by
  obtain ⟨hoccurs, hfirst⟩ := hstem
  rw [toList_fileName] at hoccurs hfirst
  have hwritten : p.front ++ '-' :: p.arch.toList ++ packagePattern <+:
      p.front ++ '-' :: p.arch.toList ++ packagePattern ++ ext.toList := List.prefix_append _ _
  rcases Nat.eq_or_lt_of_le (hfirst _ hwritten) with heq | hlt
  · refine ⟨p.arch.toList, p.arch_dash, ?_⟩
    have hleft := (List.prefix_append stem packagePattern).trans hoccurs
    have hright := (List.prefix_append _ packagePattern).trans hwritten
    exact (List.prefix_of_prefix_length_le hleft hright (Nat.le_of_eq heq)).eq_of_length heq
  · obtain ⟨rest, hrest⟩ := packagePattern_unbordered.prefix_of_lt hoccurs hlt
    rcases List.append_eq_append_iff.mp hrest with ⟨mid, hfront, -⟩ | ⟨mid, hmid, harch⟩
    · exact absurd ⟨stem, mid, hfront.symm⟩ h
    · cases mid with
      | nil =>
        rw [List.append_nil] at hmid
        exact absurd ⟨stem, [], by rw [hmid, List.append_nil]⟩ h
      | cons c mid =>
        rw [List.cons_append, List.cons.injEq] at harch
        obtain ⟨rfl, harch⟩ := harch
        have hpattern : '-' ∉ packagePattern := by decide
        obtain ⟨arch, rfl, hlast⟩ := Segments.append_eq_append_cons_of_notMem hpattern hmid
        refine ⟨arch, ?_, rfl⟩
        intro hmem
        apply p.arch_dash
        rw [harch, hlast]
        simp [hmem]

/-- The package is read back unless its name or version has the pattern the stem ends at. -/
theorem pacmanCoordinate_eq_iff {ext : String} (hext : ".pkg.tar" ++ ext ∈ pacmanSuffixes) :
    pacmanCoordinate (p.fileName ext) = some ⟨"pacman", p.name, p.version⟩ ↔
      ¬ packagePattern <:+: p.front := by
  have hoccurs : p.front ++ '-' :: p.arch.toList ++ packagePattern <+:
      (p.fileName ext).toList := by
    rw [toList_fileName]
    exact List.prefix_append _ _
  obtain ⟨stem, hstem⟩ := exists_beforeFirst hoccurs
  obtain ⟨hstemOccurs, hfirst⟩ := firstAt_of_beforeFirst hstem
  rw [pacmanCoordinate_fileName p hext, hstem]
  dsimp only
  constructor
  · intro h hinfix
    split at h
    · rename_i arch pkgrel pkgver name hpieces
      split_ifs at h
      simp only [Option.some.injEq, FilenameCoordinate.mk.injEq, true_and] at h
      have hstemEq := eq_of_rsplitN_four hpieces
      rw [h.1, h.2] at hstemEq
      -- the first occurrence is no later than the one in the name and version
      obtain ⟨lead, tail, hlead⟩ := hinfix
      have hle : stem.length ≤ lead.length := by
        apply hfirst
        refine List.IsPrefix.trans ?_ hoccurs
        rw [← hlead, List.append_assoc (lead ++ packagePattern), List.append_assoc]
        exact List.prefix_append _ _
      have hlong : p.front.length < stem.length := by
        rw [hstemEq]
        simp [PacmanPackage.front]
      have hshort : lead.length ≤ p.front.length := by
        rw [← hlead]
        simp
      omega
    · cases h
  · intro h
    obtain ⟨arch, harch, rfl⟩ := exists_arch_of_firstAt p ext h (firstAt_of_beforeFirst hstem)
    rw [rsplitN_front p harch]
    simp only [if_neg p.name_ne]
    rfl

end Pacman

section Main

theorem npm_iff (name version : String) :
    coordinateFromFilename (name ++ "-" ++ version ++ ".tgz") = some ⟨"npm", name, version⟩ ↔
      '-' ∉ version.toList :=
  @coordinate_dashed_iff "npm" "tgz" (by decide) (by decide) (fun _ => rfl) name version

theorem cargo_iff (name version : String) :
    coordinateFromFilename (name ++ "-" ++ version ++ ".crate") = some ⟨"cargo", name, version⟩ ↔
      '-' ∉ version.toList :=
  @coordinate_dashed_iff "cargo" "crate" (by decide) (by decide) (fun _ => rfl) name version

theorem nuget_iff (id version : String) :
    coordinateFromFilename (id ++ "." ++ version ++ ".nupkg") = some ⟨"nuget", id, version⟩ ↔
      (∀ segment ∈ id.toList.splitOn '.', startsWithDigit segment = false) ∧
        startsWithDigit version.toList = true := by
  have hfile : id ++ "." ++ version ++ ".nupkg" = id ++ "." ++ version ++ "." ++ "nupkg" :=
    (@String.append_assoc (id ++ "." ++ version) "." "nupkg").symm
  rw [← nugetCoordinate_eq_iff, hfile, coordinateFromFilename_extension (by decide) (by decide)]
  rfl

theorem pacman_iff (p : PacmanPackage) {ext : String} (hext : ".pkg.tar" ++ ext ∈ pacmanSuffixes) :
    coordinateFromFilename (p.fileName ext) = some ⟨"pacman", p.name, p.version⟩ ↔
      ¬ packagePattern <:+: p.front := by
  rw [← pacmanCoordinate_eq_iff p hext]
  constructor
  · exact fun h => pacmanCoordinate_of_type h rfl
  · intro h
    rw [coordinateFromFilename, h]

/-- A canonical file name gives back its coordinate in exactly these cases. -/
theorem file_name_reads_back_iff (name version : String) (v : SemVer) (p : PacmanPackage)
    (ext : String) :
    (coordinateFromFilename (name ++ "-" ++ version ++ ".tgz") = some ⟨"npm", name, version⟩ ↔
        '-' ∉ version.toList) ∧
      (coordinateFromFilename (name ++ "-" ++ version ++ ".crate") =
          some ⟨"cargo", name, version⟩ ↔ '-' ∉ version.toList) ∧
      ('-' ∉ v.text.toList ↔ v.pre = [] ∧ ∀ part ∈ v.build, '-' ∉ part.toList) ∧
      (coordinateFromFilename (name ++ "." ++ version ++ ".nupkg") =
          some ⟨"nuget", name, version⟩ ↔
        (∀ segment ∈ name.toList.splitOn '.', startsWithDigit segment = false) ∧
          startsWithDigit version.toList = true) ∧
      (".pkg.tar" ++ ext ∈ pacmanSuffixes →
        (coordinateFromFilename (p.fileName ext) = some ⟨"pacman", p.name, p.version⟩ ↔
          ¬ packagePattern <:+: p.front)) :=
  ⟨npm_iff name version, cargo_iff name version, v.dash_notMem_iff, nuget_iff name version,
    pacman_iff p⟩

/-- A package whose name has dashes and digits. -/
def firmwarePackage : PacmanPackage where
  name := "linux-firmware-r128"
  pkgver := "1:20250613"
  pkgrel := "1.1"
  arch := "x86_64"
  name_ne := by decide
  pkgver_dash := by decide
  pkgrel_dash := by decide
  arch_dash := by decide

theorem firmware_reads_back :
    coordinateFromFilename "linux-firmware-r128-1:20250613-1.1-x86_64.pkg.tar.zst" =
      some ⟨"pacman", "linux-firmware-r128", "1:20250613-1.1"⟩ :=
  ((file_name_reads_back_iff "" "" ⟨0, 0, 0, [], []⟩ firmwarePackage ".zst").2.2.2.2
    (by decide)).mpr (by decide)

/-- A pre-release goes under another name, as does an id with a segment that starts with a
digit, and a package whose name holds the suffix is not read at all. -/
theorem pre_release_under_another_name :
    coordinateFromFilename "left-pad-1.3.0-beta.1.tgz" =
        some ⟨"npm", "left-pad-1.3.0", "beta.1"⟩ ∧
      readFromName "npm" "left-pad-1.3.0-beta.1.tgz" = some ("left-pad-1.3.0", "beta.1") ∧
      coordinateFromFilename "serde-1.0.0-rc.1.crate" =
        some ⟨"cargo", "serde-1.0.0", "rc.1"⟩ ∧
      coordinateFromFilename "Foo.3D.1.0.0.nupkg" = some ⟨"nuget", "Foo", "3D.1.0.0"⟩ ∧
      coordinateFromFilename "lint.pkg.tar-1.0-1-any.pkg.tar.zst" = none := by
  decide +kernel

end Main

end BatleHub.ReleaseImport
