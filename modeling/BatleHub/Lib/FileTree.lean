import BatleHub.Lib.AssocMap
import BatleHub.Lib.Segments
import Mathlib.Data.List.Infix
import Mathlib.Data.List.Lattice
import Mathlib.Data.List.Nodup

/-!
A tree of files and directories below a root, and the calls a program makes on it. A path
is the list of its components. In a well-formed tree every file stands in a chain of
directories and no path is both; then a walk from a directory meets each file below it
once, and removing a directory removes these files and no others.
-/
namespace BatleHub.Lib.FileTree

open AssocMap Segments

inductive IoError where
  | notFound
  | notADirectory
  | isADirectory
  | alreadyExists
  | directoryNotEmpty
  | invalidInput
  deriving DecidableEq, Repr

def IoError.text : IoError → String
  | notFound => "No such file or directory (os error 2)"
  | notADirectory => "Not a directory (os error 20)"
  | isADirectory => "Is a directory (os error 21)"
  | alreadyExists => "File exists (os error 17)"
  | directoryNotEmpty => "Directory not empty (os error 39)"
  | invalidInput => "Invalid argument (os error 22)"

/-- The files and the directories below the root, which always is one. -/
structure Tree (γ δ : Type*) where
  files : Assoc (List γ) δ
  dirs : List (List γ)

variable {γ δ : Type*} [DecidableEq γ]

namespace Tree

def empty : Tree γ δ := ⟨∅, []⟩

def isFile (t : Tree γ δ) (p : List γ) : Bool := (t.files.lookup p).isSome

def isDir (t : Tree γ δ) (p : List γ) : Bool := decide (p = [] ∨ p ∈ t.dirs)

/-- A file stands where the path goes through. -/
def blocked (t : Tree γ δ) (p : List γ) : Bool := t.files.keys.any fun q => below q p

def createDirAll (t : Tree γ δ) (d : List γ) : Except IoError (Tree γ δ) :=
  if t.isFile d then .error .alreadyExists
  else if t.blocked d then .error .notADirectory
  else .ok { t with dirs := (d.inits.filter fun q => decide (q ≠ [])) ∪ t.dirs }

/-- A complete file, renamed onto its path. -/
def publish (t : Tree γ δ) (p : List γ) (data : δ) : Except IoError (Tree γ δ) :=
  if t.isDir p then .error .isADirectory
  else .ok { t with files := t.files.insert p data }

def eraseFile (t : Tree γ δ) (p : List γ) : Tree γ δ := { t with files := t.files.erase p }

def removeFile (t : Tree γ δ) (p : List γ) : Except IoError (Tree γ δ) :=
  if t.blocked p then .error .notADirectory
  else if t.isDir p then .error .isADirectory
  else if t.isFile p then .ok (t.eraseFile p)
  else .error .notFound

/-- Without `d` and all that is below it. -/
def removeTree (t : Tree γ δ) (d : List γ) : Tree γ δ where
  files := retain (fun p _ => !d.isPrefixOf p) t.files
  dirs := t.dirs.filter fun p => !d.isPrefixOf p

def removeDirAll (t : Tree γ δ) (d : List γ) : Except IoError (Tree γ δ) :=
  if t.blocked d || t.isFile d then .error .notADirectory
  else if t.isDir d then .ok (t.removeTree d)
  else .error .notFound

/-- A path at or below `src`, after `src` has become `dst`. -/
def moved (src dst p : List γ) : List γ :=
  if src.isPrefixOf p then dst ++ p.drop src.length else p

/-- `dst`, which is empty or missing, becomes the directory that `src` was. -/
def relocate (t : Tree γ δ) (src dst : List γ) : Tree γ δ where
  files := (t.files.entries.map fun e => (⟨moved src dst e.1, e.2⟩ : Sigma fun _ => δ)).toAList
  dirs := ((t.dirs.filter fun p => decide (p ≠ dst)).map (moved src dst)).dedup

def rename (t : Tree γ δ) (src dst : List γ) : Except IoError (Tree γ δ) :=
  if t.blocked src || t.blocked dst then .error .notADirectory
  else
    match t.files.lookup src with
    | some data =>
      if t.isDir dst then .error .isADirectory
      else .ok { t with files := (t.files.erase src).insert dst data }
    | none =>
      if !t.isDir src then .error .notFound
      else if src = dst then .ok t
      else if below src dst then .error .invalidInput
      else if t.isFile dst then .error .notADirectory
      else if (t.files.keys ++ t.dirs).any fun p => below dst p then .error .directoryNotEmpty
      else .ok (t.relocate src dst)

def childDirs (t : Tree γ δ) (d : List γ) : List (List γ) :=
  t.dirs.filter fun q => decide (q ≠ [] ∧ q.dropLast = d)

def childFiles (t : Tree γ δ) (d : List γ) : List (List γ) :=
  t.files.keys.filter fun q => decide (q ≠ [] ∧ q.dropLast = d)

/-- The last directory pushed is read first, and all below it before its siblings. -/
def walkFrom (keep : List γ → Bool) (t : Tree γ δ) : ℕ → List γ → List (List γ)
  | 0, _ => []
  | depth + 1, d =>
    if t.isDir d then
      (t.childFiles d).filter keep ++ (t.childDirs d).reverse.flatMap (walkFrom keep t depth)
    else []

/-- The components of the longest path there can be. -/
def depth (t : Tree γ δ) : ℕ := t.dirs.foldr (fun d n => max d.length n) 0 + 1

def walk (keep : List γ → Bool) (t : Tree γ δ) (d : List γ) : List (List γ) :=
  t.walkFrom keep t.depth d

/-- Every path above `p` is a directory. -/
def Housed (t : Tree γ δ) (p : List γ) : Prop := ∀ q, below q p = true → t.isDir q = true

structure WellFormed (t : Tree γ δ) : Prop where
  dirs_nodup : t.dirs.Nodup
  root_notMem : [] ∉ t.dirs
  root_isFile : t.isFile [] = false
  file_housed : ∀ p, t.isFile p = true → t.Housed p
  dir_housed : ∀ p ∈ t.dirs, t.Housed p
  apart : ∀ p ∈ t.dirs, t.isFile p = false

theorem isDir_iff (t : Tree γ δ) (p : List γ) : t.isDir p = true ↔ p = [] ∨ p ∈ t.dirs := by
  simp [isDir]

theorem isFile_iff (t : Tree γ δ) (p : List γ) :
    t.isFile p = true ↔ ∃ data, t.files.lookup p = some data := Option.isSome_iff_exists

theorem isFile_iff_mem_keys (t : Tree γ δ) (p : List γ) : t.isFile p = true ↔ p ∈ t.files.keys :=
  AList.lookup_isSome

theorem blocked_iff (t : Tree γ δ) (p : List γ) :
    t.blocked p = true ↔ ∃ q, t.isFile q = true ∧ below q p = true := by
  simp only [blocked, List.any_eq_true, isFile_iff_mem_keys]

theorem WellFormed.empty : (Tree.empty : Tree γ δ).WellFormed where
  dirs_nodup := List.nodup_nil
  root_notMem := List.not_mem_nil
  root_isFile := rfl
  file_housed := by
    intro p hp
    simp [isFile, Tree.empty] at hp
  dir_housed := by
    intro p hp
    simp [Tree.empty] at hp
  apart := by
    intro p hp
    simp [Tree.empty] at hp

/-- A directory is no file. -/
theorem WellFormed.isFile_of_isDir {t : Tree γ δ} (h : t.WellFormed) {p : List γ}
    (hp : t.isDir p = true) : t.isFile p = false := by
  rcases (t.isDir_iff p).mp hp with rfl | hmem
  · exact h.root_isFile
  · exact h.apart p hmem

section Steps
variable {t t' : Tree γ δ} {d p : List γ} {data : δ}

/-- The directories made are those above `d` and `d` itself. -/
theorem createDirAll_spec (h : t.createDirAll d = .ok t') :
    t'.files = t.files ∧ t.isFile d = false ∧ t.blocked d = false ∧
      ∀ q, q ∈ t'.dirs ↔ (q <+: d ∧ q ≠ []) ∨ q ∈ t.dirs := by
  unfold createDirAll at h
  split_ifs at h with hfile hblocked
  obtain rfl := Except.ok.inj h
  refine ⟨rfl, Bool.eq_false_iff.mpr hfile, Bool.eq_false_iff.mpr hblocked, ?_⟩
  intro q
  simp only [List.mem_union_iff, List.mem_filter, List.mem_inits, decide_eq_true_eq]

theorem WellFormed.createDirAll (hwf : t.WellFormed) (h : t.createDirAll d = .ok t') :
    t'.WellFormed ∧ t'.isDir d = true := by
  obtain ⟨hfiles, hfile, hblocked, hdirs⟩ := createDirAll_spec h
  have hisFile : ∀ q, t'.isFile q = t.isFile q := by
    intro q
    unfold isFile
    rw [hfiles]
  have hisDir : ∀ q, t.isDir q = true → t'.isDir q = true := by
    intro q hq
    rcases (t.isDir_iff q).mp hq with rfl | hmem
    · exact (t'.isDir_iff []).mpr (Or.inl rfl)
    · exact (t'.isDir_iff q).mpr (Or.inr ((hdirs q).mpr (Or.inr hmem)))
  have habove : ∀ q, q <+: d → t'.isDir q = true := by
    intro q hq
    by_cases hnil : q = []
    · exact (t'.isDir_iff q).mpr (Or.inl hnil)
    · exact (t'.isDir_iff q).mpr (Or.inr ((hdirs q).mpr (Or.inl ⟨hq, hnil⟩)))
  refine ⟨⟨?_, ?_, ?_, ?_, ?_, ?_⟩, habove d List.prefix_rfl⟩
  · unfold Tree.createDirAll at h
    split_ifs at h
    obtain rfl := Except.ok.inj h
    exact hwf.dirs_nodup.union _
  · intro hmem
    rcases (hdirs []).mp hmem with ⟨-, hnil⟩ | hold
    · exact hnil rfl
    · exact hwf.root_notMem hold
  · rw [hisFile]
    exact hwf.root_isFile
  · intro q hq r hr
    rw [hisFile] at hq
    exact hisDir r (hwf.file_housed q hq r hr)
  · intro q hq r hr
    rcases (hdirs q).mp hq with ⟨hleads, -⟩ | hold
    · exact habove r (((below_iff r q).mp hr).1.trans hleads)
    · exact hisDir r (hwf.dir_housed q hold r hr)
  · intro q hq
    rw [hisFile]
    rcases (hdirs q).mp hq with ⟨hleads, -⟩ | hold
    · -- A file above `d` would have been in the way.
      by_contra hqfile
      rw [Bool.not_eq_false] at hqfile
      by_cases hqd : d = q
      · subst hqd
        rw [hfile] at hqfile
        exact Bool.false_ne_true hqfile
      · have hbelow : below q d = true := (below_iff q d).mpr ⟨hleads, hqd⟩
        have := (t.blocked_iff d).mpr ⟨q, hqfile, hbelow⟩
        rw [hblocked] at this
        exact Bool.false_ne_true this
    · exact hwf.apart q hold

theorem isFile_insert (t : Tree γ δ) (p q : List γ) (data : δ) :
    ({ t with files := t.files.insert p data } : Tree γ δ).isFile q =
      (decide (q = p) || t.isFile q) := by
  unfold isFile
  rw [lookup_insert_eq]
  by_cases hq : q = p
  · simp [hq]
  · simp [hq]

theorem isFile_eraseFile (t : Tree γ δ) (p q : List γ) :
    (t.eraseFile p).isFile q = (decide (q ≠ p) && t.isFile q) := by
  unfold isFile eraseFile
  rw [lookup_erase_eq]
  by_cases hq : q = p
  · simp [hq]
  · simp [hq]

/-- A new file needs its directories, and a path that is none. -/
theorem WellFormed.insert (hwf : t.WellFormed) (hdir : t.isDir p = false) (hhoused : t.Housed p) :
    ({ t with files := t.files.insert p data } : Tree γ δ).WellFormed := by
  have hcases : ∀ q, ({ t with files := t.files.insert p data } : Tree γ δ).isFile q = true →
      q = p ∨ t.isFile q = true := by
    intro q hq
    rw [isFile_insert, Bool.or_eq_true, decide_eq_true_eq] at hq
    exact hq
  have hnotDir : ∀ q, t.isDir q = true → q ≠ p := by
    rintro q hq rfl
    rw [hdir] at hq
    exact Bool.false_ne_true hq
  refine ⟨hwf.dirs_nodup, hwf.root_notMem, ?_, ?_, hwf.dir_housed, ?_⟩
  · rw [isFile_insert, hwf.root_isFile, Bool.or_false]
    exact decide_eq_false (hnotDir [] ((t.isDir_iff []).mpr (Or.inl rfl)))
  · intro q hq
    rcases hcases q hq with rfl | hold
    · exact hhoused
    · exact hwf.file_housed q hold
  · intro q hq
    rw [isFile_insert, hwf.apart q hq, Bool.or_false]
    exact decide_eq_false (hnotDir q ((t.isDir_iff q).mpr (Or.inr hq)))

theorem WellFormed.eraseFile (hwf : t.WellFormed) (p : List γ) : (t.eraseFile p).WellFormed := by
  have hcases : ∀ q, (t.eraseFile p).isFile q = true → t.isFile q = true := by
    intro q hq
    rw [isFile_eraseFile, Bool.and_eq_true] at hq
    exact hq.2
  refine ⟨hwf.dirs_nodup, hwf.root_notMem, ?_, ?_, hwf.dir_housed, ?_⟩
  · rw [isFile_eraseFile, hwf.root_isFile, Bool.and_false]
  · intro q hq
    exact hwf.file_housed q (hcases q hq)
  · intro q hq
    rw [isFile_eraseFile, hwf.apart q hq, Bool.and_false]

theorem lookup_removeTree (t : Tree γ δ) (d p : List γ) :
    (t.removeTree d).files.lookup p = if d <+: p then none else t.files.lookup p := by
  unfold removeTree
  rw [lookup_retain]
  by_cases hleads : d <+: p
  · simp [hleads]
  · have hkept : d.isPrefixOf p = false :=
      Bool.eq_false_iff.mpr (mt List.isPrefixOf_iff_prefix.mp hleads)
    rw [if_neg hleads, hkept]
    cases t.files.lookup p with
    | none => rfl
    | some data => rfl

theorem isFile_removeTree (t : Tree γ δ) (d p : List γ) :
    (t.removeTree d).isFile p = true ↔ ¬ d <+: p ∧ t.isFile p = true := by
  unfold isFile
  rw [lookup_removeTree]
  by_cases hleads : d <+: p
  · simp [hleads]
  · simp [hleads]

theorem mem_dirs_removeTree (t : Tree γ δ) (d p : List γ) :
    p ∈ (t.removeTree d).dirs ↔ ¬ d <+: p ∧ p ∈ t.dirs := by
  rw [removeTree, List.mem_filter, Bool.not_eq_true', Bool.eq_false_iff, Ne,
    List.isPrefixOf_iff_prefix, and_comm]

theorem WellFormed.removeTree (hwf : t.WellFormed) (d : List γ) : (t.removeTree d).WellFormed := by
  -- What is kept keeps the directories above it.
  have hkept : ∀ p, ¬ d <+: p → t.Housed p → (t.removeTree d).Housed p := by
    intro p hp hhoused q hq
    rcases (t.isDir_iff q).mp (hhoused q hq) with rfl | hmem
    · exact (isDir_iff _ _).mpr (Or.inl rfl)
    · refine (isDir_iff _ _).mpr (Or.inr ((mem_dirs_removeTree t d q).mpr ⟨?_, hmem⟩))
      intro hdq
      exact hp (hdq.trans ((below_iff q p).mp hq).1)
  refine ⟨hwf.dirs_nodup.filter _, ?_, ?_, ?_, ?_, ?_⟩
  · intro hmem
    exact hwf.root_notMem ((mem_dirs_removeTree t d []).mp hmem).2
  · rw [Bool.eq_false_iff]
    intro hfile
    have hold := ((isFile_removeTree t d []).mp hfile).2
    rw [hwf.root_isFile] at hold
    exact Bool.false_ne_true hold
  · intro p hp
    obtain ⟨hleads, hold⟩ := (isFile_removeTree t d p).mp hp
    exact hkept p hleads (hwf.file_housed p hold)
  · intro p hp
    obtain ⟨hleads, hold⟩ := (mem_dirs_removeTree t d p).mp hp
    exact hkept p hleads (hwf.dir_housed p hold)
  · intro p hp
    rw [Bool.eq_false_iff]
    intro hfile
    have hold := ((isFile_removeTree t d p).mp hfile).2
    rw [hwf.apart p ((mem_dirs_removeTree t d p).mp hp).2] at hold
    exact Bool.false_ne_true hold

/-- Whether a directory is removed or not, no file is left below it and no other is lost. -/
theorem WellFormed.removeDirAll (hwf : t.WellFormed) (d : List γ) :
    match t.removeDirAll d with
    | .ok t' => t'.WellFormed ∧
        ∀ p, t'.files.lookup p = if below d p = true then none else t.files.lookup p
    | .error _ => ∀ p, t.isFile p = true → below d p = false := by
  -- A file below `d` makes `d` a directory with nothing in its way.
  have hbelow : ∀ p, t.isFile p = true → below d p = true → t.isDir d = true := by
    intro p hp hdp
    exact hwf.file_housed p hp d hdp
  unfold Tree.removeDirAll
  by_cases hwrong : (t.blocked d || t.isFile d) = true
  · rw [if_pos hwrong]
    intro p hp
    rw [Bool.eq_false_iff]
    intro hdp
    have hisDir := hbelow p hp hdp
    rcases Bool.or_eq_true_iff.mp hwrong with hblocked | hfile
    · obtain ⟨q, hq, hqd⟩ := (t.blocked_iff d).mp hblocked
      have hqp : below q p = true := below_trans ((below_iff q d).mp hqd).1 hdp
      have hqdir := hwf.isFile_of_isDir (hwf.file_housed p hp q hqp)
      rw [hq] at hqdir
      exact Bool.false_ne_true hqdir.symm
    · rw [hwf.isFile_of_isDir hisDir] at hfile
      exact Bool.false_ne_true hfile
  · rw [if_neg hwrong]
    by_cases hisDir : t.isDir d = true
    · rw [if_pos hisDir]
      refine ⟨hwf.removeTree d, ?_⟩
      intro p
      rw [lookup_removeTree]
      by_cases hpd : p = d
      · -- The directory itself is no file.
        subst hpd
        have hnone : t.files.lookup p = none := by
          have hfile := hwf.isFile_of_isDir hisDir
          unfold isFile at hfile
          exact Option.not_isSome_iff_eq_none.mp (Bool.eq_false_iff.mp hfile)
        rw [hnone, ite_self, ite_self]
      · have hiff : below d p = true ↔ d <+: p := by
          rw [below_iff]
          exact and_iff_left hpd
        simp only [hiff]
    · rw [if_neg hisDir]
      intro p hp
      rw [Bool.eq_false_iff]
      intro hdp
      exact hisDir (hbelow p hp hdp)

/-- A path is housed by the directory that it is directly in. -/
theorem WellFormed.housed_of_parent (hwf : t.WellFormed) (hparent : t.isDir p.dropLast = true) :
    t.Housed p := by
  intro q hq
  obtain ⟨rest, hrest, rfl⟩ := (below_iff_exists q p).mp hq
  rw [List.dropLast_append_of_ne_nil hrest] at hparent
  rcases (t.isDir_iff _).mp hparent with hroot | hmem
  · exact (t.isDir_iff q).mpr (Or.inl (List.append_eq_nil_iff.mp hroot).1)
  · by_cases hlast : rest.dropLast = []
    · rw [hlast, List.append_nil] at hmem
      exact (t.isDir_iff q).mpr (Or.inr hmem)
    · exact hwf.dir_housed _ hmem q ((below_iff_exists _ _).mpr ⟨_, hlast, rfl⟩)

theorem WellFormed.publish (hwf : t.WellFormed) (hparent : t.isDir p.dropLast = true)
    (h : t.publish p data = .ok t') : t'.WellFormed ∧ t'.files = t.files.insert p data := by
  unfold Tree.publish at h
  split_ifs at h with hdir
  obtain rfl := Except.ok.inj h
  exact ⟨hwf.insert (Bool.eq_false_iff.mpr hdir) (hwf.housed_of_parent hparent), rfl⟩

theorem removeFile_spec (h : t.removeFile p = .ok t') :
    t.isFile p = true ∧ t' = t.eraseFile p := by
  unfold removeFile at h
  split_ifs at h with hblocked hdir hfile
  exact ⟨hfile, (Except.ok.inj h).symm⟩

/-- What is renamed is a file, when no directory stands there or the target is in it. -/
theorem WellFormed.rename (hwf : t.WellFormed) {src dst : List γ}
    (hparent : t.isDir dst.dropLast = true)
    (hsrc : t.isDir src = false ∨ below src dst = true) (h : t.rename src dst = .ok t') :
    ∃ data, t.files.lookup src = some data ∧ t'.WellFormed ∧
      t'.files = (t.files.erase src).insert dst data := by
  unfold Tree.rename at h
  by_cases hblocked : (t.blocked src || t.blocked dst) = true
  · rw [if_pos hblocked] at h
    cases h
  · rw [if_neg hblocked] at h
    cases hfile : t.files.lookup src with
    | some data =>
      rw [hfile] at h
      dsimp only at h
      split_ifs at h with hdir
      obtain rfl := Except.ok.inj h
      have herased : (t.eraseFile src).WellFormed := hwf.eraseFile src
      refine ⟨data, rfl, herased.insert (Bool.eq_false_iff.mpr hdir) ?_, rfl⟩
      exact herased.housed_of_parent hparent
    | none =>
      rw [hfile] at h
      dsimp only at h
      rcases hsrc with hdir | hbelow
      · rw [hdir] at h
        cases h
      · have hne : src ≠ dst := Ne.symm ((below_iff src dst).mp hbelow).2
        rw [if_neg hne, if_pos hbelow] at h
        split_ifs at h

end Steps

section Walks
variable {t : Tree γ δ} {keep : List γ → Bool}

theorem mem_childFiles (t : Tree γ δ) (d p : List γ) :
    p ∈ t.childFiles d ↔ t.isFile p = true ∧ p ≠ [] ∧ p.dropLast = d := by
  unfold childFiles
  rw [List.mem_filter, decide_eq_true_eq, isFile_iff_mem_keys]

theorem mem_childDirs (t : Tree γ δ) (d q : List γ) :
    q ∈ t.childDirs d ↔ q ∈ t.dirs ∧ q ≠ [] ∧ q.dropLast = d := by
  unfold childDirs
  rw [List.mem_filter, decide_eq_true_eq]

omit [DecidableEq γ] in
theorem eq_concat_of_dropLast {d p : List γ} (hne : p ≠ []) (hp : p.dropLast = d) :
    ∃ x, p = d ++ [x] := by
  refine ⟨p.getLast hne, ?_⟩
  rw [← hp, List.dropLast_append_getLast hne]

/-- A walk of `n` levels meets the files that are at most so deep. -/
theorem WellFormed.mem_walkFrom (hwf : t.WellFormed) (n : ℕ) (d p : List γ) :
    p ∈ t.walkFrom keep n d ↔
      t.isFile p = true ∧ keep p = true ∧ below d p = true ∧ p.length ≤ d.length + n := by
  induction n generalizing d with
  | zero =>
    constructor
    · intro h
      exact absurd h List.not_mem_nil
    · rintro ⟨-, -, hbelow, hlength⟩
      obtain ⟨rest, hrest, rfl⟩ := (below_iff_exists d p).mp hbelow
      have hpos := List.length_pos_of_ne_nil hrest
      rw [List.length_append] at hlength
      omega
  | succ n ih =>
    rw [walkFrom]
    constructor
    · intro h
      split_ifs at h
      · rcases List.mem_append.mp h with hfile | hdeeper
        · obtain ⟨hchild, hkeep⟩ := List.mem_filter.mp hfile
          obtain ⟨hisFile, hne, hdrop⟩ := (mem_childFiles t d p).mp hchild
          obtain ⟨x, rfl⟩ := eq_concat_of_dropLast hne hdrop
          refine ⟨hisFile, hkeep, (below_iff_exists d _).mpr ⟨[x], by simp, rfl⟩, ?_⟩
          rw [List.length_append, List.length_singleton]
          omega
        · obtain ⟨c, hc, hwalk⟩ := List.mem_flatMap.mp hdeeper
          obtain ⟨-, hne, hdrop⟩ := (mem_childDirs t d c).mp (List.mem_reverse.mp hc)
          obtain ⟨x, rfl⟩ := eq_concat_of_dropLast hne hdrop
          obtain ⟨hisFile, hkeep, hbelow, hlength⟩ := (ih _).mp hwalk
          refine ⟨hisFile, hkeep, below_trans (List.prefix_append d [x]) hbelow, ?_⟩
          rw [List.length_append, List.length_singleton] at hlength
          omega
      · exact absurd h List.not_mem_nil
    · rintro ⟨hisFile, hkeep, hbelow, hlength⟩
      rw [if_pos (hwf.file_housed p hisFile d hbelow), List.mem_append]
      obtain ⟨rest, hrest, rfl⟩ := (below_iff_exists d p).mp hbelow
      cases rest with
      | nil => exact absurd rfl hrest
      | cons x rest =>
        by_cases hlast : rest = []
        · subst hlast
          refine Or.inl (List.mem_filter.mpr ⟨(mem_childFiles t d _).mpr ⟨hisFile, ?_, ?_⟩, hkeep⟩)
          · simp
          · exact List.dropLast_concat
        · -- The next directory on the way is a child of `d`.
          have hway : below (d ++ [x]) (d ++ x :: rest) = true :=
            (below_iff_exists _ _).mpr ⟨rest, hlast, by simp⟩
          have hmem : d ++ [x] ∈ t.dirs := by
            rcases (t.isDir_iff _).mp (hwf.file_housed _ hisFile _ hway) with hnil | hmem
            · simp at hnil
            · exact hmem
          refine Or.inr (List.mem_flatMap.mpr ⟨d ++ [x], ?_, (ih _).mpr ⟨hisFile, hkeep, hway, ?_⟩⟩)
          · exact List.mem_reverse.mpr ((mem_childDirs t d _).mpr ⟨hmem, by simp, by simp⟩)
          · have hnext : (d ++ [x]).length = d.length + 1 := by simp
            omega

theorem WellFormed.nodup_walkFrom (hwf : t.WellFormed) (n : ℕ) (d : List γ) :
    (t.walkFrom keep n d).Nodup := by
  induction n generalizing d with
  | zero => exact List.nodup_nil
  | succ n ih =>
    have hlonger : ∀ c ∈ (t.childDirs d).reverse, c ≠ [] ∧ c.dropLast = d := by
      intro c hc
      exact ((mem_childDirs t d c).mp (List.mem_reverse.mp hc)).2
    rw [walkFrom]
    split_ifs
    · refine List.nodup_append'.mpr ⟨?_, List.nodup_flatMap.mpr ⟨fun c _ => ih c, ?_⟩, ?_⟩
      · exact (t.files.keys_nodup.filter _).filter _
      · -- A file is below one child only.
        have hdirs : (t.childDirs d).reverse.Nodup := List.nodup_reverse.mpr (hwf.dirs_nodup.filter _)
        refine hdirs.imp_of_mem ?_
        intro c c' hc hc' hne p hp hp'
        obtain ⟨x, rfl⟩ := eq_concat_of_dropLast (hlonger c hc).1 (hlonger c hc).2
        obtain ⟨y, rfl⟩ := eq_concat_of_dropLast (hlonger c' hc').1 (hlonger c' hc').2
        have hx := ((below_iff _ p).mp ((hwf.mem_walkFrom n _ p).mp hp).2.2.1).1
        have hy := ((below_iff _ p).mp ((hwf.mem_walkFrom n _ p).mp hp').2.2.1).1
        have hleads : d ++ [x] <+: d ++ [y] :=
          List.prefix_of_prefix_length_le hx hy (by simp)
        exact hne (hleads.eq_of_length (by simp))
      · intro p hp hdeeper
        obtain ⟨hchild, -⟩ := List.mem_filter.mp hp
        obtain ⟨-, hpne, hpdrop⟩ := (mem_childFiles t d p).mp hchild
        obtain ⟨x, rfl⟩ := eq_concat_of_dropLast hpne hpdrop
        obtain ⟨c, hc, hwalk⟩ := List.mem_flatMap.mp hdeeper
        obtain ⟨y, rfl⟩ := eq_concat_of_dropLast (hlonger c hc).1 (hlonger c hc).2
        obtain ⟨hyx, hne⟩ := (below_iff _ _).mp ((hwf.mem_walkFrom n _ _).mp hwalk).2.2.1
        exact hne (hyx.eq_of_length (by simp)).symm
    · exact List.nodup_nil

omit [DecidableEq γ] in
theorem length_lt_depth {t : Tree γ δ} {d : List γ} (hd : d ∈ t.dirs) : d.length < t.depth := by
  have hmax : ∀ dirs : List (List γ), d ∈ dirs →
      d.length ≤ dirs.foldr (fun d n => max d.length n) 0 := by
    intro dirs hmem
    induction dirs with
    | nil => exact absurd hmem List.not_mem_nil
    | cons q rest ih =>
      rcases List.mem_cons.mp hmem with rfl | hrest
      · exact le_max_left _ _
      · exact (ih hrest).trans (le_max_right _ _)
  exact Nat.lt_succ_of_le (hmax t.dirs hd)

theorem WellFormed.length_le_depth (hwf : t.WellFormed) {p : List γ} (hp : t.isFile p = true) :
    p.length ≤ t.depth := by
  have hne : p ≠ [] := by
    rintro rfl
    rw [hwf.root_isFile] at hp
    exact Bool.false_ne_true hp
  have hparent : below p.dropLast p = true := by
    refine (below_iff_exists _ _).mpr ⟨[p.getLast hne], by simp, ?_⟩
    rw [List.dropLast_append_getLast]
  have hlength : p.length = p.dropLast.length + 1 := by
    have := List.length_pos_of_ne_nil hne
    rw [List.length_dropLast]
    omega
  rcases (t.isDir_iff _).mp (hwf.file_housed p hp _ hparent) with hroot | hmem
  · rw [hlength, hroot]
    exact Nat.succ_le_succ (Nat.zero_le _)
  · rw [hlength]
    exact length_lt_depth hmem

/-- A walk meets each file below the directory once. -/
theorem WellFormed.mem_walk (hwf : t.WellFormed) (d p : List γ) :
    p ∈ t.walk keep d ↔ t.isFile p = true ∧ keep p = true ∧ below d p = true := by
  unfold walk
  rw [hwf.mem_walkFrom]
  constructor
  · rintro ⟨hfile, hkeep, hbelow, -⟩
    exact ⟨hfile, hkeep, hbelow⟩
  · rintro ⟨hfile, hkeep, hbelow⟩
    have hdepth := hwf.length_le_depth hfile
    exact ⟨hfile, hkeep, hbelow, by omega⟩

theorem WellFormed.nodup_walk (hwf : t.WellFormed) (d : List γ) : (t.walk keep d).Nodup :=
  hwf.nodup_walkFrom _ d

end Walks

end Tree

end BatleHub.Lib.FileTree
