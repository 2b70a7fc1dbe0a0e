import BatleHub.FilesystemStorage
import BatleHub.Lib.Runs

/-!
The key contract of the filesystem backend. Beside the disk stands the ledger of what
the calls reported: which keys are stored, and with which bytes. While every key is
plain and no pruning meets another upload, the disk holds exactly the ledger, so a
listing gives back the keys as they were stored and a removal by prefix takes these and
no others.
-/
namespace BatleHub.FilesystemStorage

open Lib FileTree AssocMap Doubling Segments
open StorageRouter (Bytes STAGING_PREFIX StoreOutcome)
open FilesystemStorageBackend (stagingId stagingDir pruneStagingDir walkDatFiles)

inductive Call where
  | store (uuid key : String) (data : Bytes)
  | storeStreaming (uuid key : String) (chunks : List Bytes) (failure : Option CoreError)
  | moveKey (src dst : String)
  | delete (key : String)
  | deleteByPrefix (lead : String)

structure World where
  disk : Disk
  /-- What the calls so far reported as stored. -/
  stored : Assoc String Bytes

def World.empty : World := ⟨Tree.empty, ∅⟩

section Ledger

/-- A store that returned puts the key into the ledger. -/
def recordStore {α : Type} (key : String) (data : Bytes) (stored : Assoc String Bytes) :
    Except CoreError α → Assoc String Bytes
  | .ok _ => stored.insert key data
  | .error _ => stored

def recordMove (src dst : String) (stored : Assoc String Bytes) :
    Except CoreError Unit → Assoc String Bytes
  | .ok _ =>
    match stored.lookup src with
    | some data => (stored.erase src).insert dst data
    | none => stored
  | .error _ => stored

def recordDelete (key : String) (stored : Assoc String Bytes) :
    Except CoreError Bool → Assoc String Bytes
  | .ok true => stored.erase key
  | .ok false => stored
  | .error _ => stored

def recordDeleteByPrefix (lead : String) (stored : Assoc String Bytes) :
    Except CoreError ℕ → Assoc String Bytes
  | .ok _ => retain (fun k _ => !Texts.startsWith k lead) stored
  | .error _ => stored

variable (b : FilesystemStorageBackend)

def step (w : World) : Call → World
  | .store uuid key data =>
    let (result, disk) := b.store uuid w.disk key data
    ⟨disk, recordStore key data w.stored result⟩
  | .storeStreaming uuid key chunks failure =>
    let (result, disk) := b.storeStreaming uuid w.disk key chunks failure
    ⟨disk, recordStore key chunks.flatten w.stored result⟩
  | .moveKey src dst =>
    let (result, disk) := b.moveKey w.disk src dst
    ⟨disk, recordMove src dst w.stored result⟩
  | .delete key =>
    let (result, disk) := b.delete w.disk key
    ⟨disk, recordDelete key w.stored result⟩
  | .deleteByPrefix lead =>
    let (result, disk) := b.deleteByPrefix w.disk lead
    ⟨disk, recordDeleteByPrefix lead w.stored result⟩

abbrev run (w : World) (calls : List Call) : World := Runs.run (step b) w calls

end Ledger

section Conditions

/-- A key that would be accepted is plain: a refused one does nothing. -/
def Plain (key : String) : Prop := SafeKey key → PlainKey key

instance (key : String) : Decidable (Plain key) :=
  inferInstanceAs (Decidable (SafeKey key → PlainKey key))

/-- The keys of the same upload, when the directory that is pruned is the one they are in. -/
def stagingRoom (key : String) : Option String :=
  (stagingId key).bind fun id =>
    if ':' ∈ id.toList then none else some (STAGING_PREFIX ++ id ++ "/")

/-- No other key of the upload is stored. -/
def AloneInRoom (stored : Assoc String Bytes) (key : String) : Prop :=
  ∀ room ∈ stagingRoom key, ∀ k ∈ stored.keys, k ≠ key → Texts.startsWith k room = false

instance (stored : Assoc String Bytes) (key : String) : Decidable (AloneInRoom stored key) :=
  inferInstanceAs (Decidable (∀ room ∈ stagingRoom key, ∀ k ∈ stored.keys, _))

/-- The prefix is one of whole segments, as far as the stored keys go. -/
def WholeSegments (stored : Assoc String Bytes) (lead : String) : Prop :=
  Unmarked lead.toList ∧ (lead.toList.getLast? = some '/' ∨
    ∀ k ∈ stored.keys, Texts.startsWith k lead = true → Texts.startsWith k (lead ++ "/") = true)

instance (stored : Assoc String Bytes) (lead : String) : Decidable (WholeSegments stored lead) :=
  inferInstanceAs (Decidable (_ ∧ (_ ∨ ∀ k ∈ stored.keys, _)))

/-- The condition on a call in the state it is made in. -/
def Fits (w : World) : Call → Prop
  | .store _ key _ => Plain key
  | .storeStreaming _ key _ _ => Plain key
  | .moveKey src dst =>
    Plain src ∧ Plain dst ∧ w.disk.isDir (pathOf src) = false ∧
      (src ∈ w.stored → AloneInRoom w.stored src ∧
        ∀ room ∈ stagingRoom src, Texts.startsWith dst room = false)
  | .delete key => Plain key ∧ (key ∈ w.stored → AloneInRoom w.stored key)
  | .deleteByPrefix lead => SafeKey lead → WholeSegments w.stored lead

instance (w : World) : (c : Call) → Decidable (Fits w c)
  | .store _ key _ => inferInstanceAs (Decidable (Plain key))
  | .storeStreaming _ key _ _ => inferInstanceAs (Decidable (Plain key))
  | .moveKey src dst =>
    inferInstanceAs (Decidable (Plain src ∧ Plain dst ∧ w.disk.isDir (pathOf src) = false ∧
      (src ∈ w.stored → AloneInRoom w.stored src ∧
        ∀ room ∈ stagingRoom src, Texts.startsWith dst room = false)))
  | .delete key =>
    inferInstanceAs (Decidable (Plain key ∧ (key ∈ w.stored → AloneInRoom w.stored key)))
  | .deleteByPrefix lead =>
    inferInstanceAs (Decidable (SafeKey lead → WholeSegments w.stored lead))

end Conditions

/-- The disk holds the ledger. -/
structure Mirrors (w : World) : Prop where
  wellFormed : w.disk.WellFormed
  plain : ∀ k data, w.stored.lookup k = some data → PlainKey k
  files : ∀ k, PlainKey k → w.disk.files.lookup (pathOf k) = w.stored.lookup k
  named : ∀ p data, w.disk.files.lookup p = some data → ∃ k, PlainKey k ∧ pathOf k = p

section Effects
variable {disk disk' : Disk} {stored : Assoc String Bytes} {key : String} {data : Bytes}

/-- The check comes first, and the rest cannot fail. -/
theorem check_then_ok_iff (debugText : String → String) (key : String) (path path' : Path) :
    (ensureSafeKey debugText key >>= fun _ => Except.ok path) = Except.ok path' ↔
      SafeKey key ∧ path' = path := by
  cases hsafe : ensureSafeKey debugText key with
  | error e =>
    have hnot : ¬ SafeKey key := by
      intro h
      rw [(ensureSafeKey_eq_ok_iff debugText key).mpr h] at hsafe
      cases hsafe
    constructor
    · intro h
      cases h
    · intro h
      exact absurd h.1 hnot
  | ok u =>
    have hkey : SafeKey key := (ensureSafeKey_eq_ok_iff debugText key).mp hsafe
    constructor
    · intro h
      exact ⟨hkey, (Except.ok.inj h).symm⟩
    · rintro ⟨-, rfl⟩
      rfl

theorem keyToPath_eq_ok_iff (debugText : String → String) (key : String) (path : Path) :
    keyToPath debugText key = .ok path ↔ SafeKey key ∧ path = pathOf key :=
  check_then_ok_iff debugText key (pathOf key) path

theorem prefixToDir_eq_ok_iff (debugText : String → String) (lead : String) (dir : Path) :
    prefixToDir debugText lead = .ok dir ↔ SafeKey lead ∧ dir = dirOf lead :=
  check_then_ok_iff debugText lead (dirOf lead) dir

theorem PlainKey.pathOf_inj {k k' : String} (hk : PlainKey k) (hk' : PlainKey k') :
    pathOf k = pathOf k' ↔ k = k' := by
  refine ⟨pathOf_injective hk.1 hk'.1 hk.2.1 hk'.2.1, ?_⟩
  rintro rfl
  rfl

theorem Mirrors.empty : Mirrors World.empty where
  wellFormed := Tree.WellFormed.empty
  plain := by
    intro k data h
    simp [World.empty] at h
  files := by
    intro k hk
    simp [World.empty, Tree.empty]
  named := by
    intro p data h
    simp [World.empty, Tree.empty] at h

/-- Directories alone change nothing. -/
theorem Mirrors.of_files_eq (h : Mirrors ⟨disk, stored⟩) (hwf : disk'.WellFormed)
    (hfiles : disk'.files = disk.files) : Mirrors ⟨disk', stored⟩ := by
  refine ⟨hwf, h.plain, ?_, ?_⟩
  · intro k hk
    rw [hfiles]
    exact h.files k hk
  · intro p data hp
    rw [hfiles] at hp
    exact h.named p data hp

theorem Mirrors.insert (h : Mirrors ⟨disk, stored⟩) (hkey : PlainKey key)
    (hwf : disk'.WellFormed) (hfiles : disk'.files = disk.files.insert (pathOf key) data) :
    Mirrors ⟨disk', stored.insert key data⟩ := by
  refine ⟨hwf, ?_, ?_, ?_⟩
  · intro k bytes hk
    rw [lookup_insert_eq] at hk
    split_ifs at hk with heq
    · rw [heq]
      exact hkey
    · exact h.plain k bytes hk
  · intro k hk
    rw [hfiles, lookup_insert_eq, lookup_insert_eq, h.files k hk]
    simp only [hk.pathOf_inj hkey]
  · intro p bytes hp
    rw [hfiles, lookup_insert_eq] at hp
    split_ifs at hp with heq
    · exact ⟨key, hkey, heq.symm⟩
    · exact h.named p bytes hp

theorem Mirrors.erase (h : Mirrors ⟨disk, stored⟩) (hkey : PlainKey key) :
    Mirrors ⟨disk.eraseFile (pathOf key), stored.erase key⟩ := by
  refine ⟨h.wellFormed.eraseFile _, ?_, ?_, ?_⟩
  · intro k bytes hk
    rw [lookup_erase_eq] at hk
    split_ifs at hk with heq
    exact h.plain k bytes hk
  · intro k hk
    have hold := h.files k hk
    simp only at hold
    simp only [Tree.eraseFile, lookup_erase_eq, hold, hk.pathOf_inj hkey]
  · intro p bytes hp
    simp only [Tree.eraseFile, lookup_erase_eq] at hp
    split_ifs at hp with heq
    exact h.named p bytes hp

/-- A directory goes, and the ledger drops the keys in it. -/
theorem Mirrors.removeBelow (h : Mirrors ⟨disk, stored⟩) {d : Path} (gone : String → Bool)
    (hwf : disk'.WellFormed)
    (hfiles : ∀ p, disk'.files.lookup p = if below d p = true then none else disk.files.lookup p)
    (hgone : ∀ k, PlainKey k → k ∈ stored → (below d (pathOf k) = true ↔ gone k = true)) :
    Mirrors ⟨disk', retain (fun k _ => !gone k) stored⟩ := by
  refine ⟨hwf, ?_, ?_, ?_⟩
  · intro k bytes hk
    rw [lookup_retain, Option.filter_eq_some_iff] at hk
    exact h.plain k bytes hk.1
  · intro k hk
    have hold := h.files k hk
    simp only at hold
    rw [hfiles, hold, lookup_retain]
    cases hlookup : stored.lookup k with
    | none => simp
    | some bytes =>
      have hmem : k ∈ stored := AList.lookup_isSome.mp (by rw [hlookup]; rfl)
      have hiff := hgone k hk hmem
      by_cases hbelow : below d (pathOf k) = true
      · simp [hbelow, hiff.mp hbelow]
      · have hkept : gone k = false := Bool.eq_false_iff.mpr (mt hiff.mpr hbelow)
        rw [if_neg hbelow, hkept]
        rfl
  · intro p bytes hp
    rw [hfiles] at hp
    split_ifs at hp
    exact h.named p bytes hp

end Effects

section Pruning
variable {disk : Disk} {stored : Assoc String Bytes} {key id : String}

theorem stagingId_eq_some_iff : stagingId key = some id ↔
    ∃ rest, key.toList = STAGING_PREFIX.toList ++ id.toList ++ '/' :: rest ∧ '/' ∉ id.toList := by
  unfold stagingId
  rw [Option.bind_eq_some_iff]
  constructor
  · rintro ⟨tail, htail, hmap⟩
    obtain ⟨⟨first, rest⟩, hsplit, rfl⟩ := Option.map_eq_some_iff.mp hmap
    obtain ⟨rfl, hslash⟩ := (Texts.splitOnce_eq_some_iff _ _ _ _).mp hsplit
    rw [(Texts.stripPrefix_eq_some_iff _ _ _).mp htail]
    exact ⟨rest.toList, by simp, hslash⟩
  · rintro ⟨rest, hkey, hslash⟩
    refine ⟨id ++ String.singleton '/' ++ String.ofList rest, ?_, ?_⟩
    · rw [Texts.stripPrefix_eq_some_iff]
      apply String.toList_inj.mp
      rw [hkey]
      simp
    · rw [(Texts.splitOnce_eq_some_iff _ '/' id (String.ofList rest)).mpr ⟨rfl, hslash⟩]
      rfl

theorem stagingDir_eq (h : '/' ∉ id.toList) :
    stagingDir id = ("staging__".toList ++ id.toList).splitOn '/' := by
  have hsegment : '/' ∉ "staging__".toList ++ id.toList := by
    rw [List.mem_append, not_or]
    exact ⟨by decide, h⟩
  apply components_eq_splitOn
  · rw [List.splitOn_eq_singleton hsegment]
    simp
  · rw [List.splitOn_eq_singleton hsegment]
    simp

/-- A plain key in the directory that is pruned is one of the same upload. -/
theorem PlainKey.inRoom (hkey : PlainKey key) {k : String} (hk : PlainKey k)
    (hid : stagingId key = some id) (hbelow : below (stagingDir id) (pathOf k) = true) :
    ∃ room ∈ stagingRoom key, Texts.startsWith k room = true := by
  obtain ⟨rest, hrest, hslash⟩ := stagingId_eq_some_iff.mp hid
  rw [stagingDir_eq hslash] at hbelow
  by_cases hcolon : ':' ∈ id.toList
  · -- The directory keeps the colon, and no key is written with one.
    exfalso
    rw [hk.1.pathOf_eq, below_splitOn_iff] at hbelow
    obtain ⟨tail, htail⟩ := hbelow
    have hmem : ':' ∈ mangle k.toList ++ datSuffix := by
      rw [htail]
      simp [hcolon]
    rcases List.mem_append.mp hmem with hmangled | hdat
    · exact notMem_double (by decide) k.toList hmangled
    · exact absurd hdat (by decide)
  · have hroom : stagingRoom key = some (STAGING_PREFIX ++ id ++ "/") := by
      unfold stagingRoom
      rw [hid, Option.bind_some, if_neg hcolon]
    have hmark : Unmarked (STAGING_PREFIX.toList ++ id.toList) := by
      have hwhole := hkey.2.1
      rw [hrest] at hwhole
      exact NoMark.left hwhole
    have hdir : "staging__".toList ++ id.toList = mangle (STAGING_PREFIX.toList ++ id.toList) := by
      unfold mangle
      rw [double_append, double_eq_self hcolon]
      rfl
    rw [hdir, hk.below_iff hmark] at hbelow
    refine ⟨_, hroom, ?_⟩
    unfold Texts.startsWith
    rw [List.isPrefixOf_iff_prefix]
    simpa using hbelow

/-- Pruning touches nothing when the upload had one key. -/
theorem Mirrors.prune (h : Mirrors ⟨disk, stored⟩) (hkey : PlainKey key)
    (halone : ∀ room ∈ stagingRoom key, ∀ k ∈ stored, Texts.startsWith k room = false) :
    Mirrors ⟨pruneStagingDir disk key, stored⟩ := by
  unfold pruneStagingDir
  cases hid : stagingId key with
  | none => exact h
  | some id =>
    have hremove := h.wellFormed.removeDirAll (stagingDir id)
    dsimp only at hremove ⊢
    cases hresult : disk.removeDirAll (stagingDir id) with
    | error e => exact h
    | ok disk' =>
      rw [hresult] at hremove
      have hnone : ∀ k, PlainKey k → k ∈ stored →
          (below (stagingDir id) (pathOf k) = true ↔ false = true) := by
        intro k hk hmem
        constructor
        · intro hbelow
          obtain ⟨room, hroom, hstarts⟩ := hkey.inRoom hk hid hbelow
          rw [halone room hroom k hmem] at hstarts
          exact hstarts
        · intro hfalse
          cases hfalse
      have hkept := h.removeBelow (fun _ => false) hremove.1 hremove.2 hnone
      have hsame : retain (fun _ _ => !false) stored = stored := by
        apply AList.ext
        exact List.filter_eq_self.mpr (fun _ _ => rfl)
      rwa [hsame] at hkept

end Pruning

section Steps
variable (b : FilesystemStorageBackend) {disk disk' : Disk} {stored : Assoc String Bytes}
  {key lead : String} {data : Bytes}

theorem ensureParentDir_spec (hwf : disk.WellFormed) {path : Path}
    (h : b.ensureParentDir disk path = .ok disk') :
    disk'.WellFormed ∧ disk'.isDir path.dropLast = true ∧ disk'.files = disk.files ∧
      ∀ q, disk'.isDir q = true → disk.isDir q = true ∨ q <+: path.dropLast := by
  unfold FilesystemStorageBackend.ensureParentDir at h
  cases hcreate : disk.createDirAll path.dropLast with
  | error e =>
    rw [hcreate] at h
    cases h
  | ok made =>
    rw [hcreate] at h
    obtain rfl := Except.ok.inj h
    obtain ⟨hmade, hparent⟩ := hwf.createDirAll hcreate
    obtain ⟨hfiles, -, -, hdirs⟩ := Tree.createDirAll_spec hcreate
    refine ⟨hmade, hparent, hfiles, ?_⟩
    intro q hq
    rcases (Tree.isDir_iff _ q).mp hq with hroot | hmem
    · exact Or.inl ((Tree.isDir_iff _ q).mpr (Or.inl hroot))
    · rcases (hdirs q).mp hmem with ⟨hleads, -⟩ | hold
      · exact Or.inr hleads
      · exact Or.inl ((Tree.isDir_iff _ q).mpr (Or.inr hold))

theorem Mirrors.publish (h : Mirrors ⟨disk, stored⟩) (hkey : PlainKey key)
    (hparent : disk.isDir (pathOf key).dropLast = true) (uuid : String) :
    Mirrors ⟨(b.publishStaging disk (pathOf key) uuid data).2,
      recordStore key data stored (b.publishStaging disk (pathOf key) uuid data).1⟩ := by
  unfold FilesystemStorageBackend.publishStaging
  cases hpublish : disk.publish (pathOf key) data with
  | error e => exact h
  | ok disk' =>
    obtain ⟨hwf, hfiles⟩ := h.wellFormed.publish hparent hpublish
    exact h.insert hkey hwf hfiles

theorem Mirrors.store (h : Mirrors ⟨disk, stored⟩) (hplain : Plain key) (uuid : String) :
    Mirrors ⟨(b.store uuid disk key data).2,
      recordStore key data stored (b.store uuid disk key data).1⟩ := by
  unfold FilesystemStorageBackend.store
  cases hpath : keyToPath b.debugText key with
  | error e => exact h
  | ok path =>
    obtain ⟨hsafe, rfl⟩ := (keyToPath_eq_ok_iff _ _ _).mp hpath
    dsimp only
    cases hmade : b.ensureParentDir disk (pathOf key) with
    | error e => exact h
    | ok made =>
      obtain ⟨hwf, hparent, hfiles, -⟩ := ensureParentDir_spec b h.wellFormed hmade
      exact (h.of_files_eq hwf hfiles).publish b (hplain hsafe) hparent uuid

theorem Mirrors.storeStreaming (h : Mirrors ⟨disk, stored⟩) (hplain : Plain key) (uuid : String)
    (chunks : List Bytes) (failure : Option CoreError) :
    Mirrors ⟨(b.storeStreaming uuid disk key chunks failure).2,
      recordStore key chunks.flatten stored (b.storeStreaming uuid disk key chunks failure).1⟩ := by
  unfold FilesystemStorageBackend.storeStreaming
  cases hpath : keyToPath b.debugText key with
  | error e => exact h
  | ok path =>
    obtain ⟨hsafe, rfl⟩ := (keyToPath_eq_ok_iff _ _ _).mp hpath
    dsimp only
    cases hmade : b.ensureParentDir disk (pathOf key) with
    | error e => exact h
    | ok made =>
      obtain ⟨hwf, hparent, hfiles, -⟩ := ensureParentDir_spec b h.wellFormed hmade
      have hmirror := h.of_files_eq hwf hfiles
      cases failure with
      | some e => exact hmirror
      | none =>
        have hpublished :
            Mirrors ⟨(b.publishStaging made (pathOf key) uuid chunks.flatten).2, _⟩ :=
          hmirror.publish b (hplain hsafe) hparent uuid
        dsimp only
        cases hresult : b.publishStaging made (pathOf key) uuid chunks.flatten with
        | mk result final =>
          rw [hresult] at hpublished
          cases result with
          | error e => exact hpublished
          | ok u => exact hpublished

/-- A key of the ledger has a file, and a file has its key in the ledger. -/
theorem Mirrors.mem_iff_isFile (h : Mirrors ⟨disk, stored⟩) (hkey : PlainKey key) :
    disk.isFile (pathOf key) = true ↔ key ∈ stored := by
  have hlookup := h.files key hkey
  simp only at hlookup
  unfold Tree.isFile
  rw [hlookup, AList.lookup_isSome]

theorem Mirrors.delete (h : Mirrors ⟨disk, stored⟩) (hplain : Plain key)
    (halone : key ∈ stored → AloneInRoom stored key) :
    Mirrors ⟨(b.delete disk key).2, recordDelete key stored (b.delete disk key).1⟩ := by
  unfold FilesystemStorageBackend.delete
  cases hpath : keyToPath b.debugText key with
  | error e => exact h
  | ok path =>
    obtain ⟨hsafe, rfl⟩ := (keyToPath_eq_ok_iff _ _ _).mp hpath
    have hkey := hplain hsafe
    dsimp only
    cases hremove : disk.removeFile (pathOf key) with
    | error e => cases e <;> exact h
    | ok disk' =>
      obtain ⟨hfile, rfl⟩ := Tree.removeFile_spec hremove
      have hmem := (h.mem_iff_isFile hkey).mp hfile
      apply (h.erase hkey).prune hkey
      intro room hroom k hk
      obtain ⟨hne, hold⟩ := AList.mem_erase.mp hk
      exact halone hmem room hroom k (AList.mem_keys.mp hold) hne

theorem Mirrors.moveKey (h : Mirrors ⟨disk, stored⟩) {src dst : String}
    (hfits : Fits ⟨disk, stored⟩ (.moveKey src dst)) :
    Mirrors ⟨(b.moveKey disk src dst).2, recordMove src dst stored (b.moveKey disk src dst).1⟩ := by
  obtain ⟨hsrc, hdst, hnodir, halone⟩ := hfits
  unfold FilesystemStorageBackend.moveKey
  cases hsrcPath : keyToPath b.debugText src with
  | error e => exact h
  | ok srcPath =>
    obtain ⟨hsafe, rfl⟩ := (keyToPath_eq_ok_iff _ _ _).mp hsrcPath
    have hsrcKey := hsrc hsafe
    dsimp only
    cases hdstPath : keyToPath b.debugText dst with
    | error e => exact h
    | ok dstPath =>
      obtain ⟨hdstSafe, rfl⟩ := (keyToPath_eq_ok_iff _ _ _).mp hdstPath
      have hdstKey := hdst hdstSafe
      dsimp only
      cases hmade : b.ensureParentDir disk (pathOf dst) with
      | error e => exact h
      | ok made =>
        obtain ⟨hwf, hparent, hfiles, hnew⟩ := ensureParentDir_spec b h.wellFormed hmade
        have hmirror := h.of_files_eq hwf hfiles
        dsimp only
        cases hrename : made.rename (pathOf src) (pathOf dst) with
        | error e => exact hmirror
        | ok renamed =>
          -- A directory made just now is one the target is in.
          have hsource : made.isDir (pathOf src) = false ∨
              below (pathOf src) (pathOf dst) = true := by
            by_cases hdir : made.isDir (pathOf src) = true
            · rcases hnew _ hdir with hold | hleads
              · rw [hnodir] at hold
                cases hold
              · refine Or.inr ((below_iff _ _).mpr ⟨hleads.trans (List.dropLast_prefix _), ?_⟩)
                intro heq
                have hlength := hleads.length_le
                have hne : pathOf dst ≠ [] := by
                  rw [hdstKey.1.pathOf_eq]
                  exact List.splitOn_ne_nil _ _
                have hpos := List.length_pos_of_ne_nil hne
                rw [← heq, List.length_dropLast] at hlength
                omega
            · exact Or.inl (Bool.eq_false_iff.mpr hdir)
          obtain ⟨data, hdata, hrenamed, hrenamedFiles⟩ :=
            hmirror.wellFormed.rename hparent hsource hrename
          have hlookup : stored.lookup src = some data := by
            rw [← hmirror.files src hsrcKey]
            exact hdata
          have hmem : src ∈ stored := AList.lookup_isSome.mp (by rw [hlookup]; rfl)
          obtain ⟨hroomStored, hroomDst⟩ := halone hmem
          have hmoved : Mirrors ⟨renamed, (stored.erase src).insert dst data⟩ :=
            (hmirror.erase hsrcKey).insert hdstKey hrenamed hrenamedFiles
          show Mirrors ⟨pruneStagingDir renamed src, recordMove src dst stored (.ok ())⟩
          have hledger : recordMove src dst stored (.ok ()) = (stored.erase src).insert dst data := by
            rw [recordMove, hlookup]
          rw [hledger]
          apply hmoved.prune hsrcKey
          intro room hroom k hk
          rcases (AList.mem_insert (stored.erase src)).mp hk with rfl | hk
          · exact hroomDst room hroom
          · obtain ⟨hne, hold⟩ := AList.mem_erase.mp hk
            exact hroomStored room hroom k (AList.mem_keys.mp hold) hne

/-- The keys below the directory of a prefix are the stored keys that start with it. -/
theorem PlainKey.below_dirOf_iff {k : String} (hk : PlainKey k) (hlead : SafeKey lead)
    (hwhole : WholeSegments stored lead) (hmem : k ∈ stored) :
    below (dirOf lead) (pathOf k) = true ↔ Texts.startsWith k lead = true := by
  obtain ⟨hmark, hends⟩ := hwhole
  have hstemMark : Unmarked (stem lead) := by
    rcases hlead.stem_spec.1 with ⟨heq, -⟩ | heq
    · rw [← heq]
      exact hmark
    · rw [heq] at hmark
      exact NoMark.left hmark
  rw [hlead.dirOf_eq, hk.below_iff hstemMark]
  unfold Texts.startsWith at hends ⊢
  rw [List.isPrefixOf_iff_prefix]
  rcases hlead.stem_spec.1 with ⟨heq, hslash⟩ | heq
  · rw [← heq]
    constructor
    · intro hleads
      exact (List.prefix_append _ _).trans hleads
    · intro hleads
      rcases hends with hlast | hends
      · exact absurd hlast hslash
      · have hgoes := hends k (AList.mem_keys.mp hmem) (List.isPrefixOf_iff_prefix.mpr hleads)
        rw [List.isPrefixOf_iff_prefix] at hgoes
        simpa using hgoes
  · rw [heq]

/-- What a removal by prefix leaves, whether it found a directory or not. -/
theorem Mirrors.removePrefix (h : Mirrors ⟨disk, stored⟩) (hlead : SafeKey lead)
    (hwhole : WholeSegments stored lead) :
    Mirrors ⟨(b.deleteByPrefix disk lead).2,
        retain (fun k _ => !Texts.startsWith k lead) stored⟩ ∧
      recordDeleteByPrefix lead stored (b.deleteByPrefix disk lead).1 =
        retain (fun k _ => !Texts.startsWith k lead) stored ∧
      ∀ count, (b.deleteByPrefix disk lead).1 = .ok count →
        count = (walkDatFiles disk (dirOf lead)).length := by
  have hbelow : ∀ k, PlainKey k → k ∈ stored →
      (below (dirOf lead) (pathOf k) = true ↔ Texts.startsWith k lead = true) := by
    intro k hk hmem
    exact hk.below_dirOf_iff hlead hwhole hmem
  have hdir : prefixToDir b.debugText lead = .ok (dirOf lead) :=
    (prefixToDir_eq_ok_iff _ _ _).mpr ⟨hlead, rfl⟩
  have hremove := h.wellFormed.removeDirAll (dirOf lead)
  unfold FilesystemStorageBackend.deleteByPrefix
  rw [hdir]
  dsimp only at hremove ⊢
  cases hresult : disk.removeDirAll (dirOf lead) with
  | ok disk' =>
    rw [hresult] at hremove
    refine ⟨h.removeBelow (fun k => Texts.startsWith k lead) hremove.1 hremove.2 hbelow, rfl, ?_⟩
    intro count hcount
    exact (Except.ok.inj hcount).symm
  | error e =>
    rw [hresult] at hremove
    -- No stored key starts with the prefix, so there is nothing to take out.
    have hnone : retain (fun k _ => !Texts.startsWith k lead) stored = stored := by
      apply AList.ext
      apply List.filter_eq_self.mpr
      intro e he
      have hlookup : stored.lookup e.1 = some e.2 := (lookup_eq_some_iff stored e.1 e.2).mpr he
      have hmem : e.1 ∈ stored := AList.lookup_isSome.mp (by rw [hlookup]; rfl)
      have hkey := h.plain e.1 e.2 hlookup
      have hout := hremove _ ((h.mem_iff_isFile hkey).mpr hmem)
      rw [Bool.not_eq_true', Bool.eq_false_iff]
      intro hstarts
      rw [(hbelow e.1 hkey hmem).mpr hstarts] at hout
      cases hout
    have hempty : walkDatFiles disk (dirOf lead) = [] := by
      apply List.eq_nil_iff_forall_not_mem.mpr
      intro p hp
      obtain ⟨hfile, -, hunder⟩ := (h.wellFormed.mem_walk _ p).mp hp
      rw [hremove p hfile] at hunder
      cases hunder
    rw [hnone, hempty]
    cases e with
    | notFound => exact ⟨h, hnone, fun count hcount => (Except.ok.inj hcount).symm⟩
    | _ => exact ⟨h, rfl, fun count hcount => by cases hcount⟩

theorem Mirrors.deleteByPrefix (h : Mirrors ⟨disk, stored⟩)
    (hwhole : SafeKey lead → WholeSegments stored lead) :
    Mirrors ⟨(b.deleteByPrefix disk lead).2,
      recordDeleteByPrefix lead stored (b.deleteByPrefix disk lead).1⟩ := by
  by_cases hlead : SafeKey lead
  · obtain ⟨hmirror, hledger, -⟩ := h.removePrefix b hlead (hwhole hlead)
    rw [hledger]
    exact hmirror
  · unfold FilesystemStorageBackend.deleteByPrefix
    cases hdir : prefixToDir b.debugText lead with
    | error e => exact h
    | ok dir => exact absurd ((prefixToDir_eq_ok_iff _ _ _).mp hdir).1 hlead

theorem step_mirrors (w : World) (c : Call) (h : Mirrors w) (hfits : Fits w c) :
    Mirrors (step b w c) := by
  cases c with
  | store uuid key data => exact h.store b hfits uuid
  | storeStreaming uuid key chunks failure => exact h.storeStreaming b hfits uuid chunks failure
  | moveKey src dst => exact h.moveKey b hfits
  | delete key => exact h.delete b hfits.1 hfits.2
  | deleteByPrefix lead => exact h.deleteByPrefix b hfits

theorem run_mirrors (calls : List Call)
    (hfits : Runs.Guarded (step b) Fits World.empty calls) : Mirrors (run b World.empty calls) :=
  Runs.run_keeps Fits Mirrors (step_mirrors b) World.empty calls Mirrors.empty hfits

/-- A walk meets the paths of the stored keys that start with the prefix. -/
theorem Mirrors.mem_walk_iff (h : Mirrors ⟨disk, stored⟩) (hlead : SafeKey lead)
    (hwhole : WholeSegments stored lead) (p : Path) :
    p ∈ walkDatFiles disk (dirOf lead) ↔
      ∃ k, PlainKey k ∧ k ∈ stored ∧ Texts.startsWith k lead = true ∧ pathOf k = p := by
  unfold FilesystemStorageBackend.walkDatFiles
  rw [h.wellFormed.mem_walk]
  constructor
  · rintro ⟨hfile, -, hbelow⟩
    obtain ⟨data, hdata⟩ := (Tree.isFile_iff _ _).mp hfile
    obtain ⟨k, hk, rfl⟩ := h.named p data hdata
    have hmem := (h.mem_iff_isFile hk).mp hfile
    exact ⟨k, hk, hmem, (hk.below_dirOf_iff hlead hwhole hmem).mp hbelow, rfl⟩
  · rintro ⟨k, hk, hmem, hstarts, rfl⟩
    exact ⟨(h.mem_iff_isFile hk).mpr hmem, hk.hasDatExtension_pathOf,
      (hk.below_dirOf_iff hlead hwhole hmem).mpr hstarts⟩

/-- The keys a listing reads off the disk. -/
theorem Mirrors.listed (h : Mirrors ⟨disk, stored⟩) (hlead : SafeKey lead)
    (hwhole : WholeSegments stored lead) :
    ((walkDatFiles disk (dirOf lead)).map keyOfPath).Nodup ∧
      ∀ k, k ∈ (walkDatFiles disk (dirOf lead)).map keyOfPath ↔
        k ∈ stored ∧ Texts.startsWith k lead = true := by
  have hwalk := h.mem_walk_iff hlead hwhole
  refine ⟨?_, ?_⟩
  · refine (h.wellFormed.nodup_walk _).map_on ?_
    intro p hp q hq heq
    obtain ⟨k, hk, -, -, rfl⟩ := (hwalk p).mp hp
    obtain ⟨k', hk', -, -, rfl⟩ := (hwalk q).mp hq
    rw [hk.keyOfPath_pathOf, hk'.keyOfPath_pathOf] at heq
    rw [heq]
  · intro k
    rw [List.mem_map]
    constructor
    · rintro ⟨p, hp, rfl⟩
      obtain ⟨k, hk, hmem, hstarts, rfl⟩ := (hwalk p).mp hp
      rw [hk.keyOfPath_pathOf]
      exact ⟨hmem, hstarts⟩
    · rintro ⟨hmem, hstarts⟩
      obtain ⟨data, hdata⟩ := Option.isSome_iff_exists.mp (AList.lookup_isSome.mpr hmem)
      have hk := h.plain k data hdata
      exact ⟨pathOf k, (hwalk _).mpr ⟨k, hk, hmem, hstarts, rfl⟩, hk.keyOfPath_pathOf⟩

/-- The number a removal reports. -/
theorem Mirrors.length_walk (h : Mirrors ⟨disk, stored⟩) (hlead : SafeKey lead)
    (hwhole : WholeSegments stored lead) :
    (walkDatFiles disk (dirOf lead)).length =
      (stored.keys.filter fun k => Texts.startsWith k lead).length := by
  obtain ⟨hnodup, hmem⟩ := h.listed hlead hwhole
  have hperm : ((walkDatFiles disk (dirOf lead)).map keyOfPath).Perm
      (stored.keys.filter fun k => Texts.startsWith k lead) := by
    rw [List.perm_ext_iff_of_nodup hnodup (stored.keys_nodup.filter _)]
    intro k
    rw [hmem, List.mem_filter, AList.mem_keys]
  rw [← hperm.length_eq, List.length_map]

end Steps

/-- Two accepted keys have two paths; a listing gives back the stored keys with the prefix
as they were stored; a removal takes these keys and no others. -/
theorem prefix_calls_keep_the_key_contract (b : FilesystemStorageBackend) (calls : List Call)
    (hfits : Runs.Guarded (step b) Fits World.empty calls) :
    (∀ k k' path, Unmarked k.toList → Unmarked k'.toList →
      keyToPath b.debugText k = .ok path → keyToPath b.debugText k' = .ok path → k = k') ∧
    ∀ lead, SafeKey lead → WholeSegments (run b World.empty calls).stored lead →
      (∃ keys, b.listKeys (run b World.empty calls).disk lead = .ok keys ∧ keys.Nodup ∧
        ∀ k, k ∈ keys ↔
          k ∈ (run b World.empty calls).stored ∧ Texts.startsWith k lead = true) ∧
      (∀ k, PlainKey k →
        (b.deleteByPrefix (run b World.empty calls).disk lead).2.files.lookup (pathOf k) =
          if Texts.startsWith k lead = true then none
          else (run b World.empty calls).stored.lookup k) ∧
      ∀ count, (b.deleteByPrefix (run b World.empty calls).disk lead).1 = .ok count →
        count = ((run b World.empty calls).stored.keys.filter
          fun k => Texts.startsWith k lead).length := by
  refine ⟨?_, ?_⟩
  · intro k k' path hmark hmark' hk hk'
    obtain ⟨hsafe, rfl⟩ := (keyToPath_eq_ok_iff _ _ _).mp hk
    obtain ⟨hsafe', heq⟩ := (keyToPath_eq_ok_iff _ _ _).mp hk'
    exact pathOf_injective hsafe hsafe' hmark hmark' heq
  · have hmirror : Mirrors (run b World.empty calls) := run_mirrors b calls hfits
    intro lead hlead hwhole
    generalize run b World.empty calls = w at hmirror hwhole ⊢
    obtain ⟨disk, stored⟩ := w
    obtain ⟨hnodup, hmem⟩ := hmirror.listed hlead hwhole
    obtain ⟨hremoved, -, hcount⟩ := hmirror.removePrefix b hlead hwhole
    refine ⟨⟨_, ?_, hnodup, hmem⟩, ?_, ?_⟩
    · unfold FilesystemStorageBackend.listKeys
      rw [(prefixToDir_eq_ok_iff _ _ _).mpr ⟨hlead, rfl⟩]
      rfl
    · intro k hk
      have hleft := hremoved.files k hk
      dsimp only at hleft
      rw [hleft, lookup_retain]
      by_cases hstarts : Texts.startsWith k lead = true
      · rw [if_pos hstarts, hstarts]
        cases stored.lookup k <;> rfl
      · rw [if_neg hstarts, Bool.eq_false_iff.mpr hstarts]
        cases stored.lookup k <;> rfl
    · intro count hok
      rw [hcount count hok, hmirror.length_walk hlead hwhole]

section Samples

def sampleBackend : FilesystemStorageBackend := ⟨"/srv", id, fun _ => "hash"⟩

/-- An upload that is promoted, an overwrite, and a deletion. -/
def sampleCalls : List Call :=
  [.storeStreaming "u1" "staging:7/artifact:npm/a/1.0" [[1], [2]] none,
    .moveKey "staging:7/artifact:npm/a/1.0" "artifact:npm/a/1.0",
    .store "u2" "artifact:npm/b/1.0" [3], .store "u3" "artifact:npm/b/1.0" [4],
    .store "u4" "artifact:cargo/c" [5], .store "u5" "artifact:cargo/d" [6],
    .delete "artifact:cargo/d"]

theorem plain_keys_keep_the_key_contract :
    Runs.Guarded (step sampleBackend) Fits World.empty sampleCalls ∧
      WholeSegments (run sampleBackend World.empty sampleCalls).stored "artifact:npm/" ∧
      (sampleBackend.deleteByPrefix (run sampleBackend World.empty sampleCalls).disk
        "artifact:npm/").2.files.lookup (pathOf "artifact:cargo/c") = some [5] := by
  have hfits : Runs.Guarded (step sampleBackend) Fits World.empty sampleCalls :=
    ⟨by decide +kernel, by decide +kernel, by decide +kernel, by decide +kernel, by decide +kernel,
      by decide +kernel, by decide +kernel, trivial⟩
  have hwhole : WholeSegments (run sampleBackend World.empty sampleCalls).stored "artifact:npm/" := by
    decide +kernel
  have hremoved := ((prefix_calls_keep_the_key_contract sampleBackend sampleCalls hfits).2
    "artifact:npm/" (by decide +kernel) hwhole).2.1 "artifact:cargo/c" (by decide +kernel)
  refine ⟨hfits, hwhole, hremoved.trans ?_⟩
  decide +kernel

/-- Two accepted keys share a path; a key comes back with another spelling; a prefix that
ends inside a segment finds nothing and removes nothing. -/
theorem accepted_keys_break_the_key_contract :
    keyToPath id "a:b" = keyToPath id "a__b" ∧
    (∃ path, keyToPath id "a:b" = .ok path) ∧
    sampleBackend.listKeys (run sampleBackend World.empty [.store "u" "a__b/c" [1]]).disk "a__b/" =
      .ok ["a:b/c"] ∧
    "artifact:npm/x" ∈ (run sampleBackend World.empty [.store "u" "artifact:npm/x" [1]]).stored ∧
    sampleBackend.listKeys (run sampleBackend World.empty [.store "u" "artifact:npm/x" [1]]).disk
      "artifact:" = .ok [] ∧
    (sampleBackend.deleteByPrefix
      (run sampleBackend World.empty [.store "u" "artifact:npm/x" [1]]).disk
      "artifact:").2.files.lookup (pathOf "artifact:npm/x") = some [1] := by
  refine ⟨by decide +kernel, ⟨pathOf "a:b", by decide +kernel⟩, ?_, ?_, ?_, ?_⟩ <;> decide +kernel

end Samples

end BatleHub.FilesystemStorage
