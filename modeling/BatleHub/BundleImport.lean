import BatleHub.Bundles
import BatleHub.Lib.Fallible
import BatleHub.Lib.Framing
import Mathlib.Data.List.Dedup

/-!
What an import verifies is what it imports. A bundle that is read has one manifest and
one signature, the manifest is the one whose bytes the signature check is given, and a
blob is kept under its own digest. A bundle that was written is read back.
-/
namespace BatleHub.Bundles

open Lib AssocMap

section Reading
variable (lib : SerdeJson) (sha256Hex : Bytes → String)

/-- What the readable members of one name hold. -/
def contentsOf (name : String) (entries : List (Except String Member)) : List Bytes :=
  entries.filterMap fun entry =>
    match entry with
    | .ok ⟨.ok path, .ok bytes⟩ => if normalise path = name then some bytes else none
    | _ => none

theorem contentsOf_cons (name path : String) (bytes : Bytes)
    (entries : List (Except String Member)) :
    contentsOf name (.ok ⟨.ok path, .ok bytes⟩ :: entries) =
      (if normalise path = name then [bytes] else []) ++ contentsOf name entries := by
  unfold contentsOf
  rw [List.filterMap_cons]
  dsimp only
  split_ifs <;> rfl

theorem readMembers_readable (path : String) (bytes : Bytes)
    (rest : List (Except String Member)) (r : Reading) :
    readMembers sha256Hex (.ok ⟨.ok path, .ok bytes⟩ :: rest) r =
      readMember sha256Hex (normalise path) bytes r >>= readMembers sha256Hex rest :=
  rfl

/-- A step that succeeds read one member. -/
theorem readMembers_cons {entry : Except String Member} {rest : List (Except String Member)}
    {r r' : Reading} (h : readMembers sha256Hex (entry :: rest) r = .ok r') :
    ∃ path bytes r₁, entry = .ok ⟨.ok path, .ok bytes⟩ ∧
      readMember sha256Hex (normalise path) bytes r = .ok r₁ ∧
      readMembers sha256Hex rest r₁ = .ok r' := by
  unfold readMembers at h
  simp only [Fallible.bind_eq_ok_iff] at h
  obtain ⟨⟨p, c⟩, hentry, path, hpath, bytes, hbytes, r₁, hr₁, hrest⟩ := h
  rw [io, Fallible.mapError_eq_ok_iff] at hentry hpath hbytes
  dsimp only at hpath hbytes
  subst hentry hpath hbytes
  exact ⟨path, bytes, r₁, rfl, hr₁, hrest⟩

/-- A blob that is kept hashes to the digest it is stored under. -/
def Kept (r : Reading) : Prop := ∀ d b, r.blobs.lookup d = some b → sha256Hex b = d

theorem kept_acceptBlob {r : Reading} (h : Kept sha256Hex r) (name path : String) (bytes : Bytes) :
    Kept sha256Hex (acceptBlob sha256Hex name path bytes r) := by
  unfold acceptBlob
  split_ifs with hname hhash
  · exact h
  · intro d b hlookup
    rw [lookup_insert_eq] at hlookup
    split_ifs at hlookup with hd
    · rw [hd, ← Option.some.inj hlookup]
      exact hhash
    · exact h d b hlookup
  · exact h

/-- One member: the manifest and the signature are taken once, and blobs are kept. -/
theorem readMember_spec {path : String} {bytes : Bytes} {r r' : Reading}
    (h : readMember sha256Hex path bytes r = .ok r') :
    r'.manifestBytes.toList =
        r.manifestBytes.toList ++ (if path = MANIFEST_PATH then [bytes] else []) ∧
      r'.signature.toList =
        r.signature.toList ++ (if path = SIGNATURE_PATH then [bytes] else []) ∧
      (Kept sha256Hex r → Kept sha256Hex r') := by
  have hdistinct : MANIFEST_PATH ≠ SIGNATURE_PATH := by decide
  unfold readMember at h
  split_ifs at h with hmanifest hsome hsignature hsome
  · obtain rfl := Except.ok.inj h
    have hnone : r.manifestBytes = none := by simpa using hsome
    rw [if_pos hmanifest, if_neg (by rw [hmanifest]; exact hdistinct), hnone, List.append_nil]
    exact ⟨rfl, rfl, id⟩
  · obtain rfl := Except.ok.inj h
    have hnone : r.signature = none := by simpa using hsome
    rw [if_neg hmanifest, if_pos hsignature, hnone, List.append_nil]
    exact ⟨rfl, rfl, id⟩
  · rw [if_neg hmanifest, if_neg hsignature, List.append_nil, List.append_nil]
    cases hblob : Texts.stripPrefix path BLOB_PREFIX with
    | none =>
      rw [hblob] at h
      obtain rfl := Except.ok.inj h
      exact ⟨rfl, rfl, id⟩
    | some name =>
      rw [hblob] at h
      obtain rfl := Except.ok.inj h
      refine ⟨?_, ?_, fun hkept => kept_acceptBlob sha256Hex hkept name path bytes⟩
      · unfold acceptBlob
        split_ifs <;> rfl
      · unfold acceptBlob
        split_ifs <;> rfl

/-- The run over the members. -/
theorem readMembers_spec (entries : List (Except String Member)) {r r' : Reading}
    (h : readMembers sha256Hex entries r = .ok r') :
    r'.manifestBytes.toList = r.manifestBytes.toList ++ contentsOf MANIFEST_PATH entries ∧
      r'.signature.toList = r.signature.toList ++ contentsOf SIGNATURE_PATH entries ∧
      (Kept sha256Hex r → Kept sha256Hex r') := by
  induction entries generalizing r with
  | nil =>
    obtain rfl := Except.ok.inj h
    exact ⟨(List.append_nil _).symm, (List.append_nil _).symm, id⟩
  | cons entry rest ih =>
    obtain ⟨path, bytes, r₁, rfl, hmember, hrest⟩ := readMembers_cons sha256Hex h
    obtain ⟨hmanifest, hsignature, hkept⟩ := readMember_spec sha256Hex hmember
    obtain ⟨hmanifest', hsignature', hkept'⟩ := ih hrest
    rw [contentsOf_cons, contentsOf_cons, ← List.append_assoc, ← List.append_assoc, ← hmanifest,
      ← hsignature]
    exact ⟨hmanifest', hsignature', fun h => hkept' (hkept h)⟩

/-- Where every member can be read, the first manifest is the one found for the check. -/
theorem firstManifest_eq_ok (entries : List (Except String Member)) {r r' : Reading}
    (h : readMembers sha256Hex entries r = .ok r') {bytes : Bytes} {more : List Bytes}
    (hfirst : contentsOf MANIFEST_PATH entries = bytes :: more) :
    firstManifest entries = .ok bytes := by
  induction entries generalizing r with
  | nil => cases hfirst
  | cons entry rest ih =>
    obtain ⟨path, content, r₁, rfl, -, hrest⟩ := readMembers_cons sha256Hex h
    rw [contentsOf_cons] at hfirst
    show (if normalise path = MANIFEST_PATH then _ else firstManifest rest) = _
    split_ifs at hfirst ⊢ with hpath
    · rw [List.singleton_append, List.cons.injEq] at hfirst
      rw [hfirst.1]
      rfl
    · exact ih hrest hfirst

theorem toList_eq_of_some {α : Type} {o : Option α} {a : α} {l : List α}
    (h : o.toList = [] ++ l) (ho : o = some a) : l = [a] := by
  rw [ho] at h
  exact h.symm

/-- What a reading that succeeds has read. -/
theorem readBundle_spec {input : Archive} {read : ReadBundle}
    (h : readBundle lib sha256Hex input = .ok read) :
    ∃ entries bytes, input = .ok entries ∧ contentsOf MANIFEST_PATH entries = [bytes] ∧
      contentsOf SIGNATURE_PATH entries = [read.signature] ∧
      manifestBytesOf input = .ok bytes ∧ lib.fromSlice bytes = .ok read.manifest ∧
      ∀ d b, read.blobs.lookup d = some b → sha256Hex b = d := by
  unfold readBundle at h
  simp only [Fallible.bind_eq_ok_iff, Fallible.mapError_eq_ok_iff, Fallible.elim_eq_ok_iff, io]
    at h
  obtain ⟨entries, rfl, r, hr, bytes, hbytes, manifest, hmanifest, -, -, signature, hsignature,
    hread⟩ := h
  obtain rfl := Except.ok.inj hread
  obtain ⟨hone, hsig, hkept⟩ := readMembers_spec sha256Hex entries hr
  have hbytes' := toList_eq_of_some hone hbytes
  refine ⟨entries, bytes, rfl, hbytes', toList_eq_of_some hsig hsignature, ?_, hmanifest, ?_⟩
  · exact firstManifest_eq_ok sha256Hex entries hr hbytes'
  · refine hkept ?_
    intro d b hlookup
    cases hlookup

end Reading

section Writing
variable (lib : SerdeJson) (sha256Hex : Bytes → String)

theorem isSha256Hex_of_validate {m : BundleManifest} (h : m.validate = .ok ()) :
    ∀ d ∈ m.digests, isSha256Hex d = true := by
  unfold BundleManifest.validate at h
  split_ifs at h
  unfold BundleManifest.digests
  rw [List.forM_eq_forM] at h
  generalize m.entries = entries at h ⊢
  induction entries with
  | nil => nofun
  | cons entry rest ih =>
    rw [List.forM_cons, Fallible.bind_eq_ok_iff] at h
    obtain ⟨_, hentry, hrest⟩ := h
    intro d hd
    rcases List.mem_cons.mp hd with rfl | hmem
    · unfold BundleEntry.validate at hentry
      split_ifs at hentry with hhex
      simpa using hhex
    · exact ih hrest d hmem

theorem normalise_eq_self {path : String} (h : Char.ofNat 92 ∉ path.toList) :
    normalise path = path := by
  apply String.toList_inj.mp
  unfold normalise
  rw [String.toList_ofList]
  refine (List.map_congr_left ?_).trans (List.map_id _)
  intro c hc
  rw [if_neg]
  · rfl
  · rintro rfl
    exact h hc

/-- A member written for a digest. -/
def blobPath (digest : String) : String := BLOB_PREFIX ++ digest

theorem normalise_blobPath {digest : String} (h : isSha256Hex digest = true) :
    normalise (blobPath digest) = blobPath digest := by
  apply normalise_eq_self
  rw [blobPath, String.toList_append, List.mem_append, not_or]
  refine ⟨by decide, ?_⟩
  intro hmem
  have hhex := List.all_eq_true.mp (Bool.and_eq_true_iff.mp h).2 _ hmem
  exact absurd hhex (by decide)

theorem readMember_manifest (bytes : Bytes) {r : Reading} (h : r.manifestBytes = none) :
    readMember sha256Hex MANIFEST_PATH bytes r = .ok { r with manifestBytes := some bytes } := by
  unfold readMember
  rw [if_pos rfl, h]
  rfl

theorem readMember_signature (bytes : Bytes) {r : Reading} (h : r.signature = none) :
    readMember sha256Hex SIGNATURE_PATH bytes r = .ok { r with signature := some bytes } := by
  unfold readMember
  rw [if_neg (by decide), if_pos rfl, h]
  rfl

theorem readMember_blobPath (digest : String) (bytes : Bytes) (r : Reading) :
    readMember sha256Hex (blobPath digest) bytes r =
      .ok (acceptBlob sha256Hex digest (blobPath digest) bytes r) := by
  have hne : ∀ name : String, ¬ BLOB_PREFIX.toList <+: name.toList → blobPath digest ≠ name := by
    rintro name hlead rfl
    rw [blobPath, String.toList_append] at hlead
    exact hlead (List.prefix_append _ _)
  unfold readMember
  rw [if_neg (hne MANIFEST_PATH (by decide)), if_neg (hne SIGNATURE_PATH (by decide)), blobPath,
    Texts.stripPrefix_append]

/-- The bytes supplied for a digest, where they hash to it. -/
def honest (blobs : String → Option Bytes) (digest : String) : Option Bytes :=
  (blobs digest).filter fun bytes => decide (sha256Hex bytes = digest)

/-- Bytes were supplied for the digest that do not hash to it. -/
def dishonest (blobs : String → Option Bytes) (digest : String) : Bool :=
  (blobs digest).any fun bytes => decide (sha256Hex bytes ≠ digest)

def blobMembers (blobs : String → Option Bytes) (digests : List String) : List (String × Bytes) :=
  digests.filterMap fun digest => (blobs digest).map fun bytes => (blobPath digest, bytes)

/-- A blob is kept under its digest if it is the digest's, and rejected otherwise. -/
theorem acceptBlob_supplied {blobs : String → Option Bytes} {digest : String} {bytes : Bytes}
    (hdigest : isSha256Hex digest = true) (hblob : blobs digest = some bytes) (r : Reading) :
    (acceptBlob sha256Hex digest (blobPath digest) bytes r).manifestBytes = r.manifestBytes ∧
      (acceptBlob sha256Hex digest (blobPath digest) bytes r).signature = r.signature ∧
      (∀ d, (acceptBlob sha256Hex digest (blobPath digest) bytes r).blobs.lookup d =
        (if d = digest then honest sha256Hex blobs d else none).or (r.blobs.lookup d)) ∧
      (acceptBlob sha256Hex digest (blobPath digest) bytes r).rejected =
        r.rejected ++ [digest].filter (dishonest sha256Hex blobs) := by
  unfold acceptBlob
  rw [hdigest, if_neg (by nofun)]
  by_cases hhash : sha256Hex bytes = digest
  · have hhonest : honest sha256Hex blobs digest = some bytes := by
      unfold honest
      rw [hblob, Option.filter_some, decide_eq_true hhash, if_pos rfl]
    have hnot : dishonest sha256Hex blobs digest = false := by
      unfold dishonest
      rw [hblob]
      exact decide_eq_false (not_not_intro hhash)
    rw [if_pos hhash, List.filter_cons, hnot]
    refine ⟨rfl, rfl, fun d => ?_, (List.append_nil _).symm⟩
    show (r.blobs.insert digest bytes).lookup d = _
    rw [lookup_insert_eq]
    split_ifs with hd
    · rw [hd, hhonest]
      rfl
    · rfl
  · have hhonest : honest sha256Hex blobs digest = none := by
      unfold honest
      rw [hblob, Option.filter_some, decide_eq_false hhash]
      rfl
    have hnot : dishonest sha256Hex blobs digest = true := by
      unfold dishonest
      rw [hblob]
      exact decide_eq_true hhash
    rw [if_neg hhash, List.filter_cons, hnot]
    refine ⟨rfl, rfl, fun d => ?_, rfl⟩
    split_ifs with hd
    · rw [hd, hhonest]
      rfl
    · rfl

/-- The members of the blobs, read after others. -/
theorem readMembers_blobMembers (blobs : String → Option Bytes) (digests : List String)
    (hhex : ∀ d ∈ digests, isSha256Hex d = true) (r : Reading) :
    ∃ r', readMembers sha256Hex
        ((blobMembers blobs digests).map fun e => .ok ⟨.ok e.1, .ok e.2⟩) r = .ok r' ∧
      r'.manifestBytes = r.manifestBytes ∧ r'.signature = r.signature ∧
      (∀ d, r'.blobs.lookup d =
        (if d ∈ digests then honest sha256Hex blobs d else none).or (r.blobs.lookup d)) ∧
      r'.rejected = r.rejected ++ digests.filter (dishonest sha256Hex blobs) := by
  induction digests generalizing r with
  | nil =>
    refine ⟨r, rfl, rfl, rfl, ?_, (List.append_nil _).symm⟩
    intro d
    rfl
  | cons digest rest ih =>
    have hrest : ∀ d ∈ rest, isSha256Hex d = true :=
      fun d hd => hhex d (List.mem_cons_of_mem digest hd)
    have hdigest := hhex digest List.mem_cons_self
    cases hblob : blobs digest with
    | none =>
      obtain ⟨r', hread, hmanifest, hsignature, hlookup, hrejected⟩ := ih hrest r
      have hmembers : blobMembers blobs (digest :: rest) = blobMembers blobs rest := by
        unfold blobMembers
        rw [List.filterMap_cons, hblob]
        rfl
      rw [hmembers]
      refine ⟨r', hread, hmanifest, hsignature, ?_, ?_⟩
      · intro d
        rw [hlookup]
        by_cases hd : d = digest
        · subst hd
          have hnone : honest sha256Hex blobs d = none := by
            unfold honest
            rw [hblob]
            rfl
          rw [hnone, ite_self, ite_self]
        · simp only [List.mem_cons, hd, false_or]
      · have hnone : dishonest sha256Hex blobs digest = false := by
          unfold dishonest
          rw [hblob]
          rfl
        rw [hrejected, List.filter_cons, hnone]
        rfl
    | some bytes =>
      obtain ⟨r', hread, hmanifest, hsignature, hlookup, hrejected⟩ :=
        ih hrest (acceptBlob sha256Hex digest (blobPath digest) bytes r)
      obtain ⟨hmanifest₀, hsignature₀, hlookup₀, hrejected₀⟩ :=
        acceptBlob_supplied sha256Hex hdigest hblob r
      have hmembers : blobMembers blobs (digest :: rest) =
          (blobPath digest, bytes) :: blobMembers blobs rest := by
        unfold blobMembers
        rw [List.filterMap_cons, hblob]
        rfl
      have hstep : readMembers sha256Hex ((blobMembers blobs (digest :: rest)).map
          fun e => .ok ⟨.ok e.1, .ok e.2⟩) r = .ok r' := by
        rw [hmembers, List.map_cons, ← hread, readMembers_readable, normalise_blobPath hdigest,
          readMember_blobPath]
        rfl
      refine ⟨r', hstep, hmanifest.trans hmanifest₀, hsignature.trans hsignature₀, ?_, ?_⟩
      · intro d
        rw [hlookup, hlookup₀]
        by_cases hd : d = digest
        · have hmem : d ∈ digest :: rest := by
            rw [hd]
            exact List.mem_cons_self
          rw [if_pos hd, if_pos hmem, ← Option.or_assoc]
          congr 1
          split_ifs
          · exact Option.or_self
          · rfl
        · simp only [List.mem_cons, hd, false_or, if_false, Option.none_or]
      · rw [hrejected, hrejected₀, List.append_assoc, ← List.filter_append, List.singleton_append]

theorem mem_blobs_iff (m : BundleManifest) (d : String) :
    d ∈ m.blobs.map Prod.fst ↔ d ∈ m.digests := by
  unfold BundleManifest.blobs
  rw [List.map_map]
  show d ∈ List.map id _ ↔ _
  rw [List.map_id, List.mem_insertionSort, List.mem_dedup]

/-- A bundle that was written is read back: the manifest, the signature, the blobs that
hash to their digest, and in the rejected list the digests of the others. -/
theorem readBundle_writeBundle {m : BundleManifest} (hvalid : m.validate = .ok ())
    {bytes : Bytes} (hbytes : lib.toVecPretty m = .ok bytes) (signature : Bytes)
    (blobs : String → Option Bytes) :
    ∃ members written read, writeBundle lib m signature blobs = .ok (members, written) ∧
      readBundle lib sha256Hex (framed members) = .ok read ∧ read.manifest = m ∧
      read.signature = signature ∧
      (∀ d, read.blobs.lookup d =
        if d ∈ m.digests then honest sha256Hex blobs d else none) ∧
      read.rejected = (m.blobs.map Prod.fst).filter (dishonest sha256Hex blobs) := by
  have hhex : ∀ d ∈ m.blobs.map Prod.fst, isSha256Hex d = true := by
    intro d hd
    exact isSha256Hex_of_validate hvalid d ((mem_blobs_iff m d).mp hd)
  obtain ⟨r, hread, hmanifest, hsignature, hlookup, hrejected⟩ :=
    readMembers_blobMembers sha256Hex blobs (m.blobs.map Prod.fst) hhex
      { Reading.empty with manifestBytes := some bytes, signature := some signature }
  have hwritten : m.blobs.filterMap (fun e => (blobs e.1).map fun bytes => (BLOB_PREFIX ++ e.1, bytes)) =
      blobMembers blobs (m.blobs.map Prod.fst) := by
    unfold blobMembers
    rw [List.filterMap_map]
    rfl
  have hwrite : writeBundle lib m signature blobs = .ok
      ((MANIFEST_PATH, bytes) :: (SIGNATURE_PATH, signature) ::
        blobMembers blobs (m.blobs.map Prod.fst),
        (blobMembers blobs (m.blobs.map Prod.fst)).length) := by
    unfold writeBundle toSignedBytes
    rw [hbytes, ← hwritten]
    rfl
  have hall : readMembers sha256Hex (((MANIFEST_PATH, bytes) :: (SIGNATURE_PATH, signature) ::
      blobMembers blobs (m.blobs.map Prod.fst)).map fun e => .ok ⟨.ok e.1, .ok e.2⟩) .empty =
      .ok r := by
    have hnormal : ∀ path : String, Char.ofNat 92 ∉ path.toList → normalise path = path :=
      fun _ => normalise_eq_self
    rw [← hread, List.map_cons, List.map_cons, readMembers_readable,
      hnormal MANIFEST_PATH (by decide), readMember_manifest sha256Hex bytes rfl]
    show readMembers sha256Hex _ _ = _
    rw [readMembers_readable, hnormal SIGNATURE_PATH (by decide),
      readMember_signature sha256Hex signature rfl]
    rfl
  refine ⟨_, _, ⟨m, signature, r.blobs, r.rejected⟩, hwrite, ?_, rfl, rfl, ?_, ?_⟩
  · unfold readBundle framed
    simp only [Fallible.bind_eq_ok_iff, Fallible.mapError_eq_ok_iff, Fallible.elim_eq_ok_iff, io]
    exact ⟨_, rfl, r, hall, bytes, hmanifest, m, lib.fromSlice_toVecPretty m bytes hvalid hbytes,
      (), hvalid, signature, hsignature, rfl⟩
  · intro d
    dsimp only
    rw [hlookup]
    simp only [mem_blobs_iff]
    exact Option.or_none
  · exact hrejected

/-- What an import verifies is what it imports, and what is written is read back. -/
theorem import_is_what_is_verified :
    (∀ input read, readBundle lib sha256Hex input = .ok read →
      ∃ entries bytes, input = .ok entries ∧ contentsOf MANIFEST_PATH entries = [bytes] ∧
        contentsOf SIGNATURE_PATH entries = [read.signature] ∧
        manifestBytesOf input = .ok bytes ∧ lib.fromSlice bytes = .ok read.manifest ∧
        ∀ d b, read.blobs.lookup d = some b → sha256Hex b = d) ∧
    ∀ m signature blobs bytes, m.validate = .ok () → lib.toVecPretty m = .ok bytes →
      ∃ members written read, writeBundle lib m signature blobs = .ok (members, written) ∧
        readBundle lib sha256Hex (framed members) = .ok read ∧ read.manifest = m ∧
        read.signature = signature ∧
        (∀ d, read.blobs.lookup d =
          if d ∈ m.digests then honest sha256Hex blobs d else none) ∧
        read.rejected = (m.blobs.map Prod.fst).filter (dishonest sha256Hex blobs) :=
  ⟨fun _ _ h => readBundle_spec lib sha256Hex h,
    fun _ signature blobs _ hvalid hbytes =>
      readBundle_writeBundle lib sha256Hex hvalid hbytes signature blobs⟩

end Writing

section Samples

def one : Bytes := [111, 110, 101]
def two : Bytes := [116, 119, 111]

def digestOfOne : String := "7692c3ad3540bb803c020b3aee66cd8887123234ea0c6e7143c0add73ff431ed"

/-- SHA-256 on the two texts. -/
def sampleHash (bytes : Bytes) : String :=
  if bytes = one then digestOfOne
  else if bytes = two then "3fc4ccfe745870e2c0d99f71f30ff0656c8dedd41cc1d7d3d376b0dbe685e2f3"
  else ""

def sampleManifest : BundleManifest :=
  ⟨1, "b1", 0, none,
    [⟨"gh", "gh/one", digestOfOne, 3, none, none, none, [], none, none, none⟩]⟩

def sampleText : String :=
  "\x7b\n  \x22bundle_version\x22: 1,\n  \x22bundle_id\x22: \x22b1\x22,\n" ++
  "  \x22created_at\x22: \x221970-01-01T00:00:00Z\x22,\n  \x22entries\x22: [\n    \x7b\n" ++
  "      \x22registry\x22: \x22gh\x22,\n      \x22key\x22: \x22gh/one\x22,\n" ++
  "      \x22digest\x22: \x22" ++ digestOfOne ++ "\x22,\n      \x22size\x22: 3\n" ++
  "    \x7d\n  ]\n\x7d"

/-- The library on the one manifest. -/
def sampleSerde : SerdeJson where
  toVecPretty m :=
    match m with
    | ⟨1, "b1", 0, none, [⟨"gh", "gh/one", digest, 3, none, none, none, [], none, none, none⟩]⟩ =>
      if digest = digestOfOne then .ok (Framing.utf8 sampleText) else .error ""
    | _ => .error ""
  fromSlice bytes := if bytes = Framing.utf8 sampleText then .ok sampleManifest else .error ""
  fromSlice_toVecPretty := by
    intro m bytes _ h
    split at h
    · split_ifs at h with hdigest
      rw [← Except.ok.inj h, if_pos rfl, hdigest]
      rfl
    · cases h

theorem sample_bundle_is_read_back :
    ∃ members written read entries,
      writeBundle sampleSerde sampleManifest [7] (fun _ => some one) = .ok (members, written) ∧
      readBundle sampleSerde sampleHash (framed members) = .ok read ∧
      read.blobs.lookup digestOfOne = some one ∧ read.rejected = [] ∧
      framed members = .ok entries ∧ contentsOf SIGNATURE_PATH entries = [read.signature] ∧
      sampleHash one = digestOfOne := by
  obtain ⟨hreads, hwrites⟩ := import_is_what_is_verified sampleSerde sampleHash
  obtain ⟨members, written, read, hwrite, hread, -, -, hblobs, hrejected⟩ :=
    hwrites sampleManifest [7] (fun _ => some one) (Framing.utf8 sampleText) (by decide) rfl
  obtain ⟨entries, -, hentries, -, hsignature, -, -, hverified⟩ := hreads _ read hread
  have hone : read.blobs.lookup digestOfOne = some one := by
    rw [hblobs]
    decide
  refine ⟨members, written, read, entries, hwrite, hread, hone, ?_, hentries, hsignature,
    hverified _ _ hone⟩
  rw [hrejected]
  decide

/-- The writer is handed other bytes for the digest: the reader rejects them. -/
theorem supplied_blob_is_rejected :
    sampleManifest.validate = .ok () ∧
    ∃ members written read,
      writeBundle sampleSerde sampleManifest [7] (fun _ => some two) = .ok (members, written) ∧
      readBundle sampleSerde sampleHash (framed members) = .ok read ∧
      read.blobs.lookup digestOfOne ≠ some two ∧ read.rejected = [digestOfOne] := by
  have hvalid : sampleManifest.validate = .ok () := by decide
  have hbytes : sampleSerde.toVecPretty sampleManifest = .ok (Framing.utf8 sampleText) := rfl
  obtain ⟨members, written, read, hwrite, hread, -, -, hblobs, hrejected⟩ :=
    readBundle_writeBundle sampleSerde sampleHash hvalid hbytes [7] (fun _ => some two)
  refine ⟨hvalid, members, written, read, hwrite, hread, ?_, ?_⟩
  · rw [hblobs]
    decide
  · rw [hrejected]
    decide

end Samples

end BatleHub.Bundles
