import BatleHub.Integrity
import BatleHub.Lib.Fallible
import BatleHub.Lib.Joins
import BatleHub.Lib.Segments
import BatleHub.PublishProtocol
import BatleHub.StorageKeys

/-!
The storage keys of one version (`local_registry/mod`, `local_registry/lifecycle`). A
version has a key of its own, two beside it and, for some kinds, all keys under it. What a
publish accepts cuts a key in one place, so the keys of two versions are never the same.
-/
namespace BatleHub.VersionKeys

open FilesystemStorage (validatePackageName validatePathSafe checkDecodedRounds rejectTraversal)
open Lib
open PublishProtocol

section Coordinates

/-- `str::ends_with`. -/
def endsWith (s tail : String) : Bool := tail.toList.isSuffixOf s.toList

def validatePublishCoordinate (name version : String) : Except CoreError Unit := do
  validatePackageName name
  validatePathSafe "version" version
  match versionSiblingSuffixes.find? (endsWith (Integrity.toAsciiLowercase version)) with
  | some suffix =>
    .error (.invalidInput ("version '" ++ version ++ "' must not end in '" ++ suffix ++
      "': that suffix names the signature stored beside another version"))
  | none => .ok ()

def Single (part : String) : Prop := '/' ∉ part.toList

instance (part : String) : Decidable (Single part) :=
  inferInstanceAs (Decidable ('/' ∉ part.toList))

/-- The names of modules and of providers. -/
inductive TerraformName : String → Prop where
  | module (ns name provider : String) : Single ns → Single name → Single provider →
      TerraformName ("modules/" ++ ns ++ "/" ++ name ++ "/" ++ provider)
  | provider (ns ptype : String) : Single ns → Single ptype →
      TerraformName ("providers/" ++ ns ++ "/" ++ ptype)

/-- The names of the kinds that store files under a version. -/
def NameShape : RegistryKind → String → Prop
  | .maven, name => Single name
  | .nix, name => Single name
  | .terraform, name => TerraformName name
  | _, _ => True

/-- A coordinate that a publish to a registry of the kind accepts. -/
structure Coordinate (kind : RegistryKind) where
  name : String
  version : String
  accepted : validatePublishCoordinate name version = .ok ()
  shape : NameShape kind name

/-- What of the key stands behind the name. -/
inductive Tail (kind : RegistryKind) (version : List Char) : List Char → Prop where
  | artifact : Tail kind version version
  | sibling (suffix : String) : suffix ∈ versionSiblingSuffixes →
      Tail kind version (version ++ suffix.toList)
  | under (rest : List Char) : storesFilesUnderVersion kind = true →
      Tail kind version (version ++ '/' :: rest)

/-- A key of a version: its artifact, a signature beside it or, for the kinds that store
files under a version, anything under it. -/
def Owns {kind : RegistryKind} (registry : String) (c : Coordinate kind) (key : String) : Prop :=
  key = artifactStorageKey registry c.name c.version ∨
    (∃ suffix ∈ versionSiblingSuffixes,
      key = artifactStorageKey registry c.name c.version ++ suffix) ∨
    (storesFilesUnderVersion kind = true ∧
      ∃ rest, key = artifactStorageKey registry c.name c.version ++ "/" ++ rest)

theorem reject_of_validatePathSafe {kind value : String}
    (h : validatePathSafe kind value = .ok ()) :
    rejectTraversal kind value value.toList = .ok () := by
  unfold validatePathSafe at h
  split_ifs at h with hempty hslash
  unfold FilesystemStorage.MAX_PERCENT_DECODE_ROUNDS at h
  rw [checkDecodedRounds] at h
  obtain ⟨⟨⟩, hreject, -⟩ := (Fallible.bind_eq_ok_iff _ _ _).mp h
  exact hreject

theorem slash_notMem_version {version : String}
    (h : validatePathSafe "version" version = .ok ()) :
    '/' ∉ version.toList := by
  have hround := reject_of_validatePathSafe h
  unfold rejectTraversal at hround
  dsimp only at hround
  split_ifs at hround with hillegal hdots hsegments hversion
  exact fun hmem => hversion ⟨rfl, hmem⟩

theorem validatePublishCoordinate_spec {name version : String}
    (h : validatePublishCoordinate name version = .ok ()) :
    '/' ∉ version.toList ∧
      ∀ suffix ∈ versionSiblingSuffixes, ¬ suffix.toList <:+ version.toList := by
  unfold validatePublishCoordinate at h
  obtain ⟨⟨⟩, -, hrest⟩ := (Fallible.bind_eq_ok_iff _ _ _).mp h
  obtain ⟨⟨⟩, hversion, hsuffixes⟩ := (Fallible.bind_eq_ok_iff _ _ _).mp hrest
  refine ⟨slash_notMem_version hversion, ?_⟩
  intro suffix hsuffix hends
  rcases hfind : versionSiblingSuffixes.find?
      (endsWith (Integrity.toAsciiLowercase version)) with _ | found
  · have hnot := List.find?_eq_none.mp hfind suffix hsuffix
    apply hnot
    have hlower : suffix.toList.map Char.toLower = suffix.toList := by
      simp only [versionSiblingSuffixes, List.mem_cons, List.not_mem_nil, or_false] at hsuffix
      rcases hsuffix with rfl | rfl <;> decide
    unfold endsWith Integrity.toAsciiLowercase
    rw [List.isSuffixOf_iff_suffix, String.toList_ofList, ← hlower]
    exact hends.map Char.toLower
  · rw [hfind] at hsuffixes
    exact absurd hsuffixes (by simp)

end Coordinates

section Cuts

theorem suffix_chars {suffix : String} (h : suffix ∈ versionSiblingSuffixes) :
    '/' ∉ suffix.toList := by
  simp only [versionSiblingSuffixes, List.mem_cons, List.not_mem_nil, or_false] at h
  rcases h with rfl | rfl <;> decide

/-- A version that is no sibling of another one. -/
structure PlainVersion (version : List Char) : Prop where
  slash : '/' ∉ version
  suffix : ∀ suffix ∈ versionSiblingSuffixes, ¬ suffix.toList <:+ version

theorem Coordinate.plain {kind : RegistryKind} (c : Coordinate kind) :
    PlainVersion c.version.toList :=
  ⟨(validatePublishCoordinate_spec c.accepted).1, (validatePublishCoordinate_spec c.accepted).2⟩

/-- Two different suffixes end in different characters. -/
theorem eq_of_append_suffix {v w : List Char} {suffix suffix' : String}
    (hs : suffix ∈ versionSiblingSuffixes) (hs' : suffix' ∈ versionSiblingSuffixes)
    (h : v ++ suffix.toList = w ++ suffix'.toList) : v = w := by
  have hlast : suffix.toList.getLast? = suffix'.toList.getLast? := by
    have hne : ∀ t ∈ versionSiblingSuffixes, t.toList ≠ [] := by decide
    have hends := congrArg List.getLast? h
    rwa [List.getLast?_append_of_ne_nil _ (hne _ hs),
      List.getLast?_append_of_ne_nil _ (hne _ hs')] at hends
  have hinj : ∀ t ∈ versionSiblingSuffixes, ∀ t' ∈ versionSiblingSuffixes,
      t.toList.getLast? = t'.toList.getLast? → t = t' := by decide
  rw [hinj _ hs _ hs' hlast] at h
  exact List.append_cancel_right h

/-- What stands behind the name says the version. -/
theorem Tail.version_eq {kind : RegistryKind} {v w t : List Char} (hv : PlainVersion v)
    (hw : PlainVersion w) (h : Tail kind v t) (h' : Tail kind w t) : v = w := by
  have hunder : ∀ {x y rest : List Char}, PlainVersion x → PlainVersion y →
      Tail kind y (x ++ '/' :: rest) → x = y := by
    intro x y rest hx hy htail
    generalize ht : x ++ '/' :: rest = t at htail
    cases htail with
    | artifact =>
      exfalso
      apply hy.slash
      rw [← ht]
      simp
    | sibling suffix hs =>
      exfalso
      have hmem : '/' ∈ y ++ suffix.toList := by
        rw [← ht]
        simp
      rcases List.mem_append.mp hmem with hin | hin
      · exact hy.slash hin
      · exact suffix_chars hs hin
    | under rest' _ => exact (Joins.field_inj hx.slash hy.slash ht).1
  cases h with
  | artifact =>
    cases h' with
    | artifact => rfl
    | sibling suffix hs => exact absurd (List.suffix_append w suffix.toList) (hv.suffix suffix hs)
    | under rest hkind => exact absurd (List.mem_append_right w List.mem_cons_self) hv.slash
  | sibling suffix hs =>
    generalize ht : v ++ suffix.toList = t at h'
    cases h' with
    | artifact =>
      rw [← ht] at hw
      exact absurd (List.suffix_append v suffix.toList) (hw.suffix suffix hs)
    | sibling suffix' hs' => exact eq_of_append_suffix hs hs' ht
    | under rest hkind => exact (hunder hw hv (ht ▸ Tail.sibling suffix hs)).symm
  | under rest hkind => exact hunder hv hw h'

/-- A name that is not cut by what is stored under the versions. -/
theorem splitOn_terraform {name : String} (h : TerraformName name) :
    (∃ a b c, name.toList.splitOn '/' = ["modules".toList, a, b, c]) ∨
      ∃ a b, name.toList.splitOn '/' = ["providers".toList, a, b] := by
  cases h with
  | module ns name provider hns hname hprovider =>
    refine Or.inl ⟨ns.toList, name.toList, provider.toList, ?_⟩
    have htext : ("modules/" ++ ns ++ "/" ++ name ++ "/" ++ provider).toList =
        ['/'].intercalate ["modules".toList, ns.toList, name.toList, provider.toList] := by
      simp
    rw [htext]
    refine List.splitOn_intercalate '/' ?_ (by simp)
    intro part hpart
    simp only [List.mem_cons, List.not_mem_nil, or_false] at hpart
    rcases hpart with rfl | rfl | rfl | rfl
    · decide
    · exact hns
    · exact hname
    · exact hprovider
  | provider ns ptype hns hptype =>
    refine Or.inr ⟨ns.toList, ptype.toList, ?_⟩
    have htext : ("providers/" ++ ns ++ "/" ++ ptype).toList =
        ['/'].intercalate ["providers".toList, ns.toList, ptype.toList] := by
      simp
    rw [htext]
    refine List.splitOn_intercalate '/' ?_ (by simp)
    intro part hpart
    simp only [List.mem_cons, List.not_mem_nil, or_false] at hpart
    rcases hpart with rfl | rfl | rfl
    · decide
    · exact hns
    · exact hptype

/-- Where files are stored under the versions, a name is no part of another name. -/
theorem cut_name {kind : RegistryKind} {m n : String} {s t : List Char}
    (hkind : storesFilesUnderVersion kind = true) (hm : NameShape kind m) (hn : NameShape kind n)
    (h : m.toList ++ '/' :: s = n.toList ++ '/' :: t) : m.toList = n.toList ∧ s = t := by
  have hsingle : Single m → Single n → m.toList = n.toList ∧ s = t :=
    fun hm hn => Joins.field_inj hm hn h
  cases kind with
  | maven => exact hsingle hm hn
  | nix => exact hsingle hm hn
  | terraform =>
    have hsplit := congrArg (List.splitOn '/') h
    rw [List.splitOn_append_cons_self, List.splitOn_append_cons_self] at hsplit
    have hnames : m.toList.splitOn '/' = n.toList.splitOn '/' := by
      rcases splitOn_terraform hm with ⟨a, b, c, hmodule⟩ | ⟨a, b, hprovider⟩
      · rcases splitOn_terraform hn with ⟨a', b', c', hmodule'⟩ | ⟨a', b', hprovider'⟩
        · rw [hmodule, hmodule'] at hsplit
          rw [hmodule, hmodule']
          exact (List.append_inj hsplit rfl).1
        · rw [hmodule, hprovider'] at hsplit
          exact absurd (List.cons.inj hsplit).1 (by decide)
      · rcases splitOn_terraform hn with ⟨a', b', c', hmodule'⟩ | ⟨a', b', hprovider'⟩
        · rw [hprovider, hmodule'] at hsplit
          exact absurd (List.cons.inj hsplit).1 (by decide)
        · rw [hprovider, hprovider'] at hsplit
          rw [hprovider, hprovider']
          exact (List.append_inj hsplit rfl).1
    have heq := Segments.splitOn_injective '/' hnames
    refine ⟨heq, ?_⟩
    rw [heq] at h
    exact (List.cons.inj (List.append_cancel_left h)).2
  | _ => exact absurd hkind (by decide)

theorem Tail.slash_notMem {kind : RegistryKind} {v t : List Char} (hv : PlainVersion v)
    (hkind : storesFilesUnderVersion kind = false) (h : Tail kind v t) : '/' ∉ t := by
  cases h with
  | artifact => exact hv.slash
  | sibling suffix hs =>
    rw [List.mem_append, not_or]
    exact ⟨hv.slash, suffix_chars hs⟩
  | under rest hunder =>
    rw [hkind] at hunder
    exact absurd hunder (by decide)

end Cuts

section Keys

variable {kind : RegistryKind} {registry : String}

theorem toList_artifactStorageKey (name version : String) :
    (artifactStorageKey registry name version).toList =
      ("local:" ++ registry ++ "/").toList ++ (name.toList ++ '/' :: version.toList) := by
  simp [artifactStorageKey]

/-- A key of a version, behind what all keys of the registry start with. -/
theorem Owns.exists_tail {c : Coordinate kind} {key : String} (h : Owns registry c key) :
    ∃ t, key.toList = ("local:" ++ registry ++ "/").toList ++ (c.name.toList ++ '/' :: t) ∧
      Tail kind c.version.toList t := by
  rcases h with rfl | ⟨suffix, hsuffix, rfl⟩ | ⟨hkind, rest, rfl⟩
  · exact ⟨_, toList_artifactStorageKey c.name c.version, Tail.artifact⟩
  · refine ⟨_, ?_, Tail.sibling suffix hsuffix⟩
    rw [String.toList_append, toList_artifactStorageKey]
    simp only [List.append_assoc, List.cons_append]
  · refine ⟨_, ?_, Tail.under rest.toList hkind⟩
    rw [String.toList_append, String.toList_append, toList_artifactStorageKey]
    have hslash : "/".toList = ['/'] := rfl
    simp only [hslash, List.append_assoc, List.cons_append, List.nil_append]

/-- One key says the name and the version. -/
theorem coordinate_eq_of_owns {c d : Coordinate kind} {key : String} (hc : Owns registry c key)
    (hd : Owns registry d key) : c.name = d.name ∧ c.version = d.version := by
  obtain ⟨s, hs, htail⟩ := hc.exists_tail
  obtain ⟨t, ht, htail'⟩ := hd.exists_tail
  rw [hs] at ht
  have hkeys := List.append_cancel_left ht
  have hcut : c.name.toList = d.name.toList ∧ s = t := by
    rcases hkind : storesFilesUnderVersion kind with _ | _
    · exact Joins.last_field_inj (htail.slash_notMem c.plain hkind)
        (htail'.slash_notMem d.plain hkind) hkeys
    · exact cut_name hkind c.shape d.shape hkeys
  obtain ⟨hname, rfl⟩ := hcut
  exact ⟨String.toList_inj.mp hname,
    String.toList_inj.mp (htail.version_eq c.plain d.plain htail')⟩

/-- A call of the drop touches keys of its version only. -/
theorem owns_of_hits {c : Coordinate kind} {call : Drop}
    (hcall : call ∈ dropVersionBytes (some kind) registry c.name c.version) {key : String}
    (h : call.hits key = true) : Owns registry c key := by
  unfold dropVersionBytes at hcall
  dsimp only at hcall
  rw [List.mem_append, List.mem_cons] at hcall
  rcases hcall with (rfl | hsibling) | hunder
  · exact Or.inl (of_decide_eq_true h)
  · obtain ⟨suffix, hsuffix, rfl⟩ := List.mem_map.mp hsibling
    exact Or.inr (Or.inl ⟨suffix, hsuffix, of_decide_eq_true h⟩)
  · split_ifs at hunder with hkind
    · rw [List.mem_singleton.mp hunder] at h
      obtain ⟨rest, hrest⟩ := (Texts.startsWith_iff _ _).mp h
      exact Or.inr (Or.inr ⟨hkind, rest, hrest⟩)
    · exact absurd hunder List.not_mem_nil

theorem lookup_foldl_apply {calls : List Drop} {key : String}
    (h : ∀ call ∈ calls, call.hits key = false) (blobs : Blobs) :
    (calls.foldl (fun blobs call => call.apply blobs) blobs).lookup key = blobs.lookup key := by
  induction calls generalizing blobs with
  | nil => rfl
  | cons call calls ih =>
    rw [List.foldl_cons, ih (fun other hother => h other (List.mem_cons_of_mem call hother)),
      lookup_apply, h call List.mem_cons_self, if_neg Bool.false_ne_true]

/-- No key belongs to two versions of a registry. Whichever calls of a drop succeed, they
leave the bytes of every other version. -/
theorem version_keys_disjoint (kind : RegistryKind) (registry : String) (c d : Coordinate kind)
    (hne : (c.name, c.version) ≠ (d.name, d.version)) :
    (∀ key, Owns registry c key → ¬ Owns registry d key) ∧
      ∀ calls : List Drop,
        calls.Sublist (dropVersionBytes (some kind) registry c.name c.version) →
        ∀ (blobs : Blobs) (key : String), Owns registry d key →
          (calls.foldl (fun blobs call => call.apply blobs) blobs).lookup key =
            blobs.lookup key := by
  have hdisjoint : ∀ key, Owns registry c key → ¬ Owns registry d key := by
    intro key hc hd
    obtain ⟨hname, hversion⟩ := coordinate_eq_of_owns hc hd
    exact hne (by rw [hname, hversion])
  refine ⟨hdisjoint, ?_⟩
  intro calls hcalls blobs key hkey
  refine lookup_foldl_apply (fun call hcall => ?_) blobs
  rw [Bool.eq_false_iff]
  intro hhits
  exact hdisjoint key (owns_of_hits (hcalls.subset hcall) hhits) hkey

theorem single_artifact : Single "g:a" := by decide

def release : Coordinate .maven := ⟨"g:a", "1.0", by decide +kernel, single_artifact⟩

def patchRelease : Coordinate .maven := ⟨"g:a", "1.0.1", by decide +kernel, single_artifact⟩

/-- The key of `1.0` is a prefix of the key of `1.0.1`. -/
theorem patch_release_keeps_its_keys :
    (∀ key, Owns "m" release key → ¬ Owns "m" patchRelease key) ∧
      ∀ calls : List Drop, calls.Sublist (dropVersionBytes (some .maven) "m" "g:a" "1.0") →
        ∀ (blobs : Blobs) (key : String), Owns "m" patchRelease key →
          (calls.foldl (fun blobs call => call.apply blobs) blobs).lookup key =
            blobs.lookup key :=
  version_keys_disjoint .maven "m" release patchRelease (by decide)

end Keys

end BatleHub.VersionKeys
