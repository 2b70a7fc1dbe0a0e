import BatleHub.Lib.Runs
import BatleHub.StorageRouter

/-!
What the objects of the backends are in every state the router reaches, and what its
operations do to them. An object is content at the key of its own hash, or staged. All
operations but the removal of a last reference's blob keep the content there is.
-/
namespace BatleHub.StorageRouter

open Lib AssocMap

section Names

theorem contentKeyOf_injective {h h' : String} (heq : contentKeyOf h = contentKeyOf h') : h = h' :=
  String.append_right_inj "blob/" |>.mp heq

theorem contentKeyOf_ne_stagingBlobKey {h : String} (hslash : '/' ∉ h.toList) (uuid : String) :
    contentKeyOf h ≠ stagingBlobKey uuid := by
  intro heq
  have htext : "blob/" ++ h = "blob/" ++ ("staging/" ++ uuid) := by
    rw [← String.append_assoc]
    exact heq
  have hh := String.append_right_inj "blob/" |>.mp htext
  rw [hh] at hslash
  simp at hslash

/-- The name is of the blobs. -/
def BlobName (key : String) : Prop := Texts.startsWith key "blob/" = true

instance (key : String) : Decidable (BlobName key) :=
  inferInstanceAs (Decidable (Texts.startsWith key "blob/" = true))

theorem blobName_iff (key : String) : BlobName key ↔ ∃ rest, key = "blob/" ++ rest := by
  unfold BlobName Texts.startsWith
  rw [List.isPrefixOf_iff_prefix]
  constructor
  · intro h
    obtain ⟨rest, hrest⟩ := h
    refine ⟨String.ofList rest, ?_⟩
    apply String.toList_inj.mp
    simp [← hrest]
  · intro h
    obtain ⟨rest, rfl⟩ := h
    exact ⟨rest.toList, by rw [String.toList_append]⟩

/-- A key of the router's callers that is no staging key. -/
def Logical (key : String) : Prop := ¬ BlobName key ∧ stagedDestination key = none

/-- Bytes that are not yet the content of a key. -/
def Staging (key : String) : Prop :=
  (∃ uuid, key = stagingBlobKey uuid) ∨ (stagedDestination key).isSome = true

theorem stagedDestination_blobName {key : String} (h : BlobName key) :
    stagedDestination key = none := by
  obtain ⟨rest, rfl⟩ := (blobName_iff key).mp h
  unfold stagedDestination Texts.stripPrefix
  have hlead : STAGING_PREFIX.toList.isPrefixOf ("blob/" ++ rest).toList = false := by
    rw [String.toList_append]
    rfl
  rw [hlead]
  rfl

theorem blobName_contentKeyOf (h : String) : BlobName (contentKeyOf h) :=
  (blobName_iff _).mpr ⟨h, rfl⟩

theorem not_staging_contentKeyOf {h : String} (hslash : '/' ∉ h.toList) :
    ¬ Staging (contentKeyOf h) := by
  intro hstaging
  rcases hstaging with ⟨uuid, heq⟩ | hdest
  · exact contentKeyOf_ne_stagingBlobKey hslash uuid heq
  · rw [stagedDestination_blobName (blobName_contentKeyOf h)] at hdest
    cases hdest

theorem Logical.ne_contentKeyOf {key : String} (h : Logical key) (hash : String) :
    key ≠ contentKeyOf hash := by
  intro heq
  exact h.1 (heq ▸ blobName_contentKeyOf hash)

theorem Logical.not_staging {key : String} (h : Logical key) : ¬ Staging key := by
  intro hstaging
  rcases hstaging with ⟨uuid, rfl⟩ | hdest
  · apply h.1
    exact (blobName_iff _).mpr ⟨"staging/" ++ uuid, by rw [← String.append_assoc]; rfl⟩
  · rw [h.2] at hdest
    cases hdest

/-- A staging key is routed as its destination. -/
theorem leafOf_staged {β : Type} (r : Router β) {staged key : String}
    (hdest : stagedDestination staged = some key) (hkey : stagedDestination key = none) :
    r.leafOf staged = r.leafOf key := by
  simp only [Router.leafOf, Router.backendNameForKey, routeKeyToBackend, hdest, hkey,
    Option.getD_some, Option.getD_none]

end Names

section Content
variable {β : Type} (sha256Hex : Bytes → String)

/-- Every object is content at the key of its hash, or staged. -/
def ObjectsOk (objs : Objects β) : Prop :=
  ∀ leaf key data, objs leaf key = some data →
    key = contentKeyOf (sha256Hex data) ∨ Staging key

/-- The content there was is there, and what is new is content or staged. -/
structure Keeps (objs objs' : Objects β) : Prop where
  content : ∀ leaf data, objs leaf (contentKeyOf (sha256Hex data)) = some data →
    objs' leaf (contentKeyOf (sha256Hex data)) = some data
  ok : ∀ leaf key data, objs' leaf key = some data →
    objs leaf key = some data ∨ key = contentKeyOf (sha256Hex data) ∨ Staging key

variable {sha256Hex} {objs objs' objs'' : Objects β} {leaf : β}

theorem ObjectsOk.of_keeps (h : ObjectsOk sha256Hex objs) (hkeeps : Keeps sha256Hex objs objs') :
    ObjectsOk sha256Hex objs' := by
  intro leaf key data hdata
  rcases hkeeps.ok leaf key data hdata with hold | hnew
  · exact h leaf key data hold
  · exact hnew

theorem Keeps.refl (objs : Objects β) : Keeps sha256Hex objs objs :=
  ⟨fun _ _ h => h, fun _ _ _ h => .inl h⟩

theorem Keeps.trans (h : Keeps sha256Hex objs objs') (h' : Keeps sha256Hex objs' objs'') :
    Keeps sha256Hex objs objs'' where
  content := fun leaf data hdata => h'.content leaf data (h.content leaf data hdata)
  ok := by
    intro leaf key data hdata
    rcases h'.ok leaf key data hdata with hmid | hnew
    · exact h.ok leaf key data hmid
    · exact .inr hnew

variable [DecidableEq β]

@[simp]
theorem set_self (objs : Objects β) (leaf : β) (key : String) (value : Option Bytes) :
    objs.set leaf key value leaf key = value := by
  simp [Objects.set]

theorem set_of_ne (objs : Objects β) {leaf l : β} {key k : String} (value : Option Bytes)
    (h : k ≠ key) : objs.set leaf key value l k = objs l k := by
  simp [Objects.set, h]

theorem set_eq_some {l : β} {key k : String} {value : Option Bytes} {data : Bytes}
    (h : objs.set leaf key value l k = some data) :
    (k = key ∧ value = some data) ∨ objs l k = some data := by
  unfold Objects.set at h
  split at h
  · rename_i hsame
    exact .inl ⟨hsame.2, h⟩
  · exact .inr h

/-- Writing content at the key of its hash. -/
theorem keeps_setContent (hinj : Function.Injective sha256Hex) (objs : Objects β) (leaf : β)
    (data : Bytes) :
    Keeps sha256Hex objs (objs.set leaf (contentKeyOf (sha256Hex data)) (some data)) where
  content := by
    intro l d hd
    unfold Objects.set
    split
    · rename_i hsame
      rw [hinj (contentKeyOf_injective hsame.2)]
    · exact hd
  ok := by
    intro l key d hd
    rcases set_eq_some hd with ⟨hkey, hvalue⟩ | hold
    · rw [Option.some.inj hvalue] at hkey
      exact .inr (.inl hkey)
    · exact .inl hold

/-- Writing at a staging key. -/
theorem keeps_setStaging (hslash : ∀ data, '/' ∉ (sha256Hex data).toList) (objs : Objects β)
    (leaf : β) {key : String} (hkey : Staging key) (value : Option Bytes) :
    Keeps sha256Hex objs (objs.set leaf key value) where
  content := by
    intro l d hd
    rw [set_of_ne]
    · exact hd
    · intro heq
      exact not_staging_contentKeyOf (hslash d) (heq ▸ hkey)
  ok := by
    intro l k d hd
    rcases set_eq_some hd with ⟨rfl, -⟩ | hold
    · exact .inr (.inr hkey)
    · exact .inl hold

/-- Removing at the name of a caller. -/
theorem keeps_removeLogical (objs : Objects β) (leaf : β) {key : String} (hkey : Logical key) :
    Keeps sha256Hex objs (objs.set leaf key none) where
  content := by
    intro l d hd
    rw [set_of_ne]
    · exact hd
    · exact (hkey.ne_contentKeyOf _).symm
  ok := by
    intro l k d hd
    rcases set_eq_some hd with ⟨-, hvalue⟩ | hold
    · cases hvalue
    · exact .inl hold

theorem keeps_setIf {effect : Bool} {key : String} {value : Option Bytes}
    (h : Keeps sha256Hex objs (objs.set leaf key value)) :
    Keeps sha256Hex objs (objs.setIf effect leaf key value) := by
  cases effect with
  | false => exact Keeps.refl objs
  | true => exact h

end Content

section Operations
variable {β : Type} [DecidableEq β] {sha256Hex : Bytes → String} {objs : Objects β} {leaf : β}
  {data : Bytes} {source : BlobSource}

theorem keeps_leafStore {key : String} (o : Outcome)
    (h : Keeps sha256Hex objs (objs.set leaf key (some data))) :
    Keeps sha256Hex objs (leafStore o objs leaf key data).2 := by
  cases o with
  | ok => exact h
  | failed written removed reason => exact keeps_setIf h

theorem keeps_leafDelete {key : String} (o : Outcome)
    (h : Keeps sha256Hex objs (objs.set leaf key none)) :
    Keeps sha256Hex objs (leafDelete o objs leaf key).2 := by
  cases o with
  | ok => exact h
  | failed written removed reason => exact keeps_setIf h

/-- The source has the bytes, in hand or staged on the backend. -/
def BlobSource.Holds (source : BlobSource) (objs : Objects β) (leaf : β) (data : Bytes) : Prop :=
  match source with
  | .inline d => d = data
  | .staged stagingKey => Staging stagingKey ∧ objs leaf stagingKey = some data

section Hashes
variable (hinj : Function.Injective sha256Hex) (hslash : ∀ data, '/' ∉ (sha256Hex data).toList)
include hinj hslash

omit hinj in
theorem keeps_discardStaged (objs' : Objects β) (o : Outcome) (h : source.Holds objs leaf data) :
    Keeps sha256Hex objs' (source.discardStaged o objs' leaf) := by
  cases source with
  | inline d => exact Keeps.refl _
  | staged stagingKey =>
    apply keeps_leafDelete
    exact keeps_setStaging hslash _ _ h.1 none

/-- The content is kept, and where the blob was placed it is there. -/
theorem materialize_spec (o : Outcome) (h : source.Holds objs leaf data) :
    Keeps sha256Hex objs (source.materialize o objs leaf (contentKeyOf (sha256Hex data))).2 ∧
      ((source.materialize o objs leaf (contentKeyOf (sha256Hex data))).1 = .ok () →
        (source.materialize o objs leaf (contentKeyOf (sha256Hex data))).2 leaf
          (contentKeyOf (sha256Hex data)) = some data) := by
  cases source with
  | inline d =>
    obtain rfl : d = data := h
    refine ⟨keeps_leafStore o (keeps_setContent hinj objs leaf d), ?_⟩
    intro hok
    cases o with
    | ok => simp [BlobSource.materialize, leafStore]
    | failed written removed reason => simp [BlobSource.materialize, leafStore] at hok
  | staged stagingKey =>
    obtain ⟨hstaging, hdata⟩ := h
    have hne : contentKeyOf (sha256Hex data) ≠ stagingKey := by
      intro heq
      exact not_staging_contentKeyOf (hslash data) (heq ▸ hstaging)
    simp only [BlobSource.materialize, leafMove, hdata]
    cases o with
    | ok =>
      refine ⟨(keeps_setContent hinj objs leaf data).trans
        (keeps_setStaging hslash _ leaf hstaging none), ?_⟩
      intro _
      show (objs.set leaf _ (some data)).set leaf stagingKey none leaf _ = some data
      rw [set_of_ne _ _ hne, set_self]
    | failed written removed reason =>
      refine ⟨(keeps_setIf (keeps_setContent hinj objs leaf data)).trans
        (keeps_setIf (keeps_setStaging hslash _ leaf hstaging none)), ?_⟩
      intro hok
      cases hok

omit [DecidableEq β] in
/-- An object found at the key of the hash is the content. -/
theorem eq_of_leafExists (hok : ObjectsOk sha256Hex objs) {o : Outcome}
    (h : leafExists o objs leaf (contentKeyOf (sha256Hex data)) = true) :
    objs leaf (contentKeyOf (sha256Hex data)) = some data := by
  cases o with
  | failed written removed reason => simp [leafExists] at h
  | ok =>
    obtain ⟨found, hfound⟩ := Option.isSome_iff_exists.mp h
    rcases hok leaf _ found hfound with hkey | hstaging
    · rw [hfound, hinj (contentKeyOf_injective hkey)]
    · exact absurd hstaging (not_staging_contentKeyOf (hslash data))

theorem reuseIdenticalBlob_spec (oc : BlobOutcomes) (hok : ObjectsOk sha256Hex objs)
    (h : source.Holds objs leaf data) :
    Keeps sha256Hex objs
        (reuseIdenticalBlob oc objs (contentKeyOf (sha256Hex data)) leaf source).2 ∧
      ((reuseIdenticalBlob oc objs (contentKeyOf (sha256Hex data)) leaf source).1 = .ok () →
        (reuseIdenticalBlob oc objs (contentKeyOf (sha256Hex data)) leaf source).2 leaf
          (contentKeyOf (sha256Hex data)) = some data) := by
  unfold reuseIdenticalBlob
  split
  · rename_i hexists
    have hkeeps := keeps_discardStaged hslash objs oc.discard h
    refine ⟨hkeeps, ?_⟩
    intro _
    exact hkeeps.content leaf data (eq_of_leafExists hinj hslash hok hexists)
  · have hspec := materialize_spec hinj hslash oc.materialize h
    split
    · rename_i e objs' heq
      rw [heq] at hspec
      refine ⟨hspec.1.trans (keeps_discardStaged hslash _ oc.discard h), ?_⟩
      intro hok
      cases hok
    · rename_i objs' heq
      rw [heq] at hspec
      exact ⟨hspec.1, fun _ => hspec.2 rfl⟩

end Hashes

end Operations

section Sample

/-- SHA-256 of two bytes that are stored, and an injective text of all others. -/
def sampleSha (data : Bytes) : String :=
  if data = [97] then "ca978112ca1bbdcafac231b39a23dc4da786eff8147c4e72b9807785afee48bb"
  else if data = [98] then "3e23e8160039594a33894f6564e1b1348bbd7a0088d42c4acb73eeaed59c009d"
  else String.ofList ('x' :: data.map fun b => Char.ofNat (256 + b.toNat))

theorem sampleChar_toNat (b : UInt8) : (Char.ofNat (256 + b.toNat)).toNat = 256 + b.toNat := by
  have hb := b.toNat_lt
  have hvalid : (256 + b.toNat).isValidChar := .inl (by omega)
  unfold Char.ofNat
  rw [dif_pos hvalid]
  rfl

theorem sampleSha_cases (data : Bytes) :
    (data = [97] ∧ sampleSha data = sampleSha [97]) ∨
      (data = [98] ∧ sampleSha data = sampleSha [98]) ∨
      sampleSha data = String.ofList ('x' :: data.map fun b => Char.ofNat (256 + b.toNat)) := by
  by_cases ha : data = [97]
  · exact .inl ⟨ha, congrArg sampleSha ha⟩
  · by_cases hb : data = [98]
    · exact .inr (.inl ⟨hb, congrArg sampleSha hb⟩)
    · refine .inr (.inr ?_)
      unfold sampleSha
      rw [if_neg ha, if_neg hb]

theorem sampleSha_slash (data : Bytes) : '/' ∉ (sampleSha data).toList := by
  rcases sampleSha_cases data with ⟨rfl, -⟩ | ⟨rfl, -⟩ | hdata
  · decide
  · decide
  · rw [hdata, String.toList_ofList, List.mem_cons, not_or]
    refine ⟨by decide, ?_⟩
    intro hmem
    obtain ⟨b, -, hb⟩ := List.mem_map.mp hmem
    have hnat := congrArg Char.toNat hb
    rw [sampleChar_toNat] at hnat
    have hslash : ('/' : Char).toNat = 47 := by decide
    omega

theorem sampleSha_injective : Function.Injective sampleSha := by
  have htext : ∀ {d e : Bytes}, sampleSha d = String.ofList
        ('x' :: d.map fun b => Char.ofNat (256 + b.toNat)) →
      sampleSha e = String.ofList ('x' :: e.map fun b => Char.ofNat (256 + b.toNat)) →
      sampleSha d = sampleSha e → d = e := by
    intro d e hd he heq
    rw [hd, he] at heq
    have hmap := (List.cons.inj (String.ofList_inj.mp heq)).2
    refine List.map_injective_iff.mpr ?_ hmap
    intro b c hbc
    have hnat := congrArg Char.toNat hbc
    simp only [sampleChar_toNat] at hnat
    exact UInt8.toNat_inj.mp (by omega)
  have hfirst : ∀ (text : List Char) {d : Bytes}, text.head? ≠ some 'x' →
      String.ofList text ≠
        String.ofList ('x' :: d.map fun b => Char.ofNat (256 + b.toNat)) := by
    intro text d hne heq
    rw [String.ofList_inj.mp heq] at hne
    exact hne rfl
  intro d e heq
  rcases sampleSha_cases d with ⟨rfl, -⟩ | ⟨rfl, -⟩ | hd
  · rcases sampleSha_cases e with ⟨rfl, -⟩ | ⟨rfl, -⟩ | he
    · rfl
    · exact absurd heq (by decide)
    · rw [he] at heq
      exact absurd heq (hfirst (sampleSha [97]).toList (by decide))
  · rcases sampleSha_cases e with ⟨rfl, -⟩ | ⟨rfl, -⟩ | he
    · exact absurd heq (by decide)
    · rfl
    · rw [he] at heq
      exact absurd heq (hfirst (sampleSha [98]).toList (by decide))
  · rcases sampleSha_cases e with ⟨rfl, -⟩ | ⟨rfl, -⟩ | he
    · rw [hd] at heq
      exact absurd heq.symm (hfirst (sampleSha [97]).toList (by decide))
    · rw [hd] at heq
      exact absurd heq.symm (hfirst (sampleSha [98]).toList (by decide))
    · exact htext hd he heq

/-- A default backend, and one that the registry `cargo` is assigned to. -/
def sampleRouter : Router Bool where
  backends name := if name = "fs" then some false else if name = "s3" then some true else none
  defaultName := "fs"
  defaultLeaf := false
  default_present := rfl
  registryAssignments registry := if registry = "cargo" then some "s3" else none

end Sample

end BatleHub.StorageRouter
