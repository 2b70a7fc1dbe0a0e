import BatleHub.RouterRefinement

/-!
Which blobs remain. Without failures a call leaves no staged bytes, and the only new
object is the content it stores; but a key that leaves its content behind takes the blob
with it only as the very last reference. Where every release leaves another key of the
same content on the same backend, or is a delete of the last reference anywhere, the
blobs of a backend are exactly the contents of the keys recorded on it.
-/
namespace BatleHub.StorageRouter

open Lib AssocMap

section Success
variable {β : Type} [DecidableEq β] {sha256Hex : Bytes → String} {objs : Objects β} {leaf : β}
  {data : Bytes} {source : BlobSource}

/-- Nothing is new but the object at the one place. -/
def OnlyAdds (objs objs' : Objects β) (leaf : β) (key : String) : Prop :=
  ∀ l k, (objs' l k).isSome = true → (objs l k).isSome = true ∨ (l = leaf ∧ k = key)

/-- The source's staged bytes are gone. -/
def BlobSource.Gone (source : BlobSource) (objs : Objects β) (leaf : β) : Prop :=
  match source with
  | .inline _ => True
  | .staged stagingKey => objs leaf stagingKey = none

theorem set_isSome {l : β} {key k : String} {value : Option Bytes}
    (h : (objs.set leaf key value l k).isSome = true) :
    (l = leaf ∧ k = key ∧ value.isSome = true) ∨ (objs l k).isSome = true := by
  unfold Objects.set at h
  split at h
  · rename_i hsame
    exact .inl ⟨hsame.1, hsame.2, h⟩
  · exact .inr h

/-- Removing an object adds none. -/
theorem isSome_of_removed {l : β} {key k : String}
    (h : (objs.set leaf key none l k).isSome = true) : (objs l k).isSome = true := by
  rcases set_isSome h with ⟨-, -, hnone⟩ | hold
  · cases hnone
  · exact hold

theorem discardStaged_ok (key : String) :
    OnlyAdds objs (source.discardStaged .ok objs leaf) leaf key ∧
      source.Gone (source.discardStaged .ok objs leaf) leaf := by
  cases source with
  | inline d => exact ⟨fun _ _ h => .inl h, trivial⟩
  | staged stagingKey =>
    refine ⟨?_, ?_⟩
    · intro l k h
      exact .inl (isSome_of_removed h)
    · exact set_self _ _ _ _

theorem materialize_ok (key : String) (h : source.Holds objs leaf data) :
    (source.materialize .ok objs leaf key).1 = .ok () ∧
      OnlyAdds objs (source.materialize .ok objs leaf key).2 leaf key ∧
      source.Gone (source.materialize .ok objs leaf key).2 leaf := by
  cases source with
  | inline d =>
    refine ⟨rfl, ?_, trivial⟩
    intro l k hsome
    rcases set_isSome hsome with ⟨hl, hk, -⟩ | hold
    · exact .inr ⟨hl, hk⟩
    · exact .inl hold
  | staged stagingKey =>
    simp only [BlobSource.materialize, leafMove, h.2]
    refine ⟨trivial, ?_, ?_⟩
    · intro l k hsome
      rcases set_isSome (isSome_of_removed hsome) with ⟨hl, hk, -⟩ | hold
      · exact .inr ⟨hl, hk⟩
      · exact .inl hold
    · exact set_self _ _ _ _

theorem reuseIdenticalBlob_ok (key : String) (h : source.Holds objs leaf data) :
    (reuseIdenticalBlob .allOk objs key leaf source).1 = .ok () ∧
      OnlyAdds objs (reuseIdenticalBlob .allOk objs key leaf source).2 leaf key ∧
      source.Gone (reuseIdenticalBlob .allOk objs key leaf source).2 leaf := by
  obtain ⟨hresult, hadds, hgone⟩ := materialize_ok key h
  unfold reuseIdenticalBlob
  split
  · exact ⟨rfl, discardStaged_ok key⟩
  · simp only [BlobOutcomes.allOk]
    rcases hmat : source.materialize .ok objs leaf key with ⟨result, objs'⟩
    rw [hmat] at hresult hadds hgone
    cases result with
    | error e => cases hresult
    | ok _ => exact ⟨rfl, hadds, hgone⟩

variable {r : Router β} {w : World β} {plain : Plain}

/-- Without failures the bookkeeping succeeds and adds the content alone. -/
theorem finalizeDedup_ok (h : Stored r sha256Hex w plain) (key : String) (size : Option ℕ)
    (hholds : source.Holds w.objects (r.leafOf key) data) :
    let res := finalizeDedup .allOk w ⟨key, sha256Hex data, contentKeyOf (sha256Hex data), size⟩
      (r.backendNameForKey key) (r.leafOf key) source
    res.1 = .ok () ∧
      OnlyAdds w.objects res.2.objects (r.leafOf key) (contentKeyOf (sha256Hex data)) ∧
      source.Gone res.2.objects (r.leafOf key) := by
  intro res
  by_cases hsame : w.tables.refs.lookup key = some (sha256Hex data)
  · have hspec := reuseIdenticalBlob_ok (contentKeyOf (sha256Hex data)) hholds
    rcases hreuse : reuseIdenticalBlob .allOk w.objects (contentKeyOf (sha256Hex data))
      (r.leafOf key) source with ⟨result, objs⟩
    rw [hreuse] at hspec
    obtain ⟨rfl, hadds, hgone⟩ := hspec
    have hres : res =
        (.ok (), ⟨w.tables.recordBackend key (r.backendNameForKey key) size, objs⟩) := by
      simp only [res, finalizeDedup, if_pos hsame, hreuse]
    rw [hres]
    exact ⟨rfl, hadds, hgone⟩
  · obtain ⟨t, htables, -⟩ := newHashTables_spec h.counts key (sha256Hex data) size hsame
    have hmaterialize := materialize_ok (contentKeyOf (sha256Hex data)) hholds
    have hcommit : ∃ objs, commitNewHash .allOk w
          ⟨key, sha256Hex data, contentKeyOf (sha256Hex data), size⟩ (r.leafOf key)
          (w.tables.refs.lookup key) source = (.ok (), ⟨t, objs⟩) ∧
        OnlyAdds w.objects objs (r.leafOf key) (contentKeyOf (sha256Hex data)) ∧
        source.Gone objs (r.leafOf key) := by
      simp only [commitNewHash, htables]
      split
      · exact ⟨_, rfl, discardStaged_ok _⟩
      · simp only [BlobOutcomes.allOk]
        rcases hmat : source.materialize .ok w.objects (r.leafOf key)
          (contentKeyOf (sha256Hex data)) with ⟨result, objs⟩
        rw [hmat] at hmaterialize
        obtain ⟨rfl, hadds, hgone⟩ := hmaterialize
        exact ⟨objs, rfl, hadds, hgone⟩
    obtain ⟨objs, hcommit, hadds, hgone⟩ := hcommit
    have hres : res =
        (.ok (), ⟨t.recordBackend key (r.backendNameForKey key) size, objs⟩) := by
      simp only [res, finalizeDedup, if_neg hsame, hcommit]
    rw [hres]
    exact ⟨rfl, hadds, hgone⟩

theorem finalizeStaged_ok (h : Stored r sha256Hex w plain) {staged : String} (key : String)
    (hstaged : Staging staged) (hdata : w.objects (r.leafOf key) staged = some data) :
    let res := finalizeStaged r .allOk w staged key ⟨sha256Hex data, data.length⟩
    res.1 = .ok () ∧
      OnlyAdds w.objects res.2.objects (r.leafOf key) (contentKeyOf (sha256Hex data)) ∧
      res.2.objects (r.leafOf key) staged = none := by
  intro res
  have hspec := finalizeDedup_ok h key (some data.length)
    (show (BlobSource.staged staged).Holds _ _ data from ⟨hstaged, hdata⟩)
  rcases hfinal : finalizeDedup .allOk w
    ⟨key, sha256Hex data, contentKeyOf (sha256Hex data), some data.length⟩
    (r.backendNameForKey key) (r.leafOf key) (.staged staged) with ⟨result, w'⟩
  rw [hfinal] at hspec
  obtain ⟨rfl, hadds, hgone⟩ := hspec
  have hres : res = (.ok (), w') := by
    simp only [res, finalizeStaged, hfinal]
  rw [hres]
  exact ⟨rfl, hadds, hgone⟩

theorem store_ok (h : Stored r sha256Hex w plain) {key : String} (hkey : Logical key)
    (data : Bytes) (size : Option ℕ) :
    let res := store r sha256Hex .allOk w key data size
    res.1 = .ok () ∧
      OnlyAdds w.objects res.2.objects (r.leafOf key) (contentKeyOf (sha256Hex data)) := by
  have hspec := finalizeDedup_ok h key size
    (show (BlobSource.inline data).Holds _ _ data from rfl)
  have hdest : ¬ (stagedDestination key).isSome = true := by simp [hkey.2]
  simp only [store, if_neg hdest]
  exact ⟨hspec.1, hspec.2.1⟩

/-- The staged copy of a streamed store is gone again. -/
theorem storeStreaming_ok (hslash : ∀ data, '/' ∉ (sha256Hex data).toList)
    (h : Stored r sha256Hex w plain) {key : String} (hkey : Logical key) (uuid : String)
    (data : Bytes) :
    let res := storeStreaming r sha256Hex .allOk w key uuid data
    res.1 = .ok ⟨sha256Hex data, data.length⟩ ∧
      OnlyAdds w.objects res.2.objects (r.leafOf key) (contentKeyOf (sha256Hex data)) := by
  intro res
  have hdest : ¬ (stagedDestination key).isSome = true := by simp [hkey.2]
  have hstaging : Staging (stagingBlobKey uuid) := .inl ⟨uuid, rfl⟩
  have hstaged := h.of_keeps (keeps_setStaging hslash w.objects (r.leafOf key) hstaging (some data))
  have hspec := finalizeStaged_ok hstaged key hstaging (set_self _ _ _ _)
  rcases hfinal : finalizeStaged r .allOk
    ⟨w.tables, w.objects.set (r.leafOf key) (stagingBlobKey uuid) (some data)⟩
    (stagingBlobKey uuid) key ⟨sha256Hex data, data.length⟩ with ⟨result, w'⟩
  rw [hfinal] at hspec
  obtain ⟨rfl, hadds, hgone⟩ := hspec
  have hres : res = (.ok ⟨sha256Hex data, data.length⟩, w') := by
    simp only [res, storeStreaming, if_neg hdest]
    simp only [BlobOutcomes.allOk, leafStore] at hfinal ⊢
    simp only [hfinal]
  rw [hres]
  refine ⟨rfl, ?_⟩
  intro l k hsome
  rcases hadds l k hsome with hold | hnew
  · rcases set_isSome hold with ⟨rfl, rfl, -⟩ | hold
    · have hnone : w'.objects (r.leafOf key) (stagingBlobKey uuid) = none := hgone
      rw [hnone] at hsome
      cases hsome
    · exact .inl hold
  · exact .inr hnew

end Success

section Orphans
variable {β : Type} (r : Router β) (sha256Hex : Bytes → String)

/-- Another key of the same content is routed to the same backend. -/
def AnotherCopy (t : Tables) (key hash : String) : Prop :=
  ∃ other, other ≠ key ∧ t.refs.lookup other = some hash ∧ r.leafOf other = r.leafOf key

/-- The content a key is about to leave is still wanted where it is. -/
def Replaceable (t : Tables) (key newHash : String) : Prop :=
  ∀ hash, t.refs.lookup key = some hash → hash ≠ newHash → AnotherCopy r t key hash

/-- The content of a key about to be deleted is still wanted where it is, or nowhere. -/
def Deletable (t : Tables) (key : String) : Prop :=
  ∀ hash, t.refs.lookup key = some hash →
    AnotherCopy r t key hash ∨ ∀ other, other ≠ key → t.refs.lookup other ≠ some hash

/-- Every blob is the content of a key on its backend. -/
def NoOrphan (w : World β) (plain : Plain) : Prop :=
  ∀ leaf p, BlobName p → (w.objects leaf p).isSome = true →
    ∃ key data, plain key = some data ∧ p = contentKeyOf (sha256Hex data) ∧ r.leafOf key = leaf

variable {r sha256Hex} {w w' : World β} {plain : Plain}

theorem Stored.lookup_eq (h : Stored r sha256Hex w plain) {key hash : String}
    (hrow : w.tables.refs.lookup key = some hash) :
    ∃ data, plain key = some data ∧ sha256Hex data = hash := by
  rw [h.refs, Option.map_eq_some_iff] at hrow
  exact hrow

/-- The copy another key has of a content stays accounted for. -/
theorem AnotherCopy.kept (h : Stored r sha256Hex w plain) {key hash : String}
    (hcopy : AnotherCopy r w.tables key hash) (value : Option Bytes) :
    ∃ other data, Function.update plain key value other = some data ∧
      contentKeyOf hash = contentKeyOf (sha256Hex data) ∧ r.leafOf other = r.leafOf key := by
  obtain ⟨other, hne, hrow, hleaf⟩ := hcopy
  obtain ⟨data, hdata, hhash⟩ := h.lookup_eq hrow
  refine ⟨other, data, ?_, by rw [hhash], hleaf⟩
  rw [Function.update_of_ne hne]
  exact hdata

theorem NoOrphan.write (horphan : NoOrphan r sha256Hex w plain) (h : Stored r sha256Hex w plain)
    {key : String} {data : Bytes} (hrelease : Replaceable r w.tables key (sha256Hex data))
    (hadds : OnlyAdds w.objects w'.objects (r.leafOf key) (contentKeyOf (sha256Hex data))) :
    NoOrphan r sha256Hex w' (Function.update plain key (some data)) := by
  intro leaf p hp hsome
  rcases hadds leaf p hsome with hold | ⟨hleaf, hpath⟩
  · obtain ⟨k, d, hd, hpath, hleaf⟩ := horphan leaf p hp hold
    by_cases hk : k = key
    · subst hk
      by_cases hsame : sha256Hex d = sha256Hex data
      · exact ⟨k, data, by rw [Function.update_self], by rw [hpath, hsame], hleaf⟩
      · have hrow : w.tables.refs.lookup k = some (sha256Hex d) := by
          rw [h.refs, hd, Option.map_some]
        obtain ⟨other, d', hother, hpath', hleaf'⟩ :=
          (hrelease _ hrow hsame).kept h (some data)
        exact ⟨other, d', hother, by rw [hpath, hpath'], by rw [hleaf', hleaf]⟩
    · exact ⟨k, d, by rw [Function.update_of_ne hk, hd], hpath, hleaf⟩
  · exact ⟨key, data, by rw [Function.update_self], hpath, hleaf.symm⟩

variable [DecidableEq β]

/-- A change at a name that is no blob's leaves the blobs as they are. -/
theorem NoOrphan.of_set (horphan : NoOrphan r sha256Hex w plain) {t : Tables} {leaf : β}
    {key : String} (hkey : ¬ BlobName key) (value : Option Bytes) :
    NoOrphan r sha256Hex ⟨t, w.objects.set leaf key value⟩ plain := by
  intro l p hp hsome
  have hne : p ≠ key := by
    intro heq
    exact hkey (heq ▸ hp)
  have hold : (w.objects l p).isSome = true := by
    rw [← set_of_ne w.objects value hne]
    exact hsome
  exact horphan l p hp hold

theorem NoOrphan.delete (horphan : NoOrphan r sha256Hex w plain) (h : Stored r sha256Hex w plain)
    {key : String} (hkey : Logical key) (hrelease : Deletable r w.tables key) :
    NoOrphan r sha256Hex (delete r .allOk w key).2 (Function.update plain key none) := by
  have hdest : ¬ (stagedDestination key).isSome = true := by simp [hkey.2]
  cases hplain : plain key with
  | none =>
    have hsame : Function.update plain key none = plain := by
      rw [← hplain]
      exact Function.update_eq_self key plain
    rw [hsame]
    simp only [StorageRouter.delete, if_neg hdest, deleteDedupEntry, h.dedupRow_none hplain,
      BlobOutcomes.allOk, leafDelete]
    exact horphan.of_set hkey.1 none
  | some data =>
    have hrow : w.tables.refs.lookup key = some (sha256Hex data) := by
      rw [h.refs, hplain, Option.map_some]
    obtain ⟨t, hreleaseHash, -⟩ := deleteRef_spec h.counts hrow
    have hdelete : (StorageRouter.delete r .allOk w key).2 = ⟨t.forgetBackend key,
        if decide ((countValue (sha256Hex data) (w.tables.refs.erase key) : ℤ) ≤ 0) = true then
          w.objects.set (r.leafOf key) (contentKeyOf (sha256Hex data)) none
        else w.objects⟩ := by
      simp only [StorageRouter.delete, if_neg hdest, deleteDedupEntry, h.dedupRow hplain,
        hreleaseHash, Router.leafOf, BlobOutcomes.allOk, leafDelete]
    rw [hdelete]
    intro leaf p hp hsome
    have hold : (w.objects leaf p).isSome = true := by
      simp only at hsome
      split at hsome
      · exact isSome_of_removed hsome
      · exact hsome
    obtain ⟨k, d, hd, hpath, hleaf⟩ := horphan leaf p hp hold
    by_cases hk : k = key
    · subst hk
      obtain rfl : data = d := Option.some.inj (hplain.symm.trans hd)
      rcases hrelease _ hrow with hcopy | hlast
      · obtain ⟨other, d', hother, hpath', hleaf'⟩ := hcopy.kept h none
        exact ⟨other, d', hother, by rw [hpath, hpath'], by rw [hleaf', hleaf]⟩
      · -- the last reference anywhere: the blob was removed
        exfalso
        have hzero : countValue (sha256Hex data) (w.tables.refs.erase k) = 0 := by
          by_contra hne
          obtain ⟨other, hmem⟩ := (countValue_pos_iff _ _).mp (Nat.pos_of_ne_zero hne)
          have hlookup := (lookup_eq_some_iff _ _ _).mpr hmem
          rw [lookup_erase_eq] at hlookup
          split at hlookup
          · cases hlookup
          · rename_i hother
            exact hlast other hother hlookup
        simp only at hsome
        rw [if_pos (by rw [decide_eq_true_eq, hzero]; omega), ← hleaf, hpath, set_self] at hsome
        cases hsome
    · exact ⟨k, d, by rw [Function.update_of_ne hk, hd], hpath, hleaf⟩

end Orphans

section Runs
variable {β : Type} [DecidableEq β] (r : Router β) (sha256Hex : Bytes → String)

/-- The staging keys that bytes wait at, after a call. -/
def Op.awaiting (waiting : List String) : Op → List String
  | .store key _ _ => if (stagedDestination key).isSome then key :: waiting else waiting
  | .storeStreaming key _ _ => if (stagedDestination key).isSome then key :: waiting else waiting
  | .promote staged _ _ => waiting.filter (· ≠ staged)
  | .delete key => waiting.filter (· ≠ key)
  | .deleteByPrefix _ => waiting

structure Tracked (β : Type) where
  traced : Traced β
  waiting : List String

def Tracked.empty : Tracked β := ⟨Traced.empty, []⟩

def trackedStep (s : Tracked β) (e : Event) : Tracked β :=
  ⟨step r sha256Hex s.traced e, e.op.awaiting s.waiting⟩

/-- A store, promotion or delete of which nothing fails. -/
def Smooth (e : Event) : Prop :=
  e.outcomes = (fun _ => .allOk) ∧ ∀ lead, e.op ≠ .deleteByPrefix lead

/-- The call leaves no content behind that no key on the backend has. -/
def LeavesNothing (s : Traced β) (e : Event) : Prop :=
  match e.op with
  | .store key data _ => Replaceable r s.world.tables key (sha256Hex data)
  | .storeStreaming key _ data => Replaceable r s.world.tables key (sha256Hex data)
  | .promote _ key outcome => Replaceable r s.world.tables key outcome.contentHash
  | .delete key => Deletable r s.world.tables key
  | .deleteByPrefix _ => True

/-- Every object that is no blob is at a staging key that waits, on that key's backend. -/
def OnlyWaiting (w : World β) (waiting : List String) : Prop :=
  ∀ leaf p, ¬ BlobName p → (w.objects leaf p).isSome = true → p ∈ waiting ∧ leaf = r.leafOf p

structure Tidy (s : Tracked β) : Prop where
  stored : Stored r sha256Hex s.traced.world s.traced.plain
  noOrphan : NoOrphan r sha256Hex s.traced.world s.traced.plain
  onlyWaiting : OnlyWaiting r s.traced.world s.waiting

variable {r sha256Hex}

omit [DecidableEq β] in
theorem OnlyWaiting.of_adds {w w' : World β} {waiting : List String} {leaf : β} {hash : String}
    (h : OnlyWaiting r w waiting) (hadds : OnlyAdds w.objects w'.objects leaf (contentKeyOf hash)) :
    OnlyWaiting r w' waiting := by
  intro l p hp hsome
  rcases hadds l p hsome with hold | ⟨-, hpath⟩
  · exact h l p hp hold
  · exact absurd (hpath ▸ blobName_contentKeyOf hash) hp

theorem OnlyWaiting.of_staged {w : World β} {waiting : List String} {key : String} {data : Bytes}
    {t : Tables} (h : OnlyWaiting r w waiting) :
    OnlyWaiting r ⟨t, w.objects.set (r.leafOf key) key (some data)⟩ (key :: waiting) := by
  intro l p hp hsome
  rcases set_isSome hsome with ⟨hl, hpath, -⟩ | hold
  · exact ⟨by rw [hpath]; exact List.mem_cons_self, by rw [hl, hpath]⟩
  · obtain ⟨hmem, hleaf⟩ := h l p hp hold
    exact ⟨List.mem_cons_of_mem key hmem, hleaf⟩

omit [DecidableEq β] in
/-- A key that holds nothing waits no longer. -/
theorem OnlyWaiting.filter {w : World β} {waiting : List String} {key : String}
    (h : OnlyWaiting r w waiting) (hnone : w.objects (r.leafOf key) key = none) :
    OnlyWaiting r w (waiting.filter (· ≠ key)) := by
  intro l p hp hsome
  obtain ⟨hmem, hleaf⟩ := h l p hp hsome
  refine ⟨List.mem_filter.mpr ⟨hmem, ?_⟩, hleaf⟩
  rw [decide_eq_true_eq]
  intro heq
  rw [hleaf, heq, hnone] at hsome
  cases hsome

omit [DecidableEq β] in
/-- Content written under a key that left nothing behind. -/
theorem Tidy.written {s s' : Tracked β} (h : Tidy r sha256Hex s) {key : String} {data : Bytes}
    (hstored : Stored r sha256Hex s'.traced.world s'.traced.plain)
    (hplain : s'.traced.plain = Function.update s.traced.plain key (some data))
    (hrelease : Replaceable r s.traced.world.tables key (sha256Hex data))
    (hadds : OnlyAdds s.traced.world.objects s'.traced.world.objects (r.leafOf key)
      (contentKeyOf (sha256Hex data)))
    (hwaiting : OnlyWaiting r s'.traced.world s'.waiting) : Tidy r sha256Hex s' := by
  refine ⟨hstored, ?_, hwaiting⟩
  rw [hplain]
  exact h.noOrphan.write h.stored hrelease hadds

/-- Bytes left at a staging key, which waits from then on. -/
theorem Tidy.staged {s : Tracked β} (h : Tidy r sha256Hex s)
    (hslash : ∀ data, '/' ∉ (sha256Hex data).toList) {key : String} (hkey : ¬ BlobName key)
    (hdest : (stagedDestination key).isSome = true) (data : Bytes) :
    Tidy r sha256Hex
      ⟨⟨⟨s.traced.world.tables, s.traced.world.objects.set (r.leafOf key) key (some data)⟩,
        s.traced.plain⟩, key :: s.waiting⟩ where
  stored := h.stored.of_keeps (keeps_setStaging hslash _ _ (.inr hdest) _)
  noOrphan := h.noOrphan.of_set hkey _
  onlyWaiting := h.onlyWaiting.of_staged

/-- A delete adds no object, and takes what is at a staging key. -/
theorem isSome_of_deleted {s : Tracked β} (h : Tidy r sha256Hex s) {key : String}
    {l : β} {p : String}
    (hsome : ((delete r .allOk s.traced.world key).2.objects l p).isSome = true) :
    (s.traced.world.objects l p).isSome = true ∧
      ((stagedDestination key).isSome = true → ¬ (l = r.leafOf key ∧ p = key)) := by
  by_cases hdest : (stagedDestination key).isSome = true
  · simp only [delete, if_pos hdest, BlobOutcomes.allOk, leafDelete] at hsome
    refine ⟨isSome_of_removed hsome, fun _ hsame => ?_⟩
    rw [hsame.1, hsame.2, set_self] at hsome
    cases hsome
  · refine ⟨?_, fun hstaged => absurd hstaged hdest⟩
    cases hrow : s.traced.plain key with
    | none =>
      simp only [delete, if_neg hdest, deleteDedupEntry, h.stored.dedupRow_none hrow,
        BlobOutcomes.allOk, leafDelete] at hsome
      exact isSome_of_removed hsome
    | some data =>
      have hlookup : s.traced.world.tables.refs.lookup key = some (sha256Hex data) := by
        rw [h.stored.refs, hrow, Option.map_some]
      obtain ⟨t, hreleaseHash, -⟩ := deleteRef_spec h.stored.counts hlookup
      simp only [delete, if_neg hdest, deleteDedupEntry, h.stored.dedupRow hrow, hreleaseHash,
        BlobOutcomes.allOk, leafDelete] at hsome
      split at hsome
      · exact isSome_of_removed hsome
      · exact hsome

section Hashes
variable (hinj : Function.Injective sha256Hex) (hslash : ∀ data, '/' ∉ (sha256Hex data).toList)
include hinj hslash

theorem tidy_store {s : Tracked β} (h : Tidy r sha256Hex s) {key : String} (hkey : ¬ BlobName key)
    {data : Bytes} {size : Option ℕ}
    (hrelease : Replaceable r s.traced.world.tables key (sha256Hex data)) :
    Tidy r sha256Hex (trackedStep r sha256Hex s ⟨.store key data size, fun _ => .allOk⟩) := by
  have hstored := step_stored hinj hslash s.traced ⟨.store key data size, fun _ => .allOk⟩
    h.stored hkey
  by_cases hdest : (stagedDestination key).isSome = true
  · have hstep : trackedStep r sha256Hex s ⟨.store key data size, fun _ => .allOk⟩ =
        ⟨⟨⟨s.traced.world.tables, s.traced.world.objects.set (r.leafOf key) key (some data)⟩,
          s.traced.plain⟩, key :: s.waiting⟩ := by
      simp only [trackedStep, step, perform, store, if_pos hdest, BlobOutcomes.allOk, leafStore,
        settle, Op.applyPlain, Plain.stored, Op.awaiting]
    rw [hstep]
    exact h.staged hslash hkey hdest data
  · have hlogical : Logical key := ⟨hkey, by simpa using hdest⟩
    obtain ⟨hok, hadds⟩ := store_ok h.stored hlogical data size
    have hplain : (trackedStep r sha256Hex s ⟨.store key data size, fun _ => .allOk⟩).traced.plain =
        Function.update s.traced.plain key (some data) := by
      simp only [trackedStep, step, perform, hok, settle, Op.applyPlain, Plain.stored,
        if_neg hdest]
    have hwaiting : (trackedStep r sha256Hex s ⟨.store key data size, fun _ => .allOk⟩).waiting =
        s.waiting := by
      simp only [trackedStep, Op.awaiting, if_neg hdest]
    refine h.written hstored hplain hrelease hadds ?_
    rw [hwaiting]
    exact h.onlyWaiting.of_adds hadds

theorem tidy_storeStreaming {s : Tracked β} (h : Tidy r sha256Hex s) {key uuid : String}
    (hkey : ¬ BlobName key) {data : Bytes}
    (hrelease : Replaceable r s.traced.world.tables key (sha256Hex data)) :
    Tidy r sha256Hex
      (trackedStep r sha256Hex s ⟨.storeStreaming key uuid data, fun _ => .allOk⟩) := by
  have hstored := step_stored hinj hslash s.traced ⟨.storeStreaming key uuid data, fun _ => .allOk⟩
    h.stored hkey
  by_cases hdest : (stagedDestination key).isSome = true
  · have hstep : trackedStep r sha256Hex s ⟨.storeStreaming key uuid data, fun _ => .allOk⟩ =
        ⟨⟨⟨s.traced.world.tables, s.traced.world.objects.set (r.leafOf key) key (some data)⟩,
          s.traced.plain⟩, key :: s.waiting⟩ := by
      simp only [trackedStep, step, perform, storeStreaming, if_pos hdest, BlobOutcomes.allOk,
        leafStore, Except.map, settle, Op.applyPlain, Plain.stored, Op.awaiting]
    rw [hstep]
    exact h.staged hslash hkey hdest data
  · have hlogical : Logical key := ⟨hkey, by simpa using hdest⟩
    obtain ⟨hok, hadds⟩ := storeStreaming_ok hslash h.stored hlogical uuid data
    have hplain : (trackedStep r sha256Hex s
          ⟨.storeStreaming key uuid data, fun _ => .allOk⟩).traced.plain =
        Function.update s.traced.plain key (some data) := by
      simp only [trackedStep, step, perform, hok, Except.map, settle, Op.applyPlain, Plain.stored,
        if_neg hdest]
    have hwaiting : (trackedStep r sha256Hex s
          ⟨.storeStreaming key uuid data, fun _ => .allOk⟩).waiting = s.waiting := by
      simp only [trackedStep, Op.awaiting, if_neg hdest]
    refine h.written hstored hplain hrelease hadds ?_
    rw [hwaiting]
    exact h.onlyWaiting.of_adds hadds

theorem tidy_promote {s : Tracked β} (h : Tidy r sha256Hex s) {staged key : String}
    {outcome : StoreOutcome}
    (hvalid : Valid r sha256Hex s.traced ⟨.promote staged key outcome, fun _ => .allOk⟩)
    (hrelease : Replaceable r s.traced.world.tables key outcome.contentHash) :
    Tidy r sha256Hex
      (trackedStep r sha256Hex s ⟨.promote staged key outcome, fun _ => .allOk⟩) := by
  have hstored := step_stored hinj hslash s.traced ⟨.promote staged key outcome, fun _ => .allOk⟩
    h.stored hvalid
  obtain ⟨hkey, hdest, data, hdata, rfl⟩ := hvalid
  have hstaged : Staging staged := .inr (by simp [hdest])
  have hleaf := leafOf_staged r hdest hkey.2
  have hhere : s.traced.world.objects (r.leafOf key) staged = some data := hleaf ▸ hdata
  obtain ⟨hok, hadds, hgone⟩ := finalizeStaged_ok h.stored key hstaged hhere
  have hplain : (trackedStep r sha256Hex s ⟨.promote staged key
        ⟨sha256Hex data, data.length⟩, fun _ => .allOk⟩).traced.plain =
      Function.update s.traced.plain key (some data) := by
    simp only [trackedStep, step, perform, promote, hok, settle, Op.applyPlain, hdata]
  refine h.written hstored hplain hrelease hadds ?_
  exact OnlyWaiting.filter (h.onlyWaiting.of_adds hadds) (by rw [hleaf]; exact hgone)

theorem tidy_delete {s : Tracked β} (h : Tidy r sha256Hex s) {key : String}
    (hkey : ¬ BlobName key) (hrelease : Deletable r s.traced.world.tables key) :
    Tidy r sha256Hex (trackedStep r sha256Hex s ⟨.delete key, fun _ => .allOk⟩) := by
  have hstored := step_stored hinj hslash s.traced ⟨.delete key, fun _ => .allOk⟩ h.stored hkey
  have hplain := (delete_spec hslash h.stored .allOk hkey).2
  have hnext : (trackedStep r sha256Hex s ⟨.delete key, fun _ => .allOk⟩).traced.plain =
      Function.update s.traced.plain key none := by
    simp only [trackedStep, step, perform, settle_map, Op.applyPlain]
    cases hresult : (delete r .allOk s.traced.world key).1 with
    | ok existed => rfl
    | error err =>
      show s.traced.plain = Function.update s.traced.plain key none
      rw [← hplain err hresult]
      exact (Function.update_eq_self key s.traced.plain).symm
  refine ⟨hstored, ?_, ?_⟩
  · rw [hnext]
    by_cases hdest : (stagedDestination key).isSome = true
    · have hsame : Function.update s.traced.plain key none = s.traced.plain := by
        have hnone : s.traced.plain key = none := by
          cases hrow : s.traced.plain key with
          | none => rfl
          | some data =>
            rw [(h.stored.logical key data hrow).2] at hdest
            cases hdest
        rw [← hnone]
        exact Function.update_eq_self key s.traced.plain
      rw [hsame]
      intro leaf p hp hsome
      exact h.noOrphan leaf p hp (isSome_of_deleted h hsome).1
    · exact h.noOrphan.delete h.stored ⟨hkey, by simpa using hdest⟩ hrelease
  · intro l p hp hsome
    obtain ⟨hold, hgone⟩ := isSome_of_deleted h hsome
    obtain ⟨hmem, hleaf⟩ := h.onlyWaiting l p hp hold
    refine ⟨List.mem_filter.mpr ⟨hmem, ?_⟩, hleaf⟩
    rw [decide_eq_true_eq]
    intro heq
    subst heq
    by_cases hdest : (stagedDestination p).isSome = true
    · exact hgone hdest ⟨hleaf, rfl⟩
    · have hnone := h.stored.object_none ⟨hp, by simpa using hdest⟩ l
      rw [hnone] at hold
      cases hold

theorem tidy_step (s : Tracked β) (e : Event) (h : Tidy r sha256Hex s)
    (hguard : Valid r sha256Hex s.traced e ∧ Smooth e ∧ LeavesNothing r sha256Hex s.traced e) :
    Tidy r sha256Hex (trackedStep r sha256Hex s e) := by
  obtain ⟨op, outcomes⟩ := e
  obtain ⟨hvalid, ⟨houtcomes, hop⟩, hleaves⟩ := hguard
  obtain rfl : outcomes = fun _ => .allOk := houtcomes
  cases op with
  | store key data size => exact tidy_store hinj hslash h hvalid hleaves
  | storeStreaming key uuid data => exact tidy_storeStreaming hinj hslash h hvalid hleaves
  | promote staged key outcome => exact tidy_promote hinj hslash h hvalid hleaves
  | delete key => exact tidy_delete hinj hslash h hvalid hleaves
  | deleteByPrefix lead => exact absurd rfl (hop lead)

end Hashes

omit [DecidableEq β] in
theorem tidy_empty : Tidy r sha256Hex Tracked.empty where
  stored := stored_empty
  noOrphan := by
    intro leaf p _ hsome
    cases hsome
  onlyWaiting := by
    intro leaf p _ hsome
    cases hsome

/-- The backend recorded for a key. -/
def recordedLeaf (r : Router β) (t : Tables) (key : String) : Option β :=
  (t.storage.lookup key).map fun row => r.resolveBackend row.backendName

omit [DecidableEq β] in
theorem Stored.recordedLeaf {w : World β} {plain : Plain} (h : Stored r sha256Hex w plain)
    {key : String} {data : Bytes} (hdata : plain key = some data) :
    recordedLeaf r w.tables key = some (r.leafOf key) := by
  have hrecorded := h.recorded key
  rw [hdata, Option.map_some, Option.map_eq_some_iff] at hrecorded
  obtain ⟨row, hrow, hname⟩ := hrecorded
  simp [StorageRouter.recordedLeaf, hrow, hname, Router.leafOf]

/-- The blobs of every backend are exactly the contents of the keys recorded on it, and a
staged object is one that waits for its promotion. -/
def ExactBlobs (r : Router β) (sha256Hex : Bytes → String) (s : Tracked β) : Prop :=
  (∀ leaf hash, (s.traced.world.objects leaf (contentKeyOf hash)).isSome = true ↔
    ∃ key, s.traced.world.tables.refs.lookup key = some hash ∧
      recordedLeaf r s.traced.world.tables key = some leaf) ∧
  ∀ leaf p, (s.traced.world.objects leaf p).isSome = true →
    (∃ data, p = contentKeyOf (sha256Hex data)) ∨ p ∈ s.waiting

omit [DecidableEq β] in
theorem Tidy.exactBlobs {s : Tracked β} (h : Tidy r sha256Hex s) : ExactBlobs r sha256Hex s := by
  constructor
  · intro leaf hash
    constructor
    · intro hsome
      obtain ⟨key, data, hdata, hpath, hleaf⟩ :=
        h.noOrphan leaf _ (blobName_contentKeyOf hash) hsome
      refine ⟨key, ?_, ?_⟩
      · rw [h.stored.refs, hdata, Option.map_some, contentKeyOf_injective hpath]
      · rw [h.stored.recordedLeaf hdata, hleaf]
    · intro hex
      obtain ⟨key, hrow, hleaf⟩ := hex
      obtain ⟨data, hdata, rfl⟩ := h.stored.lookup_eq hrow
      rw [h.stored.recordedLeaf hdata] at hleaf
      rw [← Option.some.inj hleaf, h.stored.blob key data hdata]
      rfl
  · intro leaf p hsome
    by_cases hp : BlobName p
    · obtain ⟨-, data, -, hpath, -⟩ := h.noOrphan leaf p hp hsome
      exact .inl ⟨data, hpath⟩
    · exact .inr (h.onlyWaiting leaf p hp hsome).1

/-- Where no call leaves a content behind on its backend, no blob accumulates. -/
theorem no_blob_accumulates (r : Router β) (sha256Hex : Bytes → String)
    (hinj : Function.Injective sha256Hex) (hslash : ∀ data, '/' ∉ (sha256Hex data).toList)
    (events : List Event)
    (hguard : Runs.Guarded (trackedStep r sha256Hex)
      (fun s e => Valid r sha256Hex s.traced e ∧ Smooth e ∧ LeavesNothing r sha256Hex s.traced e)
      Tracked.empty events) :
    ExactBlobs r sha256Hex (Runs.run (trackedStep r sha256Hex) Tracked.empty events) :=
  (Runs.run_keeps _ (Tidy r sha256Hex) (tidy_step hinj hslash) Tracked.empty events tidy_empty
    hguard).exactBlobs

theorem smooth_allOk {op : Op} (hop : ∀ lead, op ≠ .deleteByPrefix lead) :
    Smooth ⟨op, fun _ => .allOk⟩ :=
  ⟨rfl, hop⟩

/-- Two keys of one backend share their bytes; one is replaced, and the other deleted. -/
def releasedEvents : List Event :=
  [⟨.store "artifact:npm/a" [97] none, fun _ => .allOk⟩,
    ⟨.store "artifact:npm/b" [97] none, fun _ => .allOk⟩,
    ⟨.store "artifact:npm/a" [98] none, fun _ => .allOk⟩,
    ⟨.delete "artifact:npm/b", fun _ => .allOk⟩]

theorem releasedRefs : (Runs.run (trackedStep sampleRouter sampleSha) Tracked.empty
      (releasedEvents.take 3)).traced.world.tables.refs.entries =
    [⟨"artifact:npm/a", sampleSha [98]⟩, ⟨"artifact:npm/b", sampleSha [97]⟩] := by
  decide

theorem last_reference_takes_its_blob :
    ExactBlobs sampleRouter sampleSha
      (Runs.run (trackedStep sampleRouter sampleSha) Tracked.empty releasedEvents) := by
  apply no_blob_accumulates sampleRouter sampleSha sampleSha_injective sampleSha_slash
  refine ⟨⟨?_, smooth_allOk (by simp), ?_⟩, ⟨?_, smooth_allOk (by simp), ?_⟩,
    ⟨?_, smooth_allOk (by simp), ?_⟩, ⟨?_, smooth_allOk (by simp), ?_⟩, trivial⟩
  · show ¬ BlobName _
    decide
  · intro hash h
    cases h
  · show ¬ BlobName _
    decide
  · intro hash h
    cases h
  · show ¬ BlobName _
    decide
  · intro hash h _
    refine ⟨"artifact:npm/b", by decide, ?_, by decide⟩
    rw [← h]
    decide
  · show ¬ BlobName _
    decide
  · intro hash h
    right
    intro other hne h'
    have hmem : (⟨other, hash⟩ : Sigma fun _ : String => String) ∈ _ :=
      (lookup_eq_some_iff _ _ _).mp h'
    have hhere : (⟨"artifact:npm/b", hash⟩ : Sigma fun _ : String => String) ∈ _ :=
      (lookup_eq_some_iff _ _ _).mp h
    have hrefs := releasedRefs
    simp only [releasedEvents, List.take, Runs.run, List.foldl] at hrefs
    rw [hrefs] at hmem hhere
    simp only [List.mem_cons, Sigma.mk.injEq, heq_eq_eq, List.not_mem_nil, or_false] at hmem hhere
    rcases hmem with ⟨-, rfl⟩ | ⟨hb, -⟩
    · rcases hhere with ⟨hname, -⟩ | ⟨-, hhash⟩
      · exact absurd hname (by decide)
      · exact absurd hhash (by decide)
    · exact hne hb

/-- One key, whose bytes are replaced. -/
def replacedEvents : List Event :=
  [⟨.store "artifact:npm/a" [97] none, fun _ => .allOk⟩,
    ⟨.store "artifact:npm/a" [98] none, fun _ => .allOk⟩]

/-- The replaced content keeps its blob, though no key has it. -/
theorem replaced_blob_remains :
    Runs.Guarded (trackedStep sampleRouter sampleSha)
        (fun s e => Valid sampleRouter sampleSha s.traced e ∧ Smooth e) Tracked.empty
        replacedEvents ∧
      ¬ ExactBlobs sampleRouter sampleSha
        (Runs.run (trackedStep sampleRouter sampleSha) Tracked.empty replacedEvents) := by
  constructor
  · refine ⟨⟨?_, smooth_allOk (by simp)⟩, ⟨?_, smooth_allOk (by simp)⟩, trivial⟩
    · show ¬ BlobName _
      decide
    · show ¬ BlobName _
      decide
  · intro hexact
    have hsome : ((Runs.run (trackedStep sampleRouter sampleSha) Tracked.empty
        replacedEvents).traced.world.objects false (contentKeyOf (sampleSha [97]))).isSome = true := by
      decide
    obtain ⟨key, hrow, -⟩ := (hexact.1 false (sampleSha [97])).mp hsome
    have hrefs : (Runs.run (trackedStep sampleRouter sampleSha) Tracked.empty
          replacedEvents).traced.world.tables.refs.entries =
        [⟨"artifact:npm/a", sampleSha [98]⟩] := by
      decide
    have hmem := (lookup_eq_some_iff _ _ _).mp hrow
    rw [hrefs] at hmem
    simp only [List.mem_cons, Sigma.mk.injEq, heq_eq_eq, List.not_mem_nil, or_false] at hmem
    exact absurd hmem.2 (by decide)

end Runs

end BatleHub.StorageRouter
