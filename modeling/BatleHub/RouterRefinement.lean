import BatleHub.StoredContent

/-!
The router as a plain store of keys and bytes. The simulation relation says which row,
routing record and blob stand for a key, and that the count of a hash is the number of
its rows; every branch of every operation keeps it, whichever backend operation fails.
-/
namespace BatleHub.StorageRouter

open Lib AssocMap

section Counts

/-- The row of the hash counts its references; a hash without references has no row. -/
def CountedAt (t : Tables) (hash : String) : Prop :=
  (countValue hash t.refs = 0 ∧ t.index.lookup hash = none) ∨
    (0 < countValue hash t.refs ∧ ∃ row, t.index.lookup hash = some row ∧
      row.contentKey = contentKeyOf hash ∧ row.refCount = countValue hash t.refs)

/-- The row of the hash still counts one reference more. -/
def Overcounted (t : Tables) (hash : String) : Prop :=
  ∃ row, t.index.lookup hash = some row ∧ row.contentKey = contentKeyOf hash ∧
    row.refCount = countValue hash t.refs + 1

variable {t : Tables}

theorem referenced_iff (t : Tables) (hash : String) :
    t.referenced hash = true ↔ 0 < countValue hash t.refs := by
  rw [countValue_pos_iff]
  simp only [Tables.referenced, List.any_eq_true, decide_eq_true_eq]
  constructor
  · intro hex
    obtain ⟨⟨key, v⟩, he, rfl⟩ := hex
    exact ⟨key, he⟩
  · intro hex
    obtain ⟨key, he⟩ := hex
    exact ⟨⟨key, hash⟩, he, rfl⟩

theorem countValue_pos_of_lookup {key hash : String} (h : t.refs.lookup key = some hash) :
    0 < countValue hash t.refs :=
  (countValue_pos_iff hash t.refs).mpr ⟨key, (lookup_eq_some_iff _ _ _).mp h⟩

theorem CountedAt.row_of_lookup {key hash : String} (hcount : CountedAt t hash)
    (h : t.refs.lookup key = some hash) :
    ∃ row, t.index.lookup hash = some row ∧ row.contentKey = contentKeyOf hash ∧
      row.refCount = countValue hash t.refs := by
  have hpos := countValue_pos_of_lookup h
  rcases hcount with ⟨hzero, -⟩ | ⟨-, hrow⟩
  · omega
  · exact hrow

/-- Taking off the reference that is counted too much. -/
theorem releaseHash_spec {hash : String} (hothers : ∀ v, v ≠ hash → CountedAt t v)
    (hover : Overcounted t hash) :
    ∃ t', t.releaseHash hash = .ok ((countValue hash t.refs : ℤ), t') ∧ t'.refs = t.refs ∧
      t'.storage = t.storage ∧ ∀ v, CountedAt t' v := by
  obtain ⟨row, hrow, hkey, hcount⟩ := hover
  have hcount' : row.refCount - 1 = countValue hash t.refs := by omega
  by_cases hzero : countValue hash t.refs = 0
  · have hfree : t.referenced hash = false := by
      rw [Bool.eq_false_iff, ne_eq, referenced_iff]
      omega
    refine ⟨{ t with index := t.index.erase hash }, ?_, rfl, rfl, ?_⟩
    · simp only [Tables.releaseHash, hrow, hcount', hfree]
      rw [if_pos (by omega)]
      rfl
    · intro v
      by_cases hv : v = hash
      · subst hv
        exact .inl ⟨hzero, by simp⟩
      · have hold := hothers v hv
        simpa [CountedAt, hv] using hold
  · refine ⟨{ t with index := t.index.insert hash { row with refCount := row.refCount - 1 } },
      ?_, rfl, rfl, ?_⟩
    · simp only [Tables.releaseHash, hrow]
      rw [if_neg (by omega), hcount']
    · intro v
      by_cases hv : v = hash
      · subst hv
        exact .inr ⟨Nat.pos_of_ne_zero hzero, { row with refCount := row.refCount - 1 }, by simp,
          hkey, hcount'⟩
      · have hold := hothers v hv
        simpa [CountedAt, hv] using hold

/-- The statements of a new hash do not fail, and the counts come out right. -/
theorem newHashTables_spec (hcounts : ∀ v, CountedAt t v) (key hash : String) (size : Option ℕ)
    (hnew : t.refs.lookup key ≠ some hash) :
    ∃ t', newHashTables t ⟨key, hash, contentKeyOf hash, size⟩ (t.refs.lookup key) =
        .ok ((countValue hash t.refs : ℤ) + 1, t') ∧
      t'.refs = t.refs.insert key hash ∧ t'.storage = t.storage ∧ ∀ v, CountedAt t' v := by
  -- the index after the upsert has the new count, and every other row as it was
  obtain ⟨index, hupsert, hrow, hother⟩ : ∃ index,
      t.upsertIndex hash (contentKeyOf hash) size =
        ((countValue hash t.refs : ℤ) + 1, { t with index := index }) ∧
      (∃ row, index.lookup hash = some row ∧ row.contentKey = contentKeyOf hash ∧
        row.refCount = countValue hash t.refs + 1) ∧
      ∀ v, v ≠ hash → index.lookup v = t.index.lookup v := by
    rcases hcounts hash with ⟨hzero, hnone⟩ | ⟨-, row, hsome, hkey, hcount⟩
    · refine ⟨t.index.insert hash ⟨contentKeyOf hash, 1, size⟩, ?_, ?_, ?_⟩
      · simp [Tables.upsertIndex, hnone, hzero]
      · exact ⟨⟨contentKeyOf hash, 1, size⟩, by simp, rfl, by simp [hzero]⟩
      · intro v hv
        simp [hv]
    · refine ⟨t.index.insert hash { row with refCount := row.refCount + 1 }, ?_, ?_, ?_⟩
      · simp [Tables.upsertIndex, hsome, hcount]
      · exact ⟨{ row with refCount := row.refCount + 1 }, by simp, hkey, by simp [hcount]⟩
      · intro v hv
        simp [hv]
  have herase := fun v => countValue_erase v t.refs key
  have hinsert := fun v => countValue_insert v hash t.refs key
  simp only [newHashTables, hupsert, Tables.upsertRef]
  cases hexisting : t.refs.lookup key with
  | none =>
    refine ⟨{ t with refs := t.refs.insert key hash, index := index }, rfl, rfl, rfl, ?_⟩
    intro v
    have hcount : countValue v (t.refs.insert key hash) =
        countValue v t.refs + if hash = v then 1 else 0 := by
      rw [hinsert, herase, hexisting]
      simp
    by_cases hv : v = hash
    · subst hv
      obtain ⟨row, hlookup, hkey, hrefCount⟩ := hrow
      refine .inr ⟨?_, row, hlookup, hkey, ?_⟩
      · rw [hcount, if_pos rfl]
        omega
      · rw [hcount, if_pos rfl, hrefCount]
        omega
    · have hold := hcounts v
      simpa [CountedAt, hcount, hother v hv, Ne.symm hv] using hold
  | some oldHash =>
    have hne : oldHash ≠ hash := by
      intro heq
      exact hnew (by rw [hexisting, heq])
    have hcount : ∀ v, countValue v (t.refs.insert key hash) + (if oldHash = v then 1 else 0) =
        countValue v t.refs + if hash = v then 1 else 0 := by
      intro v
      rw [hinsert, herase, hexisting]
      simp only [Option.some.injEq]
      omega
    let t₁ : Tables := { t with refs := t.refs.insert key hash, index := index }
    have hothers : ∀ v, v ≠ oldHash → CountedAt t₁ v := by
      intro v hv
      have hcountv := hcount v
      rw [if_neg (Ne.symm hv)] at hcountv
      by_cases hvh : v = hash
      · subst hvh
        rw [if_pos rfl] at hcountv
        obtain ⟨row, hlookup, hkey, hrefCount⟩ := hrow
        refine .inr ⟨?_, row, hlookup, hkey, ?_⟩
        · show 0 < countValue v (t.refs.insert key v)
          omega
        · show row.refCount = countValue v (t.refs.insert key v)
          omega
      · rw [if_neg (Ne.symm hvh)] at hcountv
        have hsame : countValue v (t.refs.insert key hash) = countValue v t.refs := by omega
        have hold := hcounts v
        simpa [CountedAt, t₁, hsame, hother v hvh] using hold
    have hover : Overcounted t₁ oldHash := by
      obtain ⟨row, hlookup, hkey, hrefCount⟩ := (hcounts oldHash).row_of_lookup hexisting
      have hcountOld := hcount oldHash
      rw [if_pos rfl, if_neg (Ne.symm hne)] at hcountOld
      refine ⟨row, (hother oldHash hne).trans hlookup, hkey, ?_⟩
      show row.refCount = countValue oldHash (t.refs.insert key hash) + 1
      omega
    obtain ⟨t', hrelease, hrefs, hstorage, hcounts'⟩ := releaseHash_spec hothers hover
    refine ⟨t', ?_, hrefs, hstorage, hcounts'⟩
    simp only [t₁] at hrelease
    simp only [hrelease]

/-- Deleting a row and releasing the hash it had. -/
theorem deleteRef_spec (hcounts : ∀ v, CountedAt t v) {key hash : String}
    (hrow : t.refs.lookup key = some hash) :
    ∃ t', (t.deleteRef key).releaseHash hash =
        .ok ((countValue hash (t.refs.erase key) : ℤ), t') ∧
      t'.refs = t.refs.erase key ∧ t'.storage = t.storage ∧ ∀ v, CountedAt t' v := by
  apply releaseHash_spec
  · intro v hv
    have hcount := countValue_erase v t.refs key
    rw [hrow, if_neg (by simpa using Ne.symm hv)] at hcount
    have hold := hcounts v
    simpa [CountedAt, Tables.deleteRef, hcount] using hold
  · obtain ⟨row, hlookup, hkey, hrefCount⟩ := (hcounts hash).row_of_lookup hrow
    have hcount := countValue_erase hash t.refs key
    rw [hrow, if_pos rfl] at hcount
    refine ⟨row, hlookup, hkey, ?_⟩
    show row.refCount = countValue hash (t.refs.erase key) + 1
    omega

end Counts

section Simulation
variable {β : Type} (r : Router β) (sha256Hex : Bytes → String)

/-- Keys and bytes. -/
abbrev Plain := String → Option Bytes

/-- The world stands for the plain store. -/
structure Stored (w : World β) (plain : Plain) : Prop where
  refs : ∀ key, w.tables.refs.lookup key = (plain key).map sha256Hex
  logical : ∀ key data, plain key = some data → Logical key
  blob : ∀ key data, plain key = some data →
    w.objects (r.leafOf key) (contentKeyOf (sha256Hex data)) = some data
  recorded : ∀ key, (w.tables.storage.lookup key).map StorageRow.backendName =
    (plain key).map fun _ => r.backendNameForKey key
  counts : ∀ hash, CountedAt w.tables hash
  objects : ObjectsOk sha256Hex w.objects

variable {r sha256Hex} {w : World β} {plain : Plain}

theorem stored_empty : Stored r sha256Hex World.empty fun _ => none where
  refs := fun _ => rfl
  logical := by
    intro key data h
    cases h
  blob := by
    intro key data h
    cases h
  recorded := fun _ => rfl
  counts := fun _ => .inl ⟨rfl, rfl⟩
  objects := by
    intro leaf key data h
    cases h

theorem Stored.of_keeps (h : Stored r sha256Hex w plain) {objs : Objects β}
    (hkeeps : Keeps sha256Hex w.objects objs) : Stored r sha256Hex ⟨w.tables, objs⟩ plain where
  refs := h.refs
  logical := h.logical
  blob := fun key data hdata => hkeeps.content _ _ (h.blob key data hdata)
  recorded := h.recorded
  counts := h.counts
  objects := h.objects.of_keeps hkeeps

/-- A row, a record and a blob for the key stand for the bytes stored under it. -/
theorem Stored.write (h : Stored r sha256Hex w plain) {t : Tables} {objs : Objects β}
    {key : String} {data : Bytes} {size : Option ℕ} (hkey : Logical key)
    (hrefs : ∀ k, t.refs.lookup k = if k = key then some (sha256Hex data)
      else w.tables.refs.lookup k)
    (hstorage : t.storage = w.tables.storage) (hcounts : ∀ hash, CountedAt t hash)
    (hkeeps : Keeps sha256Hex w.objects objs)
    (hblob : objs (r.leafOf key) (contentKeyOf (sha256Hex data)) = some data) :
    Stored r sha256Hex ⟨t.recordBackend key (r.backendNameForKey key) size, objs⟩
      (Function.update plain key (some data)) where
  refs := by
    intro k
    show t.refs.lookup k = _
    rw [hrefs]
    by_cases hk : k = key
    · subst hk
      simp
    · rw [if_neg hk, Function.update_of_ne hk, h.refs]
  logical := by
    intro k d hd
    by_cases hk : k = key
    · rwa [hk]
    · rw [Function.update_of_ne hk] at hd
      exact h.logical k d hd
  blob := by
    intro k d hd
    by_cases hk : k = key
    · subst hk
      rw [Function.update_self] at hd
      rw [← Option.some.inj hd]
      exact hblob
    · rw [Function.update_of_ne hk] at hd
      exact hkeeps.content _ _ (h.blob k d hd)
  recorded := by
    intro k
    simp only [Tables.recordBackend, lookup_insert_eq, hstorage]
    by_cases hk : k = key
    · subst hk
      simp
    · rw [if_neg hk, Function.update_of_ne hk]
      exact h.recorded k
  counts := hcounts
  objects := h.objects.of_keeps hkeeps

/-- What a call leaves of the plain store, by its result. -/
def settle {α : Type} (result : Except CoreError α) (before after : Plain) : Plain :=
  match result with
  | .ok _ => after
  | .error _ => before

theorem settle_same {α : Type} (result : Except CoreError α) (plain : Plain) :
    settle result plain plain = plain := by
  cases result <;> rfl

/-- What a successful store makes of the plain store: staged bytes are nobody's yet. -/
def Plain.stored (plain : Plain) (key : String) (data : Bytes) : Plain :=
  if (stagedDestination key).isSome then plain else Function.update plain key (some data)

section Hashes
variable [DecidableEq β] (hinj : Function.Injective sha256Hex) (hslash : ∀ data, '/' ∉ (sha256Hex data).toList)
include hinj hslash

theorem commitNewHash_spec (h : Stored r sha256Hex w plain) (oc : BlobOutcomes) {key : String}
    {data : Bytes} (size : Option ℕ) {source : BlobSource}
    (hholds : source.Holds w.objects (r.leafOf key) data)
    (hnew : w.tables.refs.lookup key ≠ some (sha256Hex data)) :
    let res := commitNewHash oc w ⟨key, sha256Hex data, contentKeyOf (sha256Hex data), size⟩
      (r.leafOf key) (w.tables.refs.lookup key) source
    Keeps sha256Hex w.objects res.2.objects ∧
      ((∃ e, res.1 = .error e ∧ res.2.tables = w.tables) ∨
        (res.1 = .ok () ∧
          res.2.objects (r.leafOf key) (contentKeyOf (sha256Hex data)) = some data ∧
          res.2.tables.refs = w.tables.refs.insert key (sha256Hex data) ∧
          res.2.tables.storage = w.tables.storage ∧ ∀ hash, CountedAt res.2.tables hash)) := by
  obtain ⟨t, htables, hrefs, hstorage, hcounts⟩ :=
    newHashTables_spec h.counts key (sha256Hex data) size hnew
  have hspec := materialize_spec hinj hslash oc.materialize hholds
  simp only [commitNewHash, htables]
  split
  · rename_i hpresent
    have hkeeps := keeps_discardStaged hslash w.objects oc.discard hholds
    rw [Bool.and_eq_true] at hpresent
    refine ⟨hkeeps, .inr ⟨rfl, ?_, hrefs, hstorage, hcounts⟩⟩
    exact hkeeps.content _ _ (eq_of_leafExists hinj hslash h.objects hpresent.2)
  · split
    · rename_i e objs heq
      rw [heq] at hspec
      refine ⟨hspec.1.trans (keeps_discardStaged hslash _ oc.discard hholds), .inl ⟨e, rfl, rfl⟩⟩
    · rename_i objs heq
      rw [heq] at hspec
      exact ⟨hspec.1, .inr ⟨rfl, hspec.2 rfl, hrefs, hstorage, hcounts⟩⟩

/-- Both branches of the bookkeeping: the key has the bytes, or nothing has changed. -/
theorem finalizeDedup_spec (h : Stored r sha256Hex w plain) (oc : BlobOutcomes) {key : String}
    (hkey : Logical key) {data : Bytes} (size : Option ℕ) {source : BlobSource}
    (hholds : source.Holds w.objects (r.leafOf key) data) :
    let res := finalizeDedup oc w ⟨key, sha256Hex data, contentKeyOf (sha256Hex data), size⟩
      (r.backendNameForKey key) (r.leafOf key) source
    Stored r sha256Hex res.2 (settle res.1 plain (Function.update plain key (some data))) := by
  intro res
  by_cases hsame : w.tables.refs.lookup key = some (sha256Hex data)
  · have hspec := reuseIdenticalBlob_spec hinj hslash oc h.objects hholds
    rcases hreuse : reuseIdenticalBlob oc w.objects (contentKeyOf (sha256Hex data)) (r.leafOf key)
      source with ⟨result, objs⟩
    rw [hreuse] at hspec
    cases result with
    | error e =>
      have hres : res = (.error e, ⟨w.tables, objs⟩) := by
        simp only [res, finalizeDedup, if_pos hsame, hreuse]
      rw [hres]
      exact h.of_keeps hspec.1
    | ok _ =>
      have hres : res =
          (.ok (), ⟨w.tables.recordBackend key (r.backendNameForKey key) size, objs⟩) := by
        simp only [res, finalizeDedup, if_pos hsame, hreuse]
      rw [hres]
      refine h.write hkey ?_ rfl h.counts hspec.1 (hspec.2 rfl)
      intro k
      by_cases hk : k = key
      · rw [if_pos hk, hk, hsame]
      · rw [if_neg hk]
  · have hspec := commitNewHash_spec hinj hslash h oc size hholds hsame
    rcases hcommit : commitNewHash oc w
      ⟨key, sha256Hex data, contentKeyOf (sha256Hex data), size⟩ (r.leafOf key)
      (w.tables.refs.lookup key) source with ⟨result, w'⟩
    rw [hcommit] at hspec
    cases result with
    | error e =>
      have hres : res = (.error e, w') := by
        simp only [res, finalizeDedup, if_neg hsame, hcommit]
      rw [hres]
      obtain ⟨hkeeps, ⟨-, -, htables⟩ | ⟨hok, -⟩⟩ := hspec
      · have hsame' := h.of_keeps hkeeps
        rw [← htables] at hsame'
        exact hsame'
      · cases hok
    | ok _ =>
      have hres : res =
          (.ok (), ⟨w'.tables.recordBackend key (r.backendNameForKey key) size, w'.objects⟩) := by
        simp only [res, finalizeDedup, if_neg hsame, hcommit]
      rw [hres]
      obtain ⟨hkeeps, ⟨e, herr, -⟩ | ⟨-, hblob, hrefs, hstorage, hcounts⟩⟩ := hspec
      · cases herr
      · refine h.write hkey ?_ hstorage hcounts hkeeps hblob
        intro k
        show w'.tables.refs.lookup k = _
        rw [hrefs, lookup_insert_eq]

theorem finalizeStaged_spec (h : Stored r sha256Hex w plain) (oc : BlobOutcomes)
    {staged key : String} (hkey : Logical key) (hstaged : Staging staged) (data : Bytes)
    (hdata : w.objects (r.leafOf key) staged = some data) :
    let res := finalizeStaged r oc w staged key ⟨sha256Hex data, data.length⟩
    Stored r sha256Hex res.2 (settle res.1 plain (Function.update plain key (some data))) := by
  intro res
  have hspec := finalizeDedup_spec hinj hslash h oc hkey (some data.length)
    (show (BlobSource.staged staged).Holds _ _ data from ⟨hstaged, hdata⟩)
  rcases hfinal : finalizeDedup oc w
    ⟨key, sha256Hex data, contentKeyOf (sha256Hex data), some data.length⟩
    (r.backendNameForKey key) (r.leafOf key) (.staged staged) with ⟨result, w'⟩
  rw [hfinal] at hspec
  cases result with
  | ok _ =>
    have hres : res = (.ok (), w') := by
      simp only [res, finalizeStaged, hfinal]
    rw [hres]
    exact hspec
  | error e =>
    have hres : res = (.error e,
        ⟨w'.tables, (leafDelete oc.cleanup w'.objects (r.leafOf key) staged).2⟩) := by
      simp only [res, finalizeStaged, hfinal]
    rw [hres]
    exact Stored.of_keeps hspec
      (keeps_leafDelete oc.cleanup (keeps_setStaging hslash _ _ hstaged none))

theorem store_spec (h : Stored r sha256Hex w plain) (oc : BlobOutcomes) {key : String}
    (hkey : ¬ BlobName key) (data : Bytes) (size : Option ℕ) :
    let res := store r sha256Hex oc w key data size
    Stored r sha256Hex res.2 (settle res.1 plain (plain.stored key data)) := by
  intro res
  by_cases hdest : (stagedDestination key).isSome = true
  · have hres : res = ((leafStore oc.stream w.objects (r.leafOf key) key data).1,
        ⟨w.tables, (leafStore oc.stream w.objects (r.leafOf key) key data).2⟩) := by
      simp only [res, store, if_pos hdest]
    rw [hres, Plain.stored, if_pos hdest, settle_same]
    exact h.of_keeps (keeps_leafStore _ (keeps_setStaging hslash _ _ (.inr hdest) _))
  · have hlogical : Logical key := ⟨hkey, by simpa using hdest⟩
    have hspec := finalizeDedup_spec hinj hslash h oc hlogical size
      (show (BlobSource.inline data).Holds _ _ data from rfl)
    have hres : res = finalizeDedup oc w
        ⟨key, sha256Hex data, contentKeyOf (sha256Hex data), size⟩ (r.backendNameForKey key)
        (r.leafOf key) (.inline data) := by
      simp only [res, store, if_neg hdest]
    rw [hres, Plain.stored, if_neg hdest]
    exact hspec

theorem storeStreaming_spec (h : Stored r sha256Hex w plain) (oc : BlobOutcomes) {key : String}
    (hkey : ¬ BlobName key) (uuid : String) (data : Bytes) :
    let res := storeStreaming r sha256Hex oc w key uuid data
    Stored r sha256Hex res.2 (settle res.1 plain (plain.stored key data)) := by
  intro res
  by_cases hdest : (stagedDestination key).isSome = true
  · have hkeeps : Keeps sha256Hex w.objects
        (leafStore oc.stream w.objects (r.leafOf key) key data).2 :=
      keeps_leafStore _ (keeps_setStaging hslash _ _ (.inr hdest) _)
    have hres : res.2 = ⟨w.tables, (leafStore oc.stream w.objects (r.leafOf key) key data).2⟩ := by
      simp only [res, storeStreaming, if_pos hdest]
      cases oc.stream <;> rfl
    rw [hres, Plain.stored, if_pos hdest, settle_same]
    exact h.of_keeps hkeeps
  · have hlogical : Logical key := ⟨hkey, by simpa using hdest⟩
    have hstaging : Staging (stagingBlobKey uuid) := .inl ⟨uuid, rfl⟩
    rw [Plain.stored, if_neg hdest]
    cases hstream : oc.stream with
    | failed written removed reason =>
      have hres : res = (.error (.storage reason), ⟨w.tables, (leafDelete oc.cleanup
          (w.objects.setIf written (r.leafOf key) (stagingBlobKey uuid) (some data)) (r.leafOf key)
          (stagingBlobKey uuid)).2⟩) := by
        simp only [res, storeStreaming, if_neg hdest, hstream, leafStore]
      rw [hres]
      have hwritten : Keeps sha256Hex w.objects
          (w.objects.setIf written (r.leafOf key) (stagingBlobKey uuid) (some data)) :=
        keeps_setIf (keeps_setStaging hslash _ _ hstaging _)
      exact h.of_keeps (hwritten.trans
        (keeps_leafDelete _ (keeps_setStaging hslash _ _ hstaging none)))
    | ok =>
      have hstaged := h.of_keeps
        (keeps_setStaging hslash w.objects (r.leafOf key) hstaging (some data))
      have hspec := finalizeStaged_spec hinj hslash hstaged oc hlogical hstaging
        data (set_self _ _ _ _)
      rcases hfinal : finalizeStaged r oc
        ⟨w.tables, w.objects.set (r.leafOf key) (stagingBlobKey uuid) (some data)⟩
        (stagingBlobKey uuid) key ⟨sha256Hex data, data.length⟩ with ⟨result, w'⟩
      rw [hfinal] at hspec
      cases result with
      | error e =>
        have hres : res = (.error e, w') := by
          simp only [res, storeStreaming, if_neg hdest, hstream, leafStore, hfinal]
        rw [hres]
        exact hspec
      | ok _ =>
        have hres : res = (.ok ⟨sha256Hex data, data.length⟩, w') := by
          simp only [res, storeStreaming, if_neg hdest, hstream, leafStore, hfinal]
        rw [hres]
        exact hspec

end Hashes

section Deleting

theorem resolve_or (r : Router β) (name : String) :
    (r.backends name).or (r.backends r.defaultName) = some (r.resolveBackend name) := by
  unfold Router.resolveBackend
  rw [r.default_present]
  cases r.backends name <;> rfl

/-- The joined row of a key that is stored. -/
theorem Stored.dedupRow (h : Stored r sha256Hex w plain) {key : String} {data : Bytes}
    (hdata : plain key = some data) :
    w.tables.dedupRow r.defaultName key =
      some (sha256Hex data, contentKeyOf (sha256Hex data), r.backendNameForKey key) := by
  have hrefs := h.refs key
  have hrecorded := h.recorded key
  rw [hdata, Option.map_some] at hrefs hrecorded
  obtain ⟨row, hrow, hkey, -⟩ := (h.counts _).row_of_lookup hrefs
  simp [Tables.dedupRow, hrefs, hrow, hkey, hrecorded]

theorem Stored.dedupRow_none (h : Stored r sha256Hex w plain) {key : String}
    (hnone : plain key = none) : w.tables.dedupRow r.defaultName key = none := by
  have hrefs := h.refs key
  rw [hnone, Option.map_none] at hrefs
  simp [Tables.dedupRow, hrefs]

/-- No backend has an object under a caller's name. -/
theorem Stored.object_none (h : Stored r sha256Hex w plain) {key : String} (hkey : Logical key)
    (leaf : β) : w.objects leaf key = none := by
  cases hobj : w.objects leaf key with
  | none => rfl
  | some data =>
    exfalso
    rcases h.objects leaf key data hobj with heq | hstaging
    · exact hkey.ne_contentKeyOf _ heq
    · exact hkey.not_staging hstaging

/-- `retrieve` answers as the plain store. -/
theorem retrieve_spec (h : Stored r sha256Hex w plain) {key : String} (hkey : Logical key) :
    (retrieve r w key).1 = plain key := by
  have hstaged : ¬ (stagedDestination key).isSome = true := by simp [hkey.2]
  have hnone := h.object_none hkey
  cases hplain : plain key with
  | none =>
    simp only [retrieve, if_neg hstaged, dedupContentKey, h.dedupRow_none hplain, Option.bind_none,
      hnone]
  | some data =>
    have hblob := h.blob key data hplain
    simp only [Router.leafOf] at hblob
    simp only [retrieve, if_neg hstaged, dedupContentKey, h.dedupRow hplain, Option.bind_some,
      resolve_or, Option.map_some, hblob]

/-- Without its row and record the key is gone; the blob may go with the last row. -/
theorem Stored.remove (h : Stored r sha256Hex w plain) {t : Tables} {objs : Objects β}
    {key : String} (hrefs : t.refs = w.tables.refs.erase key)
    (hstorage : t.storage = w.tables.storage) (hcounts : ∀ hash, CountedAt t hash)
    (hblob : ∀ k data, k ≠ key → plain k = some data →
      objs (r.leafOf k) (contentKeyOf (sha256Hex data)) = some data)
    (hobjects : ObjectsOk sha256Hex objs) :
    Stored r sha256Hex ⟨t.forgetBackend key, objs⟩ (Function.update plain key none) where
  refs := by
    intro k
    show t.refs.lookup k = _
    rw [hrefs, lookup_erase_eq]
    by_cases hk : k = key
    · subst hk
      simp
    · rw [if_neg hk, Function.update_of_ne hk, h.refs]
  logical := by
    intro k d hd
    by_cases hk : k = key
    · subst hk
      rw [Function.update_self] at hd
      cases hd
    · rw [Function.update_of_ne hk] at hd
      exact h.logical k d hd
  blob := by
    intro k d hd
    by_cases hk : k = key
    · subst hk
      rw [Function.update_self] at hd
      cases hd
    · rw [Function.update_of_ne hk] at hd
      exact hblob k d hk hd
  recorded := by
    intro k
    simp only [Tables.forgetBackend, lookup_erase_eq, hstorage]
    by_cases hk : k = key
    · subst hk
      simp
    · rw [if_neg hk, Function.update_of_ne hk]
      exact h.recorded k
  counts := hcounts
  objects := hobjects

variable [DecidableEq β]

theorem ObjectsOk.leafDelete {objs : Objects β} (h : ObjectsOk sha256Hex objs) (o : Outcome)
    (leaf : β) (key : String) : ObjectsOk sha256Hex (leafDelete o objs leaf key).2 := by
  have hset : ObjectsOk sha256Hex (objs.set leaf key none) := by
    intro l k d hd
    rcases set_eq_some hd with ⟨-, hvalue⟩ | hold
    · cases hvalue
    · exact h l k d hold
  cases o with
  | ok => exact hset
  | failed written removed reason =>
    cases removed with
    | false => exact h
    | true => exact hset

theorem leafDelete_of_ne {objs : Objects β} {o : Outcome} {leaf l : β} {key k : String}
    (hne : k ≠ key) : (leafDelete o objs leaf key).2 l k = objs l k := by
  cases o with
  | ok => exact set_of_ne _ _ hne
  | failed written removed reason =>
    cases removed with
    | false => rfl
    | true => exact set_of_ne _ _ hne

variable (hslash : ∀ data, '/' ∉ (sha256Hex data).toList)
include hslash

/-- After a delete the key is gone, and a delete that fails had nothing to delete. -/
theorem delete_spec (h : Stored r sha256Hex w plain) (oc : BlobOutcomes) {key : String}
    (hkey : ¬ BlobName key) :
    Stored r sha256Hex (delete r oc w key).2 (Function.update plain key none) ∧
      ∀ e, (delete r oc w key).1 = .error e → plain key = none := by
  by_cases hdest : (stagedDestination key).isSome = true
  · have hnone : plain key = none := by
      cases hplain : plain key with
      | none => rfl
      | some data =>
        have hlogical := (h.logical key data hplain).2
        rw [hlogical] at hdest
        cases hdest
    have hsame : Function.update plain key none = plain := by
      rw [← hnone]
      exact Function.update_eq_self key plain
    refine ⟨?_, fun _ _ => hnone⟩
    simp only [delete, if_pos hdest, hsame]
    exact h.of_keeps (keeps_leafDelete _ (keeps_setStaging hslash _ _ (.inr hdest) none))
  · have hlogical : Logical key := ⟨hkey, by simpa using hdest⟩
    cases hplain : plain key with
    | none =>
      have hsame : Function.update plain key none = plain := by
        rw [← hplain]
        exact Function.update_eq_self key plain
      refine ⟨?_, fun _ _ => rfl⟩
      have hkeeps : Keeps sha256Hex w.objects _ := keeps_leafDelete oc.deletion
        (keeps_removeLogical w.objects (legacyBackendFor r w.tables key) hlogical)
      have hforget : w.tables.forgetBackend key = w.tables := by
        have hrecorded := h.recorded key
        rw [hplain, Option.map_none, Option.map_eq_none_iff] at hrecorded
        have hnotMem : key ∉ w.tables.storage := AList.lookup_eq_none.mp hrecorded
        have herase : w.tables.storage.erase key = w.tables.storage := by
          apply AList.ext
          exact List.kerase_of_notMem_keys hnotMem
        rw [Tables.forgetBackend, herase]
      have hmissing := h.dedupRow_none hplain
      simp only [delete, if_neg hdest, deleteDedupEntry, hmissing, hsame]
      rcases hdelete : leafDelete oc.deletion w.objects (legacyBackendFor r w.tables key) key
        with ⟨result, objs⟩
      rw [hdelete] at hkeeps
      cases result with
      | error e => exact h.of_keeps hkeeps
      | ok existed =>
        simp only [hforget]
        exact h.of_keeps hkeeps
    | some data =>
      have hrow := h.refs key
      rw [hplain, Option.map_some] at hrow
      obtain ⟨t, hrelease, hrefs, hstorage, hcounts⟩ := deleteRef_spec h.counts hrow
      have hdelete : delete r oc w key = (.ok true, ⟨t.forgetBackend key,
          if decide ((countValue (sha256Hex data) (w.tables.refs.erase key) : ℤ) ≤ 0) = true then
            (leafDelete oc.deletion w.objects (r.leafOf key) (contentKeyOf (sha256Hex data))).2
          else w.objects⟩) := by
        simp only [delete, if_neg hdest, deleteDedupEntry, h.dedupRow hplain, hrelease,
          Router.leafOf]
      rw [hdelete]
      refine ⟨h.remove hrefs hstorage hcounts ?_ ?_, ?_⟩
      · intro k d hk hd
        have hblob := h.blob k d hd
        split
        · rename_i hlast
          rw [decide_eq_true_eq] at hlast
          -- the last reference is gone, so another key has another hash
          have hother : contentKeyOf (sha256Hex d) ≠ contentKeyOf (sha256Hex data) := by
            intro heq
            have hsame := contentKeyOf_injective heq
            have hk' : (w.tables.refs.erase key).lookup k = some (sha256Hex data) := by
              rw [lookup_erase_eq, if_neg hk, h.refs, hd, Option.map_some, hsame]
            have hpos := (countValue_pos_iff (sha256Hex data) (w.tables.refs.erase key)).mpr
              ⟨k, (lookup_eq_some_iff _ _ _).mp hk'⟩
            omega
          rw [leafDelete_of_ne hother]
          exact hblob
        · exact hblob
      · split
        · exact h.objects.leafDelete _ _ _
        · exact h.objects
      · intro e he
        cases he

theorem deleteKeys_spec (h : Stored r sha256Hex w plain) (oc : String → BlobOutcomes)
    (keys : List String) (hkeys : ∀ key ∈ keys, ¬ BlobName key) :
    Stored r sha256Hex (deleteKeys r oc w keys) fun k => if k ∈ keys then none else plain k := by
  induction keys generalizing w plain with
  | nil => simpa [deleteKeys] using h
  | cons key keys ih =>
    have hfirst := (delete_spec hslash h (oc key) (hkeys key List.mem_cons_self)).1
    have hrest := ih hfirst fun k hk => hkeys k (List.mem_cons_of_mem key hk)
    have hplain : (fun k => if k ∈ keys then none else Function.update plain key none k) =
        fun k => if k ∈ key :: keys then none else plain k := by
      funext k
      by_cases hk : k = key
      · subst hk
        simp
      · simp [hk]
    rw [hplain] at hrest
    exact hrest

omit hslash [DecidableEq β] in
/-- The tables list the stored keys that start with the prefix. -/
theorem Stored.mem_logicalKeysByPrefix (h : Stored r sha256Hex w plain) (lead key : String) :
    key ∈ w.tables.logicalKeysByPrefix lead ↔
      (plain key).isSome = true ∧ Texts.startsWith key lead = true := by
  have hrefs : key ∈ w.tables.refs.keys ↔ (plain key).isSome = true := by
    rw [← AList.mem_keys, ← AList.lookup_isSome, h.refs, Option.isSome_map]
  have hstorage : key ∈ w.tables.storage.keys ↔ (plain key).isSome = true := by
    have hrecorded := congrArg Option.isSome (h.recorded key)
    rw [Option.isSome_map, Option.isSome_map] at hrecorded
    rw [← AList.mem_keys, ← AList.lookup_isSome, hrecorded]
  simp only [Tables.logicalKeysByPrefix, like_likePrefixPattern, List.mem_append, List.mem_filter,
    hrefs, hstorage, Bool.and_eq_true, Texts.startsWith]
  constructor
  · rintro (hmem | ⟨hsome, hmatch, -⟩)
    · exact hmem
    · exact ⟨hsome, hmatch⟩
  · exact .inl

theorem deleteByPrefix_spec (h : Stored r sha256Hex w plain) (oc : String → BlobOutcomes)
    (lead : String) :
    Stored r sha256Hex (deleteByPrefix r oc w lead).2
      fun k => if Texts.startsWith k lead then none else plain k := by
  have hspec := deleteKeys_spec hslash h oc (w.tables.logicalKeysByPrefix lead) (by
    intro key hmem
    obtain ⟨data, hdata⟩ :=
      Option.isSome_iff_exists.mp ((h.mem_logicalKeysByPrefix lead key).mp hmem).1
    exact (h.logical key data hdata).1)
  have hplain : (fun k => if k ∈ w.tables.logicalKeysByPrefix lead then none else plain k) =
      fun k => if Texts.startsWith k lead then none else plain k := by
    funext k
    simp only [h.mem_logicalKeysByPrefix]
    cases hk : plain k with
    | none => simp
    | some data => simp
  rw [hplain] at hspec
  exact hspec

end Deleting

end Simulation

section Runs
variable {β : Type} [DecidableEq β] (r : Router β) (sha256Hex : Bytes → String)

inductive Op where
  | store (key : String) (data : Bytes) (size : Option ℕ)
  | storeStreaming (key uuid : String) (data : Bytes)
  | promote (staged key : String) (outcome : StoreOutcome)
  | delete (key : String)
  | deleteByPrefix (lead : String)

/-- A call, and how each operation it makes of a backend ends. -/
structure Event where
  op : Op
  outcomes : String → BlobOutcomes

/-- The router, and the plain store its successful calls have made. -/
structure Traced (β : Type) where
  world : World β
  plain : Plain

def Traced.empty : Traced β := ⟨World.empty, fun _ => none⟩

/-- The plain store after a call that succeeds in `w`. -/
def Op.applyPlain (w : World β) (plain : Plain) : Op → Plain
  | .store key data _ => plain.stored key data
  | .storeStreaming key _ data => plain.stored key data
  | .promote staged key _ => Function.update plain key (w.objects (r.leafOf staged) staged)
  | .delete key => Function.update plain key none
  | .deleteByPrefix lead => fun key => if Texts.startsWith key lead then none else plain key

/-- Whether the call returned `Ok`, and the world after it. -/
def perform (w : World β) (e : Event) : Except CoreError Unit × World β :=
  match e.op with
  | .store key data size => store r sha256Hex (e.outcomes key) w key data size
  | .storeStreaming key uuid data =>
    let (result, w) := storeStreaming r sha256Hex (e.outcomes key) w key uuid data
    (result.map fun _ => (), w)
  | .promote staged key outcome => promote r (e.outcomes key) w staged key outcome
  | .delete key =>
    let (result, w) := delete r (e.outcomes key) w key
    (result.map fun _ => (), w)
  | .deleteByPrefix lead =>
    let (result, w) := deleteByPrefix r e.outcomes w lead
    (result.map fun _ => (), w)

def step (s : Traced β) (e : Event) : Traced β :=
  let (result, world) := perform r sha256Hex s.world e
  ⟨world, settle result s.plain (e.op.applyPlain r s.world s.plain)⟩

/-- Keys do not start with `blob/`, and what is promoted is what was staged for the key. -/
def Valid (s : Traced β) (e : Event) : Prop :=
  match e.op with
  | .store key _ _ => ¬ BlobName key
  | .storeStreaming key _ _ => ¬ BlobName key
  | .promote staged key outcome =>
    Logical key ∧ stagedDestination staged = some key ∧
      ∃ data, s.world.objects (r.leafOf staged) staged = some data ∧
        outcome = ⟨sha256Hex data, data.length⟩
  | .delete key => ¬ BlobName key
  | .deleteByPrefix _ => True

variable {r sha256Hex}

theorem settle_map {α γ : Type} (result : Except CoreError α) (f : α → γ) (before after : Plain) :
    settle (result.map f) before after = settle result before after := by
  cases result <;> rfl

/-- One call keeps the relation, whatever fails in it. -/
theorem step_stored (hinj : Function.Injective sha256Hex)
    (hslash : ∀ data, '/' ∉ (sha256Hex data).toList) (s : Traced β) (e : Event)
    (h : Stored r sha256Hex s.world s.plain) (hvalid : Valid r sha256Hex s e) :
    Stored r sha256Hex (step r sha256Hex s e).world (step r sha256Hex s e).plain := by
  obtain ⟨op, outcomes⟩ := e
  cases op with
  | store key data size => exact store_spec hinj hslash h (outcomes key) hvalid data size
  | storeStreaming key uuid data =>
    have hspec := storeStreaming_spec hinj hslash h (outcomes key) hvalid uuid data
    simp only [step, perform, settle_map]
    exact hspec
  | promote staged key outcome =>
    obtain ⟨hkey, hdest, data, hdata, rfl⟩ := hvalid
    have hstaged : Staging staged := .inr (by simp [hdest])
    have hleaf := leafOf_staged r hdest hkey.2
    have hspec := finalizeStaged_spec hinj hslash h (outcomes key) hkey hstaged
      data (hleaf ▸ hdata)
    simp only [step, perform, promote, Op.applyPlain, hdata]
    exact hspec
  | delete key =>
    obtain ⟨hstored, hfailed⟩ := delete_spec hslash h (outcomes key) hvalid
    simp only [step, perform, settle_map, Op.applyPlain]
    cases hresult : (delete r (outcomes key) s.world key).1 with
    | ok existed => exact hstored
    | error err =>
      have hsame : Function.update s.plain key none = s.plain := by
        rw [← hfailed err hresult]
        exact Function.update_eq_self key s.plain
      rw [hsame] at hstored
      exact hstored
  | deleteByPrefix lead => exact deleteByPrefix_spec hslash h outcomes lead

theorem run_stored (hinj : Function.Injective sha256Hex)
    (hslash : ∀ data, '/' ∉ (sha256Hex data).toList) (events : List Event)
    (hvalid : Runs.Guarded (step r sha256Hex) (Valid r sha256Hex) Traced.empty events) :
    Stored r sha256Hex (Runs.run (step r sha256Hex) Traced.empty events).world
      (Runs.run (step r sha256Hex) Traced.empty events).plain :=
  Runs.run_keeps (Valid r sha256Hex) (fun s => Stored r sha256Hex s.world s.plain)
    (fun s e h hv => step_stored hinj hslash s e h hv) Traced.empty events stored_empty hvalid

/-- The stored count of a hash. -/
def refCount (t : Tables) (hash : String) : ℤ := ((t.index.lookup hash).map IndexRow.refCount).getD 0

theorem CountedAt.refCount_eq {t : Tables} {hash : String} (h : CountedAt t hash) :
    refCount t hash = countValue hash t.refs := by
  rcases h with ⟨hzero, hnone⟩ | ⟨-, row, hrow, -, hcount⟩
  · simp [refCount, hnone, hzero]
  · simp [refCount, hrow, hcount]

/-- The router refines a plain store: calls that return `Ok` have the plain store's effect,
calls that return `Err` none, counts are the numbers of rows, and a delete is of its key alone. -/
theorem router_refines_plain_store (r : Router β) (sha256Hex : Bytes → String)
    (hinj : Function.Injective sha256Hex) (hslash : ∀ data, '/' ∉ (sha256Hex data).toList)
    (events : List Event)
    (hvalid : Runs.Guarded (step r sha256Hex) (Valid r sha256Hex) Traced.empty events) :
    let s := Runs.run (step r sha256Hex) Traced.empty events
    (∀ key, Logical key → (retrieve r s.world key).1 = s.plain key) ∧
    (∀ e err, Valid r sha256Hex s e → (perform r sha256Hex s.world e).1 = .error err →
      ∀ key, Logical key →
        (retrieve r (perform r sha256Hex s.world e).2 key).1 = (retrieve r s.world key).1) ∧
    (∀ hash, refCount s.world.tables hash = countValue hash s.world.tables.refs) ∧
    ∀ oc key other, Logical key → Logical other → other ≠ key →
      (retrieve r (delete r oc s.world key).2 other).1 = (retrieve r s.world other).1 := by
  intro s
  have h := run_stored hinj hslash events hvalid
  refine ⟨fun key hkey => retrieve_spec h hkey, ?_, fun hash => (h.counts hash).refCount_eq, ?_⟩
  · intro e err hv herr key hkey
    have hnext := step_stored hinj hslash s e h hv
    have hplain : (step r sha256Hex s e).plain = s.plain := by
      simp only [step, herr, settle]
    rw [hplain] at hnext
    exact (retrieve_spec hnext hkey).trans (retrieve_spec h hkey).symm
  · intro oc key other hkey hother hne
    have hnext := (delete_spec hslash h oc hkey.1).1
    rw [retrieve_spec hnext hother, retrieve_spec h hother, Function.update_of_ne hne]

def stagedC : String := "staging:v/artifact:npm/c"

/-- The backend breaks off after it has written. -/
def brokenStore : BlobOutcomes := { BlobOutcomes.allOk with materialize := .failed true false "io" }

/-- Two keys on two backends share their bytes, a third one is staged and promoted, a store over
the second one fails, and the first one is deleted. -/
def sharedEvents : List Event :=
  [⟨.store "artifact:npm/a" [97] none, fun _ => .allOk⟩,
    ⟨.storeStreaming "artifact:cargo/b" "u" [97], fun _ => .allOk⟩,
    ⟨.store stagedC [98] none, fun _ => .allOk⟩,
    ⟨.promote stagedC "artifact:npm/c" ⟨sampleSha [98], 1⟩, fun _ => .allOk⟩,
    ⟨.store "artifact:cargo/b" [98] none, fun _ => brokenStore⟩,
    ⟨.delete "artifact:npm/a", fun _ => .allOk⟩]

theorem shared_bytes_outlive_a_key :
    let s := Runs.run (step sampleRouter sampleSha) Traced.empty sharedEvents
    let promoted := Runs.run (step sampleRouter sampleSha) Traced.empty (sharedEvents.take 4)
    (perform sampleRouter sampleSha promoted.world
        ⟨.store "artifact:cargo/b" [98] none, fun _ => brokenStore⟩).1 = .error (.storage "io") ∧
      (retrieve sampleRouter s.world "artifact:cargo/b").1 = some [97] ∧
      (retrieve sampleRouter s.world "artifact:npm/c").1 = some [98] ∧
      refCount s.world.tables (sampleSha [97]) = 1 := by
  intro s promoted
  have hvalid : Runs.Guarded (step sampleRouter sampleSha) (Valid sampleRouter sampleSha)
      Traced.empty sharedEvents := by
    refine ⟨?_, ?_, ?_, ?_, ?_, ?_, trivial⟩
    · show ¬ BlobName _
      decide
    · show ¬ BlobName _
      decide
    · show ¬ BlobName _
      decide
    · exact ⟨⟨by decide, by decide⟩, by decide, [98], by decide, rfl⟩
    · show ¬ BlobName _
      decide
    · show ¬ BlobName _
      decide
  obtain ⟨hretrieve, -, hcount, -⟩ := router_refines_plain_store sampleRouter sampleSha
    sampleSha_injective sampleSha_slash sharedEvents hvalid
  have hshared : s.plain "artifact:cargo/b" = some [97] := by decide
  have hpromoted : s.plain "artifact:npm/c" = some [98] := by decide
  have hrows : countValue (sampleSha [97]) s.world.tables.refs = 1 := by decide
  refine ⟨by decide, ?_, ?_, ?_⟩
  · rw [hretrieve "artifact:cargo/b" ⟨by decide, by decide⟩]
    exact hshared
  · rw [hretrieve "artifact:npm/c" ⟨by decide, by decide⟩]
    exact hpromoted
  · rw [hcount, hrows]
    rfl

end Runs

end BatleHub.StorageRouter
