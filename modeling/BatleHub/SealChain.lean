import BatleHub.AuditEvents
import BatleHub.Lib.AssocMap
import BatleHub.Lib.Intervals

/-!
The seal chain (`entities/audit_seal.rs`) and its verification (`services/audit_trail.rs`).
A record names a window, what the window holds after it and the digest of the record
before; `verify` replays the chain and holds every window against its latest record.
-/
namespace BatleHub.SealChain

open LocalPackages AuditEvents Lib.AssocMap Lib.Framing Lib.Intervals

/-- The libraries behind the chain: SHA-256 in hex, instants in RFC 3339, and the signing
key with its id, its signature over a digest in base64, and the check of such a text. -/
structure Libraries where
  sha256Hex : List UInt8 → String
  rfc3339 : DateTime → String
  keyId : String
  signature : String → String
  verifies : String → String → Bool

/-- What the libraries promise: no collisions and no line breaks in a digest, one text for
each instant, and that the key's own signatures verify. -/
structure Lawful (lib : Libraries) : Prop where
  sha256_injective : Function.Injective lib.sha256Hex
  sha256_oneLine : ∀ bytes, Char.ofNat 10 ∉ (lib.sha256Hex bytes).toList
  rfc3339_injective : Function.Injective lib.rfc3339
  signature_verifies : ∀ digest, lib.verifies (lib.signature digest) digest = true

inductive SealKind where
  | seal
  | amend
  | expire
  deriving DecidableEq, Repr

def SealKind.asStr : SealKind → String
  | .seal => "seal"
  | .amend => "amend"
  | .expire => "expire"

abbrev Window := DateTime × DateTime

structure SealRecord where
  seq : ℤ
  kind : SealKind
  windowStart : DateTime
  windowEnd : DateTime
  rowCount : ℕ
  affected : ℕ
  rowsDigest : String
  digest : String
  prevDigest : String
  signature : String
  keyId : String
  deriving DecidableEq, Repr

def SealRecord.window (r : SealRecord) : Window := (r.windowStart, r.windowEnd)

def genesisDigest : String := String.ofList (List.replicate 64 '0')

/-- Microseconds since the epoch; instants count nanoseconds. -/
def timestampMicros (t : DateTime) : ℤ := t / 1000

/-- The instant loses nothing in microseconds, the resolution of the columns that hold it. -/
def WholeMicros (t : DateTime) : Prop := (1000 : ℤ) ∣ t

instance (t : DateTime) : Decidable (WholeMicros t) := inferInstanceAs (Decidable ((1000 : ℤ) ∣ t))

theorem WholeMicros.eq_of_timestampMicros {s t : DateTime} (hs : WholeMicros s)
    (ht : WholeMicros t) (h : timestampMicros s = timestampMicros t) : s = t := by
  unfold timestampMicros at h
  have hleft : s / 1000 * 1000 = s := Int.ediv_mul_cancel hs
  have hright : t / 1000 * 1000 = t := Int.ediv_mul_cancel ht
  rw [← hleft, h, hright]

/-- The lines a record's digest is the hash of. -/
def signedLines (r : SealRecord) : List String :=
  ["batlehub-audit-seal-v1", toString r.seq, r.kind.asStr, toString (timestampMicros r.windowStart),
    toString (timestampMicros r.windowEnd), toString r.rowCount, toString r.affected, r.rowsDigest,
    r.prevDigest]

def signedMessage (r : SealRecord) : String := Lib.Joins.join (Char.ofNat 10) (signedLines r)

section Records
variable (lib : Libraries)

def recordDigest (r : SealRecord) : String := lib.sha256Hex (utf8 (signedMessage r))

def rowsDigest (rows : List AccessEvent) : String :=
  AuditEvents.rowsDigest lib.sha256Hex lib.rfc3339 rows

def sign (r : SealRecord) : SealRecord :=
  let digest := recordDigest lib r
  { r with digest := digest, signature := lib.signature digest, keyId := lib.keyId }

def nextRecord (head : Option SealRecord) (kind : SealKind) (window : Window)
    (rows : List AccessEvent) (affected : ℕ) : SealRecord :=
  sign lib
    { seq := head.elim 1 fun h => h.seq + 1
      kind := kind
      windowStart := window.1
      windowEnd := window.2
      rowCount := rows.length
      affected := affected
      rowsDigest := rowsDigest lib rows
      digest := ""
      prevDigest := head.elim genesisDigest fun h => h.digest
      signature := ""
      keyId := "" }

end Records

section Windows

/-- Insertion into a `BTreeMap` of windows by start. -/
def insertWindow (window : Window) : List Window → List Window
  | [] => [window]
  | w :: rest =>
    if window.1 < w.1 then window :: w :: rest
    else if window.1 = w.1 then window :: rest
    else w :: insertWindow window rest

/-- The sealed windows by start, and the newest record. -/
structure Windows where
  byStart : List Window
  head : Option SealRecord
  deriving DecidableEq, Repr

def sealedWindows (records : List SealRecord) : List Window :=
  (records.filter fun r => decide (r.kind = .seal)).map SealRecord.window

def windows (records : List SealRecord) : Windows where
  byStart := (sealedWindows records).foldl (fun m w => insertWindow w m) []
  head := records.getLast?

def Windows.sealedUntil (w : Windows) : Option DateTime := w.byStart.getLast?.map Prod.snd

/-- The sealed window holding `t`: the last that starts by then, if it has not ended. -/
def Windows.holding (w : Windows) (t : DateTime) : Option Window := Lib.Intervals.holding w.byStart t

def headSeq (head : Option SealRecord) : ℤ := head.elim 0 fun h => h.seq

theorem insertWindow_append {l : List Window} {window : Window}
    (h : ∀ w ∈ l, w.1 < window.1) : insertWindow window l = l ++ [window] := by
  induction l with
  | nil => rfl
  | cons w l ih =>
    have hw := h w List.mem_cons_self
    have hlt : ¬ window.1 < w.1 := lt_asymm hw
    have hne : ¬ window.1 = w.1 := ne_of_gt hw
    rw [insertWindow, if_neg hlt, if_neg hne, ih fun v hv => h v (List.mem_cons_of_mem w hv)]
    rfl

theorem foldl_insertWindow {front l : List Window} (h : Abutting (front ++ l)) :
    l.foldl (fun m w => insertWindow w m) front = front ++ l := by
  induction l generalizing front with
  | nil => simp
  | cons w l ih =>
    have hbefore : ∀ v ∈ front, v.1 < w.1 := by
      intro v hv
      have hpair := (List.pairwise_append.mp h.pairwise).2.2 v hv w List.mem_cons_self
      exact lt_of_lt_of_le (h.nonempty v (List.mem_append_left _ hv)) hpair
    have hassoc : front ++ w :: l = front ++ [w] ++ l := by simp
    rw [List.foldl_cons, insertWindow_append hbefore, ih (hassoc ▸ h), hassoc]

/-- The map by start is the list of the sealed windows, in the order they were sealed. -/
theorem byStart_eq {records : List SealRecord} (h : Abutting (sealedWindows records)) :
    (windows records).byStart = sealedWindows records :=
  foldl_insertWindow h

theorem sealedWindows_append (records : List SealRecord) (r : SealRecord) :
    sealedWindows (records ++ [r]) =
      sealedWindows records ++ if r.kind = .seal then [r.window] else [] := by
  unfold sealedWindows
  rw [List.filter_append, List.map_append]
  by_cases hseal : r.kind = .seal
  · simp [hseal]
  · simp [hseal]

end Windows

section Verify

structure VerifyFailure where
  windowStart : Option DateTime
  windowEnd : Option DateTime
  seq : Option ℤ
  reason : String
  deriving DecidableEq, Repr

structure VerifyReport where
  ok : Bool
  records : ℕ
  windowsChecked : ℕ
  windowsExpired : ℕ
  head : Option String
  truncationChecked : Bool
  failures : List VerifyFailure
  deriving DecidableEq, Repr

def fail (r : Option SealRecord) (reason : String) : VerifyFailure :=
  ⟨r.map (·.windowStart), r.map (·.windowEnd), r.map (·.seq), reason⟩

variable (lib : Libraries)

/-- What is wrong with a record after the one before it. -/
def linkFailures (prev : Option SealRecord) (r : SealRecord) : List VerifyFailure :=
  let wantSeq := prev.elim 1 fun p => p.seq + 1
  let wantPrev := prev.elim genesisDigest fun p => p.digest
  (if r.seq ≠ wantSeq then
    [fail (some r) ("record " ++ toString r.seq ++ " follows " ++ toString (wantSeq - 1))]
  else []) ++
  (if r.prevDigest ≠ wantPrev then [fail (some r) "does not chain to the record before it"]
  else []) ++
  (if recordDigest lib r ≠ r.digest then [fail (some r) "its digest does not match its fields"]
  else []) ++
  (if !(decide (r.keyId = lib.keyId) && lib.verifies r.signature r.digest) then
    [fail (some r) ("signature does not verify under key " ++ lib.keyId)]
  else [])

def chainFailures : Option SealRecord → List SealRecord → List VerifyFailure
  | _, [] => []
  | prev, r :: rest => linkFailures lib prev r ++ chainFailures (some r) rest

/-- The latest record of each window. -/
def latestRecords (records : List SealRecord) : Assoc Window SealRecord :=
  records.foldl (fun m r => m.insert r.window r) ∅

/-- A window in the range asked for. -/
def inRange (start stop : Option DateTime) (window : Window) : Bool :=
  !(start.any (fun f => decide (window.2 ≤ f)) || stop.any fun t => decide (t ≤ window.1))

/-- The window's rows were removed entirely, and its latest record says so. -/
def isExpired (r : SealRecord) (rows : List AccessEvent) : Bool :=
  decide (r.kind = .expire) && decide (r.rowCount = 0) && rows.isEmpty

def windowFailures (r : SealRecord) (rows : List AccessEvent) : List VerifyFailure :=
  if isExpired r rows then []
  else if rows.length ≠ r.rowCount ∨ rowsDigest lib rows ≠ r.rowsDigest then
    [fail (some r) ("the window holds " ++ toString rows.length ++
      " rows that match no signed record (its latest, " ++ toString r.seq ++ ", says " ++
      toString r.rowCount ++ ")")]
  else []

def headFailures (records : List SealRecord) : Option String → List VerifyFailure
  | none => []
  | some h =>
    if records.getLast?.map (·.digest) ≠ some h then
      [fail records.getLast? ("the chain's newest record is not the head the SIEM last received: " ++
        "its tail was truncated or rewritten")]
    else []

/-- `verify` over what the store returns. -/
def verify (records : List SealRecord) (rowsIn : DateTime → DateTime → List AccessEvent)
    (start stop : Option DateTime) (head : Option String) : VerifyReport :=
  let latest := ((latestRecords records).entries.insertionSort fun a b => a.1.1 ≤ b.1.1).filter
    fun e => inRange start stop e.1
  let expired := latest.filter fun e => isExpired e.2 (rowsIn e.1.1 e.1.2)
  let failures := chainFailures lib none records ++
    latest.flatMap (fun e => windowFailures lib e.2 (rowsIn e.1.1 e.1.2)) ++
    headFailures records head
  { ok := failures.isEmpty
    records := records.length
    windowsChecked := latest.length - expired.length
    windowsExpired := expired.length
    head := records.getLast?.map (·.digest)
    truncationChecked := head.isSome
    failures := failures }

end Verify

section Valid
variable (lib : Libraries)

/-- A record is well formed and follows `prev`. -/
structure LinkValid (prev : Option SealRecord) (r : SealRecord) : Prop where
  seq : r.seq = prev.elim 1 fun p => p.seq + 1
  prevDigest : r.prevDigest = prev.elim genesisDigest fun p => p.digest
  digest : recordDigest lib r = r.digest
  keyId : r.keyId = lib.keyId
  signature : lib.verifies r.signature r.digest = true

/-- Every record follows the one before it. -/
def ChainValid : Option SealRecord → List SealRecord → Prop
  | _, [] => True
  | prev, r :: rest => LinkValid lib prev r ∧ ChainValid (some r) rest

/-- The rows are what the window's latest record says. -/
def RowsMatch (r : SealRecord) (rows : List AccessEvent) : Prop :=
  (r.kind = .expire ∧ r.rowCount = 0 ∧ rows = []) ∨
    (rows.length = r.rowCount ∧ rowsDigest lib rows = r.rowsDigest)

theorem linkFailures_eq_nil (prev : Option SealRecord) (r : SealRecord) :
    linkFailures lib prev r = [] ↔ LinkValid lib prev r := by
  unfold linkFailures
  simp only [List.append_eq_nil_iff, ite_eq_right_iff, List.cons_ne_self, imp_false,
    ne_eq, Decidable.not_not, Bool.not_eq_true', Bool.and_eq_false_iff, not_or,
    decide_eq_false_iff_not, Bool.not_eq_false]
  constructor
  · intro h
    exact ⟨h.1.1.1, h.1.1.2, h.1.2, h.2.1, h.2.2⟩
  · intro h
    exact ⟨⟨⟨h.seq, h.prevDigest⟩, h.digest⟩, h.keyId, h.signature⟩

theorem chainFailures_eq_nil (prev : Option SealRecord) (records : List SealRecord) :
    chainFailures lib prev records = [] ↔ ChainValid lib prev records := by
  induction records generalizing prev with
  | nil => simp [chainFailures, ChainValid]
  | cons r rest ih =>
    rw [chainFailures, ChainValid, List.append_eq_nil_iff, linkFailures_eq_nil, ih]

theorem windowFailures_eq_nil (r : SealRecord) (rows : List AccessEvent) :
    windowFailures lib r rows = [] ↔ RowsMatch lib r rows := by
  unfold windowFailures RowsMatch
  by_cases hexpired : isExpired r rows = true
  · rw [if_pos hexpired]
    simp only [isExpired, Bool.and_eq_true, decide_eq_true_eq, List.isEmpty_iff] at hexpired
    exact ⟨fun _ => .inl ⟨hexpired.1.1, hexpired.1.2, hexpired.2⟩, fun _ => rfl⟩
  · rw [if_neg hexpired]
    simp only [isExpired, Bool.and_eq_true, decide_eq_true_eq, List.isEmpty_iff] at hexpired
    constructor
    · intro h
      right
      by_contra hbad
      rw [not_and_or] at hbad
      rw [if_pos hbad] at h
      cases h
    · intro h
      rcases h with hexp | hrows
      · exact absurd ⟨⟨hexp.1, hexp.2.1⟩, hexp.2.2⟩ hexpired
      · rw [if_neg]
        intro hbad
        rcases hbad with hcount | hdigest
        · exact hcount hrows.1
        · exact hdigest hrows.2

theorem latestRecords_append (records : List SealRecord) (r : SealRecord) (window : Window) :
    (latestRecords (records ++ [r])).lookup window =
      if window = r.window then some r else (latestRecords records).lookup window := by
  unfold latestRecords
  rw [List.foldl_append]
  exact lookup_insert_eq _ _ _ _

/-- Over the whole chain, `verify` finds nothing exactly when the chain is valid, every
window holds what its latest record says, and the newest record is the expected head. -/
theorem verify_failures_eq_nil (records : List SealRecord)
    (rowsIn : DateTime → DateTime → List AccessEvent) (head : Option String) :
    (verify lib records rowsIn none none head).failures = [] ↔
      ChainValid lib none records ∧
        (∀ window r, (latestRecords records).lookup window = some r →
          RowsMatch lib r (rowsIn window.1 window.2)) ∧
        ∀ h, head = some h → records.getLast?.map (·.digest) = some h := by
  unfold verify
  simp only [List.append_eq_nil_iff, chainFailures_eq_nil, and_assoc]
  refine and_congr_right fun _ => and_congr ?_ ?_
  · rw [List.flatMap_eq_nil_iff]
    constructor
    · intro h window r hr
      refine (windowFailures_eq_nil lib r _).mp (h ⟨window, r⟩ ?_)
      rw [List.mem_filter, List.mem_insertionSort]
      exact ⟨(lookup_eq_some_iff _ window r).mp hr, rfl⟩
    · intro h e he
      rw [List.mem_filter, List.mem_insertionSort] at he
      refine (windowFailures_eq_nil lib e.2 _).mpr (h e.1 e.2 ?_)
      exact (lookup_eq_some_iff _ e.1 e.2).mpr he.1
  · cases head with
    | none => simp [headFailures]
    | some h =>
      simp only [headFailures, Option.some.injEq, forall_eq']
      constructor
      · intro hnil
        by_contra hne
        rw [if_pos hne] at hnil
        cases hnil
      · intro heq
        rw [if_neg (fun hne => hne heq)]

end Valid

section Chains
variable {lib : Libraries}

theorem chainValid_append (prev : Option SealRecord) (records : List SealRecord) (r : SealRecord) :
    ChainValid lib prev (records ++ [r]) ↔
      ChainValid lib prev records ∧ LinkValid lib (records.getLast?.or prev) r := by
  induction records generalizing prev with
  | nil => simp [ChainValid]
  | cons x rest ih =>
    rw [List.cons_append, ChainValid, ChainValid, ih, and_assoc]
    cases rest with
    | nil => simp
    | cons y rest =>
      have hlast : (x :: y :: rest).getLast? = (y :: rest).getLast? := List.getLast?_cons_cons
      rw [hlast]
      cases hsome : (y :: rest).getLast? with
      | none => simp at hsome
      | some z => simp

theorem chainValid_snoc (records : List SealRecord) (r : SealRecord) :
    ChainValid lib none (records ++ [r]) ↔
      ChainValid lib none records ∧ LinkValid lib records.getLast? r := by
  rw [chainValid_append, Option.or_none]

theorem linkValid_nextRecord (hlib : Lawful lib) (head : Option SealRecord) (kind : SealKind)
    (window : Window) (rows : List AccessEvent) (affected : ℕ) :
    LinkValid lib head (nextRecord lib head kind window rows affected) where
  seq := rfl
  prevDigest := rfl
  digest := rfl
  keyId := rfl
  signature := hlib.signature_verifies _

/-- The records are numbered one after the other. -/
theorem ChainValid.seq_eq {prev : Option SealRecord} {records : List SealRecord}
    (h : ChainValid lib prev records) {i : ℕ} {r : SealRecord} (hr : records[i]? = some r) :
    r.seq = headSeq prev + i + 1 := by
  induction records generalizing prev i with
  | nil => simp at hr
  | cons x rest ih =>
    have hx : x.seq = headSeq prev + 1 := by
      rw [h.1.seq]
      cases prev with
      | none => rfl
      | some p => rfl
    cases i with
    | zero =>
      obtain rfl := Option.some.inj hr
      rw [hx]
      simp
    | succ i =>
      have hrest := ih h.2 (by simpa using hr)
      rw [hrest]
      simp only [headSeq, Option.elim_some, Nat.cast_add, Nat.cast_one]
      rw [hx]
      unfold headSeq
      omega

theorem chainValid_seq_concat {records : List SealRecord} {r : SealRecord}
    (h : ChainValid lib none (records ++ [r])) : r.seq = records.length + 1 := by
  have hseq := h.seq_eq (List.getElem?_concat_length (l := records) (a := r))
  simpa [headSeq] using hseq

/-- Each record carries the digest of the one before it. -/
theorem ChainValid.linked {prev : Option SealRecord} {records : List SealRecord}
    (h : ChainValid lib prev records) :
    records.IsChain fun a b => b.prevDigest = a.digest := by
  induction records generalizing prev with
  | nil => exact List.isChain_nil
  | cons r rest ih =>
    rw [ChainValid] at h
    cases rest with
    | nil => exact List.isChain_singleton r
    | cons x rest =>
      rw [List.isChain_cons_cons]
      exact ⟨h.2.1.prevDigest, ih h.2⟩

theorem mem_of_latest {records : List SealRecord} {window : Window} {r : SealRecord}
    (h : (latestRecords records).lookup window = some r) : r ∈ records ∧ r.window = window := by
  induction records using List.reverseRecOn with
  | nil => simp [latestRecords] at h
  | append_singleton records x ih =>
    rw [latestRecords_append] at h
    split at h
    · rename_i heq
      obtain rfl := Option.some.inj h
      exact ⟨by simp, heq.symm⟩
    · obtain ⟨hmem, hwindow⟩ := ih h
      exact ⟨List.mem_append_left _ hmem, hwindow⟩

end Chains

end BatleHub.SealChain
