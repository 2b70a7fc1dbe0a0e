import BatleHub.TrailPlacement

/-!
The chain verifies in every reachable state. The sealed windows a batch leaves alone keep
their rows, and the one window it changes holds what the batch's own record says, since the
store takes the record only when the digests agree.
-/
namespace BatleHub.SealedRuns

open LocalPackages AuditEvents SealChain AuditStore AuditTrail TrailPlacement Lib.AssocMap
  Lib.Intervals Lib.Runs Lib.Slots

/-- The chain is linked and signed, and every window holds what its latest record says. -/
structure ChainOk (lib : Libraries) (trail : Trail) : Prop where
  chain : ChainValid lib none trail.seals
  rows : ∀ window r, (latestRecords trail.seals).lookup window = some r →
    (rowsIn trail.events window.1 window.2).length = r.rowCount ∧
      rowsDigest lib (rowsIn trail.events window.1 window.2) = r.rowsDigest

section Batches
variable {lib : Libraries} {trail trail' : Trail}

theorem chainOk_empty : ChainOk lib ⟨[], []⟩ where
  chain := trivial
  rows := by simp [latestRecords]

theorem latest_mem (hs : Shape trail.seals) {window : Window} {r : SealRecord}
    (hr : (latestRecords trail.seals).lookup window = some r) :
    window ∈ sealedWindows trail.seals := by
  obtain ⟨hmem, hwindow⟩ := mem_of_latest hr
  exact hwindow ▸ hs.inForce r hmem

/-- The sealed windows keep their rows: the chain is as good as before. -/
theorem ChainOk.frame (h : ChainOk lib trail) (hs : Shape trail.seals)
    (hseals : trail'.seals = trail.seals)
    (hrows : ∀ window ∈ sealedWindows trail.seals,
      rowsIn trail'.events window.1 window.2 = rowsIn trail.events window.1 window.2) :
    ChainOk lib trail' where
  chain := hseals ▸ h.chain
  rows := by
    intro window r hr
    rw [hseals] at hr
    rw [hrows window (latest_mem hs hr)]
    exact h.rows window r hr

/-- A record on top of the chain: its window holds what it says, and the other sealed windows
keep their rows. -/
theorem ChainOk.append (hlib : Lawful lib) (h : ChainOk lib trail) (hs : Shape trail.seals)
    {kind : SealKind} {window : Window} {rows : List AccessEvent} {affected : ℕ} {r : SealRecord}
    (hr : r = nextRecord lib trail.seals.getLast? kind window rows affected)
    (hseals : trail'.seals = trail.seals ++ [r])
    (hdigest : rowsDigest lib (rowsIn trail'.events window.1 window.2) = rowsDigest lib rows)
    (hframe : ∀ other ∈ sealedWindows trail.seals, other ≠ window →
      rowsIn trail'.events other.1 other.2 = rowsIn trail.events other.1 other.2) :
    ChainOk lib trail' := by
  have hwindow : r.window = window := by rw [hr]; rfl
  have hsame : rowsIn trail'.events window.1 window.2 = rows :=
    rowsDigest_injective hlib.sha256_injective hlib.rfc3339_injective hdigest
  constructor
  · rw [hseals, chainValid_snoc]
    exact ⟨h.chain, hr ▸ linkValid_nextRecord hlib _ _ _ _ _⟩
  · intro other x hx
    rw [hseals, latestRecords_append, hwindow] at hx
    split at hx
    · rename_i heq
      obtain rfl := Option.some.inj hx
      rw [heq, hsame, hr]
      exact ⟨rfl, rfl⟩
    · rename_i hne
      rw [hframe other (latest_mem hs hx) hne]
      exact h.rows other x hx

/-- Over a good chain `verify` finds nothing. -/
theorem ChainOk.verify (h : ChainOk lib trail) :
    (SealChain.verify lib trail.seals (rowsIn trail.events) none none
      (trail.seals.getLast?.map (·.digest))).failures = [] := by
  rw [verify_failures_eq_nil]
  refine ⟨h.chain, ?_, ?_⟩
  · intro window r hr
    exact .inr (h.rows window r hr)
  · intro head hhead
    exact hhead

end Batches

section Run
variable {lib : Libraries} {hmacHex : String → String → String} {truncateIp : String → String}
  {policy : AuditPolicy} {w : World}

/-- A batch leaves alone the windows none of its rows is in. -/
theorem rowsIn_of_opOn {ops : List RowOp} {window : Window} {p : DateTime → Prop}
    (hops : ∀ op ∈ ops, OpOn w p op) (hp : ∀ t, p t → ¬ Holds window t) :
    rowsIn (stageAll ops w.trail.events) window.1 window.2 =
      rowsIn w.trail.events window.1 window.2 :=
  rowsIn_stageAll fun op hop e he hid => hp _ ((hops op hop).2 e he hid)

theorem ChainOk.effect (hlib : Lawful lib) (h : ChainOk lib w.trail) (hs : Shape w.trail.seals)
    {trail' : Trail} (heffect : Effect lib policy w trail') : ChainOk lib trail' := by
  cases heffect with
  | same => exact h
  | loose ops hops =>
    refine h.frame hs rfl fun window hwindow => ?_
    exact rowsIn_of_opOn hops fun t hout => hout window hwindow
  | sealed window rows _ _ _ _ hdigest =>
    exact h.append hlib hs rfl rfl hdigest fun _ _ _ => rfl
  | amended ops kind window rows affected _ hwindow hops hdigest =>
    refine h.append hlib hs rfl rfl hdigest fun other hother hne => ?_
    -- an instant in the record's window is in no other
    refine rowsIn_of_opOn hops fun t hin hholds => hne ?_
    exact hs.windows.eq_of_holds hother hwindow hholds hin

/-- An insert has an id of its own and a time in no window sealed before. -/
def Admissible (w : World) : Event → Prop
  | .insert e => e.id ∉ w.used ∧ Outside (sealedWindows w.trail.seals) e.timestamp
  | _ => True

theorem Admissible.freshId {event : Event} (h : Admissible w event) : FreshId w event := by
  cases event with
  | insert e => exact h.1
  | start id call ok => trivial
  | advance id ok => trivial

theorem rowsIn_insert {events : List AccessEvent} {e : AccessEvent} {window : Window}
    (h : ¬ Holds window e.timestamp) :
    rowsIn (events ++ [e]) window.1 window.2 = rowsIn events window.1 window.2 := by
  unfold rowsIn
  rw [List.filter_append, List.filter_cons_of_neg (by simpa using h), List.filter_nil,
    List.append_nil]

theorem ChainOk.step (hlib : Lawful lib) (hp : Placed lib policy w) (h : ChainOk lib w.trail)
    {event : Event} (hadm : Admissible w event) :
    ChainOk lib (step lib hmacHex truncateIp policy w event).trail := by
  rcases hp.step_cases hmacHex truncateIp event with ⟨e, rfl⟩ | hsame | ⟨id, call, next, hnext, hstep⟩
  · refine h.frame hp.shape rfl fun window hwindow => ?_
    exact rowsIn_insert (hadm.2 window hwindow)
  · rw [hsame]
    exact h
  · rw [hstep]
    exact h.effect hlib hp.shape hnext.effect

theorem run_chainOk (hlib : Lawful lib) (events : List Event)
    (hadm : Guarded (step lib hmacHex truncateIp policy) Admissible World.initial events) :
    Placed lib policy (run (step lib hmacHex truncateIp policy) World.initial events) ∧
      ChainOk lib (run (step lib hmacHex truncateIp policy) World.initial events).trail := by
  refine run_keeps Admissible (fun w => Placed lib policy w ∧ ChainOk lib w.trail) ?_ _ _
    ⟨placed_initial, chainOk_empty⟩ hadm
  intro w event hw hevent
  exact ⟨hw.1.step hevent.freshId, hw.2.step hlib hw.1 hevent⟩

/-- What holds of a trail whose chain was never tampered with. -/
structure Verifies (lib : Libraries) (trail : Trail) : Prop where
  numbered : ∀ (i : ℕ) (r : SealRecord), trail.seals[i]? = some r → r.seq = (i : ℤ) + 1
  linked : trail.seals.IsChain fun a b => b.prevDigest = a.digest
  contiguous : (sealedWindows trail.seals).IsChain fun a b => a.2 = b.1
  disjoint : (sealedWindows trail.seals).Pairwise fun a b => ∀ t, ¬ (Holds a t ∧ Holds b t)
  verified : (verify lib trail.seals (rowsIn trail.events) none none
    (trail.seals.getLast?.map (·.digest))).failures = []

/-- Whatever the interleaving of seals, lifecycle ticks, purges, erasures and inserts, the
chain verifies. -/
theorem trail_always_verifies (hlib : Lawful lib) (events : List Event)
    (hadm : Guarded (step lib hmacHex truncateIp policy) Admissible World.initial events) :
    Verifies lib (run (step lib hmacHex truncateIp policy) World.initial events).trail := by
  obtain ⟨hplaced, hchain⟩ := run_chainOk hlib events hadm
  refine ⟨?_, hchain.chain.linked, hplaced.shape.windows.meet, ?_, hchain.verify⟩
  · intro i r hr
    have hseq := hchain.chain.seq_eq hr
    simpa [headSeq] using hseq
  · refine hplaced.shape.windows.pairwise.imp ?_
    intro a b hab t ht
    have hle : a.2 ≤ t := le_trans hab ht.2.1
    exact absurd ht.1.2 (not_lt_of_ge hle)

end Run

section Sample

/-- 2026-01-01T00:00:00Z. -/
def sampleStart : DateTime := 1767225600000000000

def sampleRow : AccessEvent where
  id := "5f0c6a52-8f0e-4d5b-9d7a-1c2f3e4a5b6c"
  userId := some "alice"
  userRole := .user
  packageId := none
  action := .signIn
  result := .allowed
  timestamp := sampleStart + 30000000000
  ipAddress := some "10.0.0.1"
  userAgent := none
  throttledCount := none
  detail := none
  reasonCode := none

def sampleInstant (t : DateTime) : String :=
  if t = sampleStart + 30000000000 then "2026-01-01T00:00:30Z" else "ns:" ++ toString t

def sampleRowsDigest : String := "9fb8c396b6be74ffb48688c2da20fd3b5adb263ac046508edfa1c01d80e16741"

def sampleDigest : String := "aee54a08b1541ad54a44abb2f919363092604d2b43dd3a9041657550d183ffa6"

/-- What the record of the row's window signs. -/
def sampleMessage : String :=
  Lib.Joins.join (Char.ofNat 10) ["batlehub-audit-seal-v1", "1", "seal", "1767225600000000",
    "1767225660000000", "1", "0", sampleRowsDigest, genesisDigest]

/-- SHA-256 on the two messages of the sample, and a text per message elsewhere. -/
@[irreducible]
def sampleHash (bytes : List UInt8) : String :=
  if bytes = Lib.Framing.utf8 (String.ofList (rowLines sampleInstant [sampleRow])) then
    sampleRowsDigest
  else if bytes = Lib.Framing.utf8 sampleMessage then sampleDigest
  else "x" ++ Lib.Joins.join ',' (bytes.map fun b => toString b.toNat)

/-- The signature under the first test key of RFC 8032, in base64. -/
def sampleSignature (digest : String) : String :=
  if digest = sampleDigest then
    "ZXihzD+wdAT37FCZpkfJWuIvKtDIph0dfaV44E+ZiJzq7jOCXXTujdu1maVbyAK8YrB4hf1A4knmTS9mYBN9DA=="
  else "sig:" ++ digest

def sampleLib : Libraries where
  sha256Hex := sampleHash
  rfc3339 := sampleInstant
  keyId := "audit-2026"
  signature := sampleSignature
  verifies := fun signature digest => decide (signature = sampleSignature digest)

theorem sampleInstant_injective : Function.Injective sampleInstant := by
  intro s t h
  have hne : ∀ u : DateTime, "2026-01-01T00:00:30Z" ≠ "ns:" ++ toString u := by
    intro u heq
    have hfirst := congrArg (fun s : String => s.toList.head?) heq
    simp at hfirst
  unfold sampleInstant at h
  split at h
  · rename_i hs
    split at h
    · rename_i ht
      exact hs.trans ht.symm
    · exact absurd h (hne t)
  · split at h
    · exact absurd h.symm (hne s)
    · have hchars := congrArg String.toList h
      simp only [String.toList_append, List.append_cancel_left_eq] at hchars
      exact Lib.Joins.intText_injective (String.toList_inj.mp hchars)

theorem byteTexts_plain (bytes : List UInt8) {c : Char} (hc : c.isDigit = false) :
    ∀ s ∈ bytes.map (fun b => toString b.toNat), s ≠ "" ∧ c ∉ s.toList := by
  intro s hs
  obtain ⟨b, -, rfl⟩ := List.mem_map.mp hs
  refine ⟨Lib.Joins.toString_ne_empty _, fun hmem => ?_⟩
  rw [Lib.Joins.isDigit_of_mem_toString hmem] at hc
  cases hc

theorem sampleHash_injective : Function.Injective sampleHash := by
  have hne : ∀ (real : String) (bytes : List UInt8), real.toList.head? ≠ some 'x' →
      real ≠ "x" ++ Lib.Joins.join ',' (bytes.map fun b => toString b.toNat) := by
    intro real bytes hreal heq
    rw [heq] at hreal
    simp at hreal
  have hrows : sampleRowsDigest.toList.head? ≠ some 'x' := by decide
  have hrecord : sampleDigest.toList.head? ≠ some 'x' := by decide
  have hdiffer : sampleRowsDigest ≠ sampleDigest := by decide
  intro a b h
  unfold sampleHash at h
  split at h
  · rename_i ha
    split at h
    · rename_i hb
      exact ha.trans hb.symm
    · split at h
      · exact absurd h hdiffer
      · exact absurd h (hne _ b hrows)
  · split at h
    · rename_i ha
      split at h
      · exact absurd h.symm hdiffer
      · split at h
        · rename_i hb
          exact ha.trans hb.symm
        · exact absurd h (hne _ b hrecord)
    · split at h
      · exact absurd h.symm (hne _ a hrows)
      · split at h
        · exact absurd h.symm (hne _ a hrecord)
        · have hchars := congrArg String.toList h
          simp only [String.toList_append, List.append_cancel_left_eq] at hchars
          have htexts := Lib.Joins.join_injective (byteTexts_plain a (by decide))
            (byteTexts_plain b (by decide)) (String.toList_inj.mp hchars)
          refine List.map_injective_iff.mpr (fun x y hxy => ?_) htexts
          exact UInt8.toNat_inj.mp (Lib.Joins.toString_injective hxy)

theorem sampleLib_lawful : Lawful sampleLib where
  sha256_injective := sampleHash_injective
  sha256_oneLine := by
    intro bytes
    change Char.ofNat 10 ∉ (sampleHash bytes).toList
    unfold sampleHash
    split
    · decide
    · split
      · decide
      · rw [String.toList_append, List.mem_append, not_or]
        refine ⟨by decide, ?_⟩
        exact Lib.Joins.notMem_join (by decide) fun s hs => (byteTexts_plain bytes (by decide) s hs).2
  rfc3339_injective := sampleInstant_injective
  signature_verifies := fun _ => decide_eq_true rfl

/-- Sealed by the minute. -/
def samplePolicy : AuditPolicy where
  accessRetention := none
  securityRetention := none
  pseudonymiseAfter := none
  sealing := some 60
  erasureKey := none
  interval_pos := by
    intro secs h
    obtain rfl := Option.some.inj h
    decide

/-- The row is recorded and, two minutes later, its window sealed. -/
def sampleEvents : List Event :=
  [.insert sampleRow, .start 0 (.sealTick (sampleStart + 125000000000)) true, .advance 0 true,
    .advance 0 true]

/-- The sample erases and truncates nothing. -/
abbrev sampleStep : World → Event → World :=
  step sampleLib (fun _ userId => userId) (fun ip => ip) samplePolicy

theorem sampleEvents_admissible : Guarded sampleStep Admissible World.initial sampleEvents := by
  refine ⟨⟨List.not_mem_nil, ?_⟩, trivial, trivial, trivial, trivial⟩
  intro window hwindow
  exact absurd hwindow List.not_mem_nil

theorem sampleEvents_chainOk : ChainOk sampleLib (run sampleStep World.initial sampleEvents).trail :=
  (run_chainOk sampleLib_lawful sampleEvents sampleEvents_admissible).2

end Sample

theorem sealed_sample_verifies :
    Lawful sampleLib ∧ Guarded sampleStep Admissible World.initial sampleEvents ∧
      (run sampleStep World.initial sampleEvents).trail.events = [sampleRow] ∧
      (run sampleStep World.initial sampleEvents).trail.seals.map
        (fun r => (r.seq, r.windowStart, r.rowCount)) = [(1, sampleStart, 1)] ∧
      Verifies sampleLib (run sampleStep World.initial sampleEvents).trail :=
  ⟨sampleLib_lawful, sampleEvents_admissible, by decide +kernel, by decide +kernel,
    trail_always_verifies sampleLib_lawful sampleEvents sampleEvents_admissible⟩

end BatleHub.SealedRuns
