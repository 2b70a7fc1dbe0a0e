import BatleHub.SealedRuns

/-!
What a passed verification proves. The newest digest fixes the message it is the hash of,
the message fixes the fields of its record, and one of the fields is the digest before: the
whole chain follows from its head, and each window's rows from the window's latest record.
The message counts microseconds, so the bounds of a stored window are fixed where they are
whole microseconds.
-/
namespace BatleHub.TamperEvidence

open LocalPackages AuditEvents SealChain AuditStore AuditTrail TrailPlacement SealedRuns
  Lib.AssocMap Lib.Framing Lib.Intervals Lib.Joins Lib.Runs Lib.Slots

section Messages

theorem asStr_injective : Function.Injective SealKind.asStr := by
  intro a b h
  cases a <;> cases b <;> simp_all [SealKind.asStr]

theorem newline_notMem_asStr (kind : SealKind) : Char.ofNat 10 ∉ kind.asStr.toList := by
  rcases kind with _ | _ | _
  · decide
  · decide
  · decide

theorem newline_notMem_int (a : ℤ) : Char.ofNat 10 ∉ (toString a).toList :=
  notMem_intText (by decide) (by decide) a

theorem newline_notMem_nat (n : ℕ) : Char.ofNat 10 ∉ (toString n).toList := by
  intro h
  have hdigit := isDigit_of_mem_toString h
  revert hdigit
  decide

theorem signedMessage_toList (r : SealRecord) : (signedMessage r).toList =
    "batlehub-audit-seal-v1".toList ++ Char.ofNat 10 :: ((toString r.seq).toList ++
    Char.ofNat 10 :: (r.kind.asStr.toList ++
    Char.ofNat 10 :: ((toString (timestampMicros r.windowStart)).toList ++
    Char.ofNat 10 :: ((toString (timestampMicros r.windowEnd)).toList ++
    Char.ofNat 10 :: ((toString r.rowCount).toList ++
    Char.ofNat 10 :: ((toString r.affected).toList ++
    Char.ofNat 10 :: (r.rowsDigest.toList ++ Char.ofNat 10 :: r.prevDigest.toList))))))) := by
  simp only [signedMessage, signedLines, join, String.toList_intercalate, String.toList_singleton,
    List.map_cons, List.map_nil, List.intercalate_cons_cons, List.intercalate_singleton,
    List.append_assoc, List.cons_append, List.nil_append]

/-- What a record's message says of it. -/
structure SameMessage (r g : SealRecord) : Prop where
  seq : r.seq = g.seq
  kind : r.kind = g.kind
  windowStart : timestampMicros r.windowStart = timestampMicros g.windowStart
  windowEnd : timestampMicros r.windowEnd = timestampMicros g.windowEnd
  rowCount : r.rowCount = g.rowCount
  affected : r.affected = g.affected
  rowsDigest : r.rowsDigest = g.rowsDigest
  prevDigest : r.prevDigest = g.prevDigest

/-- A message is read back in one way where one of the two records has its digests on one
line; the other may hold any text. -/
theorem sameMessage_of_eq {r g : SealRecord} (hrows : Char.ofNat 10 ∉ g.rowsDigest.toList)
    (hprev : Char.ofNat 10 ∉ g.prevDigest.toList) (h : signedMessage r = signedMessage g) :
    SameMessage r g := by
  have h0 := congrArg String.toList h
  rw [signedMessage_toList, signedMessage_toList] at h0
  obtain ⟨-, h1⟩ := field_inj (by decide) (by decide) h0
  obtain ⟨hseq, h2⟩ := field_inj (newline_notMem_int _) (newline_notMem_int _) h1
  obtain ⟨hkind, h3⟩ := field_inj (newline_notMem_asStr _) (newline_notMem_asStr _) h2
  obtain ⟨hstart, h4⟩ := field_inj (newline_notMem_int _) (newline_notMem_int _) h3
  obtain ⟨hend, h5⟩ := field_inj (newline_notMem_int _) (newline_notMem_int _) h4
  obtain ⟨hcount, h6⟩ := field_inj (newline_notMem_nat _) (newline_notMem_nat _) h5
  obtain ⟨haffected, h7⟩ := field_inj (newline_notMem_nat _) (newline_notMem_nat _) h6
  obtain ⟨hdigest, hbefore⟩ := cut_inj hrows hprev h7.symm
  exact ⟨intText_injective (String.toList_inj.mp hseq), asStr_injective (String.toList_inj.mp hkind),
    intText_injective (String.toList_inj.mp hstart), intText_injective (String.toList_inj.mp hend),
    toString_injective (String.toList_inj.mp hcount),
    toString_injective (String.toList_inj.mp haffected), (String.toList_inj.mp hdigest).symm,
    (String.toList_inj.mp hbefore).symm⟩

end Messages

section Genuine
variable (lib : Libraries)

/-- A chain as the service builds it, each record on the ones before. -/
inductive Genuine : List SealRecord → Prop
  | nil : Genuine []
  | append {records : List SealRecord} (h : Genuine records) (kind : SealKind) (window : Window)
      (rows : List AccessEvent) (affected : ℕ) :
      Genuine (records ++ [nextRecord lib records.getLast? kind window rows affected])

variable {lib}

theorem Genuine.chainValid (hlib : Lawful lib) {records : List SealRecord}
    (h : Genuine lib records) : ChainValid lib none records := by
  induction h with
  | nil => trivial
  | append h kind window rows affected ih =>
    rw [chainValid_snoc]
    exact ⟨ih, linkValid_nextRecord hlib _ _ _ _ _⟩

/-- Every record was built over some rows of its window. -/
theorem Genuine.built {records : List SealRecord} (h : Genuine lib records) {r : SealRecord}
    (hr : r ∈ records) :
    ∃ head kind rows affected, r = nextRecord lib head kind r.window rows affected := by
  induction h with
  | nil => simp at hr
  | append h kind window rows affected ih =>
    rcases List.mem_append.mp hr with hold | hnew
    · exact ih hold
    · rw [List.mem_singleton.mp hnew]
      exact ⟨_, _, _, _, rfl⟩

theorem Genuine.effect {policy : AuditPolicy} {w : World} {trail' : Trail}
    (h : Genuine lib w.trail.seals) (heffect : Effect lib policy w trail') :
    Genuine lib trail'.seals := by
  cases heffect with
  | same => exact h
  | loose ops hops => exact h
  | sealed window rows _ _ _ _ _ => exact h.append _ _ _ _
  | amended ops kind window rows affected _ _ _ _ => exact h.append _ _ _ _

theorem newline_notMem_digest (hlib : Lawful lib) {prev : Option SealRecord} {r : SealRecord}
    (h : LinkValid lib prev r) : Char.ofNat 10 ∉ r.digest.toList :=
  h.digest ▸ hlib.sha256_oneLine _

theorem newline_notMem_prevDigest (hlib : Lawful lib) {records : List SealRecord}
    (h : ChainValid lib none records) :
    Char.ofNat 10 ∉ (records.getLast?.elim genesisDigest fun p => p.digest).toList := by
  cases hlast : records.getLast? with
  | none => decide
  | some p =>
    obtain ⟨front, rfl⟩ := List.getLast?_eq_some_iff.mp hlast
    exact newline_notMem_digest hlib ((chainValid_snoc front p).mp h).2

end Genuine

section Descent
variable {lib : Libraries}

/-- A record but for its signature. -/
def unsigned (r : SealRecord) : SealRecord := { r with signature := "" }

def WholeWindows (records : List SealRecord) : Prop :=
  ∀ r ∈ records, WholeMicros r.windowStart ∧ WholeMicros r.windowEnd

theorem unsigned_eq {r g : SealRecord} (h : SameMessage r g) (hdigest : r.digest = g.digest)
    (hkey : r.keyId = g.keyId) (hr : WholeMicros r.windowStart ∧ WholeMicros r.windowEnd)
    (hg : WholeMicros g.windowStart ∧ WholeMicros g.windowEnd) : unsigned r = unsigned g := by
  have hstart := hr.1.eq_of_timestampMicros hg.1 h.windowStart
  have hend := hr.2.eq_of_timestampMicros hg.2 h.windowEnd
  unfold unsigned
  rw [h.seq, h.kind, hstart, hend, h.rowCount, h.affected, h.rowsDigest, hdigest, h.prevDigest, hkey]

/-- Down the chain from its head: a valid chain that ends in the digest of a genuine one is
the genuine one, but for the signatures. -/
theorem unsigned_chain_eq (hlib : Lawful lib) {genuine stored : List SealRecord}
    (hgenuine : Genuine lib genuine) (hstored : ChainValid lib none stored)
    (hwhole : WholeWindows genuine) (hwhole' : WholeWindows stored)
    (hhead : stored.getLast?.map (·.digest) = genuine.getLast?.map (·.digest)) :
    stored.map unsigned = genuine.map unsigned := by
  induction hgenuine generalizing stored with
  | nil =>
    have hempty : stored = [] := by simpa using hhead
    rw [hempty]
  | @append front h kind window rows affected ih =>
    have hlink := linkValid_nextRecord hlib front.getLast? kind window rows affected
    generalize hg : nextRecord lib front.getLast? kind window rows affected = g at *
    rw [List.getLast?_concat, Option.map_some] at hhead
    obtain ⟨r, hlast, hdigest⟩ := Option.map_eq_some_iff.mp hhead
    obtain ⟨before, rfl⟩ := List.getLast?_eq_some_iff.mp hlast
    obtain ⟨hbefore, hr⟩ := (chainValid_snoc before r).mp hstored
    have hfront := h.chainValid hlib
    have hsame : SameMessage r g := by
      have hprev : Char.ofNat 10 ∉ g.prevDigest.toList := by
        rw [hlink.prevDigest]
        exact newline_notMem_prevDigest hlib hfront
      have hrows : Char.ofNat 10 ∉ g.rowsDigest.toList := by
        rw [← hg]
        exact hlib.sha256_oneLine _
      refine sameMessage_of_eq hrows hprev (utf8_injective (hlib.sha256_injective ?_))
      exact hr.digest.trans (hdigest.trans hlink.digest.symm)
    -- the numbers say that both chains go on or both begin here
    have hlen : before.length = front.length := by
      have hseq := chainValid_seq_concat hstored
      have hseq' := chainValid_seq_concat ((chainValid_snoc front g).mpr ⟨hfront, hlink⟩)
      have heq := hsame.seq
      rw [hseq, hseq'] at heq
      omega
    have hheads : before.getLast?.map (·.digest) = front.getLast?.map (·.digest) := by
      have hprev := hsame.prevDigest
      rw [hr.prevDigest, hlink.prevDigest] at hprev
      cases hb : before.getLast? with
      | none =>
        rw [List.getLast?_eq_none_iff] at hb
        have hf : front = [] := by
          rw [hb] at hlen
          exact List.length_eq_zero_iff.mp hlen.symm
        simp [hf]
      | some b =>
        cases hf : front.getLast? with
        | none =>
          rw [List.getLast?_eq_none_iff] at hf
          rw [hf] at hlen
          rw [List.length_eq_zero_iff.mp hlen] at hb
          simp at hb
        | some f =>
          rw [hb, hf] at hprev
          simpa using hprev
    have hrest := ih hbefore (fun x hx => hwhole x (List.mem_append_left _ hx))
      (fun x hx => hwhole' x (List.mem_append_left _ hx)) hheads
    have hrecord := unsigned_eq hsame hdigest (hr.keyId.trans hlink.keyId.symm)
      (hwhole' r (by simp)) (hwhole g (by simp))
    rw [List.map_append, List.map_append, hrest, List.map_cons, List.map_cons, hrecord]

/-- Where a signature text passes only as the key's own, the signatures agree too. -/
theorem chain_eq {genuine stored : List SealRecord}
    (hown : ∀ signature digest, lib.verifies signature digest = true →
      signature = lib.signature digest)
    {prev prev' : Option SealRecord} (hgenuine : ChainValid lib prev genuine)
    (hstored : ChainValid lib prev' stored)
    (h : stored.map unsigned = genuine.map unsigned) : stored = genuine := by
  induction stored generalizing genuine prev prev' with
  | nil => exact (List.map_eq_nil_iff.mp h.symm).symm
  | cons r stored ih =>
    cases genuine with
    | nil => simp at h
    | cons g genuine =>
      obtain ⟨hfirst, hrest⟩ := List.cons.inj h
      have hdigest : (unsigned r).digest = (unsigned g).digest := congrArg SealRecord.digest hfirst
      change r.digest = g.digest at hdigest
      have hsignature : r.signature = g.signature := by
        rw [hown _ _ hstored.1.signature, hown _ _ hgenuine.1.signature, hdigest]
      have hrecord : r = g := by
        cases r
        cases g
        simp only [unsigned, SealRecord.mk.injEq] at hfirst ⊢
        simp_all
      rw [hrecord, ih hgenuine.2 hstored.2 hrest]

theorem latestRecords_map_unsigned (records : List SealRecord) (window : Window) :
    (latestRecords (records.map unsigned)).lookup window =
      ((latestRecords records).lookup window).map unsigned := by
  induction records using List.reverseRecOn with
  | nil => simp [latestRecords]
  | append_singleton records r ih =>
    have hwindow : (unsigned r).window = r.window := rfl
    rw [List.map_append, List.map_cons, List.map_nil, latestRecords_append, latestRecords_append,
      hwindow, ih]
    split
    · rfl
    · rfl

theorem exists_latest {records : List SealRecord} {window : Window}
    (h : window ∈ sealedWindows records) : ∃ r, (latestRecords records).lookup window = some r := by
  induction records using List.reverseRecOn with
  | nil => simp [sealedWindows] at h
  | append_singleton records r ih =>
    rw [latestRecords_append]
    by_cases heq : window = r.window
    · exact ⟨r, if_pos heq⟩
    · rw [if_neg heq]
      rw [sealedWindows_append] at h
      rcases List.mem_append.mp h with hold | hnew
      · exact ih hold
      · split at hnew
        · exact absurd (List.mem_singleton.mp hnew) heq
        · exact absurd hnew List.not_mem_nil

/-- Rows that match a record as stored are the rows it was built over. -/
theorem rows_eq_of_match (hlib : Lawful lib) {r : SealRecord} {head : Option SealRecord}
    {kind : SealKind} {window : Window} {sealedRows : List AccessEvent} {affected : ℕ}
    (hr : unsigned r = unsigned (nextRecord lib head kind window sealedRows affected))
    {rows : List AccessEvent} (h : RowsMatch lib r rows) : rows = sealedRows := by
  have hcount : r.rowCount = sealedRows.length := by
    have hcount := congrArg SealRecord.rowCount hr
    exact hcount
  have hdigest : r.rowsDigest = rowsDigest lib sealedRows := by
    have hdigest := congrArg SealRecord.rowsDigest hr
    exact hdigest
  rcases h with ⟨-, hzero, hnil⟩ | ⟨-, hsame⟩
  · rw [hzero] at hcount
    rw [hnil, List.length_eq_zero_iff.mp hcount.symm]
  · exact rowsDigest_injective hlib.sha256_injective hlib.rfc3339_injective (hsame.trans hdigest)

end Descent

section Evidence
variable {lib : Libraries} {hmacHex : String → String → String} {truncateIp : String → String}
  {policy : AuditPolicy}

theorem run_genuine (events : List Event)
    (hfresh : Guarded (step lib hmacHex truncateIp policy) FreshId World.initial events) :
    Placed lib policy (run (step lib hmacHex truncateIp policy) World.initial events) ∧
      Genuine lib (run (step lib hmacHex truncateIp policy) World.initial events).trail.seals := by
  refine run_keeps FreshId (fun w => Placed lib policy w ∧ Genuine lib w.trail.seals) ?_ _ _
    ⟨placed_initial, .nil⟩ hfresh
  intro w event hw hevent
  refine ⟨hw.1.step hevent, ?_⟩
  rcases hw.1.step_cases hmacHex truncateIp event with ⟨e, rfl⟩ | hsame | ⟨id, call, next, hnext, hstep⟩
  · exact hw.2
  · rw [hsame]
    exact hw.2
  · rw [hstep]
    exact hw.2.effect hnext.effect

theorem wholeWindows_of_shape {seals : List SealRecord} (h : Shape seals) : WholeWindows seals :=
  fun r hr => h.whole r.window (h.inForce r hr)

/-- The stored trail holds the genuine records, and in each sealed window the rows that the
window's latest genuine record was built over. -/
structure SameTrail (lib : Libraries) (genuine : List SealRecord) (stored : Trail) : Prop where
  unsigned : stored.seals.map unsigned = genuine.map unsigned
  records : (∀ signature digest, lib.verifies signature digest = true →
    signature = lib.signature digest) → stored.seals = genuine
  rows : ∀ window ∈ sealedWindows genuine, ∃ head kind rows affected,
    (latestRecords genuine).lookup window = some (nextRecord lib head kind window rows affected) ∧
      rowsIn stored.events window.1 window.2 = rows

/-- Whatever records with windows on whole microseconds and whatever rows are stored, if they
verify against the newest digest of a chain of the service, they are that chain and its rows. -/
theorem verified_store_is_genuine (hlib : Lawful lib) (events : List Event)
    (hfresh : Guarded (step lib hmacHex truncateIp policy) FreshId World.initial events)
    (newest : SealRecord)
    (hnewest : (run (step lib hmacHex truncateIp policy) World.initial events).trail.seals.getLast? =
      some newest)
    (stored : Trail) (hwhole : WholeWindows stored.seals)
    (hverify : (verify lib stored.seals (rowsIn stored.events) none none
      (some newest.digest)).failures = []) :
    SameTrail lib (run (step lib hmacHex truncateIp policy) World.initial events).trail.seals
      stored := by
  obtain ⟨hplaced, hgenuine⟩ := run_genuine events hfresh
  generalize run (step lib hmacHex truncateIp policy) World.initial events = w at *
  obtain ⟨hstored, hrows, hhead⟩ := (verify_failures_eq_nil lib _ _ _).mp hverify
  have hchain := hgenuine.chainValid hlib
  have hunsigned : stored.seals.map unsigned = w.trail.seals.map unsigned := by
    refine unsigned_chain_eq hlib hgenuine hstored (wholeWindows_of_shape hplaced.shape) hwhole ?_
    rw [hhead _ rfl, hnewest]
    rfl
  refine ⟨hunsigned, fun hown => chain_eq hown hchain hstored hunsigned, ?_⟩
  intro window hwindow
  obtain ⟨g, hg⟩ := exists_latest hwindow
  obtain ⟨hmem, hgwindow⟩ := mem_of_latest hg
  obtain ⟨head, kind, rows, affected, hbuilt⟩ := hgenuine.built hmem
  rw [hgwindow] at hbuilt
  refine ⟨head, kind, rows, affected, hbuilt ▸ hg, ?_⟩
  have hlatest : ((latestRecords stored.seals).lookup window).map unsigned = some (unsigned g) := by
    rw [← latestRecords_map_unsigned, hunsigned, latestRecords_map_unsigned, hg]
    rfl
  obtain ⟨r, hr, hrg⟩ := Option.map_eq_some_iff.mp hlatest
  exact rows_eq_of_match hlib (hbuilt ▸ hrg) (hrows window r hr)

end Evidence

section Shifted
variable {lib : Libraries}

/-- The first seal of a trail goes through. -/
theorem apply_first_seal {events rows : List AccessEvent} {window : Window}
    (h : rowsIn events window.1 window.2 = rows) :
    apply lib ⟨[], some (nextRecord lib none .seal window rows 0), some (headSeq none)⟩
      ⟨events, []⟩ = .ok ⟨events, [nextRecord lib none .seal window rows 0]⟩ := by
  have happly := apply_record lib [] (nextRecord lib none .seal window rows 0) ⟨events, []⟩
    (congrArg (rowsDigest lib) h)
  exact happly

/-- The record with its window's end one nanosecond later. -/
def shiftEnd (r : SealRecord) : SealRecord := { r with windowEnd := r.windowEnd + 1 }

theorem timestampMicros_succ {t : DateTime} (h : WholeMicros t) :
    timestampMicros (t + 1) = timestampMicros t := by
  obtain ⟨micros, rfl⟩ := h
  unfold timestampMicros
  omega

theorem linkValid_shiftEnd {head : Option SealRecord} {r : SealRecord} (h : LinkValid lib head r)
    (hwhole : WholeMicros r.windowEnd) : LinkValid lib head (shiftEnd r) := by
  have hmessage : signedMessage (shiftEnd r) = signedMessage r := by
    have hmicros : timestampMicros (shiftEnd r).windowEnd = timestampMicros r.windowEnd :=
      timestampMicros_succ hwhole
    unfold signedMessage signedLines
    rw [hmicros]
    rfl
  refine ⟨h.seq, h.prevDigest, ?_, h.keyId, h.signature⟩
  unfold recordDigest
  rw [hmessage]
  exact h.digest

theorem rowsMatch_shiftEnd (head : Option SealRecord) (kind : SealKind) (window : Window)
    (rows : List AccessEvent) (affected : ℕ) :
    RowsMatch lib (shiftEnd (nextRecord lib head kind window rows affected)) rows :=
  .inr ⟨rfl, rfl⟩

theorem shiftEnd_ne (r : SealRecord) : shiftEnd r ≠ r := by
  intro h
  have hend : r.windowEnd + 1 = r.windowEnd := congrArg SealRecord.windowEnd h
  exact absurd hend (Int.ne_of_gt (Int.lt_add_one_of_le le_rfl))

/-- A one-record chain over rows that stay the same in the longer window. -/
theorem shiftEnd_verifies (hlib : Lawful lib) {events rows : List AccessEvent} {window : Window}
    (hwhole : WholeMicros window.2) (hrows : rowsIn events window.1 (window.2 + 1) = rows) :
    (verify lib [shiftEnd (nextRecord lib none .seal window rows 0)] (rowsIn events) none none
      (some (nextRecord lib none .seal window rows 0).digest)).failures = [] := by
  rw [verify_failures_eq_nil]
  have hlink := linkValid_nextRecord hlib none .seal window rows 0
  refine ⟨⟨linkValid_shiftEnd hlink hwhole, trivial⟩, ?_, fun head hhead => hhead⟩
  intro other r hr
  obtain ⟨hmem, rfl⟩ := mem_of_latest hr
  rw [List.mem_singleton.mp hmem]
  have hsame : rowsIn events (shiftEnd (nextRecord lib none .seal window rows 0)).window.1
      (shiftEnd (nextRecord lib none .seal window rows 0)).window.2 = rows := hrows
  rw [hsame]
  exact rowsMatch_shiftEnd _ _ _ _ _

end Shifted

section Sample

def sampleWindow : Window := (sampleStart, sampleStart + 60000000000)

def sampleRecord : SealRecord := nextRecord sampleLib none .seal sampleWindow [sampleRow] 0

theorem rowsIn_sampleRow {stop : DateTime} (h : sampleRow.timestamp < stop) :
    rowsIn [sampleRow] sampleStart stop = [sampleRow] := by
  have hfrom : sampleStart ≤ sampleRow.timestamp := by decide
  have hin : Holds (sampleStart, stop) sampleRow.timestamp := ⟨hfrom, h⟩
  simp [rowsIn, hin]

/-- The sample run seals the row's window, whatever the libraries. -/
theorem sampleEvents_trail (lib : Libraries) :
    (run (step lib (fun _ userId => userId) (fun ip => ip) samplePolicy) World.initial
      sampleEvents).trail =
      ⟨[sampleRow], [nextRecord lib none .seal sampleWindow [sampleRow] 0]⟩ := by
  have hrows : rowsIn [sampleRow] sampleStart (sampleStart + 60000000000) = [sampleRow] :=
    rowsIn_sampleRow (by decide)
  have hstart : begin (fun _ userId => userId) samplePolicy ⟨[sampleRow], []⟩
      (.sealTick (sampleStart + 125000000000)) =
      .sealing (sampleStart + 125000000000) none sampleStart 0 := rfl
  have hbuilt : advance lib (fun ip => ip) samplePolicy ⟨[sampleRow], []⟩
      (.sealing (sampleStart + 125000000000) none sampleStart 0) =
      (⟨[sampleRow], []⟩, .sealBuilt (sampleStart + 125000000000) none
        (nextRecord lib none .seal sampleWindow [sampleRow] 0) 0) := by
    have hlength : (samplePolicy.sealing.map intervalStep).getD 0 = 60000000000 := rfl
    have hdue : 0 < sealsPerTick ∧
        sampleStart + 60000000000 + 60000000000 ≤ sampleStart + 125000000000 := by decide
    simp only [advance, hlength, if_pos hdue, hrows]
    rfl
  have happly : apply lib ⟨[], some (nextRecord lib none .seal sampleWindow [sampleRow] 0),
      some (headSeq none)⟩ ⟨[sampleRow], []⟩ =
      .ok ⟨[sampleRow], [nextRecord lib none .seal sampleWindow [sampleRow] 0]⟩ :=
    apply_first_seal hrows
  simp only [run, sampleEvents, List.foldl_cons, List.foldl_nil, step, World.initial,
    List.nil_append, World.setTask, Function.update_self, hstart, if_true, hbuilt]
  simp only [advance, happly]

theorem sample_trail :
    (run sampleStep World.initial sampleEvents).trail = ⟨[sampleRow], [sampleRecord]⟩ :=
  sampleEvents_trail sampleLib

end Sample

theorem untouched_sample_is_genuine :
    WholeWindows [sampleRecord] ∧
      (verify sampleLib [sampleRecord] (rowsIn [sampleRow]) none none
        (some sampleRecord.digest)).failures = [] ∧
      SameTrail sampleLib (run sampleStep World.initial sampleEvents).trail.seals
        ⟨[sampleRow], [sampleRecord]⟩ := by
  have hnewest : (run sampleStep World.initial sampleEvents).trail.seals.getLast? =
      some sampleRecord := by
    rw [sample_trail]
    exact List.getLast?_singleton
  have hwhole : WholeWindows [sampleRecord] := by
    intro r hr
    rw [List.mem_singleton.mp hr]
    exact ⟨by decide, by decide⟩
  have hverify : (verify sampleLib [sampleRecord] (rowsIn [sampleRow]) none none
      (some sampleRecord.digest)).failures = [] := by
    have hrun := sampleEvents_chainOk.verify
    rw [hnewest, sample_trail] at hrun
    exact hrun
  have hfresh : Guarded sampleStep FreshId World.initial sampleEvents :=
    ⟨List.not_mem_nil, trivial, trivial, trivial, trivial⟩
  exact ⟨hwhole, hverify, verified_store_is_genuine sampleLib_lawful sampleEvents hfresh sampleRecord
    hnewest ⟨[sampleRow], [sampleRecord]⟩ hwhole hverify⟩

/-- A stored window one nanosecond longer than the genuine one verifies. -/
theorem shifted_window_verifies :
    Lawful sampleLib ∧
      (∀ signature digest, sampleLib.verifies signature digest = true →
        signature = sampleLib.signature digest) ∧
      Guarded sampleStep FreshId World.initial sampleEvents ∧
      (run sampleStep World.initial sampleEvents).trail.seals.getLast? = some sampleRecord ∧
      (verify sampleLib [shiftEnd sampleRecord] (rowsIn [sampleRow]) none none
        (some sampleRecord.digest)).failures = [] ∧
      [shiftEnd sampleRecord] ≠ (run sampleStep World.initial sampleEvents).trail.seals := by
  rw [sample_trail]
  refine ⟨sampleLib_lawful, fun _ _ h => of_decide_eq_true h, ?_, List.getLast?_singleton, ?_, ?_⟩
  · exact ⟨List.not_mem_nil, trivial, trivial, trivial, trivial⟩
  · have hwhole : WholeMicros sampleWindow.2 := by decide
    exact shiftEnd_verifies sampleLib_lawful hwhole (rowsIn_sampleRow (by decide))
  · intro heq
    exact shiftEnd_ne sampleRecord (List.cons.inj heq).1

end BatleHub.TamperEvidence
