import BatleHub.Integrity
import BatleHub.Vocabulary

/-!
An artifact on its way from upstream into the cache (`services/proxy/cache`). The stream
is cut off at the size limit and hashed as it passes; the verdict is left in a slot when
the stream ends cleanly. A response that must not be stored is buffered instead, under
its own limit check and its own verdict. Both ways accept the same bytes.
-/
namespace BatleHub.ProxyCache

open Lib Integrity

/-- What polling the stream to its end yields. -/
abbrev ByteStream := List (Except CoreError Bytes)

structure IntegrityPolicy where
  enabled : Bool
  blockOnMismatch : Bool
  requireMetadata : Bool
  bypassRoles : List Role
  verifyOnServe : Bool

def clearsBypass (role : Role) (bypassRoles : List Role) : Bool :=
  (bypassRoles.map Role.rank).min?.any fun floor => decide (floor ≤ role.rank)

def artifactKeyFor (packageId : PackageId) : String := "artifact:" ++ packageId.cacheKey

/-- A cache miss: the request, the policy in force, and what upstream answers to it. -/
structure Fetch where
  packageId : PackageId
  role : Role
  integrity : IntegrityPolicy
  checksum : Option String
  limit : ℕ
  /-- The path, where this is a raw file of a registry that denies scripts. -/
  rawDeny : Option String
  noStore : Bool
  upstream : Except CoreError ByteStream

def Fetch.artifactKey (f : Fetch) : String := artifactKeyFor f.packageId

section Checks
variable (lib : Hashes) (startsLikeScript : Bytes → Bool)

def quoted (s : String) : String :=
  String.singleton (Char.ofNat 34) ++ s ++ String.singleton (Char.ofNat 34)

def peekForScript (stream : ByteStream) (coordinate : String) : Except CoreError ByteStream :=
  match stream with
  | .ok chunk :: rest =>
    if startsLikeScript chunk then
      .error (.accessDenied ("RAW_SCRIPT: '" ++ coordinate ++
        "' begins with a script preamble; this registry's raw.scripts is " ++ quoted "deny"))
    else .ok (.ok chunk :: rest)
  | .error e :: _ => .error e
  | [] => .ok []

def refuseRawScript (f : Fetch) (stream : ByteStream) : Except CoreError ByteStream :=
  match f.rawDeny with
  | none => .ok stream
  | some path => peekForScript startsLikeScript stream path

def gateMissingChecksum (f : Fetch) : Except CoreError Unit :=
  if !(f.integrity.enabled && f.checksum.isNone) then .ok ()
  else if f.integrity.requireMetadata && !clearsBypass f.role f.integrity.bypassRoles then
    .error (.integrityFailure
      ("integrity policy requires checksum metadata, but upstream provided none for " ++
        f.packageId.cacheKey))
  else .ok ()

/-- What comes before the bytes are read, whether or not they may be stored. -/
def openUpstream (f : Fetch) : Except CoreError ByteStream := do
  let stream ← f.upstream
  let stream ← refuseRawScript startsLikeScript f stream
  gateMissingChecksum f
  return stream

def buildArtifactVerifier (f : Fetch) : Option (StreamingVerifier lib) :=
  if !f.integrity.enabled then none else f.checksum.bind (StreamingVerifier.new lib)

/-- Only bytes that can still be refused are hidden until they are verified. -/
def mustStage (f : Fetch) : Bool :=
  (buildArtifactVerifier lib f).isSome && f.integrity.blockOnMismatch

/-- The reason to block, for a mismatch that blocks. -/
def classifyIntegrityOutcome (outcome : IntegrityOutcome) (blockOnMismatch : Bool)
    (packageId : PackageId) : Option String :=
  match outcome with
  | .verified _ => none
  | .mismatch algo expected actual =>
    if blockOnMismatch then
      some ("integrity check failed for " ++ packageId.cacheKey ++ ": " ++ algo.asStr ++
        " digest mismatch (expected " ++ expected ++ ", got " ++ actual ++ ")")
    else none
  | .unparseable => none

def tooLarge (limit : ℕ) : CoreError :=
  .payloadTooLarge ("artifact exceeds the " ++ toString limit ++ " byte limit")

/-- What the wrapped stream yields, and what its slot holds when it has been polled to its
end: a verdict only where the stream ended cleanly. -/
def instrumentUpstream (limit : ℕ) :
    ℕ → Option (StreamingVerifier lib) → ByteStream → ByteStream × Option IntegrityOutcome
  | _, verifier, [] => ([], verifier.map StreamingVerifier.finish)
  | _, _, .error e :: _ => ([.error e], none)
  | seen, verifier, .ok chunk :: rest =>
    if seen + chunk.length > limit then ([.error (tooLarge limit)], none)
    else
      let (items, slot) := instrumentUpstream limit (seen + chunk.length)
        (verifier.map fun v => v.update chunk) rest
      (.ok chunk :: items, slot)

def collectByteStream : ByteStream → Except CoreError Bytes
  | [] => .ok []
  | .error e :: _ => .error e
  | .ok chunk :: rest => (collectByteStream rest).map (chunk ++ ·)

/-- The bytes a store of the wrapped stream gets, with the verdict left in the slot. -/
def streamUpstream (f : Fetch) (stream : ByteStream) :
    Except CoreError (Bytes × Option IntegrityOutcome) :=
  let (items, slot) := instrumentUpstream lib f.limit 0 (buildArtifactVerifier lib f) stream
  (collectByteStream items).map fun data => (data, slot)

/-- The reason to fail closed: no verdict, or a mismatch that blocks. -/
def enforceVerifyOutcome (f : Fetch) (verifyOutcome : Option IntegrityOutcome) : Option String :=
  if (buildArtifactVerifier lib f).isSome && verifyOutcome.isNone then
    some ("integrity verification did not complete for " ++ f.packageId.cacheKey)
  else
    verifyOutcome.bind fun outcome =>
      classifyIntegrityOutcome outcome f.integrity.blockOnMismatch f.packageId

/-- The buffered loop, with the limit checked before a chunk is taken. -/
def bufferUpTo (limit : ℕ) : Bytes → ByteStream → Except CoreError Bytes
  | buf, [] => .ok buf
  | _, .error e :: _ => .error e
  | buf, .ok chunk :: rest =>
    if buf.length + chunk.length > limit then .error (tooLarge limit)
    else bufferUpTo limit (buf ++ chunk) rest

def serveNoStore (f : Fetch) (stream : ByteStream) : Except CoreError Bytes := do
  let data ← bufferUpTo f.limit [] stream
  if f.integrity.enabled then
    match f.checksum with
    | none => return data
    | some expected =>
      match classifyIntegrityOutcome (verify lib expected data) f.integrity.blockOnMismatch
        f.packageId with
      | some reason => .error (.integrityFailure reason)
      | none => return data
  else return data

/-- The streaming way lets the bytes through. -/
def Accepts (f : Fetch) (stream : ByteStream) : Prop :=
  ∃ data slot, streamUpstream lib f stream = .ok (data, slot) ∧
    enforceVerifyOutcome lib f slot = none

/-- The buffered way lets the bytes through. -/
def NoStoreAccepts (f : Fetch) (stream : ByteStream) : Prop :=
  ∃ data, serveNoStore lib f stream = .ok data

end Checks

section SameBytes
variable {lib : Hashes}

/-- The chunks of a stream without an error. -/
def chunksOf : ByteStream → Option (List Bytes)
  | [] => some []
  | .error _ :: _ => none
  | .ok chunk :: rest => (chunksOf rest).map (chunk :: ·)

/-- The bytes of a stream without an error, however it is cut. -/
def content (stream : ByteStream) : Option Bytes := (chunksOf stream).map List.flatten

theorem content_cons_ok (chunk : Bytes) (rest : ByteStream) :
    content (.ok chunk :: rest) = (content rest).map (chunk ++ ·) := by
  simp only [content, chunksOf, Option.map_map]
  rfl

theorem length_le_of_content {chunk : Bytes} {rest : ByteStream} {data : Bytes}
    (h : content (.ok chunk :: rest) = some data) : chunk.length ≤ data.length := by
  rw [content_cons_ok, Option.map_eq_some_iff] at h
  obtain ⟨tail, -, rfl⟩ := h
  simp

theorem map_eq_ok_iff {α β : Type} (x : Except CoreError α) (g : α → β) (b : β) :
    x.map g = .ok b ↔ ∃ a, x = .ok a ∧ g a = b := by
  cases x with
  | error e => simp [Except.map]
  | ok a => simp [Except.map]

/-- The wrapped stream is collected whole where it has no error and stays under the limit. -/
theorem collect_instrument_iff {limit seen : ℕ} (hseen : seen ≤ limit)
    (verifier : Option (StreamingVerifier lib)) (stream : ByteStream) (data : Bytes) :
    collectByteStream (instrumentUpstream lib limit seen verifier stream).1 = .ok data ↔
      content stream = some data ∧ seen + data.length ≤ limit := by
  induction stream generalizing seen verifier data with
  | nil =>
    have hnil : seen + data.length ≤ limit ↔ data.length ≤ limit - seen := by omega
    simp only [instrumentUpstream, collectByteStream, content, chunksOf, Option.map_some,
      List.flatten_nil, Except.ok.injEq, Option.some.injEq, hnil]
    constructor
    · rintro rfl
      exact ⟨rfl, Nat.zero_le _⟩
    · exact fun h => h.1
  | cons item rest ih =>
    cases item with
    | error e => simp [instrumentUpstream, collectByteStream, content, chunksOf]
    | ok chunk =>
      rw [instrumentUpstream]
      split
      · rename_i hover
        simp only [collectByteStream, reduceCtorEq, false_iff]
        intro ⟨hcontent, hunder⟩
        have hle := length_le_of_content hcontent
        omega
      · rename_i hunder
        have hrest := ih (by omega : seen + chunk.length ≤ limit)
          (verifier.map fun v => v.update chunk)
        simp only [collectByteStream, map_eq_ok_iff, hrest, content_cons_ok, Option.map_eq_some_iff]
        constructor
        · rintro ⟨tail, ⟨htail, hlength⟩, rfl⟩
          refine ⟨⟨tail, htail, rfl⟩, ?_⟩
          rw [List.length_append]
          omega
        · rintro ⟨⟨tail, htail, rfl⟩, hlength⟩
          refine ⟨tail, ⟨htail, ?_⟩, rfl⟩
          rw [List.length_append] at hlength
          omega

/-- A stream collected whole has left the verdict of all its chunks. -/
theorem slot_instrument {limit seen : ℕ} (hseen : seen ≤ limit)
    (verifier : Option (StreamingVerifier lib)) {stream : ByteStream} {chunks : List Bytes}
    (hchunks : chunksOf stream = some chunks) (hlimit : seen + chunks.flatten.length ≤ limit) :
    (instrumentUpstream lib limit seen verifier stream).2 =
      verifier.map fun v => (chunks.foldl StreamingVerifier.update v).finish := by
  induction stream generalizing seen verifier chunks with
  | nil =>
    obtain rfl : [] = chunks := by simpa [chunksOf] using hchunks
    rfl
  | cons item rest ih =>
    cases item with
    | error e => simp [chunksOf] at hchunks
    | ok chunk =>
      obtain ⟨tail, htail, rfl⟩ := Option.map_eq_some_iff.mp hchunks
      rw [List.flatten_cons, List.length_append] at hlimit
      rw [instrumentUpstream, if_neg (by omega)]
      show (instrumentUpstream lib limit (seen + chunk.length) _ rest).2 = _
      rw [ih (by omega) _ htail (by omega), Option.map_map]
      rfl

/-- The buffered loop takes the same streams. -/
theorem bufferUpTo_iff {limit : ℕ} {buf : Bytes} (hbuf : buf.length ≤ limit) (stream : ByteStream)
    (data : Bytes) :
    bufferUpTo limit buf stream = .ok data ↔
      ∃ tail, content stream = some tail ∧ data = buf ++ tail ∧ data.length ≤ limit := by
  induction stream generalizing buf with
  | nil =>
    simp only [bufferUpTo, content, chunksOf, Option.map_some, List.flatten_nil, Except.ok.injEq,
      Option.some.injEq]
    constructor
    · rintro rfl
      exact ⟨[], rfl, (List.append_nil buf).symm, hbuf⟩
    · rintro ⟨tail, rfl, rfl, -⟩
      exact (List.append_nil buf).symm
  | cons item rest ih =>
    cases item with
    | error e => simp [bufferUpTo, content, chunksOf]
    | ok chunk =>
      rw [bufferUpTo]
      split
      · rename_i hover
        simp only [reduceCtorEq, false_iff]
        rintro ⟨tail, htail, rfl, hunder⟩
        have hle := length_le_of_content htail
        rw [List.length_append] at hunder
        omega
      · rename_i hunder
        have hlength : (buf ++ chunk).length ≤ limit := by
          rw [List.length_append]
          omega
        rw [ih hlength, content_cons_ok]
        constructor
        · rintro ⟨tail, htail, rfl, hdata⟩
          exact ⟨chunk ++ tail, by rw [htail, Option.map_some], List.append_assoc _ _ _, hdata⟩
        · rintro ⟨both, hboth, rfl, hdata⟩
          obtain ⟨tail, htail, rfl⟩ := Option.map_eq_some_iff.mp hboth
          exact ⟨tail, htail, (List.append_assoc _ _ _).symm, hdata⟩

/-- Why the policy refuses the bytes. -/
def blockReason (lib : Hashes) (f : Fetch) (data : Bytes) : Option String :=
  if f.integrity.enabled then
    f.checksum.bind fun expected =>
      classifyIntegrityOutcome (verify lib expected data) f.integrity.blockOnMismatch f.packageId
  else none

/-- The verdict left by all the chunks is enforced as that of the whole. -/
theorem enforce_verifier (f : Fetch) (chunks : List Bytes) :
    enforceVerifyOutcome lib f ((buildArtifactVerifier lib f).map fun v =>
      (chunks.foldl StreamingVerifier.update v).finish) = blockReason lib f chunks.flatten := by
  unfold enforceVerifyOutcome blockReason buildArtifactVerifier
  cases f.integrity.enabled with
  | false => rfl
  | true =>
    cases f.checksum with
    | none => rfl
    | some expected =>
      simp only [Bool.not_true, Bool.false_eq_true, if_false, if_true, Option.bind_some]
      cases hverifier : StreamingVerifier.new lib expected with
      | some v =>
        simp [finish_foldl_update hverifier]
      | none =>
        -- a checksum that no verifier takes is one that `verify` cannot read
        have hparsed : parseExpected expected = none := by
          simpa [StreamingVerifier.new] using hverifier
        simp [(verify_eq_unparseable_iff _ _).mpr hparsed, classifyIntegrityOutcome]

theorem streamUpstream_eq_ok {f : Fetch} {stream : ByteStream} {data : Bytes}
    {slot : Option IntegrityOutcome} (h : streamUpstream lib f stream = .ok (data, slot)) :
    content stream = some data ∧ data.length ≤ f.limit ∧
      enforceVerifyOutcome lib f slot = blockReason lib f data := by
  obtain ⟨d, hd, heq⟩ := (map_eq_ok_iff _ _ _).mp h
  obtain ⟨rfl, rfl⟩ := Prod.mk.inj heq
  obtain ⟨hcontent, hlimit⟩ := (collect_instrument_iff (Nat.zero_le _) _ _ _).mp hd
  obtain ⟨chunks, hchunks, rfl⟩ := Option.map_eq_some_iff.mp hcontent
  rw [Nat.zero_add] at hlimit
  refine ⟨hcontent, hlimit, ?_⟩
  rw [slot_instrument (Nat.zero_le _) _ hchunks (by omega)]
  exact enforce_verifier f chunks

theorem accepts_iff (f : Fetch) (stream : ByteStream) :
    Accepts lib f stream ↔
      ∃ data, content stream = some data ∧ data.length ≤ f.limit ∧ blockReason lib f data = none := by
  constructor
  · rintro ⟨data, slot, hstream, hnone⟩
    obtain ⟨hcontent, hlimit, hreason⟩ := streamUpstream_eq_ok hstream
    exact ⟨data, hcontent, hlimit, hreason ▸ hnone⟩
  · rintro ⟨data, hcontent, hlimit, hnone⟩
    have hcollect := (collect_instrument_iff (Nat.zero_le f.limit) (buildArtifactVerifier lib f)
      stream data).mpr ⟨hcontent, by omega⟩
    have hstream := (map_eq_ok_iff _ (fun data => (data,
      (instrumentUpstream lib f.limit 0 (buildArtifactVerifier lib f) stream).2)) _).mpr
      ⟨data, hcollect, rfl⟩
    exact ⟨data, _, hstream, (streamUpstream_eq_ok hstream).2.2.trans hnone⟩

theorem noStoreAccepts_iff (f : Fetch) (stream : ByteStream) :
    NoStoreAccepts lib f stream ↔
      ∃ data, content stream = some data ∧ data.length ≤ f.limit ∧ blockReason lib f data = none := by
  have hbuffer (data : Bytes) : bufferUpTo f.limit [] stream = .ok data ↔
      content stream = some data ∧ data.length ≤ f.limit := by
    rw [bufferUpTo_iff (Nat.zero_le _)]
    constructor
    · rintro ⟨tail, htail, rfl, hlimit⟩
      exact ⟨htail, hlimit⟩
    · rintro ⟨hcontent, hlimit⟩
      exact ⟨data, hcontent, rfl, hlimit⟩
  have hserve : NoStoreAccepts lib f stream ↔
      ∃ data, bufferUpTo f.limit [] stream = .ok data ∧ blockReason lib f data = none := by
    unfold NoStoreAccepts serveNoStore blockReason
    cases bufferUpTo f.limit [] stream with
    | error e => simp [bind, Except.bind]
    | ok data =>
      cases f.integrity.enabled with
      | false => simp [bind, Except.bind, pure, Except.pure]
      | true =>
        cases f.checksum with
        | none => simp [bind, Except.bind, pure, Except.pure]
        | some expected =>
          cases hreason : classifyIntegrityOutcome (verify lib expected data)
            f.integrity.blockOnMismatch f.packageId with
          | none => simp [bind, Except.bind, pure, Except.pure, hreason]
          | some reason => simp [bind, Except.bind, hreason]
  rw [hserve]
  simp only [hbuffer, and_assoc]

/-- However the bytes are cut, both ways take the same. -/
theorem accepts_iff_noStoreAccepts (f : Fetch) {stream stream' : ByteStream}
    (h : content stream = content stream') :
    Accepts lib f stream ↔ NoStoreAccepts lib f stream' := by
  rw [accepts_iff, noStoreAccepts_iff, h]

/-- Bytes are refused only where they are staged. -/
theorem mustStage_of_blockReason {f : Fetch} {data : Bytes} {reason : String}
    (h : blockReason lib f data = some reason) : mustStage lib f = true := by
  unfold blockReason at h
  split at h
  · rename_i henabled
    obtain ⟨expected, hchecksum, hreason⟩ := Option.bind_eq_some_iff.mp h
    cases hblocks : f.integrity.blockOnMismatch with
    | false =>
      rw [hblocks] at hreason
      cases hverify : verify lib expected data <;> simp [hverify, classifyIntegrityOutcome] at hreason
    | true =>
      cases hparsed : parseExpected expected with
      | none =>
        simp [(verify_eq_unparseable_iff expected data).mpr hparsed,
          classifyIntegrityOutcome] at hreason
      | some parsed =>
        simp [mustStage, buildArtifactVerifier, henabled, hchecksum, hblocks,
          StreamingVerifier.new, hparsed]
  · cases h

theorem matches_of_mustStage {f : Fetch} (hstage : mustStage lib f = true) {data : Bytes}
    (h : blockReason lib f data = none) :
    ∃ expected, f.checksum = some expected ∧ Matches lib expected data := by
  unfold mustStage buildArtifactVerifier at hstage
  unfold blockReason at h
  cases henabled : f.integrity.enabled with
  | false => simp [henabled] at hstage
  | true =>
    cases hchecksum : f.checksum with
    | none => simp [henabled, hchecksum] at hstage
    | some expected =>
      refine ⟨expected, rfl, ?_⟩
      simp only [henabled, hchecksum, Bool.not_true, Bool.false_eq_true, if_false,
        Option.bind_some, Bool.and_eq_true] at hstage
      simp only [henabled, hchecksum, if_true, Option.bind_some, hstage.2] at h
      rw [← verify_eq_verified_iff]
      cases hverify : verify lib expected data with
      | verified algo => exact ⟨algo, rfl⟩
      | mismatch algo x y => simp [hverify, classifyIntegrityOutcome] at h
      | unparseable =>
        have hnone := (verify_eq_unparseable_iff expected data).mp hverify
        simp [StreamingVerifier.new, hnone] at hstage

end SameBytes

end BatleHub.ProxyCache
