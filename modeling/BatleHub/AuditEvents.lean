import BatleHub.LocalPackages
import BatleHub.Lib.Framing
import BatleHub.Lib.Joins
import BatleHub.Lib.JsonText
import Mathlib.Data.List.Sort

/-!
The rows of the audit trail (`entities/access_log.rs`) and their canonical form
(`entities/audit_seal.rs`): the export JSON of a row with the keys of every object sorted,
on one line. A row is determined by its canonical form, and the rows of a window by the
digest of their lines.
-/
namespace BatleHub.AuditEvents

open LocalPackages Lib.Framing Lib.JsonText

inductive AccessAction where
  | download
  | viewMetadata
  | block
  | unblock
  | delete
  | addOwner
  | removeOwner
  | setVisibility
  | blockUser
  | unblockUser
  | blockIp
  | unblockIp
  | auditPurge
  | yank
  | unyank
  | deprecate
  | undeprecate
  | unlist
  | relist
  | addBetaMember
  | removeBetaMember
  | claimNamespace
  | releaseNamespace
  | resetQuota
  | tombstoneCompact
  | grantWrite
  | grantRevoke
  | setRetentionPin
  | retentionReclaim
  | retentionRun
  | retentionDryRun
  | cacheEvict
  | cacheClear
  | cacheEvictRun
  | cacheEvictDryRun
  | cacheCoherenceRun
  | cacheCoherenceDryRun
  | signIn
  | signInFailed
  | tokenCreate
  | tokenRevoke
  | tokenNewSource
  | credentialRejected
  | gdprErase
  | gdprExport
  | auditLifecycleRun
  deriving DecidableEq, Repr

namespace AccessAction

/-- The high-volume class. -/
def isAccessClass : AccessAction → Bool
  | .download | .viewMetadata => true
  | _ => false

/-- The name in the export JSON. -/
def exportName : AccessAction → String
  | .download => "download"
  | .viewMetadata => "viewmetadata"
  | .block => "block"
  | .unblock => "unblock"
  | .delete => "delete"
  | .addOwner => "addowner"
  | .removeOwner => "removeowner"
  | .setVisibility => "setvisibility"
  | .blockUser => "blockuser"
  | .unblockUser => "unblockuser"
  | .blockIp => "blockip"
  | .unblockIp => "unblockip"
  | .auditPurge => "auditpurge"
  | .yank => "yank"
  | .unyank => "unyank"
  | .deprecate => "deprecate"
  | .undeprecate => "undeprecate"
  | .unlist => "unlist"
  | .relist => "relist"
  | .addBetaMember => "addbetamember"
  | .removeBetaMember => "removebetamember"
  | .claimNamespace => "claimnamespace"
  | .releaseNamespace => "releasenamespace"
  | .resetQuota => "resetquota"
  | .tombstoneCompact => "tombstonecompact"
  | .grantWrite => "grantwrite"
  | .grantRevoke => "grantrevoke"
  | .setRetentionPin => "setretentionpin"
  | .retentionReclaim => "retentionreclaim"
  | .retentionRun => "retentionrun"
  | .retentionDryRun => "retentiondryrun"
  | .cacheEvict => "cacheevict"
  | .cacheClear => "cacheclear"
  | .cacheEvictRun => "cacheevictrun"
  | .cacheEvictDryRun => "cacheevictdryrun"
  | .cacheCoherenceRun => "cachecoherencerun"
  | .cacheCoherenceDryRun => "cachecoherencedryrun"
  | .signIn => "signin"
  | .signInFailed => "signinfailed"
  | .tokenCreate => "tokencreate"
  | .tokenRevoke => "tokenrevoke"
  | .tokenNewSource => "tokennewsource"
  | .credentialRejected => "credentialrejected"
  | .gdprErase => "gdprerase"
  | .gdprExport => "gdprexport"
  | .auditLifecycleRun => "auditlifecyclerun"

def all : List AccessAction :=
  [.download, .viewMetadata, .block, .unblock, .delete, .addOwner, .removeOwner, .setVisibility,
    .blockUser, .unblockUser, .blockIp, .unblockIp, .auditPurge, .yank, .unyank, .deprecate,
    .undeprecate, .unlist, .relist, .addBetaMember, .removeBetaMember, .claimNamespace,
    .releaseNamespace, .resetQuota, .tombstoneCompact, .grantWrite, .grantRevoke,
    .setRetentionPin, .retentionReclaim, .retentionRun, .retentionDryRun, .cacheEvict,
    .cacheClear, .cacheEvictRun, .cacheEvictDryRun, .cacheCoherenceRun, .cacheCoherenceDryRun,
    .signIn, .signInFailed, .tokenCreate, .tokenRevoke, .tokenNewSource, .credentialRejected,
    .gdprErase, .gdprExport, .auditLifecycleRun]

theorem mem_all (a : AccessAction) : a ∈ all := by
  cases a <;> decide

theorem exportNames_nodup : (all.map exportName).Nodup := by
  decide +kernel

theorem exportName_injective : Function.Injective exportName := by
  intro a b h
  exact List.inj_on_of_nodup_map exportNames_nodup (mem_all a) (mem_all b) h

end AccessAction

inductive AccessResult where
  | allowed
  | denied (reason : String)
  | proxyError (reason : String)
  deriving DecidableEq, Repr

/-- A row of the trail. The id is the hyphenated text of its UUID, whose order is the
UUID's. -/
structure AccessEvent where
  id : String
  userId : Option String
  userRole : Role
  packageId : Option PackageId
  action : AccessAction
  result : AccessResult
  timestamp : DateTime
  ipAddress : Option String
  userAgent : Option String
  throttledCount : Option ℕ
  detail : Option String
  reasonCode : Option String
  deriving DecidableEq, Repr

section Export

def roleName : Role → String
  | .anonymous => "anonymous"
  | .user => "user"
  | .admin => "admin"

/-- `Option<String>` of a field that is always written. -/
def optionValue : Option String → Json
  | none => .null
  | some s => .string s

def PackageId.fields (p : PackageId) : List (String × Option Json) :=
  [("registry", some (.string p.registry)), ("name", some (.string p.name)),
    ("version", some (.string p.version)), ("artifact", p.artifact.map .string)]

def packageValue : Option PackageId → Json
  | none => .null
  | some p => .object (present (PackageId.fields p))

def AccessResult.outcome : AccessResult → String
  | .allowed => "allowed"
  | .denied _ => "denied"
  | .proxyError _ => "error"

def AccessResult.reason : AccessResult → Option String
  | .allowed => none
  | .denied reason => some reason
  | .proxyError reason => some reason

def AccessResult.fields (r : AccessResult) : List (String × Option Json) :=
  [("outcome", some (.string r.outcome)), ("reason", r.reason.map .string)]

variable (rfc3339 : DateTime → String)

def AccessEvent.fields (e : AccessEvent) : List (String × Option Json) :=
  [("id", some (.string e.id)), ("user_id", some (optionValue e.userId)),
    ("user_role", some (.string (roleName e.userRole))),
    ("package_id", some (packageValue e.packageId)),
    ("action", some (.string e.action.exportName)),
    ("result", some (.object (present e.result.fields))),
    ("timestamp", some (.string (rfc3339 e.timestamp))),
    ("ip_address", e.ipAddress.map .string), ("user_agent", e.userAgent.map .string),
    ("throttled_count", e.throttledCount.map fun n => .number (toString n)),
    ("detail", e.detail.map .string), ("reason_code", e.reasonCode.map .string)]

/-- `serde_json::to_value`: the optional fields are left out where absent. -/
def AccessEvent.toValue (e : AccessEvent) : Json := .object (present (e.fields rfc3339))

/-- The members of an object in the order of their keys. -/
def sortMembers (members : List (String × List Char)) : List (String × List Char) :=
  members.insertionSort fun a b => a.1 ≤ b.1

mutual

def writeSorted : Json → List Char
  | .null => "null".toList
  | .bool b => (if b then "true" else "false").toList
  | .number text => text.toList
  | .string s => quote s.toList
  | .array items => '[' :: ([','].intercalate (writeItems items) ++ [']'])
  | .object fields =>
    objectText ((sortMembers (writeMembers fields)).map fun m => (m.1.toList, m.2))

def writeItems : List Json → List (List Char)
  | [] => []
  | v :: rest => writeSorted v :: writeItems rest

def writeMembers : List (String × Json) → List (String × List Char)
  | [] => []
  | (k, v) :: rest => (k, writeSorted v) :: writeMembers rest

end

def canonicalRow (e : AccessEvent) : List Char := writeSorted (e.toValue rfc3339)

end Export

theorem writeMembers_eq_map (fields : List (String × Json)) :
    writeMembers fields = fields.map fun f => (f.1, writeSorted f.2) := by
  induction fields with
  | nil => rw [writeMembers, List.map_nil]
  | cons f rest ih => rw [writeMembers, List.map_cons, ih]

theorem writeSorted_object (fields : List (String × Json)) :
    writeSorted (.object fields) =
      objectText ((sortMembers (writeMembers fields)).map fun m => (m.1.toList, m.2)) := by
  rw [writeSorted]

theorem writeSorted_string (s : String) : writeSorted (.string s) = quote s.toList := by
  rw [writeSorted]

theorem writeSorted_number (text : String) : writeSorted (.number text) = text.toList := by
  rw [writeSorted]

theorem writeSorted_null : writeSorted .null = "null".toList := by
  rw [writeSorted]

theorem sortMembers_perm (members : List (String × List Char)) :
    (sortMembers members).Perm members := List.perm_insertionSort _ members

/-- The fields of a record with the texts of their values. -/
def fieldTexts (fields : List (String × Option Json)) : List (String × Option (List Char)) :=
  fields.map fun f => (f.1, f.2.map writeSorted)

theorem writeMembers_present (fields : List (String × Option Json)) :
    writeMembers (present fields) = present (fieldTexts fields) := by
  rw [writeMembers_eq_map]
  induction fields with
  | nil => rfl
  | cons f rest ih =>
    obtain ⟨k, v⟩ := f
    cases v with
    | none => exact ih
    | some v => exact congrArg (List.cons (k, writeSorted v)) ih

/-- Each field that is written is a value text. -/
def Writable (fields : List (String × Option Json)) : Prop :=
  ∀ f ∈ fields, ∀ v, f.2 = some v → ValueText (writeSorted v)

theorem valueText_members {fields : List (String × Option Json)} (h : Writable fields) :
    ∀ m ∈ (sortMembers (writeMembers (present fields))).map fun m => (m.1.toList, m.2),
      ValueText m.2 := by
  intro m hm
  obtain ⟨n, hn, rfl⟩ := List.mem_map.mp hm
  have hmem := (sortMembers_perm _).mem_iff.mp hn
  rw [writeMembers_eq_map] at hmem
  obtain ⟨f, hf, rfl⟩ := List.mem_map.mp hmem
  exact h (f.1, some f.2) (mem_present.mp hf) f.2 rfl

theorem valueText_object {fields : List (String × Option Json)} (h : Writable fields) :
    ValueText (writeSorted (.object (present fields))) := by
  rw [writeSorted_object]
  exact valueText_objectText (valueText_members h)

/-- Over one list of keys, the text of a record determines the texts of its fields. -/
theorem fieldTexts_eq {a b : List (String × Option Json)} {keys : List String}
    (hakeys : a.map Prod.fst = keys) (hbkeys : b.map Prod.fst = keys) (hnodup : keys.Nodup)
    (ha : Writable a) (hb : Writable b)
    (h : writeSorted (.object (present a)) = writeSorted (.object (present b))) :
    fieldTexts a = fieldTexts b := by
  rw [writeSorted_object, writeSorted_object] at h
  have hmembers := objectText_injective (fun m hm => (valueText_members ha m hm).neutral)
    (fun m hm => (valueText_members hb m hm).neutral) h
  have hsorted : sortMembers (writeMembers (present a)) = sortMembers (writeMembers (present b)) := by
    refine List.map_injective_iff.mpr ?_ hmembers
    intro m n hmn
    obtain ⟨hkey, hvalue⟩ := Prod.mk.inj hmn
    exact Prod.ext (String.toList_inj.mp hkey) hvalue
  have hperm : (present (fieldTexts a)).Perm (present (fieldTexts b)) := by
    rw [← writeMembers_present, ← writeMembers_present]
    exact (sortMembers_perm _).symm.trans (hsorted ▸ sortMembers_perm _)
  have hfst : ∀ fields : List (String × Option Json),
      (fieldTexts fields).map Prod.fst = fields.map Prod.fst := by
    intro fields
    rw [fieldTexts, List.map_map]
    rfl
  refine fields_eq_of_perm ?_ ?_ hperm
  · rw [hfst, hfst, hakeys, hbkeys]
  · rw [hfst, hakeys]
    exact hnodup

section Values

theorem valueText_string (s : String) : ValueText (writeSorted (.string s)) := by
  rw [writeSorted_string]
  exact valueText_quote s.toList

theorem valueText_null : ValueText (writeSorted .null) := by
  rw [writeSorted_null]
  exact ⟨neutral_of_ordinary (by simp [Ordinary, quoteMark]), by decide⟩

theorem valueText_number (n : ℕ) : ValueText (writeSorted (.number (toString n))) := by
  rw [writeSorted_number]
  have hnot : ∀ c : Char, c.isDigit = false → c ∉ (toString n).toList := by
    intro c hc hmem
    rw [Lib.Joins.isDigit_of_mem_toString hmem] at hc
    cases hc
  refine ⟨neutral_of_ordinary ?_, hnot _ (by decide)⟩
  intro c hc
  refine ⟨?_, ?_, ?_, ?_⟩
  all_goals
    rintro rfl
    exact hnot _ (by decide) hc

theorem valueText_optionValue (o : Option String) : ValueText (writeSorted (optionValue o)) := by
  cases o with
  | none => exact valueText_null
  | some s => exact valueText_string s

theorem string_inj {s t : String} (h : writeSorted (.string s) = writeSorted (.string t)) :
    s = t := by
  rw [writeSorted_string, writeSorted_string] at h
  exact String.toList_inj.mp (quote_injective h)

theorem null_ne_string (s : String) : writeSorted .null ≠ writeSorted (.string s) := by
  rw [writeSorted_null, writeSorted_string]
  intro h
  exact absurd (List.cons.inj h).1 (by decide)

theorem null_ne_object (fields : List (String × Json)) :
    writeSorted .null ≠ writeSorted (.object fields) := by
  rw [writeSorted_null, writeSorted_object]
  intro h
  exact absurd (List.cons.inj h).1 (by decide)

theorem optionValue_inj {o p : Option String}
    (h : writeSorted (optionValue o) = writeSorted (optionValue p)) : o = p := by
  cases o with
  | none =>
    cases p with
    | none => rfl
    | some t => exact absurd h (null_ne_string t)
  | some s =>
    cases p with
    | none => exact absurd h.symm (null_ne_string s)
    | some t => exact congrArg some (string_inj h)

theorem optionalString_inj {o p : Option String}
    (h : (o.map Json.string).map writeSorted = (p.map Json.string).map writeSorted) : o = p := by
  rw [Option.map_map, Option.map_map] at h
  exact Option.map_injective (fun _ _ => string_inj) h

theorem optionalNumber_inj {o p : Option ℕ}
    (h : (o.map fun n => Json.number (toString n)).map writeSorted =
      (p.map fun n => Json.number (toString n)).map writeSorted) : o = p := by
  rw [Option.map_map, Option.map_map] at h
  refine Option.map_injective ?_ h
  intro m n hmn
  simp only [Function.comp_apply, writeSorted_number] at hmn
  exact Lib.Joins.toString_injective (String.toList_inj.mp hmn)

/-- Fields that are strings where they are written. -/
theorem writable_of_strings {fields : List (String × Option Json)}
    (h : ∀ f ∈ fields, ∀ v, f.2 = some v → ∃ s, v = .string s) : Writable fields := by
  intro f hf v hv
  obtain ⟨s, rfl⟩ := h f hf v hv
  exact valueText_string s

theorem writable_package (p : PackageId) : Writable (PackageId.fields p) := by
  refine writable_of_strings ?_
  intro f hf v hv
  simp only [PackageId.fields, List.mem_cons, List.not_mem_nil, or_false] at hf
  rcases hf with rfl | rfl | rfl | rfl
  · exact ⟨_, (Option.some.inj hv).symm⟩
  · exact ⟨_, (Option.some.inj hv).symm⟩
  · exact ⟨_, (Option.some.inj hv).symm⟩
  · obtain ⟨s, -, hs⟩ := Option.map_eq_some_iff.mp hv
    exact ⟨s, hs.symm⟩

theorem writable_result (r : AccessResult) : Writable r.fields := by
  refine writable_of_strings ?_
  intro f hf v hv
  simp only [AccessResult.fields, List.mem_cons, List.not_mem_nil, or_false] at hf
  rcases hf with rfl | rfl
  · exact ⟨_, (Option.some.inj hv).symm⟩
  · obtain ⟨s, -, hs⟩ := Option.map_eq_some_iff.mp hv
    exact ⟨s, hs.symm⟩

theorem valueText_packageValue (p : Option PackageId) :
    ValueText (writeSorted (packageValue p)) := by
  cases p with
  | none => exact valueText_null
  | some p => exact valueText_object (writable_package p)

theorem packageValue_inj {o p : Option PackageId}
    (h : writeSorted (packageValue o) = writeSorted (packageValue p)) : o = p := by
  cases o with
  | none =>
    cases p with
    | none => rfl
    | some q => exact absurd h (null_ne_object _)
  | some o =>
    cases p with
    | none => exact absurd h.symm (null_ne_object _)
    | some p =>
      have hkeys : ∀ q : PackageId,
          (PackageId.fields q).map Prod.fst = ["registry", "name", "version", "artifact"] :=
        fun _ => rfl
      have htexts := fieldTexts_eq (hkeys o) (hkeys p) (by decide) (writable_package o)
        (writable_package p) h
      simp only [fieldTexts, PackageId.fields, List.map_cons, List.map_nil, List.cons.injEq,
        Prod.mk.injEq, true_and, and_true, Option.map_some, Option.some.injEq] at htexts
      obtain ⟨hregistry, hname, hversion, hartifact⟩ := htexts
      obtain ⟨registry, name, version, artifact⟩ := o
      obtain ⟨registry', name', version', artifact'⟩ := p
      simp only [Option.some.injEq, PackageId.mk.injEq]
      exact ⟨string_inj hregistry, string_inj hname, string_inj hversion,
        optionalString_inj hartifact⟩

theorem resultValue_inj {r q : AccessResult}
    (h : writeSorted (.object (present r.fields)) = writeSorted (.object (present q.fields))) :
    r = q := by
  have hkeys : ∀ r : AccessResult, r.fields.map Prod.fst = ["outcome", "reason"] := fun _ => rfl
  have htexts := fieldTexts_eq (hkeys r) (hkeys q) (by decide) (writable_result r)
    (writable_result q) h
  simp only [fieldTexts, AccessResult.fields, List.map_cons, List.map_nil, List.cons.injEq,
    Prod.mk.injEq, true_and, and_true, Option.map_some, Option.some.injEq] at htexts
  -- the outcomes tell the variants apart, the reasons the values within one
  have houtcome : r.outcome = q.outcome := string_inj htexts.1
  have hreason : r.reason = q.reason := optionalString_inj htexts.2
  cases r <;> cases q <;> simp_all [AccessResult.outcome, AccessResult.reason]

end Values

section Rows
variable {rfc3339 : DateTime → String}

theorem writable_event (e : AccessEvent) : Writable (e.fields rfc3339) := by
  intro f hf v hv
  have hoptional : ∀ {o : Option String}, o.map Json.string = some v →
      ValueText (writeSorted v) := by
    intro o ho
    obtain ⟨s, -, rfl⟩ := Option.map_eq_some_iff.mp ho
    exact valueText_string s
  simp only [AccessEvent.fields, List.mem_cons, List.not_mem_nil, or_false] at hf
  rcases hf with rfl | rfl | rfl | rfl | rfl | rfl | rfl | rfl | rfl | rfl | rfl | rfl
  · exact Option.some.inj hv ▸ valueText_string _
  · exact Option.some.inj hv ▸ valueText_optionValue _
  · exact Option.some.inj hv ▸ valueText_string _
  · exact Option.some.inj hv ▸ valueText_packageValue _
  · exact Option.some.inj hv ▸ valueText_string _
  · exact Option.some.inj hv ▸ valueText_object (writable_result _)
  · exact Option.some.inj hv ▸ valueText_string _
  · exact hoptional hv
  · exact hoptional hv
  · obtain ⟨n, -, rfl⟩ := Option.map_eq_some_iff.mp hv
    exact valueText_number n
  · exact hoptional hv
  · exact hoptional hv

theorem roleName_injective : Function.Injective roleName := by
  intro a b h
  cases a <;> cases b <;> simp_all [roleName]

/-- A row is determined by its canonical form. -/
theorem canonicalRow_injective (hinstants : Function.Injective rfc3339) :
    Function.Injective (canonicalRow rfc3339) := by
  intro e f h
  have hkeys : ∀ e : AccessEvent, (e.fields rfc3339).map Prod.fst =
      ["id", "user_id", "user_role", "package_id", "action", "result", "timestamp", "ip_address",
        "user_agent", "throttled_count", "detail", "reason_code"] := fun _ => rfl
  have htexts := fieldTexts_eq (hkeys e) (hkeys f) (by decide) (writable_event e)
    (writable_event f) h
  simp only [fieldTexts, AccessEvent.fields, List.map_cons, List.map_nil, List.cons.injEq,
    Prod.mk.injEq, true_and, and_true, Option.map_some, Option.some.injEq] at htexts
  obtain ⟨hid, huser, hrole, hpackage, haction, hresult, htime, hip, hagent, hcount, hdetail,
    hcode⟩ := htexts
  have hfields : e.id = f.id ∧ e.userId = f.userId ∧ e.userRole = f.userRole ∧
      e.packageId = f.packageId ∧ e.action = f.action ∧ e.result = f.result ∧
      e.timestamp = f.timestamp ∧ e.ipAddress = f.ipAddress ∧ e.userAgent = f.userAgent ∧
      e.throttledCount = f.throttledCount ∧ e.detail = f.detail ∧ e.reasonCode = f.reasonCode :=
    ⟨string_inj hid, optionValue_inj huser, roleName_injective (string_inj hrole),
      packageValue_inj hpackage, AccessAction.exportName_injective (string_inj haction),
      resultValue_inj hresult, hinstants (string_inj htime), optionalString_inj hip,
      optionalString_inj hagent, optionalNumber_inj hcount, optionalString_inj hdetail,
      optionalString_inj hcode⟩
  cases e
  cases f
  simpa using hfields

theorem newline_notMem_canonicalRow (e : AccessEvent) :
    Char.ofNat 10 ∉ canonicalRow rfc3339 e :=
  (valueText_object (writable_event e)).oneLine

end Rows

section Digest
variable (sha256Hex : List UInt8 → String) (rfc3339 : DateTime → String)

/-- The rows' canonical forms, one per line. -/
def rowLines (rows : List AccessEvent) : List Char :=
  rows.flatMap fun e => canonicalRow rfc3339 e ++ [Char.ofNat 10]

def rowsDigest (rows : List AccessEvent) : String :=
  sha256Hex (utf8 (String.ofList (rowLines rfc3339 rows)))

variable {sha256Hex rfc3339}

theorem rowLines_injective (hinstants : Function.Injective rfc3339) :
    Function.Injective (rowLines rfc3339) := by
  intro rows others h
  induction rows generalizing others with
  | nil =>
    cases others with
    | nil => rfl
    | cons f others => simp [rowLines] at h
  | cons e rows ih =>
    cases others with
    | nil => simp [rowLines] at h
    | cons f others =>
      simp only [rowLines, List.flatMap_cons, List.append_assoc, List.cons_append,
        List.nil_append] at h
      obtain ⟨hrow, hrest⟩ := Lib.Joins.field_inj (newline_notMem_canonicalRow e)
        (newline_notMem_canonicalRow f) h
      rw [canonicalRow_injective hinstants hrow, ih hrest]

/-- Under a hash without collisions the digest of a window determines its rows. -/
theorem rowsDigest_injective (hhash : Function.Injective sha256Hex)
    (hinstants : Function.Injective rfc3339) :
    Function.Injective (rowsDigest sha256Hex rfc3339) := by
  intro rows others h
  have hlines := String.ofList_inj.mp (utf8_injective (hhash h))
  exact rowLines_injective hinstants hlines

end Digest

end BatleHub.AuditEvents
