import BatleHub.ErasedRows
import BatleHub.Lib.IpTexts
import Mathlib.Logic.Function.Iterate

/-!
What pseudonymisation leaves of an access row (`services/audit_trail.rs`). An address is cut
to its network and a text that is none is dropped, up to the texts with a slash: these pass
for networks, and only those that are one hold nothing more precise.
-/
namespace BatleHub.NetworkRows

open LocalPackages AuditEvents AuditStore AuditTrail Lib.IpTexts

section Cutting

def networkText : IpAddr → String
  | .v4 a b c _ => ipv4Text a b c 0 ++ "/24"
  | .v6 segments => ipv6Text (segments.take 3 ++ List.replicate 5 0) ++ "/48"

/-- An address cut to its network; any other text as it is. -/
def truncateIp (ip : String) : String :=
  match parseIp ip with
  | some a => networkText a
  | none => ip

/-- The text is the network of some address. -/
def IsNetwork (text : String) : Prop := ∃ ip a, parseIp ip = some a ∧ truncateIp ip = text

theorem slash_mem_networkText (a : IpAddr) : '/' ∈ (networkText a).toList := by
  cases a with
  | v4 => simp [networkText]
  | v6 => simp [networkText]

theorem parseIp_of_slash {ip : String} (h : '/' ∈ ip.toList) : parseIp ip = none :=
  parseIp_eq_none h (by decide)

theorem truncateIp_of_parse {ip : String} {a : IpAddr} (h : parseIp ip = some a) :
    truncateIp ip = networkText a := by
  unfold truncateIp
  rw [h]

theorem truncateIp_of_parse_none {ip : String} (h : parseIp ip = none) : truncateIp ip = ip := by
  unfold truncateIp
  rw [h]

/-- What becomes of an address. -/
def keptIp (ip : String) : Option String :=
  if '/' ∈ ip.toList then some ip else (parseIp ip).map networkText

theorem pseudonymisedRow_ip (r : AccessEvent) :
    (pseudonymisedRow truncateIp r).ipAddress = r.ipAddress.bind keptIp := by
  unfold pseudonymisedRow
  dsimp only
  congr 1
  funext ip
  unfold keptIp
  by_cases hslash : '/' ∈ ip.toList
  · rw [if_pos (.inr (List.contains_iff_mem.mpr hslash)), if_pos hslash,
      truncateIp_of_parse_none (parseIp_of_slash hslash)]
  · rw [if_neg hslash]
    cases hparse : parseIp ip with
    | none =>
      rw [truncateIp_of_parse_none hparse, if_neg (by simp [hslash])]
      rfl
    | some a =>
      have hcut : networkText a ≠ ip := fun heq => hslash (heq ▸ slash_mem_networkText a)
      rw [truncateIp_of_parse hparse, if_pos (.inl hcut)]
      rfl

theorem slash_mem_of_keptIp {ip kept : String} (h : keptIp ip = some kept) :
    '/' ∈ kept.toList := by
  unfold keptIp at h
  split at h
  · rename_i hslash
    obtain rfl := Option.some.inj h
    exact hslash
  · obtain ⟨a, -, rfl⟩ := Option.map_eq_some_iff.mp h
    exact slash_mem_networkText a

theorem keptIp_of_slash {ip : String} (h : '/' ∈ ip.toList) : keptIp ip = some ip := if_pos h

/-- A row that has no user agent and no address without a slash stays as it is. -/
theorem pseudonymisedRow_eq_self {r : AccessEvent} (hagent : r.userAgent = none)
    (hip : ∀ ip, r.ipAddress = some ip → '/' ∈ ip.toList) : pseudonymisedRow truncateIp r = r := by
  have hkept : r.ipAddress.bind keptIp = r.ipAddress := by
    cases haddress : r.ipAddress with
    | none => rfl
    | some ip => exact keptIp_of_slash (hip ip haddress)
  have hrow : pseudonymisedRow truncateIp r =
      { r with userAgent := none, ipAddress := (pseudonymisedRow truncateIp r).ipAddress } := rfl
  rw [hrow, pseudonymisedRow_ip, hkept, ← hagent]

theorem pseudonymisedRow_idem (r : AccessEvent) :
    pseudonymisedRow truncateIp (pseudonymisedRow truncateIp r) = pseudonymisedRow truncateIp r := by
  refine pseudonymisedRow_eq_self rfl fun kept hkept => ?_
  rw [pseudonymisedRow_ip] at hkept
  obtain ⟨ip, -, hip⟩ := Option.bind_eq_some_iff.mp hkept
  exact slash_mem_of_keptIp hip

end Cutting

section Rounds
variable {before : DateTime}

/-- An access row that is old enough. -/
structure DueRow (before : DateTime) where
  row : AccessEvent
  access : row.action.isAccessClass = true
  due : row.timestamp < before

/-- One round: the row is changed if the query finds it. -/
def pseudonymiseOnce (before : DateTime) (r : AccessEvent) : AccessEvent :=
  if (CandidateQuery.pseudonymise before).matches r then
    match Change.pseudonymise.op truncateIp r with
    | some (.replace new) => copyMutable new r
    | _ => r
  else r

/-- The row has lost its user agent and all of its address but a network, and another round
has nothing to do. -/
structure LeavesNetwork (r : AccessEvent) : Prop where
  agent : r.userAgent = none
  network : ∀ ip, r.ipAddress = some ip → IsNetwork ip
  done : Change.pseudonymise.op truncateIp r = none

theorem matches_iff {r : AccessEvent} (haccess : r.action.isAccessClass = true)
    (hdue : r.timestamp < before) : (CandidateQuery.pseudonymise before).matches r = false ↔
      r.userAgent = none ∧ ∀ ip, r.ipAddress = some ip → '/' ∈ ip.toList := by
  simp [CandidateQuery.matches, haccess, hdue, Option.any_eq_false]

theorem pseudonymiseOnce_eq (r : DueRow before) :
    pseudonymiseOnce before r.row = pseudonymisedRow truncateIp r.row := by
  unfold pseudonymiseOnce
  split
  · unfold Change.op
    dsimp only
    split
    · rename_i hop
      split at hop
      · cases hop
      · obtain rfl := RowOp.replace.inj (Option.some.inj hop)
        rfl
    · rename_i hop
      split at hop
      · rename_i hsame
        exact hsame.symm
      · exact absurd rfl (hop _)
  · rename_i hkept
    obtain ⟨hagent, hip⟩ := (matches_iff r.access r.due).mp (Bool.eq_false_iff.mpr hkept)
    exact (pseudonymisedRow_eq_self hagent hip).symm

theorem not_matches_pseudonymised (r : DueRow before) :
    (CandidateQuery.pseudonymise before).matches (pseudonymisedRow truncateIp r.row) = false := by
  have haccess : (pseudonymisedRow truncateIp r.row).action.isAccessClass = true := r.access
  have hdue : (pseudonymisedRow truncateIp r.row).timestamp < before := r.due
  refine (matches_iff haccess hdue).mpr ⟨rfl, fun kept hkept => ?_⟩
  rw [pseudonymisedRow_ip] at hkept
  obtain ⟨ip, -, hip⟩ := Option.bind_eq_some_iff.mp hkept
  exact slash_mem_of_keptIp hip

/-- However many rounds it takes, the row that is no longer found is the one after the
first. -/
theorem rounds_eq (r : DueRow before) {n : ℕ}
    (h : (CandidateQuery.pseudonymise before).matches ((pseudonymiseOnce before)^[n] r.row) =
      false) : (pseudonymiseOnce before)^[n] r.row = pseudonymisedRow truncateIp r.row := by
  cases n with
  | zero =>
    obtain ⟨hagent, hip⟩ := (matches_iff r.access r.due).mp h
    exact (pseudonymisedRow_eq_self hagent hip).symm
  | succ n =>
    rw [Function.iterate_succ_apply, pseudonymiseOnce_eq]
    apply Function.iterate_fixed
    unfold pseudonymiseOnce
    rw [if_neg (Bool.eq_false_iff.mp (not_matches_pseudonymised r))]

theorem leavesNetwork_pseudonymised_iff (r : AccessEvent) :
    LeavesNetwork (pseudonymisedRow truncateIp r) ↔
      ∀ ip, r.ipAddress = some ip → '/' ∈ ip.toList → IsNetwork ip := by
  constructor
  · intro h ip hip hslash
    apply h.network
    rw [pseudonymisedRow_ip, hip]
    exact keptIp_of_slash hslash
  · intro h
    refine ⟨rfl, fun kept hkept => ?_, if_pos (pseudonymisedRow_idem r)⟩
    rw [pseudonymisedRow_ip] at hkept
    obtain ⟨ip, hip, hkept⟩ := Option.bind_eq_some_iff.mp hkept
    unfold keptIp at hkept
    split at hkept
    · rename_i hslash
      obtain rfl := Option.some.inj hkept
      exact h ip hip hslash
    · obtain ⟨a, ha, rfl⟩ := Option.map_eq_some_iff.mp hkept
      exact ⟨ip, a, ha, truncateIp_of_parse ha⟩

end Rounds

/-- Some number of rounds takes a due row out of the query, and what it then holds is a
network at most exactly when its address had no slash or was a network already. -/
theorem leaves_networks_iff (before : DateTime) (r : DueRow before) :
    (∃ n, (CandidateQuery.pseudonymise before).matches ((pseudonymiseOnce before)^[n] r.row) =
        false) ∧
      ((∀ n, (CandidateQuery.pseudonymise before).matches ((pseudonymiseOnce before)^[n] r.row) =
          false → LeavesNetwork ((pseudonymiseOnce before)^[n] r.row)) ↔
        ∀ ip, r.row.ipAddress = some ip → '/' ∈ ip.toList → IsNetwork ip) := by
  have hone : (CandidateQuery.pseudonymise before).matches
      ((pseudonymiseOnce before)^[1] r.row) = false := by
    rw [Function.iterate_one, pseudonymiseOnce_eq]
    exact not_matches_pseudonymised r
  refine ⟨⟨1, hone⟩, ?_⟩
  rw [← leavesNetwork_pseudonymised_iff]
  constructor
  · intro h
    exact rounds_eq r hone ▸ h 1 hone
  · intro h n hn
    rw [rounds_eq r hn]
    exact h

section Slashed

/-- A download from an address that is written with its full length. -/
def slashedRow : DueRow 1 where
  row :=
    { id := "5f0c6a52-8f0e-4d5b-9d7a-1c2f3e4a5b6c"
      userId := some "alice"
      userRole := .user
      packageId := none
      action := .download
      result := .allowed
      timestamp := 0
      ipAddress := some "10.1.2.3/32"
      userAgent := some "npm/10"
      throttledCount := none
      detail := none
      reasonCode := none }
  access := rfl
  due := by decide

theorem getLast_networkText (a : IpAddr) :
    (networkText a).toList.getLast? = some '4' ∨ (networkText a).toList.getLast? = some '8' := by
  cases a with
  | v4 => left; simp [networkText]
  | v6 => right; simp [networkText]

/-- The whole address stays behind its slash. -/
theorem a_slash_keeps_the_address :
    ¬ ∀ n, (CandidateQuery.pseudonymise 1).matches
        ((pseudonymiseOnce 1)^[n] slashedRow.row) = false →
      LeavesNetwork ((pseudonymiseOnce 1)^[n] slashedRow.row) := by
  intro h
  have hone : (CandidateQuery.pseudonymise 1).matches
      ((pseudonymiseOnce 1)^[1] slashedRow.row) = false := by
    rw [Function.iterate_one, pseudonymiseOnce_eq]
    exact not_matches_pseudonymised slashedRow
  have hleaves := rounds_eq slashedRow hone ▸ h 1 hone
  obtain ⟨ip, a, hparse, htext⟩ :=
    (leavesNetwork_pseudonymised_iff _).mp hleaves "10.1.2.3/32" rfl (by decide)
  rw [truncateIp_of_parse hparse] at htext
  have hlast := getLast_networkText a
  rw [htext] at hlast
  revert hlast
  decide

end Slashed

end BatleHub.NetworkRows
