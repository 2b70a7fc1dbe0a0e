import BatleHub.AuditTrail

/-!
What the rewrites of `services/audit_trail.rs` do to the subject of a row. An erasure renames
its subject wherever a row names them, and no rewrite makes a row name anyone it did not
name before, pseudonyms apart.
-/
namespace BatleHub.ErasedRows

open LocalPackages AuditEvents SealChain AuditStore AuditTrail Lib.Texts

/-- The row a change writes in place of `r`; a deletion writes none. -/
def rewritten (truncateIp : String → String) (change : Change) (r : AccessEvent) : AccessEvent :=
  match change with
  | .delete => r
  | .pseudonymise => pseudonymisedRow truncateIp r
  | .erase userId name => erasedRow userId name r

theorem op_eq_replace {truncateIp : String → String} {change : Change} {r new : AccessEvent}
    (h : change.op truncateIp r = some (.replace new)) : new = rewritten truncateIp change r := by
  cases change with
  | delete => simp [Change.op] at h
  | pseudonymise =>
    simp only [Change.op] at h
    split at h
    · cases h
    · exact (RowOp.replace.inj (Option.some.inj h)).symm
  | erase userId name =>
    simp only [Change.op] at h
    split at h
    · cases h
    · exact (RowOp.replace.inj (Option.some.inj h)).symm

section Details

/-- A name of the kind an erasure gives. -/
def IsPseudonym (name : String) : Prop := startsWith name "erased:" = true

theorem isPseudonym_iff (name : String) :
    IsPseudonym name ↔ ∃ tail, name.toList = "erased:".toList ++ tail := by
  unfold IsPseudonym startsWith
  rw [List.isPrefixOf_iff_prefix]
  constructor
  · intro h
    obtain ⟨tail, htail⟩ := h
    exact ⟨tail, htail.symm⟩
  · intro h
    obtain ⟨tail, htail⟩ := h
    exact ⟨tail, htail.symm⟩

theorem isPseudonym_of_pseudonym {hmacHex : String → String → String} {policy : AuditPolicy}
    {userId name : String} (h : pseudonym hmacHex policy userId = some name) : IsPseudonym name := by
  obtain ⟨key, -, rfl⟩ := Option.map_eq_some_iff.mp h
  rw [isPseudonym_iff]
  exact ⟨_, String.toList_append⟩

theorem detailNamesSubject_iff (action : AccessAction) (detail userId : String) :
    detailNamesSubject action detail userId = true ↔ ∃ lead rest, subjectLead action = some lead ∧
      detail = lead ++ userId ++ rest ∧ (rest = "" ∨ startsWith rest " " = true) := by
  unfold detailNamesSubject subjectPrefix
  rw [Option.any_eq_true]
  constructor
  · intro h
    obtain ⟨_, hlead, hdetail⟩ := h
    obtain ⟨lead, haction, rfl⟩ := Option.map_eq_some_iff.mp hlead
    rw [Option.any_eq_true] at hdetail
    obtain ⟨rest, hstrip, hrest⟩ := hdetail
    refine ⟨lead, rest, haction, (stripPrefix_eq_some_iff _ _ _).mp hstrip, ?_⟩
    simpa using hrest
  · intro h
    obtain ⟨lead, rest, haction, hdetail, hrest⟩ := h
    refine ⟨lead ++ userId, by rw [haction]; rfl, ?_⟩
    rw [Option.any_eq_true]
    exact ⟨rest, (stripPrefix_eq_some_iff _ _ _).mpr hdetail, by simpa using hrest⟩

/-- A renamed detail is the pseudonym between the old lead and the old rest. -/
theorem renameSubject_eq_some {action : AccessAction} {detail userId name renamed : String}
    (h : renameSubject action detail userId name = some renamed) :
    ∃ lead rest, subjectLead action = some lead ∧ detail = lead ++ userId ++ rest ∧
      renamed = lead ++ name ++ rest := by
  unfold renameSubject at h
  split at h
  · rename_i hnames
    obtain ⟨lead, rest, haction, hdetail, -⟩ := (detailNamesSubject_iff _ _ _).mp hnames
    refine ⟨lead, rest, haction, hdetail, ?_⟩
    simp only [subjectPrefix, haction, Option.map_some, Option.bind_some, Option.some.injEq] at h
    rw [← h, hdetail]
    apply String.toList_inj.mp
    simp
  · cases h

theorem renameSubject_of_names {action : AccessAction} {detail userId : String}
    (h : detailNamesSubject action detail userId = true) (name : String) :
    ∃ renamed, renameSubject action detail userId name = some renamed := by
  obtain ⟨lead, rest, haction, -, -⟩ := (detailNamesSubject_iff _ _ _).mp h
  refine ⟨lead ++ name ++ String.ofList (detail.toList.drop (lead ++ userId).toList.length), ?_⟩
  simp [renameSubject, h, subjectPrefix, haction]

/-- After a rename the detail names no one but pseudonyms. -/
theorem isPseudonym_of_renamed {action : AccessAction} {detail other name renamed userId : String}
    (h : renameSubject action detail other name = some renamed) (hname : IsPseudonym name)
    (hnames : detailNamesSubject action renamed userId = true) : IsPseudonym userId := by
  obtain ⟨lead, rest, haction, -, hrenamed⟩ := renameSubject_eq_some h
  obtain ⟨lead', rest', haction', hrenamed', hrest'⟩ := (detailNamesSubject_iff _ _ _).mp hnames
  obtain rfl : lead = lead' := Option.some.inj (haction.symm.trans haction')
  obtain ⟨tail, htail⟩ := (isPseudonym_iff name).mp hname
  have hchars : "erased:".toList ++ (tail ++ rest.toList) = userId.toList ++ rest'.toList := by
    have heq := congrArg String.toList (hrenamed.symm.trans hrenamed')
    simp only [String.toList_append, List.append_assoc, List.append_cancel_left_eq, htail] at heq
    exact heq
  rw [isPseudonym_iff]
  rcases List.append_eq_append_iff.mp hchars with ⟨mid, hmid, -⟩ | ⟨mid, hmid, hend⟩
  · exact ⟨mid, hmid⟩
  · -- the subject would end inside the lead of a pseudonym, where there is no blank
    cases mid with
    | nil => exact ⟨[], by simpa using hmid.symm⟩
    | cons c mid =>
      exfalso
      have hc : c ∈ "erased:".toList := by
        rw [hmid]
        simp
      have hblank : c = ' ' := by
        rcases hrest' with hempty | hstart
        · rw [hempty] at hend
          simp at hend
        · unfold startsWith at hstart
          rw [hend] at hstart
          have hfirst : ' ' = c := by simpa using hstart
          exact hfirst.symm
      rw [hblank] at hc
      revert hc
      decide

end Details

section Rows
variable {truncateIp : String → String}

theorem namesUser_iff (userId : String) (r : AccessEvent) :
    namesUser userId r = true ↔ r.userId = some userId ∨
      ∃ detail, r.detail = some detail ∧ detailNamesSubject r.action detail userId = true := by
  unfold namesUser
  rw [Bool.or_eq_true, decide_eq_true_eq, Option.any_eq_true]

/-- The changes a call makes: where it renames someone, to a pseudonym. -/
def Renames (change : Change) : Prop :=
  ∀ userId name, change = .erase userId name → IsPseudonym name

/-- No change makes a row name someone. -/
theorem namesUser_of_rewritten (truncateIp : String → String) {change : Change} (hchange : Renames change) {userId : String}
    (hid : ¬ IsPseudonym userId) {r : AccessEvent}
    (h : namesUser userId (rewritten truncateIp change r) = true) : namesUser userId r = true := by
  cases change with
  | delete => exact h
  | pseudonymise => exact h
  | erase other name =>
    have hname := hchange other name rfl
    rw [namesUser_iff] at h ⊢
    rcases h with huser | ⟨detail, hdetail, hnames⟩
    · left
      simp only [rewritten, erasedRow] at huser
      split at huser
      · exact absurd (Option.some.inj huser ▸ hname) hid
      · exact huser
    · right
      simp only [rewritten, erasedRow] at hdetail hnames
      obtain ⟨old, hold, hnew⟩ := Option.map_eq_some_iff.mp hdetail
      cases hrename : renameSubject r.action old other name with
      | none =>
        rw [hrename, Option.getD_none] at hnew
        exact ⟨old, hold, hnew ▸ hnames⟩
      | some renamed =>
        rw [hrename, Option.getD_some] at hnew
        exact absurd (isPseudonym_of_renamed hrename hname (hnew ▸ hnames)) hid

/-- An erasure changes every row that names its subject. -/
theorem erase_op_isSome {userId name : String} (hne : name ≠ userId) {r : AccessEvent}
    (h : namesUser userId r = true) :
    (Change.erase userId name).op truncateIp r ≠ none := by
  intro hnone
  simp only [Change.op] at hnone
  split at hnone
  · rename_i hsame
    rcases (namesUser_iff userId r).mp h with huser | ⟨detail, hdetail, hnames⟩
    · have hkept := congrArg AccessEvent.userId hsame
      simp only [erasedRow, huser, if_true] at hkept
      exact hne (Option.some.inj hkept)
    · obtain ⟨renamed, hrename⟩ := renameSubject_of_names hnames name
      obtain ⟨lead, rest, -, hold, hnew⟩ := renameSubject_eq_some hrename
      have hkept := congrArg AccessEvent.detail hsame
      simp only [erasedRow, hdetail, Option.map_some, hrename, Option.getD_some,
        Option.some.injEq] at hkept
      rw [hnew, hold] at hkept
      have hchars := congrArg String.toList hkept
      simp only [String.toList_append, List.append_assoc, List.append_cancel_left_eq,
        List.append_cancel_right_eq] at hchars
      exact hne (String.toList_inj.mp hchars)
  · cases hnone

end Rows

end BatleHub.ErasedRows
