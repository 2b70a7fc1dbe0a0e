import BatleHub.PublishOwnership

/-!
Deletes among publishes. A tombstone spends the record, and the bytes dropped after
it are those of no live row. A publish that has committed may find its record
spent; one that has not finds its own pending row.
-/
namespace BatleHub.DroppedBytes

open LocalPackages InMemoryRegistry PublishProtocol PublishOwnership Lib.AssocMap

variable {sha256Hex : List UInt8 → String} {env : TextEnv} {s : World sha256Hex}

/-- A delete with no more to drop than before. -/
theorem inv_setDelete (h : Inv env s) {t : ℕ} {d : Delete} {phase : DeletePhase}
    (hless : ∀ rest, phase = .dropping rest → ∃ old rest', s.deletes.lookup t = some old ∧
      old.phase = .dropping rest' ∧ ∀ x ∈ rest, x ∈ rest') :
    Inv env (s.setDelete t d phase) := by
  have hold : ∀ u e rest, (s.setDelete t d phase).deletes.lookup u = some e →
      e.phase = .dropping rest → ∀ x ∈ rest, ∃ old rest', s.deletes.lookup u = some old ∧
        old.phase = .dropping rest' ∧ x ∈ rest' := by
    intro u e rest he hdrop x hx
    rcases lookup_setDelete he with ⟨rfl, rfl⟩ | ⟨-, hold⟩
    · obtain ⟨old, rest', hold, hdrop', hsub⟩ := hless rest hdrop
      exact ⟨old, rest', hold, hdrop', hsub x hx⟩
    · exact ⟨e, rest, hold, hdrop, hx⟩
  refine ⟨h.marked, h.bytes, ?_, h.apart, h.settled, h.rows, ?_, ?_⟩
  · exact fun u q hq => phaseOk_frame rfl (.inr rfl) (h.phases u q hq)
  · intro u e rest he hdrop x hx
    obtain ⟨old, rest', hold, hdrop', hx'⟩ := hold u e rest he hdrop x hx
    exact h.dropsRow u old rest' hold hdrop' x hx'
  · intro u e rest he hdrop x hx
    obtain ⟨old, rest', hold, hdrop', hx'⟩ := hold u e rest he hdrop x hx
    exact h.dropsFlight u old rest' hold hdrop' x hx'

/-- A drop takes the bytes of no live row. -/
theorem inv_drop (h : Inv env s) {t : ℕ} {d : Delete} {x : Drop} {rest : List Drop}
    (hd : s.deletes.lookup t = some d) (hdrop : d.phase = .dropping (x :: rest)) :
    Inv env { s with blobs := x.apply s.blobs } := by
  have hx : x ∈ x :: rest := List.mem_cons_self
  have hmiss : ∀ key, x.hits key = false → (x.apply s.blobs).lookup key = s.blobs.lookup key := by
    intro key hkey
    simp [hkey]
  refine ⟨h.marked, ?_, ?_, h.apart, h.settled, h.rows, h.dropsRow, h.dropsFlight⟩
  · intro key r hr hstatus
    obtain ⟨bytes, hbytes, hsum⟩ := h.bytes key r hr hstatus
    have hrow := h.dropsRow t d _ hd hdrop x hx key r hr hstatus
    exact ⟨bytes, (hmiss _ hrow).trans hbytes, hsum⟩
  · intro u q hq
    have hok := h.phases u q hq
    by_cases hhit : x.hits q.storageKey = true
    · by_cases hfly : q.phase.inFlight = true
      · exact phaseOk_frame (s := s) rfl
          (.inl (h.dropsFlight t d _ hd hdrop x hx u q hq hfly hhit)) hok
      · by_cases hret : q.phase = .returned true
        · refine phaseOk_frame (s := s) rfl (.inl ?_) hok
          simp only [PhaseOk, hret] at hok
          rcases hok with hdel | ⟨r, hr, hstatus, hpkg, -⟩
          · exact hdel
          · have hrow := h.dropsRow t d _ hd hdrop x hx _ r hr hstatus
            rw [hpkg, storageKeyOf_pkg, hhit] at hrow
            exact absurd hrow (by decide)
        · exact phaseOk_of_idle (by simpa using hfly) hret
    · exact phaseOk_frame (s := s) rfl (.inr (hmiss _ (by simpa using hhit))) hok

/-- A tombstone under its record suits a publish that has committed. -/
theorem phaseOk_of_deleted {s' : World sha256Hex} {q : Publish sha256Hex}
    (hdel : Deleted env s' q) (hnot : ¬ PendingRow env s q) (h : PhaseOk env s q) :
    PhaseOk env s' q := by
  obtain ⟨r, hr, hstatus⟩ := hdel
  unfold PhaseOk at h ⊢
  cases hphase : q.phase with
  | ready => trivial
  | reserved =>
    simp only [hphase] at h
    exact absurd h hnot
  | stored =>
    simp only [hphase] at h
    exact absurd h.1 hnot
  | committed => exact .inl ⟨r, hr, hstatus⟩
  | undoRow bytes =>
    intro r' hr' hpublished
    obtain rfl := Option.some.inj (hr.symm.trans hr')
    rw [hstatus] at hpublished
    exact absurd hpublished (by decide)
  | undoBytes =>
    intro r' hr'
    obtain rfl := Option.some.inj (hr.symm.trans hr')
    exact hstatus
  | returned ok =>
    cases ok with
    | false => trivial
    | true => exact .inl ⟨r, hr, hstatus⟩
  | dropped => trivial

section Tombstone
variable {d : Delete} {now : DateTime}

/-- The rows after a tombstone are the rows before it, but for the spent one. -/
theorem row_after_tombstone {key : String × String} {r : Record}
    (hr : (tombstoneVersion env now d.registry d.name d.version d.deletedBy s.store).2.lookup key =
      some r) :
    (s.store.lookup key = some r ∧ (r.status = .published → key ≠ d.recordKey env)) ∨
      key = d.recordKey env ∧ r.status = .deleted ∧ r.deletion.isSome = true := by
  rw [lookup_tombstoneVersion] at hr
  split at hr
  · rename_i hkey
    obtain ⟨old, hold, heq⟩ := Option.map_eq_some_iff.mp hr
    split at heq
    · subst heq
      exact .inr ⟨hkey, rfl, rfl⟩
    · rename_i hstatus
      subst heq
      exact .inl ⟨hold, fun hpublished => absurd hpublished hstatus⟩
  · rename_i hkey
    exact .inl ⟨hr, fun _ => hkey⟩

theorem deleted_after_tombstone {q : Publish sha256Hex} {s' : World sha256Hex}
    (hs' : s'.store =
      (tombstoneVersion env now d.registry d.name d.version d.deletedBy s.store).2) :
    (Deleted env s q → Deleted env s' q) ∧
      (s'.store.lookup (q.recordKey env) = s.store.lookup (q.recordKey env) ∨
        q.recordKey env = d.recordKey env ∧ Deleted env s' q ∧ ¬ PendingRow env s q) := by
  have hlookup := lookup_tombstoneVersion env now d.registry d.name d.version d.deletedBy s.store
    (q.recordKey env)
  rw [← hs'] at hlookup
  by_cases hkey : q.recordKey env = d.recordKey env
  · rw [if_pos (by exact hkey)] at hlookup
    cases hr : s.store.lookup (q.recordKey env) with
    | none =>
      rw [hr] at hlookup
      refine ⟨?_, .inl hlookup⟩
      intro hex
      obtain ⟨r, hr', -⟩ := hex
      exact absurd (hr.symm.trans hr') (by simp)
    | some r =>
      rw [hr, Option.map_some] at hlookup
      split at hlookup
      · rename_i hpublished
        refine ⟨fun _ => ⟨_, hlookup, rfl⟩, .inr ⟨hkey, ⟨_, hlookup, rfl⟩, ?_⟩⟩
        intro hex
        obtain ⟨r', hr', hpending, -⟩ := hex
        obtain rfl := Option.some.inj (hr.symm.trans hr')
        rw [hpublished] at hpending
        exact absurd hpending (by decide)
      · refine ⟨?_, .inl hlookup⟩
        intro hex
        obtain ⟨r', hr', hdel⟩ := hex
        exact ⟨r', hlookup.trans (hr.symm.trans hr'), hdel⟩
  · rw [if_neg (by exact hkey)] at hlookup
    refine ⟨?_, .inl hlookup⟩
    intro hex
    obtain ⟨r, hr, hdel⟩ := hex
    exact ⟨r, hlookup.trans hr, hdel⟩

theorem spent_after_tombstone
    (htomb : (tombstoneVersion env now d.registry d.name d.version d.deletedBy s.store).1 = true) :
    ∃ r, (tombstoneVersion env now d.registry d.name d.version d.deletedBy s.store).2.lookup
      (d.recordKey env) = some r ∧ r.status = .deleted := by
  unfold Delete.recordKey
  rw [lookup_tombstoneVersion, if_pos rfl]
  unfold tombstoneVersion at htomb
  cases hpub : published? env d.registry d.name d.version s.store with
  | none => simp [hpub] at htomb
  | some r =>
    obtain ⟨hr, hstatus⟩ := Option.filter_eq_some_iff.mp hpub
    refine ⟨{ r with status := .deleted, deletion := some ⟨now, d.deletedBy, none⟩ }, ?_, rfl⟩
    simp only [hr, Option.map_some, of_decide_eq_true hstatus, if_true]

/-- The tombstone: the record is spent, and what the delete drops next was its own. -/
theorem inv_tombstone {kindOf : String → Option RegistryKind} (h : Inv env s) {t : ℕ}
    (htomb : (tombstoneVersion env now d.registry d.name d.version d.deletedBy s.store).1 = true)
    (hown : DropsOwn env kindOf s d) :
    Inv env (({ s with
      store := (tombstoneVersion env now d.registry d.name d.version d.deletedBy s.store).2
      } : World sha256Hex).setDelete t d (.dropping (d.drops kindOf))) := by
  generalize hs' : ({ s with
      store := (tombstoneVersion env now d.registry d.name d.version d.deletedBy s.store).2
      } : World sha256Hex).setDelete t d (.dropping (d.drops kindOf)) = s'
  have hstore : s'.store =
      (tombstoneVersion env now d.registry d.name d.version d.deletedBy s.store).2 := by
    rw [← hs']
    rfl
  have hpublishes : s'.publishes = s.publishes := by
    rw [← hs']
    rfl
  have hpublished : ∀ key r, s'.store.lookup key = some r → r.status = .published →
      s.store.lookup key = some r ∧ key ≠ d.recordKey env := by
    intro key r hr hstatus
    rw [hstore] at hr
    rcases row_after_tombstone hr with ⟨hold, hkey⟩ | ⟨-, hdel, -⟩
    · exact ⟨hold, hkey hstatus⟩
    · rw [hstatus] at hdel
      exact absurd hdel (by decide)
  have hspent := spent_after_tombstone htomb
  rw [← hstore] at hspent
  constructor
  · intro key r hr hdel
    rw [hstore] at hr
    rcases row_after_tombstone hr with ⟨hold, -⟩ | ⟨-, -, hmark⟩
    · exact h.marked key r hold hdel
    · exact hmark
  · intro key r hr hstatus
    have hbytes := h.bytes key r (hpublished key r hr hstatus).1 hstatus
    rw [← hs']
    exact hbytes
  · intro u q hq
    rw [hpublishes] at hq
    rcases (deleted_after_tombstone (q := q) hstore).2 with hsame | ⟨-, hdel, hnot⟩
    · exact phaseOk_frame hsame (.inr (by rw [← hs']; rfl)) (h.phases u q hq)
    · exact phaseOk_of_deleted hdel hnot (h.phases u q hq)
  · rw [hpublishes]
    exact h.apart
  · rw [hpublishes]
    exact h.settled
  · intro u q hq hfly key r hr hstatus
    rw [hpublishes] at hq
    exact h.rows u q hq hfly key r (hpublished key r hr hstatus).1 hstatus
  · intro u e rest he hdrop x hx key r hr hstatus
    obtain ⟨hold, hkey⟩ := hpublished key r hr hstatus
    rw [← hs'] at he
    rcases lookup_setDelete he with ⟨-, rfl⟩ | ⟨-, he⟩
    · obtain rfl := DeletePhase.dropping.inj hdrop
      exact hown.rows key r hold hstatus hkey x hx
    · exact h.dropsRow u e rest he hdrop x hx key r hold hstatus
  · intro u e rest he hdrop x hx v q hq hfly hhit
    rw [hpublishes] at hq
    rw [← hs'] at he
    rcases lookup_setDelete he with ⟨-, rfl⟩ | ⟨-, he⟩
    · obtain rfl := DeletePhase.dropping.inj hdrop
      by_cases hkey : q.recordKey env = d.recordKey env
      · rw [← hkey] at hspent
        exact hspent
      · have hmiss := hown.publishes v q hq hfly hkey x hx
        exact absurd (hmiss.symm.trans hhit) (by decide)
    · exact (deleted_after_tombstone hstore).1
        (h.dropsFlight u e rest he hdrop x hx v q hq hfly hhit)

end Tombstone

end BatleHub.DroppedBytes
