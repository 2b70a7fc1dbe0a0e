import BatleHub.StampedDocuments

/-!
The writes' side, and every step. An invalidation that follows the row change
settles the write above every document there is. A row change that comes after the
last invalidation, or has none, does so only if no document of the current
generation was built before it; a publish and a delete are of that kind.
-/
namespace BatleHub.FreshDocuments

open DocumentCaches DocumentTraffic StampedDocuments Lib.AssocMap

/-- The writes move and the documents stay: enough that a write settles above
every document it is not in. -/
theorem inv_of_writes {s s' : World} (h : Inv s) (hgrows : Grows s s')
    (hentries : s'.cache.entries = s.cache.entries) (hreaders : s'.readers = s.readers)
    (hknown : ∀ w ∈ s'.rows, ∃ write, s'.writes.lookup w = some write)
    (hcalls : ∀ w write, s'.writes.lookup w = some write → write.failed = false →
      ∀ c ∈ write.rest, c ∈ write.op.calls)
    (hunsettled : ∀ w write, s'.writes.lookup w = some write → write.failed = false →
      w ∈ s'.rows → write.settledAt = none → Call.invalidateDocuments ∈ write.rest)
    (hrows : ∀ w ∈ s.rows, w ∈ s'.rows)
    (hnew : ∀ registry w k, SettledAt s' registry w k → SettledAt s registry w k ∨
      k = generation s'.cache registry ∧ w ∈ s'.rows ∧
        ∀ g body, Stamped s registry g body → g < k) : Inv s' := by
  have hstamped : ∀ registry g body, Stamped s' registry g body → Stamped s registry g body := by
    intro registry g body hcase
    rcases hcase with ⟨document, digest, storedAt, hc⟩ | ⟨r, reader, hr, hreg, hphase⟩
    · exact .cached document digest storedAt (hentries ▸ hc)
    · exact .built r reader (hreaders ▸ hr) hreg hphase
  refine ⟨hknown, hcalls, ?_, hunsettled, ?_, ?_⟩
  · intro registry w k hk
    rcases hnew registry w k hk with hold | ⟨rfl, hw, -⟩
    · have hs := h.settled registry w k hold
      exact ⟨hs.1.trans (hgrows.generation registry), hrows w hs.2⟩
    · exact ⟨Nat.le_refl _, hw⟩
  · intro registry g body hst
    have hcovers := h.stamped registry g body (hstamped registry g body hst)
    refine ⟨hcovers.1.trans (hgrows.generation registry), fun w k hk hle => ?_⟩
    rcases hnew registry w k hk with hold | ⟨-, -, habove⟩
    · exact hcovers.2 w k hold hle
    · exact absurd hle (Nat.not_le.mpr (habove g body (hstamped registry g body hst)))
  · intro r reader hr
    exact readerOk_mono hgrows reader (h.readers r reader (hreaders ▸ hr))

theorem inv_spawn {s : World} (h : Inv s) (w : ℕ) (op : WriteOp) (registry : String) :
    Inv (step s (.spawn w op registry)) := by
  simp only [step]
  cases hfresh : s.writes.lookup w with
  | some write => exact h
  | none =>
    have hother : ∀ w' write, s.writes.lookup w' = some write → w' ≠ w := by
      intro w' write hw heq
      subst heq
      simp [hfresh] at hw
    apply inv_of_writes h
    · refine ⟨fun _ => Nat.le_refl _, ?_⟩
      intro registry' w' k hex
      obtain ⟨write, hw, hreg, hk⟩ := hex
      exact ⟨write, by simpa [hother w' write hw] using hw, hreg, hk⟩
    · rfl
    · rfl
    · intro w' hw'
      obtain ⟨write, hw⟩ := h.known w' hw'
      exact ⟨write, by simpa [hother w' write hw] using hw⟩
    · intro w' write hw hfailed c hc
      dsimp only at hw
      rw [lookup_insert_eq] at hw
      split at hw
      · obtain rfl := Option.some.inj hw
        exact hc
      · exact h.calls w' write hw hfailed c hc
    · intro w' write hw hfailed hrows hnone
      obtain ⟨old, hold⟩ := h.known w' hrows
      dsimp only at hw
      rw [lookup_insert_eq, if_neg (hother w' old hold)] at hw
      exact h.unsettled w' write hw hfailed hrows hnone
    · exact fun _ hw' => hw'
    · intro registry' w' k hex
      obtain ⟨write, hw, hreg, hk⟩ := hex
      dsimp only at hw
      rw [lookup_insert_eq] at hw
      split at hw
      · obtain rfl := Option.some.inj hw
        simp at hk
      · exact .inl ⟨write, hw, hreg, hk⟩

section Call
variable {s : World} {w : ℕ} {write : Write} {c : Call} {rest : List Call} {outcome : Outcome}

/-- A write that goes on goes on with its next call, or returns `false` from a delete. -/
theorem took_of_not_failed (h : (write.took c rest outcome).failed = false) :
    write.failed = false ∧ ((write.took c rest outcome).rest = rest ∨
      c = .tombstoneVersion ∧ (write.took c rest outcome).rest = []) := by
  simp only [Write.took] at h ⊢
  cases outcome with
  | changed => exact ⟨h, .inl rfl⟩
  | unchanged =>
    refine ⟨h, ?_⟩
    by_cases hc : c = .tombstoneVersion
    · exact .inr ⟨hc, by simp [Write.next, hc]⟩
    · exact .inl (by simp [Write.next, hc])
  | failed =>
    simp only [Write.next] at h ⊢
    cases herr : write.op.onError c with
    | some undo => simp [herr] at h
    | none => exact ⟨by simpa [herr] using h, .inl rfl⟩

theorem delete_never_invalidates {op : WriteOp} (h : Call.tombstoneVersion ∈ op.calls) :
    Call.invalidateDocuments ∉ op.calls := by
  cases op <;> revert h <;> decide

theorem settle_took_of_none (cache : DocumentCache (List ℕ)) (rows : List ℕ)
    (hnone : write.settledAt = none) :
    settle cache rows w (write.took c rest outcome) = write.took c rest outcome ∧
        ((write.took c rest outcome).failed = false → w ∈ rows →
          Call.invalidateDocuments ∈ (write.took c rest outcome).rest) ∨
      settle cache rows w (write.took c rest outcome) =
          { write.took c rest outcome with
            settledAt := some (generation cache write.registry) } ∧
        (write.took c rest outcome).failed = false ∧ w ∈ rows ∧
        Call.invalidateDocuments ∉ (write.took c rest outcome).rest := by
  unfold settle
  split
  · rename_i h
    exact .inr ⟨rfl, h.2⟩
  · rename_i h
    refine .inl ⟨rfl, fun hfailed hrows => ?_⟩
    by_contra hleft
    exact h ⟨hnone, hfailed, hrows, hleft⟩

theorem settle_took_of_some (cache : DocumentCache (List ℕ)) (rows : List ℕ) {k : ℕ}
    (hk : write.settledAt = some k) :
    settle cache rows w (write.took c rest outcome) = write.took c rest outcome := by
  simp [settle, Write.took, hk]

theorem mem_rowsAfter {rows : List ℕ} {w' : ℕ} :
    w' ∈ rowsAfter rows w write c outcome ↔
      w' ∈ rows ∨ outcome = .changed ∧ c = write.op.effect ∧ w' = w := by
  unfold rowsAfter
  split
  · rename_i h
    simp [h.1, h.2]
  · rename_i h
    constructor
    · exact .inl
    · intro hcase
      rcases hcase with hw | ⟨ho, hc, -⟩
      · exact hw
      · exact absurd ⟨ho, hc⟩ h

theorem generation_le_cacheAfter (cache : DocumentCache (List ℕ)) (registry : String) :
    generation cache registry ≤ generation (cacheAfter cache write c) registry := by
  unfold cacheAfter
  split
  · exact generation_le_invalidateRegistry cache write.registry registry
  · exact Nat.le_refl _

/-- The generation a write settles at is above every document built before its
row change. Either the last call was its invalidation, or it was the row change
itself and the condition applies. -/
theorem settles_above (h : Inv s) (hw : s.writes.lookup w = some write)
    (hrest : write.rest = c :: rest) (hunseen : ChangesUnseen s (.call w outcome))
    (hnone : write.settledAt = none) (hfailed : (write.took c rest outcome).failed = false)
    (hrows : w ∈ rowsAfter s.rows w write c outcome)
    (hdone : Call.invalidateDocuments ∉ (write.took c rest outcome).rest)
    (g : ℕ) (body : List ℕ) (hst : Stamped s write.registry g body) :
    g < generation (cacheAfter s.cache write c) write.registry := by
  have hle := (h.stamped write.registry g body hst).1
  by_cases hinv : c = .invalidateDocuments
  · simp only [cacheAfter, hinv, if_true, generation_invalidateRegistry]
    omega
  · simp only [cacheAfter, hinv, if_false]
    obtain ⟨hgoing, hnext⟩ := took_of_not_failed hfailed
    have hleft : Call.invalidateDocuments ∉ rest := by
      rcases hnext with hnext | ⟨htomb, -⟩
      · rwa [hnext] at hdone
      · intro hmem
        have hcalls := h.calls w write hw hgoing
        refine delete_never_invalidates (hcalls .tombstoneVersion ?_) (hcalls _ ?_)
        · rw [hrest, htomb]
          exact List.mem_cons_self
        · rw [hrest]
          exact List.mem_cons_of_mem c hmem
    rcases mem_rowsAfter.mp hrows with hold | ⟨rfl, heffect, -⟩
    · have hmem := h.unsettled w write hw hgoing hold hnone
      rw [hrest] at hmem
      rcases List.mem_cons.mp hmem with heq | hmem
      · exact absurd heq.symm hinv
      · exact absurd hmem hleft
    · have hne := hunseen write c rest hw hrest heffect hleft g body hst
      omega

/-- The writes after a call: the calling one, and those that were there. -/
theorem lookup_performCall {w' : ℕ} {after : Write}
    (hafter : (performCall s w write c rest outcome).writes.lookup w' = some after) :
    w' = w ∧ after = settle (cacheAfter s.cache write c) (rowsAfter s.rows w write c outcome) w
        (write.took c rest outcome) ∨
      w' ≠ w ∧ s.writes.lookup w' = some after := by
  simp only [performCall] at hafter
  rw [lookup_insert_eq] at hafter
  split at hafter
  · rename_i heq
    exact .inl ⟨heq, (Option.some.inj hafter).symm⟩
  · rename_i hne
    exact .inr ⟨hne, hafter⟩

/-- Who is settled after a call: who was, and the calling write if it settles now. -/
theorem settledAt_performCall {registry : String} {w' k : ℕ}
    (hw : s.writes.lookup w = some write)
    (hk : SettledAt (performCall s w write c rest outcome) registry w' k) :
    SettledAt s registry w' k ∨
      w' = w ∧ registry = write.registry ∧ write.settledAt = none ∧
        k = generation (cacheAfter s.cache write c) write.registry ∧
        (write.took c rest outcome).failed = false ∧ w ∈ rowsAfter s.rows w write c outcome ∧
        Call.invalidateDocuments ∉ (write.took c rest outcome).rest := by
  obtain ⟨after, hafter, hreg, hk⟩ := hk
  rcases lookup_performCall hafter with ⟨rfl, rfl⟩ | ⟨-, hafter⟩
  · cases hold : write.settledAt with
    | some k' =>
      rw [settle_took_of_some _ _ hold] at hreg hk
      exact .inl ⟨write, hw, hreg, hk⟩
    | none =>
      rcases settle_took_of_none (cacheAfter s.cache write c)
        (rowsAfter s.rows w' write c outcome) hold with ⟨heq, -⟩ | ⟨heq, hfailed, hrows, hdone⟩
      · rw [heq] at hk
        exact absurd (hold.symm.trans hk) (by simp)
      · rw [heq] at hreg hk
        exact .inr ⟨rfl, hreg.symm, rfl, (Option.some.inj hk).symm, hfailed, hrows, hdone⟩
  · exact .inl ⟨after, hafter, hreg, hk⟩

theorem settle_fields (cache : DocumentCache (List ℕ)) (rows : List ℕ) (write : Write) :
    (settle cache rows w write).op = write.op ∧ (settle cache rows w write).rest = write.rest ∧
      (settle cache rows w write).failed = write.failed ∧
      (settle cache rows w write).registry = write.registry := by
  unfold settle
  split <;> exact ⟨rfl, rfl, rfl, rfl⟩

theorem grows_performCall (hw : s.writes.lookup w = some write) :
    Grows s (performCall s w write c rest outcome) := by
  refine ⟨generation_le_cacheAfter s.cache, ?_⟩
  intro registry w' k hsettled
  obtain ⟨old, hold, hreg, hk⟩ := hsettled
  by_cases heq : w' = w
  · subst heq
    obtain rfl := Option.some.inj (hw.symm.trans hold)
    refine ⟨write.took c rest outcome, ?_, hreg, hk⟩
    simp only [performCall, settle_took_of_some _ _ hk]
    simp
  · exact ⟨old, by simpa [performCall, heq] using hold, hreg, hk⟩

/-- What the calling write has left it had before. -/
theorem calls_took (h : Inv s) (hw : s.writes.lookup w = some write)
    (hrest : write.rest = c :: rest) (hfailed : (write.took c rest outcome).failed = false) :
    ∀ c' ∈ (write.took c rest outcome).rest, c' ∈ write.op.calls := by
  intro c' hc'
  obtain ⟨hgoing, hnext⟩ := took_of_not_failed hfailed
  rcases hnext with hnext | ⟨-, hnext⟩
  · rw [hnext] at hc'
    refine h.calls w write hw hgoing c' ?_
    rw [hrest]
    exact List.mem_cons_of_mem c hc'
  · rw [hnext] at hc'
    exact absurd hc' (by simp)

/-- A write that did not settle with this call has an invalidation left. -/
theorem unsettled_took (cache : DocumentCache (List ℕ)) (rows : List ℕ)
    (hfailed : (settle cache rows w (write.took c rest outcome)).failed = false)
    (hrows : w ∈ rows)
    (hnone : (settle cache rows w (write.took c rest outcome)).settledAt = none) :
    Call.invalidateDocuments ∈ (settle cache rows w (write.took c rest outcome)).rest := by
  cases hold : write.settledAt with
  | some k =>
    rw [settle_took_of_some _ _ hold] at hnone
    exact absurd (hold.symm.trans hnone) (by simp)
  | none =>
    rcases settle_took_of_none cache rows hold with ⟨heq, hleft⟩ | ⟨heq, -⟩
    · rw [heq] at hfailed ⊢
      exact hleft hfailed hrows
    · rw [heq] at hnone
      exact absurd hnone (by simp)

theorem inv_performCall (h : Inv s) (hw : s.writes.lookup w = some write)
    (hrest : write.rest = c :: rest) (hunseen : ChangesUnseen s (.call w outcome)) :
    Inv (performCall s w write c rest outcome) := by
  apply inv_of_writes h (grows_performCall hw)
  · simp only [performCall, cacheAfter]
    split <;> rfl
  · rfl
  · intro w' hw'
    by_cases heq : w' = w
    · exact ⟨_, by simp [performCall, heq]; rfl⟩
    · rcases mem_rowsAfter.mp hw' with hold | ⟨-, -, rfl⟩
      · simpa [performCall, heq] using h.known w' hold
      · exact absurd rfl heq
  · intro w' after hafter hfailed
    rcases lookup_performCall hafter with ⟨-, rfl⟩ | ⟨-, hold⟩
    · obtain ⟨hop, hleft, hfail, -⟩ := settle_fields (w := w) (cacheAfter s.cache write c)
        (rowsAfter s.rows w write c outcome) (write.took c rest outcome)
      rw [hfail] at hfailed
      rw [hop, hleft]
      exact calls_took h hw hrest hfailed
    · exact h.calls w' after hold hfailed
  · intro w' after hafter hfailed hrows hnone
    rcases lookup_performCall hafter with ⟨rfl, rfl⟩ | ⟨hne, hold⟩
    · exact unsettled_took _ _ hfailed hrows hnone
    · rcases mem_rowsAfter.mp hrows with hin | ⟨-, -, rfl⟩
      · exact h.unsettled w' after hold hfailed hin hnone
      · exact absurd rfl hne
  · exact fun w' hw' => mem_rowsAfter.mpr (.inl hw')
  · intro registry w' k hk
    rcases settledAt_performCall hw hk with hold | ⟨rfl, rfl, hnone, rfl, hfailed, hrows, hdone⟩
    · exact .inl hold
    · exact .inr ⟨rfl, hrows, settles_above h hw hrest hunseen hnone hfailed hrows hdone⟩

end Call

theorem inv_step (s : World) (e : Event) (h : Inv s) (hunseen : ChangesUnseen s e) :
    Inv (step s e) := by
  cases e with
  | spawn w op registry => exact inv_spawn h w op registry
  | call w outcome =>
    simp only [step]
    cases hw : s.writes.lookup w with
    | none => exact h
    | some write =>
      dsimp only
      cases hrest : write.rest with
      | nil => exact h
      | cons c rest => exact inv_performCall h hw hrest hunseen
  | request r registry document digest => exact inv_request h r registry document digest
  | advance r now => exact inv_advance h r now
  | evict key => exact inv_evict h key

theorem noStaleAnswer_of_inv {s : World} (h : Inv s) : NoStaleAnswer s := by
  intro r reader body hr hphase
  have hok := h.readers r reader hr
  simpa only [ReaderOk, hphase] using hok

end BatleHub.FreshDocuments
