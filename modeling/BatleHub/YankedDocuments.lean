import BatleHub.FreshDocuments
import BatleHub.Lib.Runs

/-!
Runs of the writes and the document requests. Yank and unyank change the row and then
invalidate, so that they need no condition; the row changes of the other writes need one.
-/
namespace BatleHub.YankedDocuments

open DocumentCaches DocumentTraffic StampedDocuments FreshDocuments Lib.AssocMap Lib.Runs

/-- The write is one that invalidates after its row change. -/
def Yanks (write : Write) : Prop := write.op = .yank ∨ write.op = .unyank

/-- Such a write has a tail of its calls left. -/
def YanksInOrder (s : World) : Prop :=
  ∀ w write, s.writes.lookup w = some write → Yanks write → write.rest <:+ write.op.calls

/-- The row changes of all other writes are made while no document of the current generation
is cached or about to be. -/
def OthersUnseen (s : World) (e : Event) : Prop :=
  (∃ w outcome write, e = .call w outcome ∧ s.writes.lookup w = some write ∧ Yanks write) ∨
    ChangesUnseen s e

theorem invalidates_after_effect {op : WriteOp} (hop : op = .yank ∨ op = .unyank)
    {rest : List Call} (h : op.effect :: rest <:+ op.calls) :
    Call.invalidateDocuments ∈ rest := by
  rcases hop with rfl | rfl
  · simp [WriteOp.effect, WriteOp.calls, lifecycleChecks, List.suffix_cons_iff] at h
    simp [h]
  · simp [WriteOp.effect, WriteOp.calls, lifecycleChecks, List.suffix_cons_iff] at h
    simp [h]

theorem took_suffix {write : Write} {c : Call} {rest : List Call} (hop : Yanks write)
    (outcome : Outcome) :
    (write.took c rest outcome).rest <:+ c :: rest := by
  have hnil : [] <:+ c :: rest := List.nil_suffix
  have htail : rest <:+ c :: rest := List.suffix_cons c rest
  cases outcome with
  | changed => exact htail
  | unchanged =>
    simp only [Write.took, Write.next]
    split
    · exact hnil
    · exact htail
  | failed =>
    rcases hop with hop | hop
    all_goals
      simp only [Write.took, Write.next, hop, WriteOp.onError]
      split
      · rename_i undo hundo
        split at hundo
        · obtain rfl := Option.some.inj hundo
          exact hnil
        · simp at hundo
      · exact htail

theorem yanksInOrder_step (s : World) (e : Event) (h : YanksInOrder s) :
    YanksInOrder (step s e) := by
  cases e with
  | spawn w op registry =>
    simp only [step]
    cases hfresh : s.writes.lookup w with
    | some write => exact h
    | none =>
      intro w' write hw hyank
      dsimp only at hw
      rw [lookup_insert_eq] at hw
      split at hw
      · obtain rfl := Option.some.inj hw
        exact List.suffix_rfl
      · exact h w' write hw hyank
  | call w outcome =>
    simp only [step]
    cases hw : s.writes.lookup w with
    | none => exact h
    | some write =>
      dsimp only
      cases hrest : write.rest with
      | nil => exact h
      | cons c rest =>
        intro w' after hafter hyanks
        rcases lookup_performCall hafter with ⟨-, rfl⟩ | ⟨-, hafter⟩
        · obtain ⟨hop, hleft, -⟩ := settle_fields (w := w) (cacheAfter s.cache write c)
            (rowsAfter s.rows w write c outcome) (write.took c rest outcome)
          have hyank : Yanks write := by
            unfold Yanks at hyanks ⊢
            rw [hop] at hyanks
            exact hyanks
          have hsuffix := h w write hw hyank
          rw [hop, hleft]
          rw [hrest] at hsuffix
          exact (took_suffix hyank outcome).trans hsuffix
        · exact h w' after hafter hyanks
  | request r registry document digest =>
    simp only [step]
    cases s.readers.lookup r with
    | some reader => exact h
    | none => exact h
  | advance r now =>
    simp only [step]
    cases s.readers.lookup r with
    | none => exact h
    | some reader =>
      dsimp only
      unfold advanceReader
      cases reader.phase with
      | currentLoaded g current =>
        dsimp only
        cases getAt s.cache.entries current now reader.key <;> exact h
      | _ => exact h
  | evict key => exact h

/-- A yank or unyank has its invalidation left when it changes its row. -/
theorem OthersUnseen.changesUnseen {s : World} {e : Event} (hguard : OthersUnseen s e)
    (h : YanksInOrder s) : ChangesUnseen s e := by
  rcases hguard with ⟨w, outcome, yank, rfl, hlookup, hyank⟩ | hunseen
  · unfold ChangesUnseen
    split
    · rename_i w' heq
      cases heq
      intro write c rest hw hrest heffect hleft
      obtain rfl : yank = write := Option.some.inj (hlookup.symm.trans hw)
      have hsuffix := h w yank hlookup hyank
      rw [hrest, heffect] at hsuffix
      exact absurd (invalidates_after_effect hyank hsuffix) hleft
    · trivial
  · exact hunseen

/-- In every run in which each row change that no invalidation follows is made
while no document of the current generation is around, no request is answered
from the cache with a body older than a write that had returned. Yank and unyank
change the row and then invalidate: nothing is asked of them. -/
theorem run_noStaleAnswer (events : List Event)
    (hunseen : Guarded step OthersUnseen World.initial events) :
    NoStaleAnswer (run step World.initial events) := by
  have hinv := run_keeps OthersUnseen (fun s => Inv s ∧ YanksInOrder s)
    (fun s e h hguard => ⟨inv_step s e h.1 (hguard.changesUnseen h.2), yanksInOrder_step s e h.2⟩)
    World.initial events ⟨inv_initial, fun w write hw => by simp [World.initial] at hw⟩ hunseen
  exact noStaleAnswer_of_inv hinv.1

def someAudience : Digest := ⟨"0f", by simp⟩

/-- A request that finds no entry, builds, and puts. -/
def fill (r : ℕ) : List Event :=
  .request r "gems" .versions someAudience :: List.replicate 5 (.advance r 0)

/-- A request that is answered at its lookup. -/
def lookUp (r : ℕ) : List Event :=
  .request r "gems" .versions someAudience :: List.replicate 3 (.advance r 1)

def publishUpToCommit : List Event :=
  .spawn 0 .publish "gems" :: List.replicate 5 (.call 0 .unchanged)

def commitAndReturn : List Event :=
  .call 0 .changed :: List.replicate 4 (.call 0 .unchanged)

/-- A publish, then a request that fills the cache, then one that is served from it. -/
def publishThenRead : List Event := publishUpToCommit ++ commitAndReturn ++ fill 0 ++ lookUp 1

/-- A yank beside the cached document, and two more requests: one that fills, one that is
served. -/
def yankThenRead : List Event :=
  [.spawn 1 .yank "gems"] ++ List.replicate 3 (.call 1 .unchanged) ++ [.call 1 .changed] ++
    (List.replicate 2 (.call 1 .unchanged) ++ fill 2 ++ lookUp 3)

/-- The event makes no change to a row. -/
def quiet : Event → Bool
  | .call _ .changed => false
  | _ => true

theorem guarded_quiet (s : World) (events : List Event) (h : events.all quiet = true) :
    Guarded step OthersUnseen s events := by
  induction events generalizing s with
  | nil => trivial
  | cons e events ih =>
    rw [List.all_cons, Bool.and_eq_true] at h
    refine ⟨.inr ?_, ih _ h.2⟩
    unfold ChangesUnseen
    split
    · cases h.1
    · trivial

theorem publishThenRead_noStaleAnswer :
    ((run step World.initial (publishThenRead ++ yankThenRead)).readers.entries.map
        fun e => (e.1, e.2.seen, e.2.phase)) =
      [(3, [0, 1], .hit [0, 1]), (2, [0, 1], .answered), (1, [0], .hit [0]),
        (0, [0], .answered)] ∧
      NoStaleAnswer (run step World.initial (publishThenRead ++ yankThenRead)) := by
  refine ⟨by decide, run_noStaleAnswer (publishThenRead ++ yankThenRead) ?_⟩
  refine (guarded_append _ _ _ _).mpr ⟨?_, ?_⟩
  · refine ⟨.inr trivial, .inr trivial, .inr trivial, .inr trivial, .inr trivial, .inr trivial,
      .inr ?_, guarded_quiet _ _ (by decide)⟩
    intro write c rest _ _ _ _ g body hcase
    rcases hcase with ⟨document, digest, storedAt, h⟩ | ⟨r, reader, h, -, -⟩
    · exact absurd (show (∅ : Assoc String (Entry (List ℕ))).lookup _ = some _ from h) (by simp)
    · exact absurd (show (∅ : Assoc ℕ Reader).lookup _ = some _ from h) (by simp)
  · refine ⟨.inr trivial, .inr trivial, .inr trivial, .inr trivial, .inl ?_,
      guarded_quiet _ _ (by decide)⟩
    exact ⟨1, .changed, _, rfl, rfl, .inl rfl⟩

/-- Delete a version whose registry has a document cached. -/
def deleteCached : List Event :=
  fill 0 ++ [.spawn 0 .deleteVersion "gems"] ++ List.replicate 3 (.call 0 .unchanged) ++
    [.call 0 .changed] ++ List.replicate 5 (.call 0 .unchanged) ++ lookUp 1

/-- A document built between the invalidation of a publish and its commit. -/
def buildBeforeCommit : List Event := publishUpToCommit ++ fill 0 ++ commitAndReturn ++ lookUp 1

/-- A delete never invalidates, and a publish does so too early: in both runs the
write has returned, and the next request is served the rows from before it. -/
theorem served_from_before :
    ¬ NoStaleAnswer (run step World.initial deleteCached) ∧
      ¬ NoStaleAnswer (run step World.initial buildBeforeCommit) := by
  have hstale : ∀ events, ((run step World.initial events).readers.lookup 1).map
      (fun r => (r.seen, r.phase)) = some ([0], .hit []) →
      ¬ NoStaleAnswer (run step World.initial events) := by
    intro events hrun h
    obtain ⟨reader, hr, heq⟩ := Option.map_eq_some_iff.mp hrun
    obtain ⟨hseen, hphase⟩ := Prod.mk.inj heq
    exact absurd (h 1 reader [] hr hphase 0 (by simp [hseen])) (by simp)
  exact ⟨hstale _ (by decide), hstale _ (by decide)⟩

end BatleHub.YankedDocuments
