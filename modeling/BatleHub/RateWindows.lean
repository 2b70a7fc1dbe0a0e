import BatleHub.Lib.AssocMap
import Mathlib.Data.List.Induction

/-!
The window counters behind the in-memory rate limits and the violations of an address
(`rate_limit/mod.rs`). All counters of a store stand in one map, each call names its own
window length, and a map that has grown large is swept with the window of the call at hand.
What a call returns for a key is compared with the calls made for it.
-/
namespace BatleHub.RateLimit

open Lib Lib.AssocMap

section Counters

structure WindowEntry where
  windowStart : ℕ
  count : ℕ
  deriving DecidableEq, Repr

abbrev WindowMap := Assoc String WindowEntry

/-- The start of the aligned window and of the next one. -/
def violationWindow (now windowSecs : ℕ) : ℕ × ℕ :=
  let windowStart := now / windowSecs * windowSecs
  (windowStart, windowStart + windowSecs)

def EVICTION_THRESHOLD : ℕ := 10000

/-- Two of the caller's windows before its own. -/
def cutoff (now windowSecs : ℕ) : ℕ := (violationWindow now windowSecs).1 - windowSecs * 2

/-- The map as a call finds it: swept when it has grown large. -/
def swept (map : WindowMap) (now windowSecs : ℕ) : WindowMap :=
  if EVICTION_THRESHOLD < map.entries.length then
    retain (fun _ e => decide (cutoff now windowSecs ≤ e.windowStart)) map
  else map

/-- The entry of a key in the window at hand, counting one more. -/
def counted (windowStart : ℕ) (entry : Option WindowEntry) : WindowEntry :=
  let entry := entry.getD ⟨windowStart, 0⟩
  let entry := if entry.windowStart ≠ windowStart then ⟨windowStart, 0⟩ else entry
  ⟨entry.windowStart, entry.count + 1⟩

def windowedIncrement (map : WindowMap) (key : String) (windowSecs now : ℕ) :
    WindowMap × (ℕ × ℕ) :=
  let (windowStart, windowReset) := violationWindow now windowSecs
  let map := swept map now windowSecs
  let entry := counted windowStart (map.lookup key)
  (map.insert key entry, (entry.count, windowReset))

/-- A call; its window is not empty, which every caller checks. -/
structure Call where
  key : String
  windowSecs : ℕ
  now : ℕ
  positive : 0 < windowSecs
  deriving DecidableEq

def Call.windowStart (c : Call) : ℕ := (violationWindow c.now c.windowSecs).1

def Call.cutoff (c : Call) : ℕ := RateLimit.cutoff c.now c.windowSecs

def Call.run (c : Call) (map : WindowMap) : WindowMap × (ℕ × ℕ) :=
  windowedIncrement map c.key c.windowSecs c.now

def run (calls : List Call) : WindowMap := calls.foldl (fun map c => (c.run map).1) ∅

@[simp]
theorem run_nil : run [] = ∅ := rfl

@[simp]
theorem run_append_singleton (calls : List Call) (c : Call) :
    run (calls ++ [c]) = (c.run (run calls)).1 := by
  unfold run
  rw [List.foldl_append]
  rfl

end Counters

section Counting
variable (key : String) (start : ℕ)

/-- The calls for a key from a time on. -/
def countSince (calls : List Call) : ℕ :=
  calls.countP fun c => decide (c.key = key ∧ start ≤ c.now)

/-- What the map holds for a key in the window that starts then. -/
def held (map : WindowMap) : ℕ :=
  (map.lookup key).elim 0 fun e => if e.windowStart = start then e.count else 0

/-- The sweep of a call reaches into the window that starts then. -/
def Sweeps (map : WindowMap) (c : Call) : Prop :=
  EVICTION_THRESHOLD < map.entries.length ∧ start < c.cutoff

instance (map : WindowMap) (c : Call) : Decidable (Sweeps start map c) := by
  unfold Sweeps
  infer_instance

theorem countSince_append_singleton (calls : List Call) (c : Call) :
    countSince key start (calls ++ [c]) =
      countSince key start calls + if c.key = key ∧ start ≤ c.now then 1 else 0 := by
  unfold countSince
  rw [List.countP_append, List.countP_singleton]
  simp only [decide_eq_true_eq]

theorem countSince_eq_zero_iff (calls : List Call) :
    countSince key start calls = 0 ↔ ∀ c ∈ calls, ¬ (c.key = key ∧ start ≤ c.now) := by
  unfold countSince
  rw [List.countP_eq_zero]
  simp only [decide_eq_true_eq]

variable {key start}

/-- A sweep that reaches into the window drops what it holds, and no other one does. -/
theorem held_swept (map : WindowMap) (c : Call) :
    held key start (swept map c.now c.windowSecs) =
      if Sweeps start map c then 0 else held key start map := by
  by_cases hlarge : EVICTION_THRESHOLD < map.entries.length
  · have hswept : swept map c.now c.windowSecs =
        retain (fun _ e => decide (c.cutoff ≤ e.windowStart)) map := if_pos hlarge
    unfold held
    rw [hswept, lookup_retain]
    cases hentry : map.lookup key with
    | none => simp
    | some e =>
      by_cases hstart : e.windowStart = start
      · by_cases hkeep : c.cutoff ≤ e.windowStart
        · have hno : ¬ Sweeps start map c := fun h => absurd h.2 (by omega)
          rw [Option.filter_some, if_pos (decide_eq_true hkeep), if_neg hno]
        · have hyes : Sweeps start map c := ⟨hlarge, by omega⟩
          rw [Option.filter_some, if_neg (by simpa using hkeep), if_pos hyes]
          rfl
      · have hother : (some e).elim 0 (fun e => if e.windowStart = start then e.count else 0) = 0 :=
          if_neg hstart
        rw [Option.filter_some, hother, ite_self]
        split
        · exact hother
        · rfl
  · have hno : ¬ Sweeps start map c := fun h => hlarge h.1
    rw [if_neg hno, swept, if_neg hlarge]

/-- The count a call returns is one more than what its window held. -/
theorem count_counted (windowStart : ℕ) (entry : Option WindowEntry) :
    counted windowStart entry =
      ⟨windowStart,
        (entry.elim 0 fun e => if e.windowStart = windowStart then e.count else 0) + 1⟩ := by
  cases entry with
  | none => simp [counted]
  | some e =>
    by_cases h : e.windowStart = windowStart
    · simp [counted, h]
    · simp [counted, h]

theorem returned_eq (map : WindowMap) (c : Call) :
    (c.run map).2.1 = held c.key c.windowStart (swept map c.now c.windowSecs) + 1 := by
  exact congrArg WindowEntry.count (count_counted _ _)

theorem lookup_run (map : WindowMap) (c : Call) (other : String) :
    (c.run map).1.lookup other =
      if other = c.key then
        some ⟨c.windowStart, held c.key c.windowStart (swept map c.now c.windowSecs) + 1⟩
      else (swept map c.now c.windowSecs).lookup other := by
  unfold Call.run windowedIncrement
  dsimp only
  rw [lookup_insert_eq, count_counted]
  rfl

end Counting

section Windows
variable {c last : Call}

theorem windowStart_le (c : Call) : c.windowStart ≤ c.now := Nat.div_mul_le_self c.now c.windowSecs

theorem cutoff_le_windowStart (c : Call) : c.cutoff ≤ c.windowStart := Nat.sub_le _ _

/-- Two calls with one window length are in one window when the earlier one is past its
start. -/
theorem windowStart_eq_iff (hw : c.windowSecs = last.windowSecs) (hle : c.now ≤ last.now) :
    c.windowStart = last.windowStart ↔ last.windowStart ≤ c.now := by
  constructor
  · intro h
    rw [← h]
    exact windowStart_le c
  · intro h
    have hquotient : last.now / last.windowSecs = c.now / last.windowSecs := by
      apply Nat.le_antisymm
      · exact (Nat.le_div_iff_mul_le last.positive).mpr h
      · exact Nat.div_le_div_right hle
    unfold Call.windowStart violationWindow
    rw [hw, hquotient]

/-- No call's sweep reaches into its own window. -/
theorem not_sweeps_of_windowStart_le {start : ℕ} {map : WindowMap} (h : c.windowStart ≤ start) :
    ¬ Sweeps start map c := fun hsweeps =>
  absurd (Nat.lt_of_lt_of_le hsweeps.2 (cutoff_le_windowStart c)) (Nat.not_lt.mpr h)

/-- What a call leaves of the window that `last` falls into. -/
theorem held_run (map : WindowMap) (hle : c.now ≤ last.now)
    (hw : c.key = last.key → c.windowSecs = last.windowSecs) :
    held last.key last.windowStart (c.run map).1 =
      if c.key = last.key then
        if last.windowStart ≤ c.now then held last.key last.windowStart map + 1 else 0
      else if Sweeps last.windowStart map c then 0 else held last.key last.windowStart map := by
  by_cases hkey : c.key = last.key
  · have hsame := windowStart_eq_iff (hw hkey) hle
    rw [if_pos hkey, held, lookup_run, if_pos hkey.symm]
    by_cases hlive : last.windowStart ≤ c.now
    · have hstart := hsame.mpr hlive
      have hno : ¬ Sweeps c.windowStart map c := not_sweeps_of_windowStart_le (Nat.le_refl _)
      rw [if_pos hlive, Option.elim_some, if_pos hstart, held_swept, if_neg hno, hkey, hstart]
    · rw [if_neg hlive, Option.elim_some, if_neg (fun h => hlive (hsame.mp h))]
  · have hother : held last.key last.windowStart (swept map c.now c.windowSecs) =
        if Sweeps last.windowStart map c then 0 else held last.key last.windowStart map :=
      held_swept map c
    rw [if_neg hkey, ← hother, held, lookup_run, if_neg (Ne.symm hkey)]
    rfl

end Windows

section Runs
variable {last : Call}

/-- Calls made before another: at no later time, and for its key with its window. -/
structure Before (calls : List Call) (last : Call) : Prop where
  ordered : calls.Pairwise fun c d => c.now ≤ d.now
  earlier : ∀ c ∈ calls, c.now ≤ last.now
  window : ∀ c ∈ calls, c.key = last.key → c.windowSecs = last.windowSecs

/-- Some sweep reached into the window after a call for the key. -/
def Lost (key : String) (start : ℕ) (calls : List Call) : Prop :=
  ∃ before c after, calls = before ++ c :: after ∧
    (∃ d ∈ before, d.key = key ∧ start ≤ d.now) ∧ Sweeps start (run before) c

theorem Before.init {calls : List Call} {c : Call} (h : Before (calls ++ [c]) last) :
    Before calls last where
  ordered := (List.pairwise_append.mp h.ordered).1
  earlier d hd := h.earlier d (List.mem_append_left _ hd)
  window d hd := h.window d (List.mem_append_left _ hd)

theorem countSince_pos_iff (key : String) (start : ℕ) (calls : List Call) :
    0 < countSince key start calls ↔ ∃ d ∈ calls, d.key = key ∧ start ≤ d.now := by
  unfold countSince
  rw [List.countP_pos_iff]
  simp only [decide_eq_true_eq]

theorem lost_append_singleton (key : String) (start : ℕ) (calls : List Call) (c : Call) :
    Lost key start (calls ++ [c]) ↔
      Lost key start calls ∨
        (0 < countSince key start calls ∧ Sweeps start (run calls) c) := by
  rw [countSince_pos_iff]
  constructor
  · rintro ⟨before, d, after, heq, hlive, hsweeps⟩
    rcases List.eq_nil_or_concat after with rfl | ⟨after, e, rfl⟩
    · obtain ⟨rfl, hd⟩ := List.append_inj' heq rfl
      obtain rfl := List.singleton_inj.mp hd
      exact .inr ⟨hlive, hsweeps⟩
    · have hsplit : calls ++ [c] = (before ++ d :: after) ++ [e] := by
        rw [heq, List.concat_eq_append, List.append_assoc, List.cons_append]
      obtain ⟨rfl, -⟩ := List.append_inj' hsplit rfl
      exact .inl ⟨before, d, after, rfl, hlive, hsweeps⟩
  · rintro (⟨before, d, after, rfl, hlive, hsweeps⟩ | ⟨hlive, hsweeps⟩)
    · exact ⟨before, d, after ++ [c], by simp, hlive, hsweeps⟩
    · exact ⟨calls, c, [], rfl, hlive, hsweeps⟩

/-- The map never holds more than the calls made, and as many when nothing was lost. -/
theorem held_spec (calls : List Call) (h : Before calls last) :
    held last.key last.windowStart (run calls) ≤ countSince last.key last.windowStart calls ∧
      (held last.key last.windowStart (run calls) =
          countSince last.key last.windowStart calls ↔
        ¬ Lost last.key last.windowStart calls) := by
  induction calls using List.reverseRecOn with
  | nil =>
    refine ⟨Nat.le_refl _, iff_of_true rfl ?_⟩
    rintro ⟨before, c, after, heq, -⟩
    simp at heq
  | append_singleton calls c ih =>
    obtain ⟨hle, hiff⟩ := ih h.init
    have hmem : c ∈ calls ++ [c] := List.mem_append_right _ (List.mem_singleton_self c)
    have hstep := held_run (run calls) (h.earlier c hmem) (h.window c hmem)
    rw [run_append_singleton, hstep, countSince_append_singleton, lost_append_singleton]
    generalize held last.key last.windowStart (run calls) = before at hle hiff ⊢
    by_cases hkey : c.key = last.key
    · rw [if_pos hkey]
      by_cases hlive : last.windowStart ≤ c.now
      · have hstart := (windowStart_eq_iff (h.window c hmem hkey) (h.earlier c hmem)).mpr hlive
        have hno : ¬ Sweeps last.windowStart (run calls) c :=
          not_sweeps_of_windowStart_le (Nat.le_of_eq hstart)
        rw [if_pos hlive, if_pos ⟨hkey, hlive⟩, Nat.add_right_cancel_iff, hiff]
        exact ⟨Nat.succ_le_succ hle, not_congr ⟨.inl, fun hlost =>
          hlost.resolve_right fun hsweeps => hno hsweeps.2⟩⟩
      · -- the calls before were made in an earlier window too
        have hzero : countSince last.key last.windowStart calls = 0 := by
          rw [countSince_eq_zero_iff]
          rintro d hd ⟨-, hdlive⟩
          have hdc := (List.pairwise_append.mp h.ordered).2.2 d hd c (List.mem_singleton_self c)
          omega
        have hnone : ¬ Lost last.key last.windowStart calls := by
          rw [← hiff]
          omega
        rw [if_neg hlive, if_neg fun hc => hlive hc.2, hzero]
        refine ⟨Nat.le_refl _, iff_of_true rfl ?_⟩
        rintro (hlost | ⟨hpos, -⟩)
        · exact hnone hlost
        · omega
    · have hother : ¬ (c.key = last.key ∧ last.windowStart ≤ c.now) := fun hc => hkey hc.1
      rw [if_neg hkey, if_neg hother, Nat.add_zero]
      by_cases hsweeps : Sweeps last.windowStart (run calls) c
      · rw [if_pos hsweeps]
        refine ⟨Nat.zero_le _, ?_⟩
        constructor
        · rintro hzero (hlost | ⟨hpos, -⟩)
          · exact hiff.mp (by omega) hlost
          · omega
        · intro hkept
          by_contra hpos
          exact hkept (.inr ⟨by omega, hsweeps⟩)
      · rw [if_neg hsweeps, hiff]
        exact ⟨hle, not_congr ⟨.inl, fun hlost => hlost.resolve_right fun h => hsweeps h.2⟩⟩

/-- What a call returns is right exactly when no sweep reached into its window after an
earlier call for its key. -/
theorem returned_eq_count_iff (calls : List Call) (last : Call) (h : Before calls last) :
    (last.run (run calls)).2.1 =
        countSince last.key last.windowStart (calls ++ [last]) ↔
      ¬ Lost last.key last.windowStart calls := by
  have hno : ¬ Sweeps last.windowStart (run calls) last :=
    not_sweeps_of_windowStart_le (Nat.le_refl _)
  rw [returned_eq, held_swept, if_neg hno, countSince_append_singleton,
    if_pos ⟨rfl, windowStart_le last⟩, Nat.add_right_cancel_iff]
  exact (held_spec calls h).2

end Runs

section Safety
variable {last : Call}

/-- The windows of a run are close enough: the key's is at most twice any other's. -/
theorem not_lost_of_windowSecs_le {calls : List Call} (h : Before calls last)
    (hclose : ∀ c ∈ calls, last.windowSecs ≤ c.windowSecs * 2) :
    ¬ Lost last.key last.windowStart calls := by
  rintro ⟨before, c, after, rfl, -, -, hreach⟩
  have hmem : c ∈ before ++ c :: after := List.mem_append_right _ List.mem_cons_self
  have hle := h.earlier c hmem
  have hwide := hclose c hmem
  have hstart := windowStart_le c
  have hnext : last.now < last.windowStart + last.windowSecs :=
    Nat.lt_div_mul_add last.positive
  have hcutoff : c.cutoff = c.windowStart - c.windowSecs * 2 := rfl
  omega

end Safety

section Loss

/-- A counter counts, whatever else is counted in its map, as long as no sweep of a shorter
window reaches into its own after a call for it; and none does where no window is less than
half of its own. -/
theorem counter_counts_iff (calls : List Call) (last : Call)
    (hordered : (calls ++ [last]).Pairwise fun c d => c.now ≤ d.now)
    (hwindow : ∀ c ∈ calls, c.key = last.key → c.windowSecs = last.windowSecs) :
    ((last.run (run calls)).2.1 =
        countSince last.key last.windowStart (calls ++ [last]) ↔
      ¬ Lost last.key last.windowStart calls) ∧
    ((∀ c ∈ calls, last.windowSecs ≤ c.windowSecs * 2) →
      (last.run (run calls)).2.1 = countSince last.key last.windowStart (calls ++ [last])) := by
  obtain ⟨hcalls, -, hlast⟩ := List.pairwise_append.mp hordered
  have h : Before calls last :=
    ⟨hcalls, fun c hc => hlast c hc last (List.mem_singleton_self last), hwindow⟩
  have hiff := returned_eq_count_iff calls last h
  exact ⟨hiff, fun hclose => hiff.mpr (not_lost_of_windowSecs_le h hclose)⟩

/-- Two counters with windows of their own; the first call is in an earlier window. -/
def earlier : List Call :=
  [⟨"b", 60, 50, by decide⟩, ⟨"b", 60, 70, by decide⟩, ⟨"c", 3600, 75, by decide⟩,
    ⟨"d", 30, 80, by decide⟩, ⟨"b", 60, 80, by decide⟩]

def late : Call := ⟨"b", 60, 90, by decide⟩

theorem late_counts_iff :
    ((late.run (run earlier)).2.1 =
        countSince late.key late.windowStart (earlier ++ [late]) ↔
      ¬ Lost late.key late.windowStart earlier) ∧
    (late.run (run earlier)).2.1 = 3 := by
  obtain ⟨hiff, hclose⟩ := counter_counts_iff earlier late (by decide) (by decide)
  exact ⟨hiff, hclose (by decide)⟩

/-- Distinct keys fill the map. -/
theorem size_run {calls : List Call} (hkeys : (calls.map Call.key).Nodup)
    (hfew : calls.length ≤ EVICTION_THRESHOLD + 1) :
    (run calls).entries.length = calls.length ∧
      ∀ key, key ∈ run calls → key ∈ calls.map Call.key := by
  induction calls using List.reverseRecOn with
  | nil => exact ⟨rfl, fun _ h => absurd h (AList.notMem_empty _)⟩
  | append_singleton calls c ih =>
    rw [List.map_append, List.nodup_append] at hkeys
    rw [List.length_append, List.length_singleton] at hfew
    obtain ⟨hlength, hmem⟩ := ih hkeys.1 (by omega)
    have hnew : c.key ∉ run calls := fun h =>
      hkeys.2.2 c.key (hmem _ h) c.key (List.mem_singleton_self _) rfl
    have hswept : swept (run calls) c.now c.windowSecs = run calls := by
      unfold swept
      rw [if_neg (by omega)]
    rw [run_append_singleton]
    unfold Call.run windowedIncrement
    dsimp only
    rw [hswept, AList.entries_insert_of_notMem hnew]
    refine ⟨by simp [hlength], fun key hkey => ?_⟩
    rcases AList.mem_insert _ |>.mp hkey with rfl | hkey
    · simp
    · rw [List.map_append]
      exact List.mem_append_left _ (hmem key hkey)

/-- A call for the counter, ten thousand calls for others in a minute's window, and one
that sweeps. -/
def crowd : List Call :=
  ⟨"b", 3600, 3600, by decide⟩ ::
    (List.range EVICTION_THRESHOLD).map fun i =>
      ⟨String.ofList (List.replicate i 'a'), 60, 3600, by decide⟩

def crowded : List Call := crowd ++ [⟨"", 60, 4600, by decide⟩]

def second : Call := ⟨"b", 3600, 4600, by decide⟩

theorem replicate_ne_key (i : ℕ) : String.ofList (List.replicate i 'a') ≠ "b" := by
  intro h
  have hb : 'b' ∈ (String.ofList (List.replicate i 'a')).toList := by
    rw [h]
    decide
  rw [String.toList_ofList] at hb
  exact absurd (List.eq_of_mem_replicate hb) (by decide)

theorem size_crowd : (run crowd).entries.length = EVICTION_THRESHOLD + 1 := by
  have hkeys : (crowd.map Call.key).Nodup := by
    rw [crowd, List.map_cons, List.map_map, List.nodup_cons]
    constructor
    · intro hmem
      obtain ⟨i, -, hi⟩ := List.mem_map.mp hmem
      exact replicate_ne_key i hi
    · apply List.Nodup.map ?_ List.nodup_range
      intro i j hij
      simpa using congrArg List.length (String.ofList_injective hij)
  have hlength : crowd.length = EVICTION_THRESHOLD + 1 := by
    rw [crowd, List.length_cons, List.length_map, List.length_range]
  rw [(size_run hkeys (Nat.le_of_eq hlength)).1, hlength]

end Loss

section Crowds

theorem now_of_mem_crowd {c : Call} (h : c ∈ crowd) : c.now = 3600 := by
  rcases List.mem_cons.mp h with rfl | h
  · rfl
  · obtain ⟨i, -, rfl⟩ := List.mem_map.mp h
    rfl

theorem windowSecs_of_mem_crowd {c : Call} (h : c ∈ crowd) (hkey : c.key = "b") :
    c.windowSecs = 3600 := by
  rcases List.mem_cons.mp h with rfl | h
  · rfl
  · obtain ⟨i, -, rfl⟩ := List.mem_map.mp h
    exact absurd hkey (replicate_ne_key i)

theorem before_crowded : Before crowded second where
  ordered := by
    refine List.pairwise_append.mpr ⟨?_, List.pairwise_singleton _ _, ?_⟩
    · apply List.pairwise_of_forall_mem_list
      intro c hc d hd
      rw [now_of_mem_crowd hc, now_of_mem_crowd hd]
    · intro c hc d hd
      obtain rfl := List.mem_singleton.mp hd
      rw [now_of_mem_crowd hc]
      decide
  earlier c hc := by
    rcases List.mem_append.mp hc with hc | hc
    · rw [now_of_mem_crowd hc]
      decide
    · obtain rfl := List.mem_singleton.mp hc
      decide
  window c hc hkey := by
    rcases List.mem_append.mp hc with hc | hc
    · exact windowSecs_of_mem_crowd hc hkey
    · obtain rfl := List.mem_singleton.mp hc
      exact absurd hkey (by decide)

theorem lost_crowded : Lost second.key second.windowStart crowded := by
  refine ⟨crowd, _, [], rfl, ⟨_, List.mem_cons_self, rfl, by decide⟩, ?_, by decide⟩
  rw [size_crowd]
  exact Nat.lt_succ_self _

/-- The minute's sweep takes the hour's counter with it, and the next call starts over. -/
theorem sweep_restarts_a_counter :
    ¬ ∀ (calls : List Call) (last : Call),
      ((calls ++ [last]).Pairwise fun c d => c.now ≤ d.now) →
      (∀ c ∈ calls, c.key = last.key → c.windowSecs = last.windowSecs) →
      (last.run (run calls)).2.1 =
        countSince last.key last.windowStart (calls ++ [last]) := by
  intro hcounts
  have hordered : (crowded ++ [second]).Pairwise fun c d => c.now ≤ d.now := by
    refine List.pairwise_append.mpr ⟨before_crowded.ordered, List.pairwise_singleton _ _, ?_⟩
    intro c hc d hd
    obtain rfl := List.mem_singleton.mp hd
    exact before_crowded.earlier c hc
  have hreturned := hcounts crowded second hordered before_crowded.window
  exact (returned_eq_count_iff crowded second before_crowded).mp hreturned lost_crowded

end Crowds

end BatleHub.RateLimit
