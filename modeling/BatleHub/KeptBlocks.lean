import BatleHub.BlockTraffic
import BatleHub.Lib.Slots

/-!
A block is never lost, in every run whose writes come from reads newer than the
containments in force. The invariant says it of the stored verdict and, tick by tick,
of what each call in flight has read; a step only ever adds to the history, so what
was read stays good.
-/
namespace BatleHub.KeptBlocks

open LocalPackages Verdicts VerdictEvaluation ScanRecords Containment BlockTraffic Lib.Runs
  Lib.Slots

section History

/-- How the history grows from one state to a later one. -/
structure Advances (w w' : World) : Prop where
  clock : w.clock ≤ w'.clock
  time : w.time ≤ w'.time
  lifted : ∀ key, w.lifted key ≤ w'.lifted key
  starts : ∀ h ∈ w'.starts, h ∈ w.starts ∨ w.clock ≤ h.since
  placed : ∀ p ∈ w'.placed, p ∈ w.placed ∨ w.clock ≤ p.2
  started : ∀ h ∈ w.starts, h ∈ w'.starts
  keeps : ∀ p ∈ w.placed, p ∈ w'.placed

/-- What was read at `tick` has every containment in force that was placed before. -/
def ReadOk (w : World) (tick : ℕ) (snapshot : Option Verdict) : Prop :=
  tick < w.clock ∧ ∀ p ∈ w.placed, InForce w p.1 → p.2 < tick →
    ∃ v, snapshot = some v ∧ Contained p.1.key v

/-- What the job's scanners saw is among its findings. -/
def JobOk (w : World) (job : Job) : Prop :=
  (∀ tick, job.statusAt = some tick → tick < w.clock) ∧
    (∀ tick, job.flagsAt = some tick → tick < w.clock) ∧
    ∀ h ∈ w.starts, InForce w h → Saw job h → ∃ f ∈ job.progress.1, h.key.Marks f

/-- A containment's call: its read is good, and once written it is placed. -/
def PhaseOk (w : World) (hold : Hold) : Phase → Prop
  | .started => True
  | .read tick snapshot => ReadOk w tick snapshot
  | .written => ∃ tick, (hold, tick) ∈ w.placed

def TaskOk (w : World) : Task → Prop
  | .block _ _ hold phase => hold.key = .block ∧ hold ∈ w.starts ∧ PhaseOk w hold phase
  | .unblock (.read tick snapshot) => ReadOk w tick snapshot
  | .unblock _ => True
  | .push flag denies hold phase => denies = true →
      flag.effect = .hardBlock ∧ hold.key = .flag flag.source flag.externalId ∧
        hold ∈ w.starts ∧ PhaseOk w hold phase
  | .revoke _ => True
  | .current tick snapshot _ _ _ => ReadOk w tick snapshot
  | .scanning job => JobOk w job
  | .recording job _ => JobOk w job
  | .recorded _ => True

variable {w w' : World}

theorem inForce_of_advances {h : Hold} (hadv : Advances w w') (hforce : InForce w' h) :
    InForce w h := by
  refine ⟨Nat.le_trans (hadv.lifted h.key) hforce.1, ?_⟩
  intro t ht
  exact Int.lt_of_le_of_lt hadv.time (hforce.2 t ht)

theorem ReadOk.mono (hadv : Advances w w') {tick : ℕ} {snapshot : Option Verdict}
    (h : ReadOk w tick snapshot) : ReadOk w' tick snapshot := by
  refine ⟨Nat.lt_of_lt_of_le h.1 hadv.clock, ?_⟩
  intro p hp hforce hbefore
  rcases hadv.placed p hp with hold | hnew
  · exact h.2 p hold (inForce_of_advances hadv hforce) hbefore
  · have := h.1
    omega

theorem since_lt_of_saw {job : Job} {h : Hold} (hjob : JobOk w job) (hsaw : Saw job h) :
    h.since < w.clock := by
  unfold Saw at hsaw
  split at hsaw
  · obtain ⟨tick, htick, hlt⟩ := hsaw
    exact Nat.lt_trans hlt (hjob.1 tick htick)
  · obtain ⟨tick, htick, hlt⟩ := hsaw
    exact Nat.lt_trans hlt (hjob.2.1 tick htick)

theorem JobOk.mono (hadv : Advances w w') {job : Job} (h : JobOk w job) : JobOk w' job := by
  refine ⟨?_, ?_, ?_⟩
  · intro tick htick
    exact Nat.lt_of_lt_of_le (h.1 tick htick) hadv.clock
  · intro tick htick
    exact Nat.lt_of_lt_of_le (h.2.1 tick htick) hadv.clock
  · intro hold hmem hforce hsaw
    rcases hadv.starts hold hmem with hold' | hnew
    · exact h.2.2 hold hold' (inForce_of_advances hadv hforce) hsaw
    · have := since_lt_of_saw h hsaw
      omega

theorem PhaseOk.mono (hadv : Advances w w') {hold : Hold} {phase : Phase}
    (h : PhaseOk w hold phase) : PhaseOk w' hold phase := by
  cases phase with
  | started => trivial
  | read tick snapshot => exact ReadOk.mono hadv h
  | written =>
    obtain ⟨tick, htick⟩ := h
    exact ⟨tick, hadv.keeps _ htick⟩

theorem TaskOk.mono (hadv : Advances w w') {task : Task} (h : TaskOk w task) :
    TaskOk w' task := by
  cases task with
  | block reason blockedBy hold phase => exact ⟨h.1, hadv.started _ h.2.1, h.2.2.mono hadv⟩
  | unblock phase =>
    cases phase with
    | started => trivial
    | read tick snapshot => exact ReadOk.mono hadv h
    | written => trivial
  | push flag denies hold phase =>
    intro hdenies
    obtain ⟨heffect, hkey, hmem, hphase⟩ := h hdenies
    exact ⟨heffect, hkey, hadv.started _ hmem, hphase.mono hadv⟩
  | revoke flag => trivial
  | current tick snapshot package policy now => exact ReadOk.mono hadv h
  | scanning job => exact JobOk.mono hadv h
  | recording job snapshot => exact JobOk.mono hadv h
  | recorded jobId => trivial

end History

/-- The invariant: containments in force are in their own stores and, once placed, in
the stored verdict. -/
structure Sound (version : String) (w : World) : Prop where
  lifted_lt : ∀ key, w.lifted key < w.clock
  starts_lt : ∀ h ∈ w.starts, h.since < w.clock
  placed_mem : ∀ p ∈ w.placed, p.1 ∈ w.starts ∧ p.2 < w.clock
  status : ∀ h ∈ w.starts, h.key = .block → w.lifted .block ≤ h.since →
    ∃ reason blockedBy, w.status = .blocked reason blockedBy
  flags : ∀ h ∈ w.starts, ∀ source externalId, h.key = .flag source externalId →
    w.lifted (.flag source externalId) ≤ h.since →
    ∃ flag, getFlag w.flags source externalId = some flag ∧ flag.effect = .hardBlock ∧
      flag.revokedAt = none ∧ flag.covers version = true ∧ flag.expiresAt = h.expiresAt
  stored : ∀ p ∈ w.placed, InForce w p.1 → ∃ v, w.stored = some v ∧ Contained p.1.key v
  returned : ∀ h ∈ w.returned, ∃ tick, (h, tick) ∈ w.placed
  tasks : ∀ id task, w.tasks id = some task → TaskOk w task

theorem sound_initial (version : String) (status : PackageStatus) (flags : List PackageFlag)
    (stored : Option Verdict) (time : DateTime) :
    Sound version (World.initial status flags stored time) where
  lifted_lt := by simp [World.initial]
  starts_lt := by simp [World.initial]
  placed_mem := by simp [World.initial]
  status := by simp [World.initial]
  flags := by simp [World.initial]
  stored := by simp [World.initial]
  returned := by simp [World.initial]
  tasks := by simp [World.initial]

section Framing
variable {version : String} {w w' : World}

/-- A step that leaves the containments and their stores alone. -/
structure Frame (w w' : World) : Prop where
  clock : w'.clock = w.clock + 1
  time : w.time ≤ w'.time
  status : w'.status = w.status
  flags : w'.flags = w.flags
  starts : w'.starts = w.starts
  lifted : w'.lifted = w.lifted
  placed : w'.placed = w.placed

theorem Frame.advances (h : Frame w w') : Advances w w' where
  clock := by
    rw [h.clock]
    exact Nat.le_succ _
  time := h.time
  lifted key := by rw [h.lifted]
  starts hold hmem := .inl (h.starts ▸ hmem)
  placed p hp := .inl (h.placed ▸ hp)
  started hold hmem := h.starts ▸ hmem
  keeps p hp := h.placed ▸ hp

/-- Such a step is sound when what it stores and what it leaves in flight are. -/
theorem Sound.frame (h : Sound version w) (hframe : Frame w w')
    (hstored : ∀ p ∈ w.placed, InForce w p.1 → ∃ v, w'.stored = some v ∧ Contained p.1.key v)
    (hreturned : ∀ hold ∈ w'.returned, hold ∈ w.returned ∨ ∃ tick, (hold, tick) ∈ w.placed)
    (htasks : ∀ id task, w'.tasks id = some task → w.tasks id = some task ∨ TaskOk w' task) :
    Sound version w' where
  lifted_lt key := by
    rw [hframe.lifted, hframe.clock]
    exact Nat.lt_succ_of_lt (h.lifted_lt key)
  starts_lt hold hmem := by
    rw [hframe.clock]
    exact Nat.lt_succ_of_lt (h.starts_lt hold (hframe.starts ▸ hmem))
  placed_mem p hp := by
    rw [hframe.placed] at hp
    rw [hframe.starts, hframe.clock]
    exact ⟨(h.placed_mem p hp).1, Nat.lt_succ_of_lt (h.placed_mem p hp).2⟩
  status hold hmem := by
    rw [hframe.status, hframe.lifted]
    exact h.status hold (hframe.starts ▸ hmem)
  flags hold hmem := by
    rw [hframe.flags, hframe.lifted]
    exact h.flags hold (hframe.starts ▸ hmem)
  stored p hp hforce := by
    rw [hframe.placed] at hp
    exact hstored p hp (inForce_of_advances hframe.advances hforce)
  returned hold hmem := by
    rw [hframe.placed]
    rcases hreturned hold hmem with hold' | hplaced
    · exact h.returned hold hold'
    · exact hplaced
  tasks id task htask := by
    rcases htasks id task htask with hold | hnew
    · exact (h.tasks id task hold).mono hframe.advances
    · exact hnew

/-- The calls in flight after one slot is set. -/
theorem tasks_of_set {id : ℕ} {new : Option Task} (hset : w'.tasks = Function.update w.tasks id new)
    (hok : ∀ task, new = some task → TaskOk w' task) (id' : ℕ) (task : Task)
    (htask : w'.tasks id' = some task) : w.tasks id' = some task ∨ TaskOk w' task := by
  rw [hset] at htask
  rcases update_eq_some htask with hnew | hold
  · exact .inr (hok task hnew)
  · exact .inl hold

/-- A step that does nothing but take its tick. -/
theorem Sound.idle (h : Sound version w) : Sound version { w with clock := w.clock + 1 } :=
  h.frame ⟨rfl, Int.le_refl _, rfl, rfl, rfl, rfl, rfl⟩ h.stored (fun _ hmem => .inl hmem)
    (fun _ _ htask => .inl htask)

theorem frame_setTask (w : World) (id : ℕ) (new : Option Task) :
    Frame w { w.setTask id new with clock := w.clock + 1 } :=
  ⟨rfl, Int.le_refl _, rfl, rfl, rfl, rfl, rfl⟩

/-- A step that only moves a call on. -/
theorem Sound.setTask (h : Sound version w) (id : ℕ) (new : Option Task)
    (hok : ∀ task, new = some task → TaskOk { w.setTask id new with clock := w.clock + 1 } task) :
    Sound version { w.setTask id new with clock := w.clock + 1 } :=
  h.frame (frame_setTask w id new) h.stored (fun _ hmem => .inl hmem) (tasks_of_set rfl hok)

theorem readOk_stored (h : Sound version w) (hframe : Frame w w') :
    ReadOk w' w.clock w.stored := by
  refine ⟨by rw [hframe.clock]; exact Nat.lt_succ_self _, ?_⟩
  intro p hp hforce hbefore
  rw [hframe.placed] at hp
  exact h.stored p hp (inForce_of_advances hframe.advances hforce)

end Framing

section Starting
variable {version : String} {w : World}

/-- Lifting a containment and starting another at this tick only adds to the history. -/
theorem advances_of_lift {w' : World} (h : Sound version w)
    (hclock : w'.clock = w.clock + 1) (htime : w.time ≤ w'.time)
    (hlifted : ∀ key, w'.lifted key = w.lifted key ∨ w'.lifted key = w.clock)
    (hstarts : ∀ hold ∈ w'.starts, hold ∈ w.starts ∨ hold.since = w.clock)
    (hstarted : ∀ hold ∈ w.starts, hold ∈ w'.starts) (hplaced : w'.placed = w.placed) :
    Advances w w' where
  clock := by
    rw [hclock]
    exact Nat.le_succ _
  time := htime
  lifted key := by
    rcases hlifted key with hsame | hnow
    · rw [hsame]
    · rw [hnow]
      exact Nat.le_of_lt (h.lifted_lt key)
  starts hold hmem := by
    rcases hstarts hold hmem with hold' | hnow
    · exact .inl hold'
    · exact .inr (Nat.le_of_eq hnow.symm)
  placed p hp := .inl (hplaced ▸ hp)
  started := hstarted
  keeps p hp := hplaced ▸ hp

/-- A step that changes the stores of the containments: sound when those that are in
force after it are in their stores. -/
theorem Sound.lift {w' : World} (h : Sound version w) (hclock : w'.clock = w.clock + 1)
    (htime : w.time ≤ w'.time)
    (hlifted : ∀ key, w'.lifted key = w.lifted key ∨ w'.lifted key = w.clock)
    (hstarts : ∀ hold ∈ w'.starts, hold ∈ w.starts ∨ hold.since = w.clock)
    (hstarted : ∀ hold ∈ w.starts, hold ∈ w'.starts) (hplaced : w'.placed = w.placed)
    (hstored : w'.stored = w.stored) (hreturned : w'.returned = w.returned)
    (hstatus : ∀ hold ∈ w'.starts, hold.key = .block → w'.lifted .block ≤ hold.since →
      ∃ reason blockedBy, w'.status = .blocked reason blockedBy)
    (hflags : ∀ hold ∈ w'.starts, ∀ source externalId, hold.key = .flag source externalId →
      w'.lifted (.flag source externalId) ≤ hold.since →
      ∃ flag, getFlag w'.flags source externalId = some flag ∧ flag.effect = .hardBlock ∧
        flag.revokedAt = none ∧ flag.covers version = true ∧ flag.expiresAt = hold.expiresAt)
    (htasks : ∀ id task, w'.tasks id = some task → w.tasks id = some task ∨ TaskOk w' task) :
    Sound version w' := by
  have hadv : Advances w w' :=
    advances_of_lift h hclock htime hlifted hstarts hstarted hplaced
  refine ⟨?_, ?_, ?_, hstatus, hflags, ?_, ?_, ?_⟩
  · intro key
    rw [hclock]
    rcases hlifted key with hsame | hnow
    · rw [hsame]
      exact Nat.lt_succ_of_lt (h.lifted_lt key)
    · rw [hnow]
      exact Nat.lt_succ_self _
  · intro hold hmem
    rw [hclock]
    rcases hstarts hold hmem with hold' | hnow
    · exact Nat.lt_succ_of_lt (h.starts_lt hold hold')
    · rw [hnow]
      exact Nat.lt_succ_self _
  · intro p hp
    rw [hplaced] at hp
    rw [hclock]
    exact ⟨hstarted _ (h.placed_mem p hp).1, Nat.lt_succ_of_lt (h.placed_mem p hp).2⟩
  · intro p hp hforce
    rw [hplaced] at hp
    rw [hstored]
    exact h.stored p hp (inForce_of_advances hadv hforce)
  · intro hold hmem
    rw [hreturned] at hmem
    rw [hplaced]
    exact h.returned hold hmem
  · intro id task htask
    rcases htasks id task htask with hold | hnew
    · exact (h.tasks id task hold).mono hadv
    · exact hnew

theorem sound_blockStart (h : Sound version w) (id : ℕ) (reason blockedBy : String) :
    Sound version (step version w (.blockStart id reason blockedBy)) := by
  refine h.lift rfl (Int.le_refl _) (fun key => .inl rfl) ?_ ?_ rfl rfl rfl ?_ ?_
    (tasks_of_set rfl ?_)
  · intro hold hmem
    rcases List.mem_cons.mp hmem with rfl | hold'
    · exact .inr rfl
    · exact .inl hold'
  · intro hold hmem
    exact List.mem_cons_of_mem _ hmem
  · intro hold hmem hkey hforce
    exact ⟨reason, blockedBy, rfl⟩
  · intro hold hmem source externalId hkey hforce
    rcases List.mem_cons.mp hmem with rfl | hold'
    · exact absurd hkey (by simp)
    · exact h.flags hold hold' source externalId hkey hforce
  · intro task hnew
    obtain rfl := Option.some.inj hnew
    exact ⟨rfl, List.mem_cons_self, trivial⟩

theorem sound_unblockStart (h : Sound version w) (id : ℕ) :
    Sound version (step version w (.unblockStart id)) := by
  have hblock : (step version w (.unblockStart id)).lifted .block = w.clock := by
    simp [step, act]
  have hother : ∀ key, key ≠ .block → (step version w (.unblockStart id)).lifted key =
      w.lifted key := by
    intro key hkey
    simp [step, act, Function.update_of_ne hkey]
  refine h.lift rfl (Int.le_refl _) ?_ (fun hold hmem => .inl hmem) (fun hold hmem => hmem) rfl
    rfl rfl ?_ ?_ (tasks_of_set rfl ?_)
  · intro key
    by_cases hkey : key = .block
    · subst hkey
      exact .inr hblock
    · exact .inl (hother key hkey)
  · intro hold hmem hkey hforce
    rw [hblock] at hforce
    exact absurd (h.starts_lt hold hmem) (Nat.not_lt.mpr hforce)
  · intro hold hmem source externalId hkey hforce
    rw [hother _ (by simp)] at hforce
    exact h.flags hold hmem source externalId hkey hforce
  · intro task hnew
    obtain rfl := Option.some.inj hnew
    trivial

theorem sound_startRevoke (h : Sound version w) (id : ℕ) (source externalId : String)
    (now : DateTime) : Sound version (step version w (.revokeStart id source externalId now)) := by
  simp only [step, act, startRevoke]
  split
  · exact h.idle
  · rename_i flag hget
    split
    · refine h.lift rfl (Int.le_max_left _ _) ?_ (fun hold hmem => .inl hmem) (fun hold hmem => hmem)
        rfl rfl rfl ?_ ?_ (tasks_of_set rfl ?_)
      · intro key
        by_cases hkey : key = .flag source externalId
        · subst hkey
          exact .inr (Function.update_self _ _ _)
        · exact .inl (Function.update_of_ne hkey _ _)
      · intro hold hmem hkey hforce
        exact h.status hold hmem hkey (by simpa using hforce)
      · intro hold hmem source' externalId' hkey hforce
        by_cases hnamed : source = source' ∧ externalId = externalId'
        · obtain ⟨rfl, rfl⟩ := hnamed
          have hnow : Function.update w.lifted (.flag source externalId) w.clock
              (.flag source externalId) ≤ hold.since := hforce
          rw [Function.update_self] at hnow
          exact absurd (h.starts_lt hold hmem) (Nat.not_lt.mpr hnow)
        · have hne : Key.flag source' externalId' ≠ .flag source externalId := by
            intro heq
            injection heq with hs he
            exact hnamed ⟨hs.symm, he.symm⟩
          have hunlifted : Function.update w.lifted (.flag source externalId) w.clock
              (.flag source' externalId') ≤ hold.since := hforce
          rw [Function.update_of_ne hne] at hunlifted
          show ∃ flag, getFlag (revokeFlag source externalId now w.flags) source' externalId' =
            some flag ∧ _
          rw [getFlag_revokeFlag_other _ _ hnamed]
          exact h.flags hold hmem source' externalId' hkey hunlifted
      · intro task hnew
        obtain rfl := Option.some.inj hnew
        trivial
    · exact h.idle

/-- The tick a key is lifted at, after a push. -/
theorem lifted_startPush (w : World) (id : ℕ) (flag : PackageFlag) (now : DateTime) (key : Key) :
    (startPush version w id flag now).lifted key = w.lifted key ∨
      key = .flag flag.source flag.externalId ∧
        (startPush version w id flag now).lifted key = w.clock := by
  unfold startPush
  dsimp only
  split
  · by_cases hkey : key = .flag flag.source flag.externalId
    · subst hkey
      exact .inr ⟨rfl, Function.update_self _ _ _⟩
    · exact .inl (Function.update_of_ne hkey _ _)
  · exact .inl rfl

/-- A push that leaves what its flag contained in force contains the version itself, up
to the same end. -/
theorem unlifted_startPush {id : ℕ} {flag : PackageFlag} {now : DateTime}
    (h : (startPush version w id flag now).lifted (.flag flag.source flag.externalId) < w.clock) :
    contains version flag now = true ∧ movesEnd w flag = false := by
  unfold startPush at h
  dsimp only at h
  split at h
  · rw [Function.update_self] at h
    exact absurd h (Nat.lt_irrefl _)
  · rename_i hkeeps
    simpa using hkeeps

theorem starts_startPush {id : ℕ} {flag : PackageFlag} {now : DateTime} {hold : Hold}
    (h : hold ∈ (startPush version w id flag now).starts) :
    hold ∈ w.starts ∨ contains version flag now = true ∧ hold = holdOf w flag := by
  unfold startPush at h
  dsimp only at h
  split at h
  · rename_i hdenies
    rcases List.mem_cons.mp h with hnew | hold'
    · exact .inr ⟨hdenies, hnew⟩
    · exact .inl hold'
  · exact .inl h

/-- The hold that a push leaves in force under its flag's name ends with the flag. -/
theorem contains_of_unlifted {id : ℕ} {flag : PackageFlag} {now : DateTime} {hold : Hold}
    (h : Sound version w) (hmem : hold ∈ (startPush version w id flag now).starts)
    (hkey : hold.key = .flag flag.source flag.externalId)
    (hforce : (startPush version w id flag now).lifted (.flag flag.source flag.externalId) ≤
      hold.since) :
    contains version flag now = true ∧ flag.expiresAt = hold.expiresAt := by
  rcases starts_startPush hmem with hold' | ⟨hdenies, rfl⟩
  · have hearlier := Nat.lt_of_le_of_lt hforce (h.starts_lt hold hold')
    obtain ⟨hdenies, hend⟩ := unlifted_startPush hearlier
    refine ⟨hdenies, ?_⟩
    rcases lifted_startPush w id flag now (.flag flag.source flag.externalId) with
      hsame | ⟨-, hnow⟩
    · rw [hsame] at hforce
      obtain ⟨old, hget, -, -, -, hexpires⟩ := h.flags hold hold' _ _ hkey hforce
      have hend' : old.expiresAt = flag.expiresAt := by
        simpa [movesEnd, hget] using hend
      rw [← hend', hexpires]
    · rw [hnow] at hearlier
      exact absurd hearlier (Nat.lt_irrefl _)
  · exact ⟨hdenies, rfl⟩

theorem sound_startPush (h : Sound version w) (id : ℕ) (flag : PackageFlag)
    (hunrevoked : flag.revokedAt = none) (now : DateTime) :
    Sound version { startPush version w id flag now with clock := w.clock + 1 } := by
  have hstarts : ∀ hold ∈ (startPush version w id flag now).starts,
      hold ∈ w.starts ∨ contains version flag now = true ∧ hold = holdOf w flag :=
    fun hold hmem => starts_startPush hmem
  refine h.lift rfl (Int.le_max_left _ _) ?_ ?_ ?_ rfl rfl rfl ?_ ?_ (tasks_of_set rfl ?_)
  · intro key
    rcases lifted_startPush w id flag now key with hsame | ⟨-, hnow⟩
    · exact .inl hsame
    · exact .inr hnow
  · intro hold hmem
    rcases hstarts hold hmem with hold' | ⟨-, rfl⟩
    · exact .inl hold'
    · exact .inr rfl
  · intro hold hmem
    show hold ∈ if contains version flag now then holdOf w flag :: w.starts else w.starts
    split
    · exact List.mem_cons_of_mem _ hmem
    · exact hmem
  · intro hold hmem hkey hforce
    rcases hstarts hold hmem with hold' | ⟨-, rfl⟩
    · rcases lifted_startPush w id flag now .block with hsame | ⟨hblock, -⟩
      · exact h.status hold hold' hkey (hsame ▸ hforce)
      · exact absurd hblock (by simp)
    · exact absurd hkey (by simp [holdOf])
  · intro hold hmem source externalId hkey hforce
    show ∃ f, getFlag (upsertFlag flag w.flags) source externalId = some f ∧ _
    have hmem' : hold ∈ (startPush version w id flag now).starts := hmem
    by_cases hnamed : flag.source = source ∧ flag.externalId = externalId
    · obtain ⟨rfl, rfl⟩ := hnamed
      -- the flag that is there now is the one pushed
      obtain ⟨f, hget, heffect, hversion, hexpires, hrevoked⟩ :=
        getFlag_upsertFlag_same flag w.flags hunrevoked
      obtain ⟨hdenies, hend⟩ := contains_of_unlifted h hmem' hkey hforce
      simp only [contains, Bool.and_eq_true, decide_eq_true_eq] at hdenies
      refine ⟨f, hget, heffect.trans hdenies.1.1, hrevoked, ?_, hexpires.trans hend⟩
      rw [PackageFlag.covers, hversion]
      exact hdenies.2
    · have hold' : hold ∈ w.starts := by
        rcases hstarts hold hmem with hold' | ⟨-, rfl⟩
        · exact hold'
        · injection hkey with hs he
          exact absurd ⟨hs, he⟩ hnamed
      rw [getFlag_upsertFlag_other _ hnamed]
      rcases lifted_startPush w id flag now (.flag source externalId) with hsame | ⟨hkey', -⟩
      · exact h.flags hold hold' source externalId hkey (hsame ▸ hforce)
      · injection hkey' with hs he
        exact absurd ⟨hs.symm, he.symm⟩ hnamed
  · intro task hnew
    obtain rfl := Option.some.inj hnew
    intro hdenies
    have heffect : flag.effect = .hardBlock := by
      simp only [contains, Bool.and_eq_true, decide_eq_true_eq] at hdenies
      exact hdenies.1.1
    refine ⟨heffect, rfl, ?_, trivial⟩
    show holdOf w flag ∈ if contains version flag now then holdOf w flag :: w.starts else w.starts
    rw [if_pos hdenies]
    exact List.mem_cons_self

end Starting

section Writing
variable {version : String} {w : World}

/-- A containment's write: its own finding is in the new verdict, and so is every other's
that is in force. -/
theorem Sound.place (h : Sound version w) {hold : Hold} {v : Verdict} {id : ℕ} {task : Task}
    (hmem : hold ∈ w.starts)
    (hstored : ∀ p ∈ w.placed, InForce w p.1 → Contained p.1.key v) (hown : Contained hold.key v)
    (htask : ∀ w' : World, w'.starts = w.starts → (∃ tick, (hold, tick) ∈ w'.placed) →
      TaskOk w' task) :
    Sound version { (w.place hold (some v)).setTask id (some task) with clock := w.clock + 1 } := by
  have hadv : Advances w
      { (w.place hold (some v)).setTask id (some task) with clock := w.clock + 1 } := by
    refine ⟨Nat.le_succ _, Int.le_refl _, fun key => Nat.le_refl _, fun hold hmem => .inl hmem, ?_,
      fun hold hmem => hmem, fun p hp => List.mem_cons_of_mem _ hp⟩
    intro p hp
    rcases List.mem_cons.mp hp with rfl | hold'
    · exact .inr (Nat.le_refl _)
    · exact .inl hold'
  refine ⟨?_, ?_, ?_, h.status, h.flags, ?_, ?_, ?_⟩
  · intro key
    exact Nat.lt_succ_of_lt (h.lifted_lt key)
  · intro hold' hmem'
    exact Nat.lt_succ_of_lt (h.starts_lt hold' hmem')
  · intro p hp
    rcases List.mem_cons.mp hp with rfl | hold'
    · exact ⟨hmem, Nat.lt_succ_self _⟩
    · exact ⟨(h.placed_mem p hold').1, Nat.lt_succ_of_lt (h.placed_mem p hold').2⟩
  · intro p hp hforce
    rcases List.mem_cons.mp hp with rfl | hold'
    · exact ⟨v, rfl, hown⟩
    · exact ⟨v, rfl, hstored p hold' (inForce_of_advances hadv hforce)⟩
  · intro hold' hmem'
    obtain ⟨tick, htick⟩ := h.returned hold' hmem'
    exact ⟨tick, List.mem_cons_of_mem _ htick⟩
  · intro id' task' htask'
    rcases tasks_of_set rfl (fun task' hnew => by
      obtain rfl := Option.some.inj hnew
      exact htask _ rfl ⟨w.clock, List.mem_cons_self⟩) id' task' htask' with hold' | hnew
    · exact (h.tasks id' task' hold').mono hadv
    · exact hnew

/-- What a fresh read carried, of the containments in force. -/
theorem contained_of_fresh {tick : ℕ} {v : Verdict} (hread : ReadOk w tick (some v))
    (hfresh : FreshFor w tick) {p : Hold × ℕ} (hp : p ∈ w.placed) (hforce : InForce w p.1) :
    Contained p.1.key v := by
  obtain ⟨v', hv', hcontained⟩ := hread.2 p hp hforce (hfresh p hp hforce)
  obtain rfl := Option.some.inj hv'
  exact hcontained

theorem sound_blockWrite (h : Sound version w) (id : ℕ) (now : DateTime)
    (hguard : Orderly w (.blockWrite id now)) :
    Sound version (step version w (.blockWrite id now)) := by
  simp only [step, act]
  split
  · rename_i reason blockedBy hold tick snapshot htask
    obtain ⟨hfound, hfresh⟩ := hguard reason blockedBy hold tick snapshot htask
    obtain ⟨v, rfl⟩ := Option.ne_none_iff_exists'.mp hfound
    obtain ⟨hkey, hmem, hread⟩ := h.tasks id _ htask
    apply h.place hmem
    · intro p hp hforce
      by_cases hblock : p.1.key = .block
      · rw [hblock]
        exact contained_block v reason blockedBy now
      · exact contained_rewriteBlockFinding hblock (contained_of_fresh hread hfresh hp hforce) _ _
    · rw [hkey]
      exact contained_block v reason blockedBy now
    · intro w' hstarts hplaced
      exact ⟨hkey, hstarts ▸ hmem, hplaced⟩
  · exact h.idle

theorem sound_pushWrite (h : Sound version w) (id : ℕ) (now : DateTime)
    (hguard : Orderly w (.pushWrite id now)) :
    Sound version (step version w (.pushWrite id now)) := by
  simp only [step, act]
  split
  · rename_i flag hold tick snapshot htask
    obtain ⟨hfound, hfresh⟩ := hguard flag hold tick snapshot htask
    obtain ⟨v, rfl⟩ := Option.ne_none_iff_exists'.mp hfound
    obtain ⟨heffect, hkey, hmem, hread⟩ := h.tasks id _ htask rfl
    apply h.place hmem
    · intro p hp hforce
      exact contained_denyOne heffect (contained_of_fresh hread hfresh hp hforce) now
    · rw [hkey]
      exact contained_denied flag heffect v now
    · intro w' hstarts hplaced hdenies
      exact ⟨heffect, hkey, hstarts ▸ hmem, hplaced⟩
  · exact h.idle

/-- A call writes the verdict and contains nothing itself. -/
theorem Sound.write (h : Sound version w) {w' : World} (hframe : Frame w w')
    (hreturned : w'.returned = w.returned) {id : ℕ} {new : Option Task}
    (hset : w'.tasks = Function.update w.tasks id new)
    (hok : ∀ task, new = some task → TaskOk w' task)
    (hstored : ∀ p ∈ w.placed, InForce w p.1 → ∃ v, w'.stored = some v ∧ Contained p.1.key v) :
    Sound version w' :=
  h.frame hframe hstored (fun _ hmem => .inl (hreturned ▸ hmem)) (tasks_of_set hset hok)

theorem sound_unblockWrite (h : Sound version w) (id : ℕ) (now : DateTime)
    (hguard : Orderly w (.unblockWrite id now)) :
    Sound version (step version w (.unblockWrite id now)) := by
  simp only [step, act]
  split
  · rename_i tick snapshot htask
    refine h.write ⟨rfl, Int.le_refl _, rfl, rfl, rfl, rfl, rfl⟩ rfl rfl ?_ ?_
    · intro task hnew
      obtain rfl := Option.some.inj hnew
      trivial
    · intro p hp hforce
      cases snapshot with
      | none => exact h.stored p hp hforce
      | some v =>
        obtain ⟨hfresh, hnone⟩ := hguard tick (some v) htask (by simp)
        have hread := h.tasks id _ htask
        exact ⟨_, rfl, contained_rewriteBlockFinding (hnone p hp hforce)
          (contained_of_fresh hread hfresh hp hforce) none now⟩
  · exact h.idle

/-- Only the queue changes. -/
def Queued (w w' : World) : Prop := ∃ job next, w' = { w with openJob := job, nextJob := next }

theorem queued_enqueue (w : World) : Queued w w.enqueue := by
  unfold World.enqueue
  split
  · exact ⟨w.openJob, w.nextJob, rfl⟩
  · exact ⟨_, _, rfl⟩

theorem queued_rescan (w : World) : Queued w w.rescan := by
  unfold World.rescan
  split
  · exact queued_enqueue w
  · exact ⟨w.openJob, w.nextJob, rfl⟩

theorem sound_currentWrite (h : Sound version w) (id : ℕ)
    (hguard : Orderly w (.currentWrite id)) :
    Sound version (step version w (.currentWrite id)) := by
  simp only [step, act]
  split
  · rename_i tick snapshot package policy now htask
    obtain ⟨job, next, hqueue⟩ : Queued w (if snapshot.isNone then w.enqueue else w) := by
      split
      · exact queued_enqueue w
      · exact ⟨w.openJob, w.nextJob, rfl⟩
    rw [hqueue]
    refine h.write ⟨rfl, Int.le_refl _, rfl, rfl, rfl, rfl, rfl⟩ rfl rfl (by simp) ?_
    intro p hp hforce
    cases hwritten : writtenBack snapshot (fresh snapshot package policy now) with
    | none => simpa [hwritten] using h.stored p hp hforce
    | some answer =>
      have hfresh := hguard tick snapshot package policy now htask (by simp [hwritten])
      have hread : ReadOk w tick snapshot := h.tasks id _ htask
      obtain ⟨v, rfl, hcontained⟩ := hread.2 p hp hforce (hfresh p hp hforce)
      have hanswer : answer = fresh (some v) package policy now := writtenBack_eq_some hwritten
      refine ⟨answer, by simp, ?_⟩
      rw [hanswer]
      exact (contained_fresh hcontained package policy now).1
  · exact h.idle

theorem sound_recordWrite (h : Sound version w) (id : ℕ) (now : DateTime)
    (hguard : Orderly w (.recordWrite id now)) :
    Sound version (step version w (.recordWrite id now)) := by
  simp only [step, act]
  split
  · rename_i job snapshot htask
    refine h.write ⟨rfl, Int.le_refl _, rfl, rfl, rfl, rfl, rfl⟩ rfl rfl ?_ ?_
    · intro task hnew
      obtain rfl := Option.some.inj hnew
      trivial
    · intro p hp hforce
      have hjob : JobOk w job := h.tasks id _ htask
      have hseen := hguard job snapshot htask p hp hforce
      have hfound := hjob.2.2 p.1 (h.placed_mem p hp).1 hforce hseen
      exact ⟨_, rfl, contained_recordScan hfound⟩
  · exact h.idle

end Writing

section Reading
variable {version : String} {w : World}

theorem sound_blockRead (h : Sound version w) (id : ℕ) :
    Sound version (step version w (.blockRead id)) := by
  simp only [step, act]
  split
  · rename_i reason blockedBy hold htask
    obtain ⟨hkey, hmem, -⟩ := h.tasks id _ htask
    apply h.setTask
    intro task hnew
    obtain rfl := Option.some.inj hnew
    exact ⟨hkey, hmem, readOk_stored h (frame_setTask w id _)⟩
  · exact h.idle

theorem sound_unblockRead (h : Sound version w) (id : ℕ) :
    Sound version (step version w (.unblockRead id)) := by
  simp only [step, act]
  split
  · apply h.setTask
    intro task hnew
    obtain rfl := Option.some.inj hnew
    exact readOk_stored h (frame_setTask w id _)
  · exact h.idle

theorem sound_pushRead (h : Sound version w) (id : ℕ) :
    Sound version (step version w (.pushRead id)) := by
  simp only [step, act]
  split
  · rename_i flag hold htask
    obtain ⟨heffect, hkey, hmem, -⟩ := h.tasks id _ htask rfl
    apply h.setTask
    intro task hnew
    obtain rfl := Option.some.inj hnew
    intro hdenies
    exact ⟨heffect, hkey, hmem, readOk_stored h (frame_setTask w id _)⟩
  · exact h.idle

theorem sound_currentRead (h : Sound version w) (id : ℕ) (package : PackageMetadata)
    (policy : SecurityPolicy) (now : DateTime) :
    Sound version (step version w (.currentRead id package policy now)) := by
  have hframe : Frame w (step version w (.currentRead id package policy now)) :=
    ⟨rfl, Int.le_max_left _ _, rfl, rfl, rfl, rfl, rfl⟩
  refine h.write hframe rfl rfl ?_ h.stored
  intro task hnew
  obtain rfl := Option.some.inj hnew
  exact readOk_stored h hframe

end Reading

section Returning
variable {version : String} {w w₁ : World}

/-- A call returns, having queued a rescan. -/
theorem Sound.finish (h : Sound version w) (hqueue : Queued w w₁) (id : ℕ) :
    Sound version { w₁.setTask id none with clock := w.clock + 1 } := by
  obtain ⟨job, next, rfl⟩ := hqueue
  exact h.write ⟨rfl, Int.le_refl _, rfl, rfl, rfl, rfl, rfl⟩ rfl rfl (by simp) h.stored

/-- A containment's call returns, having been placed. -/
theorem Sound.returns (h : Sound version w) (hqueue : Queued w w₁) (id : ℕ) {hold : Hold}
    (hplaced : ∃ tick, (hold, tick) ∈ w.placed) :
    Sound version { w₁.setTask id none with
      returned := hold :: w.returned
      clock := w.clock + 1 } := by
  obtain ⟨job, next, rfl⟩ := hqueue
  refine h.frame ⟨rfl, Int.le_refl _, rfl, rfl, rfl, rfl, rfl⟩ h.stored ?_
    (tasks_of_set rfl (by simp))
  intro hold' hmem
  rcases List.mem_cons.mp hmem with rfl | hold'
  · exact .inr hplaced
  · exact .inl hold'

theorem queued_ite (w : World) (c : Bool) : Queued w (if c then w.rescan else w) := by
  split
  · exact queued_rescan w
  · exact ⟨w.openJob, w.nextJob, rfl⟩

theorem sound_blockReturn (h : Sound version w) (id : ℕ) :
    Sound version (step version w (.blockReturn id)) := by
  simp only [step, act]
  split
  · rename_i reason blockedBy hold htask
    obtain ⟨-, -, hplaced⟩ := h.tasks id _ htask
    exact h.returns (queued_enqueue w) id hplaced
  · exact h.idle

theorem sound_unblockReturn (h : Sound version w) (id : ℕ) :
    Sound version (step version w (.unblockReturn id)) := by
  simp only [step, act]
  split
  · exact h.finish (queued_enqueue w) id
  · exact h.idle

theorem sound_pushReturn (h : Sound version w) (id : ℕ) :
    Sound version (step version w (.pushReturn id)) := by
  simp only [step, act]
  split
  · rename_i flag hold htask
    obtain ⟨-, -, -, hplaced⟩ := h.tasks id _ htask rfl
    exact h.returns (queued_rescan w) id hplaced
  · exact h.finish (queued_ite w _) id
  · exact h.idle

theorem sound_revokeReturn (h : Sound version w) (id : ℕ) :
    Sound version (step version w (.revokeReturn id)) := by
  simp only [step, act]
  split
  · exact h.finish (queued_ite w _) id
  · exact h.idle

theorem sound_complete (h : Sound version w) (id : ℕ) :
    Sound version (step version w (.complete id)) := by
  simp only [step, act]
  split
  · rename_i jobId htask
    exact h.write ⟨rfl, Int.le_refl _, rfl, rfl, rfl, rfl, rfl⟩ rfl rfl (by simp) h.stored
  · exact h.idle

end Returning

section Scanning
variable {version : String} {w : World}

theorem jobOk_new (w : World) (jobId : ℕ) (package : PackageMetadata) (policy : SecurityPolicy)
    (progress : ScanPasses.Progress) : JobOk w ⟨jobId, package, policy, progress, none, none⟩ := by
  refine ⟨by simp, by simp, ?_⟩
  intro hold hmem hforce hsaw
  unfold Saw at hsaw
  split at hsaw
  · obtain ⟨tick, htick, -⟩ := hsaw
    simp at htick
  · obtain ⟨tick, htick, -⟩ := hsaw
    simp at htick

/-- Findings of containments that a job has it keeps. -/
theorem JobOk.grow {job : Job} (h : JobOk w job) (progress : ScanPasses.Progress)
    (hgrow : ∀ (key : Key) f, f ∈ job.progress.1 → key.Marks f → f ∈ progress.1) :
    JobOk w { job with progress := progress } := by
  refine ⟨h.1, h.2.1, ?_⟩
  intro hold hmem hforce hsaw
  obtain ⟨f, hf, hmarks⟩ := h.2.2 hold hmem hforce hsaw
  exact ⟨f, hgrow hold.key f hf hmarks, hmarks⟩

theorem enriched_of_marks {key : Key} {f : Finding} (h : key.Marks f)
    (touch : Finding → Finding) : enriched touch f = f := by
  have hkind : f.kind ≠ .vulnerability := by
    cases key with
    | block =>
      rw [h.2.1]
      decide
    | flag source externalId =>
      rw [h.2.1]
      decide
  simp [enriched, hkind]

theorem sound_lease (h : Sound version w) (id : ℕ) (package : PackageMetadata)
    (policy : SecurityPolicy) : Sound version (step version w (.lease id package policy)) := by
  simp only [step, act]
  split
  · apply h.setTask
    intro task hnew
    obtain rfl := Option.some.inj hnew
    exact jobOk_new _ _ _ _ _
  · exact h.idle

theorem sound_spent (h : Sound version w) (id : ℕ) (package : PackageMetadata)
    (policy : SecurityPolicy) (maxAttempts timeoutSecs : ℕ) :
    Sound version (step version w (.spent id package policy maxAttempts timeoutSecs)) := by
  simp only [step, act]
  split
  · apply h.setTask
    intro task hnew
    obtain rfl := Option.some.inj hnew
    exact jobOk_new _ _ _ _ _
  · exact h.idle

/-- The `block_list` scanner sees the block that is in force. -/
theorem sound_scanStatus (h : Sound version w) (id : ℕ) :
    Sound version (step version w (.scanStatus id)) := by
  simp only [step, act]
  split
  · rename_i job htask
    have hjob : JobOk w job := h.tasks id _ htask
    apply h.setTask
    intro task hnew
    obtain rfl := Option.some.inj hnew
    refine ⟨?_, ?_, ?_⟩
    · intro tick htick
      obtain rfl := Option.some.inj htick
      exact Nat.lt_succ_self _
    · intro tick htick
      exact Nat.lt_succ_of_lt (hjob.2.1 tick htick)
    · intro hold hmem hforce hsaw
      cases hkey : hold.key with
      | block =>
        have hunlifted : w.lifted .block ≤ hold.since := hkey ▸ hforce.1
        obtain ⟨reason, blockedBy, hstatus⟩ := h.status hold hmem hkey hunlifted
        refine ⟨blockFinding reason blockedBy, ?_, rfl, rfl, rfl⟩
        apply List.mem_append_right
        rw [hstatus]
        exact List.mem_singleton.mpr rfl
      | flag source externalId =>
        simp only [Saw, hkey] at hsaw
        have hsaw' : Saw job hold := by
          simp only [Saw, hkey]
          exact hsaw
        obtain ⟨f, hf, hmarks⟩ := hjob.2.2 hold hmem hforce hsaw'
        exact ⟨f, List.mem_append_left _ hf, hkey ▸ hmarks⟩
  · exact h.idle

/-- The `flags` scanner sees the hard blocks that are in force, for they have not
expired when it reads. -/
theorem sound_scanFlags (h : Sound version w) (id : ℕ) (now : DateTime) :
    Sound version (step version w (.scanFlags id now)) := by
  simp only [step, act]
  split
  · rename_i job htask
    have hjob : JobOk w job := h.tasks id _ htask
    have hframe : Frame w { (w.at_ now).setTask id (some (.scanning { job with
        progress := (job.progress.1 ++ scanFlags w.flags version now,
          job.progress.2 ++ [flagsScanner])
        flagsAt := some w.clock })) with clock := w.clock + 1 } :=
      ⟨rfl, Int.le_max_left _ _, rfl, rfl, rfl, rfl, rfl⟩
    refine h.write hframe rfl rfl ?_ h.stored
    intro task hnew
    obtain rfl := Option.some.inj hnew
    refine ⟨?_, ?_, ?_⟩
    · intro tick htick
      exact Nat.lt_succ_of_lt (hjob.1 tick htick)
    · intro tick htick
      obtain rfl := Option.some.inj htick
      exact Nat.lt_succ_self _
    · intro hold hmem hforce hsaw
      have hbefore : InForce w hold := inForce_of_advances hframe.advances hforce
      cases hkey : hold.key with
      | block =>
        simp only [Saw, hkey] at hsaw
        have hsaw' : Saw job hold := by
          simp only [Saw, hkey]
          exact hsaw
        obtain ⟨f, hf, hmarks⟩ := hjob.2.2 hold hmem hbefore hsaw'
        exact ⟨f, List.mem_append_left _ hf, hkey ▸ hmarks⟩
      | flag source externalId =>
        have hunlifted : w.lifted (.flag source externalId) ≤ hold.since := hkey ▸ hbefore.1
        obtain ⟨flag, hget, heffect, hrevoked, hcovers, hexpires⟩ :=
          h.flags hold hmem source externalId hkey hunlifted
        have hlive : flag.isLive now = true := by
          unfold PackageFlag.isLive
          rw [hrevoked, hexpires]
          cases hend : hold.expiresAt with
          | none => rfl
          | some t =>
            have hlater : max w.time now < t := hforce.2 t hend
            have hnow : now < t := Int.lt_of_le_of_lt (Int.le_max_right _ _) hlater
            simp [hnow]
        obtain ⟨f, hf, hmarks⟩ := exists_marks_scanFlags hget heffect hlive hcovers
        exact ⟨f, List.mem_append_right _ hf, hmarks⟩
  · exact h.idle

/-- A job goes on without losing what it found of containments. -/
theorem Sound.scan (h : Sound version w) {id : ℕ} {job : Job}
    (htask : w.tasks id = some (.scanning job)) (progress : ScanPasses.Progress)
    (hgrow : ∀ (key : Key) f, f ∈ job.progress.1 → key.Marks f → f ∈ progress.1) :
    Sound version { w.setTask id (some (.scanning { job with progress := progress })) with
      clock := w.clock + 1 } := by
  have hjob : JobOk w job := h.tasks id _ htask
  apply h.setTask
  intro task hnew
  obtain rfl := Option.some.inj hnew
  exact JobOk.mono (frame_setTask w id _).advances (hjob.grow progress hgrow)

theorem sound_scanOther (h : Sound version w) (id : ℕ) (artifactUnavailable : Bool)
    (scanner : ScanPasses.ScannerRun) :
    Sound version (step version w (.scanOther id artifactUnavailable scanner)) := by
  simp only [step, act]
  split
  · rename_i job htask
    exact h.scan htask _ (fun key f hf _ => ScanPasses.mem_runScanner hf)
  · exact h.idle

theorem sound_enrich (h : Sound version w) (id : ℕ) (name : String) (answered : Bool)
    (touch : Finding → Finding) :
    Sound version (step version w (.enrich id name answered touch)) := by
  simp only [step, act]
  split
  · rename_i job htask
    apply h.scan htask
    intro key f hf hmarks
    exact List.mem_map.mpr ⟨f, hf, enriched_of_marks hmarks touch⟩
  · exact h.idle

theorem sound_recordRead (h : Sound version w) (id : ℕ) :
    Sound version (step version w (.recordRead id)) := by
  simp only [step, act]
  split
  · rename_i job htask
    have hjob : JobOk w job := h.tasks id _ htask
    apply h.setTask
    intro task hnew
    obtain rfl := Option.some.inj hnew
    exact JobOk.mono (frame_setTask w id _).advances hjob
  · exact h.idle

end Scanning

section Runs
variable {version : String}

theorem sound_step {w : World} {e : Event} (h : Sound version w) (hguard : Orderly w e) :
    Sound version (step version w e) := by
  cases e with
  | blockStart id reason blockedBy => exact sound_blockStart h id reason blockedBy
  | blockRead id => exact sound_blockRead h id
  | blockWrite id now => exact sound_blockWrite h id now hguard
  | blockReturn id => exact sound_blockReturn h id
  | unblockStart id => exact sound_unblockStart h id
  | unblockRead id => exact sound_unblockRead h id
  | unblockWrite id now => exact sound_unblockWrite h id now hguard
  | unblockReturn id => exact sound_unblockReturn h id
  | pushStart id flag now => exact sound_startPush h id _ rfl now
  | pushRead id => exact sound_pushRead h id
  | pushWrite id now => exact sound_pushWrite h id now hguard
  | pushReturn id => exact sound_pushReturn h id
  | revokeStart id source externalId now => exact sound_startRevoke h id source externalId now
  | revokeReturn id => exact sound_revokeReturn h id
  | currentRead id package policy now => exact sound_currentRead h id package policy now
  | currentWrite id => exact sound_currentWrite h id hguard
  | lease id package policy => exact sound_lease h id package policy
  | spent id package policy maxAttempts timeoutSecs =>
    exact sound_spent h id package policy maxAttempts timeoutSecs
  | scanStatus id => exact sound_scanStatus h id
  | scanFlags id now => exact sound_scanFlags h id now
  | scanOther id artifactUnavailable scanner =>
    exact sound_scanOther h id artifactUnavailable scanner
  | enrich id name answered touch => exact sound_enrich h id name answered touch
  | recordRead id => exact sound_recordRead h id
  | recordWrite id now => exact sound_recordWrite h id now hguard
  | complete id => exact sound_complete h id

/-- A block is never lost: after every orderly run, a read is denied while a containment
whose call has returned is in force. -/
theorem block_kept (status : PackageStatus) (flags : List PackageFlag) (stored : Option Verdict)
    (time : DateTime) (events : List Event)
    (hguard : Guarded (step version) Orderly (World.initial status flags stored time) events)
    (hold : Hold)
    (hreturned : hold ∈
      (run (step version) (World.initial status flags stored time) events).returned)
    (hforce : InForce (run (step version) (World.initial status flags stored time) events) hold)
    (package : PackageMetadata) (policy : SecurityPolicy) (now : DateTime) :
    (fresh (run (step version) (World.initial status flags stored time) events).stored package
      policy now).isServed = false := by
  have hsound : Sound version (run (step version) (World.initial status flags stored time)
      events) :=
    run_keeps Orderly (Sound version) (fun w e h hg => sound_step h hg) _ events
      (sound_initial version status flags stored time) hguard
  obtain ⟨tick, hplaced⟩ := hsound.returned hold hreturned
  obtain ⟨v, hv, hcontained⟩ := hsound.stored _ hplaced hforce
  rw [hv, Verdict.isServed, (contained_fresh hcontained package policy now).2]
  rfl

end Runs

section Lost

def profile : SecurityPolicy := SecurityPolicy.defaultsFor "npm"

/-- Nothing known of the version yet. -/
def empty : World := World.initial .available [] none 0

/-- A first sight, and then a block. -/
def seenThenBlocked : List Event :=
  [.currentRead 0 leftpad profile (2 * day), .currentWrite 0, .blockStart 2 "malware" "alice",
    .blockRead 2, .blockWrite 2 (2 * day), .blockReturn 2]

/-- A block while a job is running that has already read the status. -/
def blockedDuringJob : List Event :=
  [.currentRead 0 leftpad profile (2 * day), .currentWrite 0, .lease 1 leftpad profile,
    .scanStatus 1, .scanFlags 1 (2 * day), .scanOther 1 false ⟨"osv", false, .ok []⟩,
    .blockStart 2 "malware" "alice", .blockRead 2, .blockWrite 2 (2 * day), .blockReturn 2,
    .recordRead 1, .recordWrite 1 (2 * day), .complete 1]

theorem block_kept_after_first_sight :
    (fresh (run (step "1.0.0") empty seenThenBlocked).stored leftpad profile
      (2 * day)).isServed = false := by
  have hguard : Guarded (step "1.0.0") Orderly empty seenThenBlocked := by
    refine ⟨trivial, ?_, trivial, trivial, ?_, trivial, trivial⟩
    · intro tick snapshot package policy now htask hwrites p hp
      exact absurd hp List.not_mem_nil
    · intro reason blockedBy hold tick snapshot htask
      have hsame := Option.some.inj htask
      simp only [Task.block.injEq, Phase.read.injEq] at hsame
      refine ⟨?_, fun p hp => absurd hp List.not_mem_nil⟩
      rw [← hsame.2.2.2.2]
      exact Option.some_ne_none _
  exact block_kept .available [] none 0 seenThenBlocked hguard ⟨.block, 3, none⟩
    List.mem_cons_self ⟨by decide, by simp⟩ leftpad profile (2 * day)

/-- The job writes what it read before the block, and the rescan that the block asked for
was dropped while the job was open: the blocked version is served. -/
theorem block_lost_to_running_job :
    let w := run (step "1.0.0") empty blockedDuringJob
    let hold : Hold := ⟨.block, 7, none⟩
    hold ∈ w.returned ∧ InForce w hold ∧ w.status = .blocked "malware" "alice" ∧
      w.openJob = none ∧ (fresh w.stored leftpad profile (2 * day)).isServed = true := by
  refine ⟨List.mem_cons_self, ⟨by decide, by simp⟩, rfl, rfl, rfl⟩

end Lost

end BatleHub.KeptBlocks
