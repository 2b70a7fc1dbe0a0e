import BatleHub.ForgeRefs
import BatleHub.Lib.AssocMap
import BatleHub.Lib.Runs

/-!
Concurrent resolutions of one ref (`services/forge_refs.rs`). A call reads the row, may
ask the forge and writes the row over from what it read. What an answer says of a move is
kept by every write that tells of another commit if the row it goes over does.
-/
namespace BatleHub.Forge

open Lib AssocMap
open LocalPackages (DateTime)

section Call
variable (gitRef : String)

/-- The answer for a full SHA: no call, nothing stored. -/
def commitAnswer (now : DateTime) : ResolvedRef :=
  ⟨gitRef, .commit, Integrity.toAsciiLowercase gitRef, now, none, none, none⟩

/-- A stored resolution is trusted for its time to live, and forever where the policy is
frozen. -/
def isFresh (policy : ForgeRefsPolicy) (now : DateTime) (prev : StoredRefResolution) : Bool :=
  policy.frozen ||
    (policy.ttlFor prev.kind).any fun ttl => decide (now - prev.resolvedAt < fromStd ttl)

def storedAnswer (prev : StoredRefResolution) : ResolvedRef :=
  ⟨gitRef, prev.kind, prev.sha, prev.resolvedAt, prev.previous, none, none⟩

/-- A change since the stored resolution is remembered, and an unchanged answer keeps what
was remembered. -/
def previousOf (stored : Option StoredRefResolution) (sha : String) : Option String :=
  match stored with
  | some prev => if prev.sha ≠ sha then some prev.sha else prev.previous
  | none => none

def resolutionOf (stored : Option StoredRefResolution) (target : ResolvedTarget)
    (now : DateTime) : StoredRefResolution :=
  ⟨target.kind, target.sha, now, previousOf stored target.sha⟩

def forgeAnswer (stored : Option StoredRefResolution) (target : ResolvedTarget)
    (now : DateTime) : ResolvedRef :=
  ⟨gitRef, target.kind, target.sha, now, previousOf stored target.sha, target.objectDate,
    target.publisher⟩

end Call

/-- What a call is made with. Without a store nothing is remembered, and a pullability
answer writes nothing. -/
structure CallArgs where
  policy : ForgeRefsPolicy
  hasStore : Bool
  evaluateOnly : Bool

/-- How far a call has come. -/
inductive Phase where
  | begun
  | asking (stored : Option StoredRefResolution)
  | recording (stored : Option StoredRefResolution) (target : ResolvedTarget) (now : DateTime)

/-- A call in flight, with the number of answers there were when it started. -/
structure Call where
  args : CallArgs
  began : ℕ
  phase : Phase

/-- An answer that was returned. -/
structure Answer where
  began : ℕ
  fromForge : Bool
  resolved : ResolvedRef

/-- The row of the ref, the calls in flight and the answers returned so far. -/
structure World where
  row : Option StoredRefResolution
  calls : Assoc ℕ Call
  answers : List Answer

/-- One step of one call. A read that failed counts as one that found nothing, and a write
that failed may have taken effect or not. -/
inductive Event where
  | start (call : ℕ) (args : CallArgs) (now : DateTime)
  | get (call : ℕ) (failed : Bool) (now : DateTime)
  | forge (call : ℕ) (answer : Except CoreError ResolvedTarget) (now : DateTime)
  | upsert (call : ℕ) (took : Bool)

section Steps
variable (gitRef : String)

def World.answer (w : World) (id began : ℕ) (fromForge : Bool) (resolved : ResolvedRef) : World :=
  { w with calls := w.calls.erase id, answers := w.answers ++ [⟨began, fromForge, resolved⟩] }

def World.advance (w : World) (id : ℕ) (call : Call) (phase : Phase) : World :=
  { w with calls := w.calls.insert id { call with phase := phase } }

def startCall (w : World) (id : ℕ) (args : CallArgs) (now : DateTime) : World :=
  if isCommitSha gitRef then
    { w with answers := w.answers ++ [⟨w.answers.length, false, commitAnswer gitRef now⟩] }
  else
    match w.calls.lookup id with
    | some _ => w
    | none => { w with calls := w.calls.insert id ⟨args, w.answers.length, .begun⟩ }

/-- What the call read from the store. -/
def readRow (w : World) (args : CallArgs) (failed : Bool) : Option StoredRefResolution :=
  if args.hasStore && !failed then w.row else none

def getRow (w : World) (id : ℕ) (call : Call) (failed : Bool) (now : DateTime) : World :=
  let stored := readRow w call.args failed
  match stored with
  | some prev =>
    if isFresh call.args.policy now prev then
      w.answer id call.began false (storedAnswer gitRef prev)
    else w.advance id call (.asking stored)
  | none => w.advance id call (.asking none)

def askForge (w : World) (id : ℕ) (call : Call) (stored : Option StoredRefResolution)
    (answer : Except CoreError ResolvedTarget) (now : DateTime) : World :=
  match answer with
  | .error _ => { w with calls := w.calls.erase id }
  | .ok target => w.advance id call (.recording stored target now)

/-- The call is one that writes, and its write takes effect. -/
def CallArgs.writes (args : CallArgs) (took : Bool) : Bool :=
  args.hasStore && !args.evaluateOnly && took

def recordRow (w : World) (id : ℕ) (call : Call) (stored : Option StoredRefResolution)
    (target : ResolvedTarget) (now : DateTime) (took : Bool) : World :=
  { w with row := if call.args.writes took then some (resolutionOf stored target now) else w.row }.answer
    id call.began true (forgeAnswer gitRef stored target now)

def step (w : World) : Event → World
  | .start id args now => startCall gitRef w id args now
  | .get id failed now =>
    match w.calls.lookup id with
    | some ⟨args, began, .begun⟩ => getRow gitRef w id ⟨args, began, .begun⟩ failed now
    | _ => w
  | .forge id answer now =>
    match w.calls.lookup id with
    | some ⟨args, began, .asking stored⟩ =>
      askForge w id ⟨args, began, .asking stored⟩ stored answer now
    | _ => w
  | .upsert id took =>
    match w.calls.lookup id with
    | some ⟨args, began, .recording stored target now⟩ =>
      recordRow gitRef w id ⟨args, began, .recording stored target now⟩ stored target now took
    | _ => w

end Steps

/-- A row tells of a commit other than this one, as its own or as the one before. -/
def TellsOfOther (row : Option StoredRefResolution) (sha : String) : Prop :=
  ∃ r ∈ row, r.sha ≠ sha ∨ r.previous ≠ none

/-- A row has this commit, or tells of a move. -/
def OnRecord (row : Option StoredRefResolution) (sha : String) : Prop :=
  ∃ r ∈ row, r.sha = sha ∨ r.previous ≠ none

instance (row : Option StoredRefResolution) (sha : String) : Decidable (TellsOfOther row sha) :=
  inferInstanceAs (Decidable (∃ r ∈ row, _))

instance (row : Option StoredRefResolution) (sha : String) : Decidable (OnRecord row sha) :=
  inferInstanceAs (Decidable (∃ r ∈ row, _))

/-- An answer of the forge is written, or is on record without that; and it tells of
another commit if the row at that time does. -/
def Remembers (w : World) : Event → Prop
  | .upsert id took =>
    match w.calls.lookup id with
    | some ⟨args, _, .recording stored target _⟩ =>
      (args.writes took = true ∨ OnRecord w.row target.sha) ∧
        (TellsOfOther w.row target.sha → TellsOfOther stored target.sha)
    | _ => True
  | _ => True

instance (w : World) : (e : Event) → Decidable (Remembers w e)
  | .start _ _ _ => isTrue trivial
  | .get _ _ _ => isTrue trivial
  | .forge _ _ _ => isTrue trivial
  | .upsert id took =>
    match h : w.calls.lookup id with
    | some ⟨args, began, .recording stored target now⟩ =>
      decidable_of_iff ((args.writes took = true ∨ OnRecord w.row target.sha) ∧
        (TellsOfOther w.row target.sha → TellsOfOther stored target.sha)) (by simp [Remembers, h])
    | some ⟨args, began, .begun⟩ => isTrue (by simp [Remembers, h])
    | some ⟨args, began, .asking stored⟩ => isTrue (by simp [Remembers, h])
    | none => isTrue (by simp [Remembers, h])

/-- A resolution as the calls leave it: the commit before is another one. -/
def WellKept (r : StoredRefResolution) : Prop :=
  r.sha ≠ "" ∧ ∀ p ∈ r.previous, p ≠ "" ∧ p ≠ r.sha

instance (r : StoredRefResolution) : Decidable (WellKept r) :=
  inferInstanceAs (Decidable (_ ∧ _))

abbrev StoredRow := { row : Option StoredRefResolution // ∀ r ∈ row, WellKept r }

/-- No call is in flight. -/
def World.idle (row : StoredRow) : World := ⟨row.1, ∅, []⟩

/-- The answer tells of the move, and a finding about a tag is raised for it. -/
def Raises (r : ResolvedRef) : Prop :=
  (∃ p ∈ r.previous, p ≠ r.sha) ∧
  (r.kind = .tag → ∀ policy metadata cachedDigest,
    (ForgeCoordinate.fromPackageId metadata.id).isSome = true →
    ∃ f ∈ refFindings policy (overlayForgeMetadata metadata r) cachedDigest, f.code = .tagMoved)

/-- If an answer had one commit and a call that started after it got another one from the
forge, then this call tells of the move, and so does every call that starts after it and
answers something else than the first commit. -/
def NeverForgotten (answers : List Answer) : Prop :=
  ∀ (i : ℕ) (a : Answer), answers[i]? = some a →
    ∀ (j : ℕ) (b : Answer), answers[j]? = some b → i < b.began → b.fromForge = true →
      b.resolved.sha ≠ a.resolved.sha →
      Raises b.resolved ∧
        ∀ (k : ℕ) (c : Answer), answers[k]? = some c → j < c.began → c.resolved.sha ≠ a.resolved.sha →
          Raises c.resolved

theorem raises_of_moved {r : ResolvedRef} (h : r.Moved) : Raises r := by
  refine ⟨?_, ?_⟩
  · obtain ⟨p, hp, -, hsha⟩ := h
    exact ⟨p, hp, hsha⟩
  · intro hkind policy metadata cachedDigest hcoord
    obtain ⟨f, hf, hcode, -⟩ := tagMoved_of_moved policy cachedDigest h hkind hcoord
    exact ⟨f, hf, hcode⟩

section Rows

theorem previousOf_wellKept {stored : Option StoredRefResolution} (h : ∀ r ∈ stored, WellKept r)
    (sha : String) : ∀ p ∈ previousOf stored sha, p ≠ "" ∧ p ≠ sha := by
  intro p hp
  unfold previousOf at hp
  cases stored with
  | none => cases hp
  | some prev =>
    obtain ⟨hne, hprevious⟩ := h prev rfl
    dsimp only at hp
    split_ifs at hp with hsha
    · obtain rfl := Option.some.inj hp
      exact ⟨hne, hsha⟩
    · rw [not_not] at hsha
      rw [← hsha]
      exact hprevious p hp

/-- What the read tells of, the answer tells of. -/
theorem previousOf_ne_none {stored : Option StoredRefResolution} {sha : String}
    (h : TellsOfOther stored sha) : previousOf stored sha ≠ none := by
  obtain ⟨prev, rfl, hprev⟩ := h
  unfold previousOf
  dsimp only
  split_ifs with hsha
  · nofun
  · exact hprev.resolve_left hsha

theorem tellsOfOther_of_onRecord {row : Option StoredRefResolution} {sha sha' : String}
    (h : OnRecord row sha') (hne : sha ≠ sha') : TellsOfOther row sha := by
  obtain ⟨r, hr, hr'⟩ := h
  refine ⟨r, hr, ?_⟩
  rcases hr' with hsha | hprevious
  · exact Or.inl fun hsame => hne (hsame.symm.trans hsha)
  · exact Or.inr hprevious

/-- A commit on record, and a row that has another commit: the row tells of a move. -/
theorem moved_of_onRecord {r : StoredRefResolution} (hkept : WellKept r) {sha : String}
    (h : OnRecord (some r) sha) (hne : r.sha ≠ sha) : ∃ p ∈ r.previous, p ≠ "" ∧ p ≠ r.sha := by
  obtain ⟨r', hr', hsha⟩ := h
  obtain rfl := Option.some.inj hr'
  obtain ⟨p, hp⟩ := Option.ne_none_iff_exists'.mp (hsha.resolve_left hne)
  exact ⟨p, hp, hkept.2 p hp⟩

end Rows

/-- What the calls have read. -/
def Phase.stored : Phase → Option StoredRefResolution
  | .begun => none
  | .asking stored => stored
  | .recording stored _ _ => stored

/-- Every answer is on record, and the later ones tell of the moves since the earlier. -/
structure Kept (gitRef : String) (w : World) : Prop where
  row : ∀ r ∈ w.row, WellKept r
  snapshots : ∀ id call, w.calls.lookup id = some call → ∀ r ∈ call.phase.stored, WellKept r
  started : ∀ id call, w.calls.lookup id = some call → call.began ≤ w.answers.length
  began : ∀ (j : ℕ) (b : Answer), w.answers[j]? = some b → b.began ≤ j
  idle : isCommitSha gitRef = true → w.calls = ∅ ∧
    ∀ a ∈ w.answers, a.resolved.sha = Integrity.toAsciiLowercase gitRef
  onRecord : isCommitSha gitRef = false → ∀ a ∈ w.answers, OnRecord w.row a.resolved.sha
  moved : ∀ (i : ℕ) (a : Answer), w.answers[i]? = some a →
    ∀ (j : ℕ) (b : Answer), w.answers[j]? = some b → i < j →
    b.resolved.sha ≠ a.resolved.sha → b.resolved.Moved

section Keeps
variable {gitRef : String} {w : World}

theorem Kept.idle_world (gitRef : String) (row : StoredRow) : Kept gitRef (World.idle row) where
  row := row.2
  snapshots := by
    intro id call hcall
    have hnone : (World.idle row).calls.lookup id = none := rfl
    rw [hnone] at hcall
    cases hcall
  started := by
    intro id call hcall
    have hnone : (World.idle row).calls.lookup id = none := rfl
    rw [hnone] at hcall
    cases hcall
  began := fun _ _ hb => absurd (List.mem_of_getElem? hb) List.not_mem_nil
  idle := fun _ => ⟨rfl, fun _ ha => absurd ha List.not_mem_nil⟩
  onRecord := fun _ _ ha => absurd ha List.not_mem_nil
  moved := fun _ _ ha => absurd (List.mem_of_getElem? ha) List.not_mem_nil

/-- A call goes on with what it has read. -/
theorem Kept.insert (h : Kept gitRef w) (hsha : isCommitSha gitRef = false) (id : ℕ) (call : Call)
    (hstored : ∀ r ∈ call.phase.stored, WellKept r) (hbegan : call.began ≤ w.answers.length) :
    Kept gitRef { w with calls := w.calls.insert id call } where
  row := h.row
  snapshots := by
    intro id' call' hcall'
    rw [lookup_insert_eq] at hcall'
    split_ifs at hcall' with hid
    · rw [← Option.some.inj hcall']
      exact hstored
    · exact h.snapshots id' call' hcall'
  started := by
    intro id' call' hcall'
    rw [lookup_insert_eq] at hcall'
    split_ifs at hcall' with hid
    · rw [← Option.some.inj hcall']
      exact hbegan
    · exact h.started id' call' hcall'
  began := h.began
  idle := by
    rw [hsha]
    nofun
  onRecord := h.onRecord
  moved := h.moved

theorem Kept.erase (h : Kept gitRef w) (id : ℕ) : Kept gitRef { w with calls := w.calls.erase id } where
  row := h.row
  snapshots := by
    intro id' call' hcall'
    rw [lookup_erase_eq] at hcall'
    split_ifs at hcall'
    exact h.snapshots id' call' hcall'
  started := by
    intro id' call' hcall'
    rw [lookup_erase_eq] at hcall'
    split_ifs at hcall'
    exact h.started id' call' hcall'
  began := h.began
  idle := by
    intro hsha
    obtain ⟨hcalls, hanswers⟩ := h.idle hsha
    refine ⟨?_, hanswers⟩
    dsimp only
    rw [hcalls]
    rfl
  onRecord := h.onRecord
  moved := h.moved

/-- One more answer, and the row as it is then. -/
theorem Kept.snoc (h : Kept gitRef w) (row : Option StoredRefResolution) (b : Answer)
    (hrow : ∀ r ∈ row, WellKept r) (hbegan : b.began ≤ w.answers.length)
    (hidle : isCommitSha gitRef = true → b.resolved.sha = Integrity.toAsciiLowercase gitRef)
    (honRecord : isCommitSha gitRef = false → OnRecord row b.resolved.sha ∧
      ∀ a ∈ w.answers, OnRecord row a.resolved.sha)
    (hmoved : ∀ a ∈ w.answers, b.resolved.sha ≠ a.resolved.sha → b.resolved.Moved) :
    Kept gitRef { w with row := row, answers := w.answers ++ [b] } where
  row := hrow
  snapshots := h.snapshots
  started := by
    intro id call hcall
    rw [List.length_append]
    exact (h.started id call hcall).trans (Nat.le_add_right _ _)
  began := by
    intro j c hc
    rcases Nat.lt_or_ge j w.answers.length with hj | hj
    · rw [List.getElem?_append_left hj] at hc
      exact h.began j c hc
    · rw [List.getElem?_append_right hj] at hc
      have hlast := List.mem_singleton.mp (List.mem_of_getElem? hc)
      rw [hlast]
      exact hbegan.trans hj
  idle := by
    intro hsha
    obtain ⟨hcalls, hanswers⟩ := h.idle hsha
    refine ⟨hcalls, ?_⟩
    intro a ha
    rcases List.mem_append.mp ha with hold | hnew
    · exact hanswers a hold
    · rw [List.mem_singleton.mp hnew]
      exact hidle hsha
  onRecord := by
    intro hsha a ha
    obtain ⟨hnew, hold⟩ := honRecord hsha
    rcases List.mem_append.mp ha with ha | ha
    · exact hold a ha
    · rw [List.mem_singleton.mp ha]
      exact hnew
  moved := by
    intro i a hi j c hj hij hne
    rcases Nat.lt_or_ge j w.answers.length with hlt | hge
    · rw [List.getElem?_append_left hlt] at hj
      rw [List.getElem?_append_left (hij.trans hlt)] at hi
      exact h.moved i a hi j c hj hij hne
    · have hlength : j < (w.answers ++ [b]).length := (List.getElem?_eq_some_iff.mp hj).1
      rw [List.length_append, List.length_singleton] at hlength
      have hbefore : i < w.answers.length := by omega
      rw [List.getElem?_append_left hbefore] at hi
      rw [List.getElem?_append_right hge] at hj
      have hlast := List.mem_singleton.mp (List.mem_of_getElem? hj)
      rw [hlast] at hne ⊢
      exact hmoved a (List.mem_of_getElem? hi) hne

theorem startCall_kept (h : Kept gitRef w) (id : ℕ) (args : CallArgs) (now : DateTime) :
    Kept gitRef (startCall gitRef w id args now) := by
  unfold startCall
  by_cases hsha : isCommitSha gitRef = true
  · rw [if_pos hsha]
    refine h.snoc w.row _ h.row le_rfl (fun _ => rfl) ?_ ?_
    · rw [hsha]
      nofun
    · intro a ha hne
      exact absurd ((h.idle hsha).2 a ha).symm hne
  · rw [if_neg hsha]
    cases w.calls.lookup id with
    | some call => exact h
    | none => exact h.insert (eq_false_of_ne_true hsha) id _ nofun le_rfl

theorem getRow_kept (h : Kept gitRef w) (hsha : isCommitSha gitRef = false) (id : ℕ) (call : Call)
    (hbegan : call.began ≤ w.answers.length) (failed : Bool) (now : DateTime) :
    Kept gitRef (getRow gitRef w id call failed now) := by
  have hstored : ∀ r ∈ readRow w call.args failed, r ∈ w.row := by
    unfold readRow
    intro r hr
    split_ifs at hr
    · exact hr
    · cases hr
  unfold getRow
  dsimp only
  cases hread : readRow w call.args failed with
  | none => exact h.insert hsha id _ nofun hbegan
  | some prev =>
    have hrow : w.row = some prev := hstored prev hread
    dsimp only
    split_ifs
    · refine (h.erase id).snoc w.row _ h.row hbegan ?_ ?_ ?_
      · rw [hsha]
        nofun
      · intro _
        exact ⟨⟨prev, hrow, Or.inl rfl⟩, h.onRecord hsha⟩
      · intro a ha hne
        have hrecord := h.onRecord hsha a ha
        rw [hrow] at hrecord
        exact moved_of_onRecord (h.row prev hrow) hrecord hne
    · refine h.insert hsha id _ ?_ hbegan
      intro r hr
      obtain rfl := Option.some.inj hr
      exact h.row _ hrow

/-- A write that tells of another commit if the row does keeps every answer on record. -/
theorem recordRow_kept (h : Kept gitRef w) (hsha : isCommitSha gitRef = false) (id : ℕ) (call : Call)
    (hbegan : call.began ≤ w.answers.length) {stored : Option StoredRefResolution}
    (hstored : ∀ r ∈ stored, WellKept r) (target : ResolvedTarget) (now : DateTime) (took : Bool)
    (hwritten : call.args.writes took = true ∨ OnRecord w.row target.sha)
    (htells : TellsOfOther w.row target.sha → TellsOfOther stored target.sha) :
    Kept gitRef (recordRow gitRef w id call stored target now took) := by
  have hkept := previousOf_wellKept hstored target.sha
  have hnew : WellKept (resolutionOf stored target now) := ⟨target.sha_ne, hkept⟩
  have hother : ∀ a ∈ w.answers, target.sha ≠ a.resolved.sha → previousOf stored target.sha ≠ none :=
    fun a ha hne => previousOf_ne_none (htells (tellsOfOther_of_onRecord (h.onRecord hsha a ha) hne))
  unfold recordRow
  refine (h.erase id).snoc _ _ ?_ hbegan ?_ ?_ ?_
  · intro r hr
    split_ifs at hr
    · rw [← Option.some.inj hr]
      exact hnew
    · exact h.row r hr
  · rw [hsha]
    nofun
  · intro _
    by_cases hwrites : call.args.writes took = true
    · rw [if_pos hwrites]
      refine ⟨⟨_, rfl, Or.inl rfl⟩, ?_⟩
      intro a ha
      refine ⟨_, rfl, ?_⟩
      by_cases hsame : target.sha = a.resolved.sha
      · exact Or.inl hsame
      · exact Or.inr (hother a ha hsame)
    · rw [if_neg hwrites]
      exact ⟨hwritten.resolve_left hwrites, h.onRecord hsha⟩
  · intro a ha hne
    obtain ⟨p, hp⟩ := Option.ne_none_iff_exists'.mp (hother a ha hne)
    exact ⟨p, hp, hkept p hp⟩

theorem step_kept (gitRef : String) (w : World) (e : Event) (h : Kept gitRef w)
    (hguard : Remembers w e) : Kept gitRef (step gitRef w e) := by
  have hflight : ∀ id call, w.calls.lookup id = some call → isCommitSha gitRef = false := by
    intro id call hcall
    by_contra hsha
    rw [Bool.not_eq_false] at hsha
    rw [(h.idle hsha).1] at hcall
    cases hcall
  cases e with
  | start id args now => exact startCall_kept h id args now
  | get id failed now =>
    unfold step
    dsimp only
    split
    · rename_i args began hcall
      exact getRow_kept h (hflight id _ hcall) id _ (h.started id _ hcall) failed now
    · exact h
  | forge id answer now =>
    unfold step
    dsimp only
    split
    · rename_i args began stored hcall
      unfold askForge
      cases answer with
      | error e => exact h.erase id
      | ok target =>
        have hstored : ∀ r ∈ stored, WellKept r := h.snapshots id _ hcall
        have hbegan : began ≤ w.answers.length := h.started id _ hcall
        exact h.insert (hflight id _ hcall) id _ hstored hbegan
    · exact h
  | upsert id took =>
    unfold step
    dsimp only
    split
    · rename_i args began stored target now hcall
      unfold Remembers at hguard
      dsimp only at hguard
      rw [hcall] at hguard
      exact recordRow_kept h (hflight id _ hcall) id _ (h.started id _ hcall)
        (h.snapshots id _ hcall) target now took hguard.1 hguard.2
    · exact h

theorem neverForgotten_of_kept (h : Kept gitRef w) : NeverForgotten w.answers := by
  intro i a hi j b hj hij _ hne
  have hjb := h.began j b hj
  refine ⟨raises_of_moved (h.moved i a hi j b hj (by omega) hne), ?_⟩
  intro k c hk hjk hne'
  have hkc := h.began k c hk
  exact raises_of_moved (h.moved i a hi k c hk (by omega) hne')

end Keeps

/-- In every run whose forge answers are remembered, no move is forgotten. -/
theorem moves_never_forgotten (gitRef : String) (row : StoredRow) (events : List Event)
    (hguard : Runs.Guarded (step gitRef) Remembers (World.idle row) events) :
    NeverForgotten (Runs.run (step gitRef) (World.idle row) events).answers :=
  neverForgotten_of_kept (Runs.run_keeps Remembers (Kept gitRef) (step_kept gitRef) _ events
    (Kept.idle_world gitRef row) hguard)

section Samples

/-- Resolutions are never fresh. -/
def expireAtOnce : ForgeRefsPolicy := ⟨0, 0, .warn, .deny, false⟩

def plainCall : CallArgs := ⟨expireAtOnce, true, false⟩

def emptyRow : StoredRow := ⟨none, nofun⟩

def targetA : ResolvedTarget := ⟨.tag, "aaaa", none, none, by decide⟩

def targetB : ResolvedTarget := ⟨.tag, "bbbb", none, none, by decide⟩

/-- One call by itself, with the read and the write as they turn out. -/
def callAlone (id : ℕ) (target : ResolvedTarget) (readFails writeTakes : Bool) : List Event :=
  [.start id plainCall 0, .get id readFails 0, .forge id (.ok target) 0, .upsert id writeTakes]

def answersOf (events : List Event) : List Answer :=
  (Runs.run (step "v1") (World.idle emptyRow) events).answers

theorem a_moved_tag_is_told_twice :
    (answersOf (callAlone 0 targetA false true ++ callAlone 1 targetB false true ++
      callAlone 2 targetB false true)).map (fun a => a.resolved.previous) =
        [none, some "aaaa", some "aaaa"] ∧
    NeverForgotten (answersOf (callAlone 0 targetA false true ++ callAlone 1 targetB false true ++
      callAlone 2 targetB false true)) :=
  ⟨by decide +kernel, moves_never_forgotten "v1" emptyRow _ (by decide +kernel)⟩

/-- Two answers, the second of another commit, started after the first and telling of no
move. -/
theorem not_neverForgotten {answers : List Answer} {a b : Answer} (ha : answers[0]? = some a)
    {j : ℕ} (hb : answers[j]? = some b) (hbegan : 0 < b.began) (hforge : b.fromForge = true)
    (hne : b.resolved.sha ≠ a.resolved.sha) (hprevious : b.resolved.previous = none) :
    ¬ NeverForgotten answers := by
  intro h
  obtain ⟨⟨p, hp, -⟩, -⟩ := (h 0 a ha j b hb hbegan hforge hne).1
  rw [hprevious] at hp
  cases hp

/-- The first answer is not written; or the second call cannot read the row; or a call
that had read nothing before the first answer was written writes its own over it. -/
theorem moves_forgotten :
    (¬ NeverForgotten (answersOf (callAlone 0 targetA false false ++ callAlone 1 targetB false true))) ∧
    (¬ NeverForgotten (answersOf (callAlone 0 targetA false true ++ callAlone 1 targetB true true))) ∧
    ¬ NeverForgotten (answersOf
      ([.start 1 plainCall 0, .get 1 false 0] ++ callAlone 0 targetA false true ++
        [.forge 1 (.ok targetB) 0, .upsert 1 true] ++ callAlone 2 targetB false true)) := by
  have hne : targetB.sha ≠ targetA.sha := by decide
  refine ⟨?_, ?_, ?_⟩
  · exact not_neverForgotten (j := 1) rfl rfl (by decide) rfl hne rfl
  · exact not_neverForgotten (j := 1) rfl rfl (by decide) rfl hne rfl
  · exact not_neverForgotten (j := 2) rfl rfl (by decide) rfl hne rfl

end Samples

end BatleHub.Forge
