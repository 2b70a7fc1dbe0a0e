import BatleHub.Lib.Runs
import BatleHub.OwnershipGrants

/-!
Owners and package-tier grants in step. Between calls every owner's row holds the
ownership verbs and the row of another subject holds none; while calls are in flight a
projection still to come makes up for what is missing. That is lost where a writer puts
back a row it read before another writer changed it, or where the owner write that a row
write was decided on has been undone since.
-/
namespace BatleHub.OwnershipGrants

open Lib AssocMap Grants GrantTable PackageOwners

section Rows
variable (registry package : String)

/-- The rows on the package's node are written for canonical subjects. -/
def CanonicalRows (grants : InMemoryGrantRepository) : Prop :=
  ∀ g ∈ grants.grantsOnNode registry .package package, g.subject.Canonical

theorem mem_grantsOnNode (grants : InMemoryGrantRepository) (g : StoredGrant) :
    g ∈ grants.grantsOnNode registry .package package ↔
      g ∈ grants.rows ∧ g.registry = registry ∧ g.nodeKind = .package ∧ g.nodeKey = package := by
  unfold InMemoryGrantRepository.grantsOnNode
  simp only [mem_sortByPair, List.mem_filter, Bool.and_eq_true, decide_eq_true_eq, and_assoc]

/-- Two rows of one subject on one node are one row. -/
theorem existing_eq_of_mem {grants : InMemoryGrantRepository} {g : StoredGrant}
    (hg : g ∈ grants.grantsOnNode registry .package package) :
    existing registry package grants g.subject = g.actions := by
  unfold existing
  cases hfind : (grants.grantsOnNode registry .package package).find? fun g' =>
      decide (g'.subject = g.subject) with
  | none =>
    have hnone := List.find?_eq_none.mp hfind g hg
    simp at hnone
  | some g' =>
    have hsubject : g'.subject = g.subject := by simpa using List.find?_some hfind
    have hg' := List.mem_of_find?_eq_some hfind
    obtain ⟨hrow, hreg, hkind, hkey⟩ := (mem_grantsOnNode registry package grants g).mp hg
    obtain ⟨hrow', hreg', hkind', hkey'⟩ := (mem_grantsOnNode registry package grants g').mp hg'
    have hsame : g'.key = g.key := by
      unfold StoredGrant.key
      rw [hreg, hreg', hkind, hkind', hkey, hkey', hsubject]
    rw [List.inj_on_of_nodup_map grants.keys_nodup hrow' hrow hsame]
    rfl

theorem existing_eq_nil {grants : InMemoryGrantRepository} {subject : SubjectMatcher}
    (h : ∀ g ∈ grants.grantsOnNode registry .package package, g.subject ≠ subject) :
    existing registry package grants subject = [] := by
  unfold existing
  rw [List.find?_eq_none.mpr]
  · rfl
  · intro g hg
    simpa using h g hg

/-- The rows of one subject, or that it has none. -/
theorem existing_cases (grants : InMemoryGrantRepository) (subject : SubjectMatcher) :
    (∃ g ∈ grants.grantsOnNode registry .package package, g.subject = subject) ∨
      ∀ g ∈ grants.grantsOnNode registry .package package, g.subject ≠ subject := by
  by_cases h : ∃ g ∈ grants.grantsOnNode registry .package package, g.subject = subject
  · exact Or.inl h
  · refine Or.inr ?_
    intro g hg hsubject
    exact h ⟨g, hg, hsubject⟩

/-- A row of another subject is a row under another key. -/
theorem key_ne_of_subject_ne {g : StoredGrant} {subject : SubjectMatcher}
    (hg : g.subject.Canonical) (hsubject : subject.Canonical) (hne : g.subject ≠ subject) :
    g.key ≠ (registry, NodeKind.package, package, subject.asString) := by
  intro hkey
  have htext : g.subject.asString = subject.asString := by
    unfold StoredGrant.key at hkey
    simp only [Prod.mk.injEq] at hkey
    exact hkey.2.2.2
  exact hne (SubjectMatcher.asString_injective hg hsubject htext)

/-- What is left of a table when the rows of one subject are taken out. -/
theorem existing_of_rows {grants grants' : InMemoryGrantRepository} {subject other : SubjectMatcher}
    (hcanonical : CanonicalRows registry package grants) (hsubject : subject.Canonical)
    (hne : other ≠ subject)
    (hrows : ∀ g, g ∈ grants'.rows ↔ (g ∈ grants.rows ∧
      g.key ≠ (registry, NodeKind.package, package, subject.asString)) ∨
      (g ∈ grants'.rows ∧ g.subject = subject)) :
    existing registry package grants' other = existing registry package grants other := by
  rcases existing_cases registry package grants other with ⟨g, hg, rfl⟩ | hnone
  · obtain ⟨hrow, hnode⟩ := (mem_grantsOnNode registry package grants g).mp hg
    have hkey := key_ne_of_subject_ne registry package (hcanonical g hg) hsubject hne
    have hg' : g ∈ grants'.grantsOnNode registry .package package :=
      (mem_grantsOnNode registry package grants' g).mpr
        ⟨(hrows g).mpr (Or.inl ⟨hrow, hkey⟩), hnode⟩
    rw [existing_eq_of_mem registry package hg, existing_eq_of_mem registry package hg']
  · rw [existing_eq_nil registry package hnone]
    apply existing_eq_nil
    intro g hg hother
    obtain ⟨hrow, hnode⟩ := (mem_grantsOnNode registry package grants' g).mp hg
    rcases (hrows g).mp hrow with ⟨hold, -⟩ | ⟨-, hwritten⟩
    · exact hnone g ((mem_grantsOnNode registry package grants g).mpr ⟨hold, hnode⟩) hother
    · exact hne (hother.symm.trans hwritten)

variable (grants : InMemoryGrantRepository) (subject : SubjectMatcher) {actions : List Action}
  (grantedBy : Option String)

theorem mem_rows_put (hactions : actions ≠ []) (g : StoredGrant) :
    g ∈ (put grants (packageGrant registry package subject actions grantedBy)).rows ↔
      (g ∈ grants.rows ∧ g.key ≠ (registry, NodeKind.package, package, subject.asString)) ∨
      g = packageGrant registry package subject actions grantedBy := by
  have hkey : (packageGrant registry package subject actions grantedBy).key =
      (registry, NodeKind.package, package, subject.asString) := rfl
  have hne : ¬ (packageGrant registry package subject actions grantedBy).actions = [] := hactions
  unfold put InMemoryGrantRepository.putGrant
  rw [dif_neg hne]
  simp only [List.mem_append, List.mem_filter, decide_eq_true_eq, List.mem_singleton, hkey]

/-- A subject's row after a write of it, and the rows of the others. -/
theorem existing_put (hcanonical : CanonicalRows registry package grants)
    (hsubject : subject.Canonical) (hactions : actions ≠ []) (other : SubjectMatcher) :
    existing registry package (put grants (packageGrant registry package subject actions grantedBy))
      other = if other = subject then actions else existing registry package grants other := by
  have hmem := mem_rows_put registry package grants subject grantedBy hactions
  by_cases hother : other = subject
  · subst hother
    rw [if_pos rfl]
    have hrow : packageGrant registry package other actions grantedBy ∈
        (put grants (packageGrant registry package other actions grantedBy)).grantsOnNode registry
          .package package :=
      (mem_grantsOnNode registry package _ _).mpr ⟨(hmem _).mpr (Or.inr rfl), rfl, rfl, rfl⟩
    exact existing_eq_of_mem registry package hrow
  · rw [if_neg hother]
    refine existing_of_rows registry package hcanonical hsubject hother ?_
    intro g
    rw [hmem]
    constructor
    · rintro (hold | rfl)
      · exact Or.inl hold
      · exact Or.inr ⟨Or.inr rfl, rfl⟩
    · rintro (hold | ⟨hnew, -⟩)
      · exact Or.inl hold
      · exact hnew

theorem mem_rows_deleteGrant (g : StoredGrant) :
    g ∈ (grants.deleteGrant registry .package package subject).rows ↔
      g ∈ grants.rows ∧ g.key ≠ (registry, NodeKind.package, package, subject.asString) := by
  simp only [InMemoryGrantRepository.deleteGrant, InMemoryGrantRepository.retain, List.mem_filter,
    decide_eq_true_eq]

theorem existing_deleteGrant (hcanonical : CanonicalRows registry package grants)
    (hsubject : subject.Canonical) (other : SubjectMatcher) :
    existing registry package (grants.deleteGrant registry .package package subject) other =
      if other = subject then [] else existing registry package grants other := by
  by_cases hother : other = subject
  · subst hother
    rw [if_pos rfl]
    apply existing_eq_nil
    intro g hg hsame
    obtain ⟨hrow, hreg, hkind, hkey⟩ := (mem_grantsOnNode registry package _ g).mp hg
    refine ((mem_rows_deleteGrant registry package grants _ g).mp hrow).2 ?_
    unfold StoredGrant.key
    rw [hreg, hkind, hkey, hsame]
  · rw [if_neg hother]
    refine existing_of_rows registry package hcanonical hsubject hother ?_
    intro g
    rw [mem_rows_deleteGrant]
    constructor
    · intro hold
      exact Or.inl hold
    · rintro (hold | ⟨hrow, -⟩)
      · exact hold
      · exact hrow

theorem canonicalRows_put (hcanonical : CanonicalRows registry package grants)
    (hsubject : subject.Canonical) (hactions : actions ≠ []) :
    CanonicalRows registry package
      (put grants (packageGrant registry package subject actions grantedBy)) := by
  intro g hg
  obtain ⟨hrow, hnode⟩ := (mem_grantsOnNode registry package _ g).mp hg
  rcases (mem_rows_put registry package grants subject grantedBy hactions g).mp hrow with ⟨hold, -⟩ | rfl
  · exact hcanonical g ((mem_grantsOnNode registry package grants g).mpr ⟨hold, hnode⟩)
  · exact hsubject

theorem canonicalRows_deleteGrant (hcanonical : CanonicalRows registry package grants) :
    CanonicalRows registry package (grants.deleteGrant registry .package package subject) := by
  intro g hg
  obtain ⟨hrow, hnode⟩ := (mem_grantsOnNode registry package _ g).mp hg
  have hold := ((mem_rows_deleteGrant registry package grants _ g).mp hrow).1
  exact hcanonical g ((mem_grantsOnNode registry package grants g).mpr ⟨hold, hnode⟩)

/-- The ownership verbs and those that are not. -/
theorem mem_unionOwnership (read : List Action) (a : Action) :
    a ∈ unionOwnership read ↔ a ∈ read ∨ a ∈ OWNERSHIP_ACTIONS := by
  have hfold : ∀ more acc : List Action,
      a ∈ more.foldl (fun acc a => if a ∈ acc then acc else acc ++ [a]) acc ↔
        a ∈ acc ∨ a ∈ more := by
    intro more
    induction more with
    | nil => simp
    | cons b more ih =>
      intro acc
      rw [List.foldl_cons, ih]
      split_ifs with hb
      · rw [List.mem_cons]
        constructor
        · rintro (hacc | hmore)
          · exact Or.inl hacc
          · exact Or.inr (Or.inr hmore)
        · rintro (hacc | rfl | hmore)
          · exact Or.inl hacc
          · exact Or.inl hb
          · exact Or.inr hmore
      · rw [List.mem_append, List.mem_singleton, List.mem_cons, or_assoc]
  exact hfold OWNERSHIP_ACTIONS read

theorem unionOwnership_ne_nil (read : List Action) : unionOwnership read ≠ [] := by
  have hmem : Action.ownersRead ∈ unionOwnership read :=
    (mem_unionOwnership read _).mpr (Or.inr (by decide))
  exact List.ne_nil_of_mem hmem

theorem mem_subtractOwnership (read : List Action) (a : Action) :
    a ∈ subtractOwnership read ↔ a ∈ read ∧ a ∉ OWNERSHIP_ACTIONS := by
  rw [subtractOwnership, List.mem_filter, decide_eq_true_eq]

theorem existing_writeRemaining (hcanonical : CanonicalRows registry package grants)
    (hsubject : subject.Canonical) (read : List Action) (other : SubjectMatcher) :
    existing registry package (writeRemaining registry package grants subject read) other =
      if other = subject then subtractOwnership read else existing registry package grants other := by
  unfold writeRemaining
  dsimp only
  split_ifs with hempty hother hother
  · rw [existing_deleteGrant registry package grants subject hcanonical hsubject, if_pos hother]
    exact (List.isEmpty_iff.mp hempty).symm
  · rw [existing_deleteGrant registry package grants subject hcanonical hsubject, if_neg hother]
  · have hne := mt List.isEmpty_iff.mpr hempty
    rw [existing_put registry package grants subject none hcanonical hsubject hne, if_pos hother]
  · have hne := mt List.isEmpty_iff.mpr hempty
    rw [existing_put registry package grants subject none hcanonical hsubject hne, if_neg hother]

theorem canonicalRows_writeRemaining (hcanonical : CanonicalRows registry package grants)
    (hsubject : subject.Canonical) (read : List Action) :
    CanonicalRows registry package (writeRemaining registry package grants subject read) := by
  unfold writeRemaining
  dsimp only
  split_ifs with hempty
  · exact canonicalRows_deleteGrant registry package grants subject hcanonical
  · exact canonicalRows_put registry package grants subject none hcanonical hsubject
      (mt List.isEmpty_iff.mpr hempty)

end Rows

section Pending

/-- The task still has to write the ownership verbs into the subject's row. -/
def Task.adds (subject : SubjectMatcher) : Task → Bool
  | .projectAddRead s _ _ => decide (s = subject)
  | .projectAddPut s _ _ _ => decide (s = subject)
  | _ => false

/-- The task still has to take the ownership verbs out of the subject's row. -/
def Task.removes (subject : SubjectMatcher) : Task → Bool
  | .projectRemoveRead s rest => decide (s = subject ∨ subject ∈ rest)
  | .projectRemovePut s _ rest => decide (s = subject ∨ subject ∈ rest)
  | _ => false

/-- The subject whose row the task writes, or reads to write it. -/
def Task.Canonical : Task → Prop
  | .projectAddRead s _ _ => s.Canonical
  | .projectAddPut s _ _ _ => s.Canonical
  | .projectRemoveRead s rest => s.Canonical ∧ ∀ s' ∈ rest, s'.Canonical
  | .projectRemovePut s _ rest => s.Canonical ∧ ∀ s' ∈ rest, s'.Canonical
  | .listed entries => ∀ s ∈ entries.filterMap OwnerEntry.subject, s.Canonical
  | .setChecked s actions _ => s.Canonical ∧ actions ≠ []
  | .removeChecked s => s.Canonical
  | .removeRead s _ => s.Canonical
  | .called _ => True
  | .returned _ => True

def World.pending (w : World) (p : Task → Bool) : Bool := w.tasks.entries.any fun e => p e.2

theorem World.pending_iff (w : World) (p : Task → Bool) :
    w.pending p = true ↔ ∃ id task, w.tasks.lookup id = some task ∧ p task = true := by
  unfold World.pending
  rw [List.any_eq_true]
  constructor
  · rintro ⟨⟨id, task⟩, he, hp⟩
    exact ⟨id, task, (lookup_eq_some_iff _ _ _).mpr he, hp⟩
  · rintro ⟨id, task, htask, hp⟩
    exact ⟨⟨id, task⟩, (lookup_eq_some_iff _ _ _).mp htask, hp⟩

/-- The task that goes on is pending, and so is every other that was. -/
theorem World.pending_proceed {w w' : World} {id : ℕ} {task : Task} {p : Task → Bool}
    (hold : ∀ old, w.tasks.lookup id = some old → p old = true → p task = true)
    (htasks : w'.tasks = w.tasks) (h : w.pending p = true) :
    (w'.proceed id task).pending p = true := by
  obtain ⟨id', task', htask', hp⟩ := (w.pending_iff p).mp h
  rw [World.pending_iff]
  by_cases hid : id' = id
  · subst hid
    refine ⟨id', task, ?_, hold task' htask' hp⟩
    unfold World.proceed
    rw [lookup_insert_eq, if_pos rfl]
  · refine ⟨id', task', ?_, hp⟩
    unfold World.proceed
    rw [lookup_insert_eq, if_neg hid, htasks]
    exact htask'

theorem World.pending_self (w : World) (id : ℕ) {task : Task} {p : Task → Bool}
    (h : p task = true) : (w.proceed id task).pending p = true := by
  rw [World.pending_iff]
  refine ⟨id, task, ?_, h⟩
  unfold World.proceed
  rw [lookup_insert_eq, if_pos rfl]

end Pending

section Invariant
variable (registry package : String)

def World.row (w : World) (subject : SubjectMatcher) : List Action :=
  existing registry package w.grants subject

def World.owns (w : World) (subject : SubjectMatcher) : Prop :=
  subject ∈ ownerSubjects registry package w.owners

instance (w : World) (subject : SubjectMatcher) : Decidable (w.owns registry package subject) :=
  inferInstanceAs (Decidable (subject ∈ ownerSubjects registry package w.owners))

/-- What holds of one subject while calls are in flight. -/
structure SubjectOk (w : World) (subject : SubjectMatcher) : Prop where
  added : w.owns registry package subject →
    (∀ a ∈ OWNERSHIP_ACTIONS, a ∈ w.row registry package subject) ∨
      w.pending (Task.adds subject) = true
  subtracted : ¬ w.owns registry package subject → subject ∉ w.given →
    (∀ a ∈ OWNERSHIP_ACTIONS, a ∉ w.row registry package subject) ∨
      w.pending (Task.removes subject) = true
  kept : ∀ a ∈ w.kept subject, a ∉ OWNERSHIP_ACTIONS ∧ a ∈ w.row registry package subject

structure InStep (w : World) : Prop where
  rows : CanonicalRows registry package w.grants
  owners : ∀ s, w.owns registry package s → s.Canonical
  tasks : ∀ id task, w.tasks.lookup id = some task → task.Canonical
  subjects : ∀ s, SubjectOk registry package w s

/-- The condition on an operation in the state it is made in. -/
def InOrder (w : World) : Task → Prop
  | .called (.addOwner entry) => ∀ s ∈ OwnerEntry.subject entry, s.Canonical
  | .called (.removeOwner principalType principalId) =>
    ∀ s ∈ subjectForOwner principalType principalId, s.Canonical
  | .listed entries =>
    ∀ s ∈ ownerSubjects registry package w.owners,
      s ∈ entries.filterMap OwnerEntry.subject ∨ s ∈ w.given ∨
        w.pending (Task.removes s) = true ∨ ∀ a ∈ OWNERSHIP_ACTIONS, a ∉ w.row registry package s
  | .projectAddPut s _ _ read =>
    (∀ a ∈ w.kept s, a ∈ read) ∧
      (w.owns registry package s ∨ s ∈ w.given ∨ w.pending (Task.removes s) = true)
  | .projectRemovePut s read _ =>
    (∀ a ∈ w.kept s, a ∈ read) ∧
      (¬ w.owns registry package s ∨ w.pending (Task.adds s) = true)
  | .setChecked s actions _ =>
    ¬ w.owns registry package s ∨ w.pending (Task.adds s) = true ∨
      ∀ a ∈ OWNERSHIP_ACTIONS, a ∈ actions
  | .removeRead s _ => ¬ w.owns registry package s ∨ w.pending (Task.adds s) = true
  | _ => True

instance (w : World) : (task : Task) → Decidable (InOrder registry package w task)
  | .called (.addOwner entry) =>
    inferInstanceAs (Decidable (∀ s ∈ OwnerEntry.subject entry, s.Canonical))
  | .called (.removeOwner principalType principalId) =>
    inferInstanceAs (Decidable (∀ s ∈ subjectForOwner principalType principalId, s.Canonical))
  | .called (.claimIfUnowned _) => isTrue trivial
  | .called (.initializeOwner _) => isTrue trivial
  | .called .removeAllOwners => isTrue trivial
  | .called (.set _ _ _) => isTrue trivial
  | .called (.remove _) => isTrue trivial
  | .listed entries =>
    inferInstanceAs (Decidable (∀ s ∈ ownerSubjects registry package w.owners,
      s ∈ entries.filterMap OwnerEntry.subject ∨ s ∈ w.given ∨
        w.pending (Task.removes s) = true ∨ ∀ a ∈ OWNERSHIP_ACTIONS, a ∉ w.row registry package s))
  | .projectAddRead _ _ _ => isTrue trivial
  | .projectAddPut s _ _ read =>
    inferInstanceAs (Decidable ((∀ a ∈ w.kept s, a ∈ read) ∧
      (w.owns registry package s ∨ s ∈ w.given ∨ w.pending (Task.removes s) = true)))
  | .projectRemoveRead _ _ => isTrue trivial
  | .projectRemovePut s read _ =>
    inferInstanceAs (Decidable ((∀ a ∈ w.kept s, a ∈ read) ∧
      (¬ w.owns registry package s ∨ w.pending (Task.adds s) = true)))
  | .setChecked s actions _ =>
    inferInstanceAs (Decidable (¬ w.owns registry package s ∨ w.pending (Task.adds s) = true ∨
      ∀ a ∈ OWNERSHIP_ACTIONS, a ∈ actions))
  | .removeChecked _ => isTrue trivial
  | .removeRead s _ =>
    inferInstanceAs (Decidable (¬ w.owns registry package s ∨ w.pending (Task.adds s) = true))
  | .returned _ => isTrue trivial

def EventInOrder (w : World) : Event → Prop
  | .call _ _ => True
  | .advance id => ∀ task ∈ w.tasks.lookup id, InOrder registry package w task

instance (w : World) : (e : Event) → Decidable (EventInOrder registry package w e)
  | .call _ _ => isTrue trivial
  | .advance id =>
    inferInstanceAs (Decidable (∀ task ∈ w.tasks.lookup id, InOrder registry package w task))

/-- A step that changes nothing about the subject, but that a projection may now be due. -/
theorem SubjectOk.frame {w w' : World} {s : SubjectMatcher} (h : SubjectOk registry package w s)
    (howns : w'.owns registry package s ↔ w.owns registry package s)
    (hrow : w'.row registry package s = w.row registry package s) (hgiven : s ∈ w.given → s ∈ w'.given)
    (hkept : w'.kept s = w.kept s)
    (hadds : w.pending (Task.adds s) = true → w'.pending (Task.adds s) = true)
    (hremoves : w.pending (Task.removes s) = true → w'.pending (Task.removes s) = true) :
    SubjectOk registry package w' s := by
  refine ⟨?_, ?_, ?_⟩
  · intro howner
    rw [hrow]
    exact (h.added (howns.mp howner)).imp_right hadds
  · intro hother hnot
    rw [hrow]
    exact (h.subtracted (mt howns.mpr hother) (mt hgiven hnot)).imp_right hremoves
  · rw [hkept, hrow]
    exact h.kept

/-- One task goes on, and the stores it leaves are in step. -/
theorem InStep.of_subjects {w w' : World} {id : ℕ} {task : Task} (h : InStep registry package w)
    (hrows : CanonicalRows registry package w'.grants)
    (howners : ∀ s, w'.owns registry package s → s.Canonical) (htasks : w'.tasks = w.tasks)
    (htask : task.Canonical) (hsubjects : ∀ s, SubjectOk registry package (w'.proceed id task) s) :
    InStep registry package (w'.proceed id task) := by
  refine ⟨hrows, howners, ?_, hsubjects⟩
  intro id' task' hlookup
  unfold World.proceed at hlookup
  rw [lookup_insert_eq, htasks] at hlookup
  split_ifs at hlookup
  · rw [← Option.some.inj hlookup]
    exact htask
  · exact h.tasks id' task' hlookup

section Operations
variable {registry package} {w w' : World} {id : ℕ} {old task : Task}

/-- What is pending stays so, if the task that goes on still does its part. -/
theorem pending_of_goes_on (hold : w.tasks.lookup id = some old) (htasks : w'.tasks = w.tasks)
    {p : Task → Bool} (hpart : p old = true → p task = true) (h : w.pending p = true) :
    (w'.proceed id task).pending p = true := by
  refine World.pending_proceed ?_ htasks h
  intro old' hold' hp
  rw [hold] at hold'
  rw [← Option.some.inj hold'] at hp
  exact hpart hp

/-- A step that touches neither store. -/
theorem InStep.proceed (h : InStep registry package w) (hold : w.tasks.lookup id = some old)
    (htask : task.Canonical) (hadds : ∀ s, old.adds s = true → task.adds s = true)
    (hremoves : ∀ s, old.removes s = true → task.removes s = true) :
    InStep registry package (w.proceed id task) := by
  refine h.of_subjects registry package h.rows h.owners rfl htask ?_
  intro s
  exact (h.subjects s).frame registry package Iff.rfl rfl (fun hs => hs) rfl
    (pending_of_goes_on hold rfl (hadds s)) (pending_of_goes_on hold rfl (hremoves s))

/-- A write of the owner rows: whoever becomes an owner is to be added, and whoever ceases
to be one is to be subtracted, has nothing to subtract, or was given the verbs. -/
theorem InStep.write_owners (h : InStep registry package w) (hold : w.tasks.lookup id = some old)
    {owners : Owners} (htask : task.Canonical)
    (hgained : ∀ s ∈ ownerSubjects registry package owners,
      w.owns registry package s ∨ s.Canonical ∧ task.adds s = true)
    (hlost : ∀ s, s ∉ ownerSubjects registry package owners → w.owns registry package s →
      task.removes s = true ∨ s ∈ w.given ∨ w.pending (Task.removes s) = true ∨
        ∀ a ∈ OWNERSHIP_ACTIONS, a ∉ w.row registry package s)
    (hadds : ∀ s, old.adds s = true → task.adds s = true)
    (hremoves : ∀ s, old.removes s = true → task.removes s = true) :
    InStep registry package (World.proceed { w with owners := owners } id task) := by
  refine h.of_subjects registry package h.rows ?_ rfl htask ?_
  · intro s hs
    rcases hgained s hs with howned | ⟨hcanonical, -⟩
    · exact h.owners s howned
    · exact hcanonical
  · intro s
    have hok := h.subjects s
    have hadd : w.pending (Task.adds s) = true →
        (World.proceed { w with owners := owners } id task).pending (Task.adds s) = true :=
      pending_of_goes_on hold rfl (hadds s)
    have hremove : w.pending (Task.removes s) = true →
        (World.proceed { w with owners := owners } id task).pending (Task.removes s) = true :=
      pending_of_goes_on hold rfl (hremoves s)
    refine ⟨?_, ?_, hok.kept⟩
    · intro howner
      rcases hgained s howner with howned | ⟨-, htask⟩
      · exact (hok.added howned).imp_right hadd
      · exact Or.inr (World.pending_self _ id htask)
    · intro hother hnot
      by_cases howned : w.owns registry package s
      · rcases hlost s hother howned with htask | hgiven | hpending | hnone
        · exact Or.inr (World.pending_self _ id htask)
        · exact absurd hgiven hnot
        · exact Or.inr (hremove hpending)
        · exact Or.inl hnone
      · exact (hok.subtracted howned hnot).imp_right hremove

/-- A write of one subject's row. -/
theorem InStep.write_row (h : InStep registry package w) (hold : w.tasks.lookup id = some old)
    {grants : InMemoryGrantRepository} {subject : SubjectMatcher} {row : List Action}
    (given : List SubjectMatcher) (kept : List Action) (htask : task.Canonical)
    (hrows : CanonicalRows registry package grants)
    (hexisting : ∀ s, existing registry package grants s =
      if s = subject then row else w.row registry package s)
    (hgiven : ∀ s ∈ w.given, s ∈ given)
    (hadded : w.owns registry package subject →
      (∀ a ∈ OWNERSHIP_ACTIONS, a ∈ row) ∨ w.pending (Task.adds subject) = true)
    (hsubtracted : ¬ w.owns registry package subject → subject ∉ given →
      (∀ a ∈ OWNERSHIP_ACTIONS, a ∉ row) ∨ w.pending (Task.removes subject) = true)
    (hkept : ∀ a ∈ kept, a ∉ OWNERSHIP_ACTIONS ∧ a ∈ row)
    (hadds : ∀ s, old.adds s = true → s = subject ∧ (∀ a ∈ OWNERSHIP_ACTIONS, a ∈ row))
    (hremoves : ∀ s, old.removes s = true → task.removes s = true ∨
      s = subject ∧ ∀ a ∈ OWNERSHIP_ACTIONS, a ∉ row) :
    InStep registry package (World.proceed { w with
      grants := grants
      given := given
      kept := Function.update w.kept subject kept } id task) := by
  refine h.of_subjects registry package hrows h.owners rfl htask ?_
  intro s
  have hok := h.subjects s
  by_cases hs : s = subject
  · subst hs
    have hrow : existing registry package grants s = row := by
      rw [hexisting, if_pos rfl]
    refine ⟨?_, ?_, ?_⟩
    · intro howner
      unfold World.row
      dsimp only [World.proceed]
      rw [hrow]
      by_cases hall : ∀ a ∈ OWNERSHIP_ACTIONS, a ∈ row
      · exact Or.inl hall
      · refine Or.inr (pending_of_goes_on hold rfl ?_ ((hadded howner).resolve_left hall))
        intro hp
        exact absurd (hadds s hp).2 hall
    · intro hother hnot
      unfold World.row
      dsimp only [World.proceed]
      rw [hrow]
      by_cases hnone : ∀ a ∈ OWNERSHIP_ACTIONS, a ∉ row
      · exact Or.inl hnone
      · refine Or.inr (pending_of_goes_on hold rfl ?_ ((hsubtracted hother hnot).resolve_left hnone))
        intro hp
        rcases hremoves s hp with htask | ⟨-, hempty⟩
        · exact htask
        · exact absurd hempty hnone
    · intro a ha
      unfold World.row
      dsimp only [World.proceed] at ha ⊢
      rw [Function.update_self] at ha
      rw [hrow]
      exact hkept a ha
  · refine hok.frame registry package Iff.rfl ?_ (hgiven s) ?_ ?_ ?_
    · unfold World.row
      dsimp only [World.proceed]
      rw [hexisting, if_neg hs]
      rfl
    · exact Function.update_of_ne hs _ _
    · refine pending_of_goes_on hold rfl ?_
      intro hp
      exact absurd (hadds s hp).1 hs
    · refine pending_of_goes_on hold rfl ?_
      intro hp
      exact (hremoves s hp).resolve_right (fun hsame => hs hsame.1)

theorem canonical_nextRemoval {rest : List SubjectMatcher} (h : ∀ s ∈ rest, s.Canonical) :
    (nextRemoval rest).Canonical := by
  cases rest with
  | nil => trivial
  | cons s rest => exact ⟨h s List.mem_cons_self, fun s' hs' => h s' (List.mem_cons_of_mem s hs')⟩

theorem removes_nextRemoval (rest : List SubjectMatcher) (s : SubjectMatcher) :
    (nextRemoval rest).removes s = true ↔ s ∈ rest := by
  cases rest with
  | nil => simp [nextRemoval, Task.removes]
  | cons s' rest =>
    rw [nextRemoval, Task.removes, decide_eq_true_eq, List.mem_cons, eq_comm]

/-- The put of an addition. -/
theorem InStep.projectAddPut (h : InStep registry package w) {s : SubjectMatcher}
    {grantedBy : Option String} {answer : Option Bool} {read : List Action}
    (hold : w.tasks.lookup id = some (.projectAddPut s grantedBy answer read))
    (hguard : InOrder registry package w (.projectAddPut s grantedBy answer read)) :
    InStep registry package (World.proceed
      { w with grants := writeAdded registry package w.grants s read grantedBy } id
      (.returned (.ok answer))) := by
  have hcanonical : s.Canonical := h.tasks id _ hold
  have hne := unionOwnership_ne_nil read
  have hall : ∀ a ∈ OWNERSHIP_ACTIONS, a ∈ unionOwnership read := by
    intro a ha
    exact (mem_unionOwnership read a).mpr (Or.inr ha)
  have htask : Task.Canonical (.returned (.ok answer)) := trivial
  have hstep := h.write_row hold w.given (w.kept s) htask
    (canonicalRows_put registry package w.grants s grantedBy h.rows hcanonical hne)
    (existing_put registry package w.grants s grantedBy h.rows hcanonical hne) (fun s hs => hs)
    (fun _ => Or.inl hall) ?_ ?_ ?_ nofun
  · rw [Function.update_eq_self] at hstep
    exact hstep
  · intro hother hnot
    exact Or.inr ((hguard.2.resolve_left hother).resolve_left hnot)
  · intro a ha
    exact ⟨((h.subjects s).kept a ha).1, (mem_unionOwnership read a).mpr (Or.inl (hguard.1 a ha))⟩
  · intro s' hs'
    exact ⟨(of_decide_eq_true hs').symm, hall⟩

/-- The put, or the delete, of a removal. -/
theorem InStep.projectRemovePut (h : InStep registry package w) {s : SubjectMatcher}
    {read : List Action} {rest : List SubjectMatcher}
    (hold : w.tasks.lookup id = some (.projectRemovePut s read rest))
    (hguard : InOrder registry package w (.projectRemovePut s read rest)) :
    InStep registry package (World.proceed
      { w with grants := writeRemaining registry package w.grants s read } id
      (nextRemoval rest)) := by
  obtain ⟨hcanonical, hrest⟩ : s.Canonical ∧ ∀ s' ∈ rest, s'.Canonical := h.tasks id _ hold
  have hnone : ∀ a ∈ OWNERSHIP_ACTIONS, a ∉ subtractOwnership read := by
    intro a ha hmem
    exact ((mem_subtractOwnership read a).mp hmem).2 ha
  have hstep := h.write_row hold w.given (w.kept s) (canonical_nextRemoval hrest)
    (canonicalRows_writeRemaining registry package w.grants s h.rows hcanonical read)
    (existing_writeRemaining registry package w.grants s h.rows hcanonical read) (fun s hs => hs)
    ?_ (fun _ _ => Or.inl hnone) ?_ nofun ?_
  · rw [Function.update_eq_self] at hstep
    exact hstep
  · intro howner
    exact Or.inr (hguard.2.resolve_left (not_not_intro howner))
  · intro a ha
    have hverb := ((h.subjects s).kept a ha).1
    exact ⟨hverb, (mem_subtractOwnership read a).mpr ⟨hguard.1 a ha, hverb⟩⟩
  · intro s' hs'
    rcases of_decide_eq_true hs' with hsame | hmem
    · exact Or.inr ⟨hsame.symm, hnone⟩
    · exact Or.inl ((removes_nextRemoval rest s').mpr hmem)

/-- The put of a `set`. -/
theorem InStep.setChecked (h : InStep registry package w) {s : SubjectMatcher}
    {actions : List Action} {grantedBy : Option String}
    (hold : w.tasks.lookup id = some (.setChecked s actions grantedBy))
    (hguard : InOrder registry package w (.setChecked s actions grantedBy)) :
    InStep registry package (advance registry package w id (.setChecked s actions grantedBy)) := by
  obtain ⟨hcanonical, hne⟩ : s.Canonical ∧ actions ≠ [] := h.tasks id _ hold
  refine h.write_row hold _ _ trivial
    (canonicalRows_put registry package w.grants s grantedBy h.rows hcanonical hne)
    (existing_put registry package w.grants s grantedBy h.rows hcanonical hne) ?_ ?_ ?_ ?_ nofun nofun
  · intro s' hs'
    split_ifs
    · exact List.mem_cons_of_mem s hs'
    · exact hs'
  · intro howner
    exact (hguard.resolve_left (not_not_intro howner)).symm
  · intro _ hnot
    refine Or.inl ?_
    split_ifs at hnot with hany
    · exact absurd List.mem_cons_self hnot
    · intro a ha hmem
      refine hany (List.any_eq_true.mpr ⟨a, hmem, ?_⟩)
      exact decide_eq_true ha
  · intro a ha
    exact ((mem_subtractOwnership actions a).mp ha).symm

/-- The delete of a `remove`. -/
theorem InStep.removeRead (h : InStep registry package w) {s : SubjectMatcher} {existed : Bool}
    (hold : w.tasks.lookup id = some (.removeRead s existed))
    (hguard : InOrder registry package w (.removeRead s existed)) :
    InStep registry package (advance registry package w id (.removeRead s existed)) := by
  have hcanonical : s.Canonical := h.tasks id _ hold
  refine h.write_row hold _ _ trivial
    (canonicalRows_deleteGrant registry package w.grants s h.rows)
    (existing_deleteGrant registry package w.grants s h.rows hcanonical) (fun s hs => hs) ?_ ?_
    nofun nofun nofun
  · intro howner
    exact Or.inr (hguard.resolve_left (not_not_intro howner))
  · intro _ _
    exact Or.inl (fun _ _ => List.not_mem_nil)

end Operations

section OwnerWrites
variable {owners : Owners}

theorem listOwners_insert (rows : List OwnerEntry) :
    listOwners registry package (owners.insert (registry, package) rows) = rows := by
  unfold listOwners
  rw [lookup_insert_eq, if_pos rfl]
  rfl

/-- A row more, and the subjects it adds. -/
theorem mem_ownerSubjects_append (entry : OwnerEntry) (s : SubjectMatcher) :
    s ∈ ownerSubjects registry package (owners.insert (registry, package)
      (listOwners registry package owners ++ [entry])) ↔
      s ∈ ownerSubjects registry package owners ∨ OwnerEntry.subject entry = some s := by
  unfold ownerSubjects
  rw [listOwners_insert, List.filterMap_append, List.mem_append]
  apply or_congr_right
  rw [List.mem_filterMap]
  simp only [List.mem_singleton, exists_eq_left]

theorem mem_ownerSubjects_addOwner {entry : OwnerEntry} {owners' : Owners}
    (h : addOwner registry package entry owners = .ok owners') (s : SubjectMatcher) :
    s ∈ ownerSubjects registry package owners' ↔
      s ∈ ownerSubjects registry package owners ∨ OwnerEntry.subject entry = some s := by
  unfold addOwner at h
  dsimp only at h
  split_ifs at h
  rw [← Except.ok.inj h]
  exact mem_ownerSubjects_append registry package entry s

theorem mem_ownerSubjects_claimIfUnowned {userId : String} (s : SubjectMatcher)
    (h : s ∈ ownerSubjects registry package (claimIfUnowned registry package userId owners).2) :
    s ∈ ownerSubjects registry package owners ∨
      (claimIfUnowned registry package userId owners).1 = true ∧ s = .user userId := by
  unfold claimIfUnowned at h ⊢
  split_ifs at h ⊢
  · unfold ownerSubjects at h
    rw [listOwners_insert, List.mem_filterMap] at h
    obtain ⟨e, he, hs⟩ := h
    rw [List.mem_singleton.mp he] at hs
    exact Or.inr ⟨rfl, (Option.some.inj hs).symm⟩
  · exact Or.inl h

theorem ownerSubjects_claimIfUnowned {userId : String} {s : SubjectMatcher}
    (h : s ∈ ownerSubjects registry package owners) :
    s ∈ ownerSubjects registry package (claimIfUnowned registry package userId owners).2 := by
  unfold claimIfUnowned
  split_ifs with hnone
  · unfold ownerSubjects at h
    rw [List.isEmpty_iff.mp hnone] at h
    cases h
  · exact h

theorem mem_ownerSubjects_initializeOwner {userId : String} (s : SubjectMatcher)
    (h : s ∈ ownerSubjects registry package (initializeOwner registry package userId owners)) :
    s ∈ ownerSubjects registry package owners ∨ s = .user userId := by
  unfold initializeOwner at h
  dsimp only at h
  split_ifs at h
  · exact Or.inl h
  · exact ((mem_ownerSubjects_append registry package _ s).mp h).imp_right
      fun hs => (Option.some.inj hs).symm

theorem ownerSubjects_initializeOwner {userId : String} {s : SubjectMatcher}
    (h : s ∈ ownerSubjects registry package owners) :
    s ∈ ownerSubjects registry package (initializeOwner registry package userId owners) := by
  unfold initializeOwner
  dsimp only
  split_ifs
  · exact h
  · exact (mem_ownerSubjects_append registry package _ s).mpr (Or.inl h)

theorem listOwners_removeOwner (t i : String) :
    listOwners registry package (removeOwner registry package t i owners) =
      (listOwners registry package owners).filter fun e => !e.names t i := by
  unfold listOwners removeOwner
  rw [lookup_modify, if_pos rfl]
  cases owners.lookup (registry, package) with
  | none => rfl
  | some rows => rfl

theorem mem_ownerSubjects_removeOwner {t i : String} {s : SubjectMatcher}
    (h : s ∈ ownerSubjects registry package (removeOwner registry package t i owners)) :
    s ∈ ownerSubjects registry package owners := by
  unfold ownerSubjects at h ⊢
  rw [listOwners_removeOwner] at h
  obtain ⟨e, he, hs⟩ := List.mem_filterMap.mp h
  exact List.mem_filterMap.mpr ⟨e, (List.mem_filter.mp he).1, hs⟩

/-- Only the subject of the principal is lost. -/
theorem subject_of_lost {t i : String} {s : SubjectMatcher}
    (h : s ∈ ownerSubjects registry package owners)
    (hlost : s ∉ ownerSubjects registry package (removeOwner registry package t i owners)) :
    subjectForOwner t i = some s := by
  obtain ⟨e, he, hs⟩ := List.mem_filterMap.mp h
  by_cases hnames : e.names t i = true
  · unfold OwnerEntry.names at hnames
    simp only [Bool.and_eq_true, decide_eq_true_eq] at hnames
    rw [← hnames.1, ← hnames.2]
    exact hs
  · refine absurd ?_ hlost
    unfold ownerSubjects
    rw [listOwners_removeOwner]
    refine List.mem_filterMap.mpr ⟨e, List.mem_filter.mpr ⟨he, ?_⟩, hs⟩
    rw [Bool.not_eq_true] at hnames
    rw [hnames]
    rfl

theorem ownerSubjects_removeAllOwners :
    ownerSubjects registry package (removeAllOwners registry package owners) = [] := by
  unfold ownerSubjects listOwners removeAllOwners
  rw [lookup_erase_eq, if_pos rfl]
  rfl

end OwnerWrites

section Step
variable {registry package} {w : World} {id : ℕ}

/-- A call returns. -/
theorem InStep.returns (h : InStep registry package w) {old : Task}
    (hold : w.tasks.lookup id = some old) (result : Result)
    (hadds : ∀ s, old.adds s = false) (hremoves : ∀ s, old.removes s = false) :
    InStep registry package (w.proceed id (.returned result)) := by
  refine h.proceed hold trivial ?_ ?_
  · intro s hs
    rw [hadds s] at hs
    cases hs
  · intro s hs
    rw [hremoves s] at hs
    cases hs

/-- A call adds an owner, and its projection is due. -/
theorem InStep.gain_owner (h : InStep registry package w) {call : Call}
    (hold : w.tasks.lookup id = some (.called call)) {owners : Owners} {task : Task}
    (htask : task.Canonical)
    (hkeeps : ∀ s, w.owns registry package s → s ∈ ownerSubjects registry package owners)
    (hgained : ∀ s ∈ ownerSubjects registry package owners,
      w.owns registry package s ∨ s.Canonical ∧ task.adds s = true) :
    InStep registry package (World.proceed { w with owners := owners } id task) := by
  refine h.write_owners hold htask hgained ?_ nofun nofun
  intro s hlost howned
  exact absurd (hkeeps s howned) hlost

theorem begin_inStep (call : Call) (hold : w.tasks.lookup id = some (.called call))
    (h : InStep registry package w) (hguard : InOrder registry package w (.called call)) :
    InStep registry package (begin_ registry package w id call) := by
  have hreturns := fun result => h.returns hold result (fun _ => rfl) (fun _ => rfl)
  cases call with
  | addOwner entry =>
    unfold begin_
    dsimp only
    cases hadd : addOwner registry package entry w.owners with
    | error e => exact hreturns _
    | ok owners =>
      have hmem := mem_ownerSubjects_addOwner registry package hadd
      cases hsubject : OwnerEntry.subject entry with
      | none =>
        refine h.gain_owner hold trivial (fun s hs => (hmem s).mpr (Or.inl hs)) ?_
        intro s hs
        refine ((hmem s).mp hs).imp_right ?_
        rw [hsubject]
        nofun
      | some subject =>
        have hcanonical : subject.Canonical := hguard subject hsubject
        refine h.gain_owner hold hcanonical (fun s hs => (hmem s).mpr (Or.inl hs)) ?_
        intro s hs
        refine ((hmem s).mp hs).imp_right ?_
        intro hs'
        rw [hsubject] at hs'
        obtain rfl := Option.some.inj hs'
        exact ⟨hcanonical, decide_eq_true rfl⟩
  | claimIfUnowned userId =>
    unfold begin_
    dsimp only
    have hkeeps : ∀ s ∈ ownerSubjects registry package w.owners, s ∈ ownerSubjects registry package
        (claimIfUnowned registry package userId w.owners).2 :=
      fun s hs => ownerSubjects_claimIfUnowned registry package hs
    cases hclaimed : (claimIfUnowned registry package userId w.owners).1 with
    | true =>
      refine h.gain_owner hold ?_ hkeeps ?_
      · trivial
      · intro s hs
        refine (mem_ownerSubjects_claimIfUnowned registry package s hs).imp_right ?_
        rintro ⟨-, rfl⟩
        exact ⟨trivial, decide_eq_true rfl⟩
    | false =>
      refine h.gain_owner hold ?_ hkeeps ?_
      · trivial
      · intro s hs
        refine (mem_ownerSubjects_claimIfUnowned registry package s hs).imp_right ?_
        rintro ⟨htrue, -⟩
        rw [hclaimed] at htrue
        cases htrue
  | initializeOwner userId =>
    refine h.gain_owner hold trivial
      (fun s hs => ownerSubjects_initializeOwner registry package hs) ?_
    intro s hs
    refine (mem_ownerSubjects_initializeOwner registry package s hs).imp_right ?_
    rintro rfl
    exact ⟨trivial, decide_eq_true rfl⟩
  | removeOwner t i =>
    unfold begin_
    dsimp only
    have hgained : ∀ task : Task, ∀ s ∈ ownerSubjects registry package
        (removeOwner registry package t i w.owners),
        w.owns registry package s ∨ s.Canonical ∧ task.adds s = true := by
      intro task s hs
      exact Or.inl (mem_ownerSubjects_removeOwner registry package hs)
    cases hsubject : subjectForOwner t i with
    | none =>
      refine h.write_owners hold trivial (hgained _) ?_ nofun nofun
      intro s hlost howned
      have hsame := subject_of_lost registry package howned hlost
      rw [hsubject] at hsame
      cases hsame
    | some subject =>
      refine h.write_owners hold ⟨hguard subject hsubject, nofun⟩ (hgained _) ?_ nofun nofun
      intro s hlost howned
      have hsame := subject_of_lost registry package howned hlost
      rw [hsubject] at hsame
      obtain rfl := Option.some.inj hsame
      exact Or.inl (decide_eq_true (Or.inl rfl))
  | removeAllOwners => exact h.proceed hold h.owners nofun nofun
  | set subject actions grantedBy =>
    unfold begin_
    dsimp only
    cases hparse : SubjectMatcher.parse subject with
    | error e => exact hreturns _
    | ok matcher =>
      dsimp only
      split_ifs with hempty
      · exact hreturns _
      · cases refuseOwnershipVerbs registry package w.owners matcher actions with
        | error e => exact hreturns _
        | ok _ =>
          refine h.proceed hold ⟨SubjectMatcher.canonical_of_parse hparse, ?_⟩ nofun nofun
          exact mt List.isEmpty_iff.mpr hempty
  | remove subject =>
    unfold begin_
    dsimp only
    cases hparse : SubjectMatcher.parse subject with
    | error e => exact hreturns _
    | ok matcher =>
      dsimp only
      cases refuseOwnershipRemoval registry package w.owners matcher with
      | error e => exact hreturns _
      | ok _ =>
        have hcanonical := SubjectMatcher.canonical_of_parse hparse
        exact h.proceed hold hcanonical nofun nofun

theorem advance_inStep (task : Task) (hold : w.tasks.lookup id = some task)
    (h : InStep registry package w) (hguard : InOrder registry package w task) :
    InStep registry package (advance registry package w id task) := by
  have htask := h.tasks id task hold
  cases task with
  | called call => exact begin_inStep call hold h hguard
  | projectAddRead s grantedBy answer => exact h.proceed hold htask (fun _ hs => hs) nofun
  | projectAddPut s grantedBy answer read => exact h.projectAddPut hold hguard
  | listed entries =>
    refine h.write_owners hold (canonical_nextRemoval htask) ?_ ?_ nofun nofun
    · intro s hs
      rw [ownerSubjects_removeAllOwners] at hs
      cases hs
    · intro s _ howned
      refine (hguard s howned).imp_left ?_
      exact (removes_nextRemoval _ s).mpr
  | projectRemoveRead s rest => exact h.proceed hold htask nofun (fun _ hs => hs)
  | projectRemovePut s read rest => exact h.projectRemovePut hold hguard
  | setChecked s actions grantedBy => exact h.setChecked hold hguard
  | removeChecked s => exact h.proceed hold htask nofun nofun
  | removeRead s existed => exact h.removeRead hold hguard
  | returned result => exact h

theorem step_inStep (e : Event) (h : InStep registry package w)
    (hguard : EventInOrder registry package w e) :
    InStep registry package (step registry package w e) := by
  cases e with
  | call id call =>
    unfold step
    dsimp only
    cases hlookup : w.tasks.lookup id with
    | some _ => exact h
    | none =>
      refine h.of_subjects registry package h.rows h.owners rfl trivial ?_
      intro s
      have hpending : ∀ p : Task → Bool, w.pending p = true →
          (w.proceed id (.called call)).pending p = true := by
        intro p
        refine World.pending_proceed ?_ rfl
        intro old hold
        rw [hlookup] at hold
        cases hold
      exact (h.subjects s).frame registry package Iff.rfl rfl (fun hs => hs) rfl
        (hpending _) (hpending _)
  | advance id =>
    unfold step
    dsimp only
    cases hlookup : w.tasks.lookup id with
    | none => exact h
    | some task => exact advance_inStep task hlookup h (hguard task hlookup)

theorem run_inStep (events : List Event) (h : InStep registry package w)
    (hguard : Runs.Guarded (step registry package) (EventInOrder registry package) w events) :
    InStep registry package (Runs.run (step registry package) w events) :=
  Runs.run_keeps (EventInOrder registry package) (InStep registry package)
    (fun _ e h hguard => step_inStep e h hguard) w events h hguard

end Step

section Agreement

/-- Owners and rows that agree, before any call. -/
structure Agree (owners : Owners) (grants : InMemoryGrantRepository) : Prop where
  rows : CanonicalRows registry package grants
  canonical : ∀ s ∈ ownerSubjects registry package owners, s.Canonical
  added : ∀ s ∈ ownerSubjects registry package owners, ∀ a ∈ OWNERSHIP_ACTIONS,
    a ∈ existing registry package grants s
  subtracted : ∀ s, s ∉ ownerSubjects registry package owners → ∀ a ∈ OWNERSHIP_ACTIONS,
    a ∉ existing registry package grants s

def World.of (owners : Owners) (grants : InMemoryGrantRepository) : World :=
  ⟨owners, grants, ∅, [], fun _ => []⟩

theorem Agree.inStep {owners : Owners} {grants : InMemoryGrantRepository}
    (h : Agree registry package owners grants) :
    InStep registry package (World.of owners grants) where
  rows := h.rows
  owners := h.canonical
  tasks := by
    intro id task hlookup
    cases hlookup
  subjects := by
    intro s
    exact ⟨fun howner => Or.inl (h.added s howner),
      fun hother _ => Or.inl (h.subtracted s hother), nofun⟩

theorem Agree.empty : Agree registry package ∅ InMemoryGrantRepository.empty where
  rows := nofun
  canonical := nofun
  added := nofun
  subtracted := by
    intro s _ a _ ha
    have hnone : existing registry package InMemoryGrantRepository.empty s = [] := rfl
    rw [hnone] at ha
    cases ha

def World.allReturned (w : World) : Bool :=
  w.tasks.entries.all fun e => match e.2 with
    | .returned _ => true
    | _ => false

/-- Owners have the ownership verbs, others who were not given one have none, and what was
set stays. -/
def World.InAgreement (w : World) : Prop :=
  (∀ s ∈ ownerSubjects registry package w.owners, ∀ a ∈ OWNERSHIP_ACTIONS,
      a ∈ existing registry package w.grants s) ∧
    (∀ s, s ∉ ownerSubjects registry package w.owners → s ∉ w.given → ∀ a ∈ OWNERSHIP_ACTIONS,
      a ∉ existing registry package w.grants s) ∧
    ∀ s, ∀ a ∈ w.kept s, a ∈ existing registry package w.grants s

/-- Nothing is pending once every call has returned. -/
theorem pending_eq_false {w : World} (h : w.allReturned = true) {p : Task → Bool}
    (hp : ∀ result, p (.returned result) = false) : w.pending p = false := by
  unfold World.pending
  rw [List.any_eq_false]
  intro e he
  have hreturned := List.all_eq_true.mp h e he
  cases htask : e.2 with
  | returned result => simp [hp result]
  | _ =>
    rw [htask] at hreturned
    cases hreturned

end Agreement

end Invariant

section Samples

/-- An owner is added while a `set` for the same user runs, and removed later. -/
def orderly : List Event :=
  [.call 0 (.set "user:eve" [.releasesRead] none), .advance 0,
    .call 1 (.addOwner ⟨"user", "eve", "admin", none⟩), .advance 1, .advance 0, .advance 1,
    .advance 1, .call 2 (.removeOwner "user" "eve"), .advance 2, .advance 2, .advance 2]

/-- The removal comes and goes between the reading and the put of the addition. -/
def lateProjection : List Event :=
  [.call 0 (.addOwner ⟨"user", "eve", "admin", none⟩), .advance 0, .advance 0,
    .call 1 (.removeOwner "user" "eve"), .advance 1, .advance 1, .advance 1, .advance 0]

/-- The `set` was checked before the addition, and is written between its reading and its
put. -/
def lostSet : List Event :=
  [.call 0 (.set "user:eve" [.releasesRead] none), .advance 0,
    .call 1 (.addOwner ⟨"user", "eve", "admin", none⟩), .advance 1, .advance 1, .advance 0,
    .advance 1]

end Samples

end BatleHub.OwnershipGrants
