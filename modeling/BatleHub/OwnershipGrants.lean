import BatleHub.GrantSubjects
import BatleHub.GrantTable
import BatleHub.PackageOwners

/-!
Ownership projected into package-tier grants (`services/ownership_grants.rs`), beside the
administration of the same rows (`services/grants_admin.rs`). The owner rows and the
grants of one package are two stores, and a call goes from one to the other by single
operations: the owner write, the reading of the subject's row, its writing. Calls run side
by side, one operation at a time.
-/
namespace BatleHub.OwnershipGrants

open Lib AssocMap Grants GrantTable PackageOwners

/-- The verbs an ownership row projects to. -/
def OWNERSHIP_ACTIONS : List Action := [.releasesPublish, .ownersRead, .ownersWrite]

section Stores
variable (registry package : String)

/-- The inner store decides whether the row is a duplicate. -/
def addOwner (entry : OwnerEntry) (owners : Owners) : Except CoreError Owners :=
  let rows := listOwners registry package owners
  if rows.any fun e => e.names entry.principalType entry.principalId then
    .error (.conflict (entry.principalType ++ " '" ++ entry.principalId ++
      "' is already an owner of '" ++ registry ++ "/" ++ package ++ "'"))
  else .ok (owners.insert (registry, package) (rows ++ [entry]))

def claimIfUnowned (userId : String) (owners : Owners) : Bool × Owners :=
  if (listOwners registry package owners).isEmpty then
    (true, owners.insert (registry, package) [⟨"user", userId, "admin", none⟩])
  else (false, owners)

def OwnerEntry.subject (e : OwnerEntry) : Option SubjectMatcher :=
  subjectForOwner e.principalType e.principalId

/-- The subjects that the owner rows map to. -/
def ownerSubjects (owners : Owners) : List SubjectMatcher :=
  (listOwners registry package owners).filterMap OwnerEntry.subject

/-- The actions written for `subject` on the package's node. -/
def existing (grants : InMemoryGrantRepository) (subject : SubjectMatcher) : List Action :=
  (((grants.grantsOnNode registry .package package).find? fun g =>
    decide (g.subject = subject)).map StoredGrant.actions).getD []

def packageGrant (subject : SubjectMatcher) (actions : List Action) (grantedBy : Option String) :
    StoredGrant :=
  ⟨registry, .package, package, subject, actions, grantedBy⟩

/-- `put_grant`, with what the store holds when it refuses. -/
def put (grants : InMemoryGrantRepository) (grant : StoredGrant) : InMemoryGrantRepository :=
  match grants.putGrant grant with
  | .ok grants => grants
  | .error _ => grants

def unionOwnership (actions : List Action) : List Action :=
  OWNERSHIP_ACTIONS.foldl (fun acc a => if a ∈ acc then acc else acc ++ [a]) actions

def subtractOwnership (actions : List Action) : List Action :=
  actions.filter fun a => decide (a ∉ OWNERSHIP_ACTIONS)

/-- The last operation of `project_add`. -/
def writeAdded (grants : InMemoryGrantRepository) (subject : SubjectMatcher) (read : List Action)
    (grantedBy : Option String) : InMemoryGrantRepository :=
  put grants (packageGrant registry package subject (unionOwnership read) grantedBy)

/-- The last operation of `project_remove`: a row with nothing left is deleted. -/
def writeRemaining (grants : InMemoryGrantRepository) (subject : SubjectMatcher)
    (read : List Action) : InMemoryGrantRepository :=
  let remaining := subtractOwnership read
  if remaining.isEmpty then grants.deleteGrant registry .package package subject
  else put grants (packageGrant registry package subject remaining none)

/-- The verbs the subject holds on the package by being an owner. -/
def ownershipVerbs (owners : Owners) (subject : SubjectMatcher) : List Action :=
  if subject ∈ ownerSubjects registry package owners then OWNERSHIP_ACTIONS else []

def joined (actions : List Action) : String := String.intercalate ", " (actions.map Action.asStr)

def refuseOwnershipVerbs (owners : Owners) (subject : SubjectMatcher) (actions : List Action) :
    Except CoreError Unit :=
  let dropped := (ownershipVerbs registry package owners subject).filter fun a =>
    decide (a ∉ actions)
  if dropped.isEmpty then .ok ()
  else
    .error (.conflict ("'" ++ subject.asString ++ "' holds " ++ joined OWNERSHIP_ACTIONS ++ " on '" ++
      package ++ "' through ownership; this write would drop " ++ joined dropped ++
      ". Use " ++ "\x60batlehub-cli owner remove\x60 to change ownership."))

def refuseOwnershipRemoval (owners : Owners) (subject : SubjectMatcher) : Except CoreError Unit :=
  if (ownershipVerbs registry package owners subject).isEmpty then .ok ()
  else
    .error (.conflict ("'" ++ subject.asString ++ "' holds this grant through ownership of '" ++
      package ++ "'; remove the owner with \x60batlehub-cli owner remove\x60 instead"))

end Stores

def SubjectParseError.text (e : SubjectParseError) : String :=
  "unknown grant subject '" ++ e.subject ++ "'. Expected '*', 'role:<role>', " ++
    "'group:<provider>:<name>' (provider may be '*'), 'user:<id>' or 'token:<name>'"

/-- The calls on one package. A `set` comes with the actions its patterns expand to. -/
inductive Call where
  | addOwner (entry : OwnerEntry)
  | claimIfUnowned (userId : String)
  | initializeOwner (userId : String)
  | removeOwner (principalType principalId : String)
  | removeAllOwners
  | set (subject : String) (actions : List Action) (grantedBy : Option String)
  | remove (subject : String)

/-- What a call returns, for those that return something. -/
abbrev Result := Except CoreError (Option Bool)

/-- Where a call stands. -/
inductive Task where
  | called (call : Call)
  | projectAddRead (subject : SubjectMatcher) (grantedBy : Option String) (answer : Option Bool)
  | projectAddPut (subject : SubjectMatcher) (grantedBy : Option String) (answer : Option Bool)
      (read : List Action)
  | listed (entries : List OwnerEntry)
  | projectRemoveRead (subject : SubjectMatcher) (rest : List SubjectMatcher)
  | projectRemovePut (subject : SubjectMatcher) (read : List Action) (rest : List SubjectMatcher)
  | setChecked (subject : SubjectMatcher) (actions : List Action) (grantedBy : Option String)
  | removeChecked (subject : SubjectMatcher)
  | removeRead (subject : SubjectMatcher) (existed : Bool)
  | returned (result : Result)

structure World where
  owners : Owners
  grants : InMemoryGrantRepository
  tasks : Assoc ℕ Task
  /-- The subjects to whom a `set` gave an ownership verb. -/
  given : List SubjectMatcher
  /-- The other verbs of the last `set` for a subject that no `remove` came after. -/
  kept : SubjectMatcher → List Action

inductive Event where
  | call (id : ℕ) (call : Call)
  | advance (id : ℕ)

section Steps
variable (registry package : String)

/-- The loop of `remove_all_owners` over the subjects that are left. -/
def nextRemoval : List SubjectMatcher → Task
  | [] => .returned (.ok none)
  | subject :: rest => .projectRemoveRead subject rest

def World.proceed (w : World) (id : ℕ) (task : Task) : World :=
  { w with tasks := w.tasks.insert id task }

/-- The first operation of a call. -/
def begin_ (w : World) (id : ℕ) : Call → World
  | .addOwner entry =>
    match addOwner registry package entry w.owners with
    | .error e => w.proceed id (.returned (.error e))
    | .ok owners =>
      World.proceed { w with owners := owners } id
        (match OwnerEntry.subject entry with
          | some subject => .projectAddRead subject entry.grantedBy none
          | none => .returned (.ok none))
  | .claimIfUnowned userId =>
    let (claimed, owners) := claimIfUnowned registry package userId w.owners
    World.proceed { w with owners := owners } id
      (if claimed then .projectAddRead (.user userId) (some userId) (some true)
        else .returned (.ok (some false)))
  | .initializeOwner userId =>
    World.proceed { w with owners := initializeOwner registry package userId w.owners } id
      (.projectAddRead (.user userId) (some userId) none)
  | .removeOwner principalType principalId =>
    World.proceed
      { w with owners := removeOwner registry package principalType principalId w.owners } id
      (match subjectForOwner principalType principalId with
        | some subject => .projectRemoveRead subject []
        | none => .returned (.ok none))
  | .removeAllOwners => w.proceed id (.listed (listOwners registry package w.owners))
  | .set subject actions grantedBy =>
    match SubjectMatcher.parse subject with
    | .error e => w.proceed id (.returned (.error (.invalidInput (SubjectParseError.text e))))
    | .ok matcher =>
      if actions.isEmpty then
        w.proceed id
          (.returned (.error (.invalidInput "the action patterns expanded to nothing")))
      else
        match refuseOwnershipVerbs registry package w.owners matcher actions with
        | .error e => w.proceed id (.returned (.error e))
        | .ok _ => w.proceed id (.setChecked matcher actions grantedBy)
  | .remove subject =>
    match SubjectMatcher.parse subject with
    | .error e => w.proceed id (.returned (.error (.invalidInput (SubjectParseError.text e))))
    | .ok matcher =>
      match refuseOwnershipRemoval registry package w.owners matcher with
      | .error e => w.proceed id (.returned (.error e))
      | .ok _ => w.proceed id (.removeChecked matcher)

/-- One more operation of a call. -/
def advance (w : World) (id : ℕ) : Task → World
  | .called call => begin_ registry package w id call
  | .projectAddRead subject grantedBy answer =>
    w.proceed id
      (.projectAddPut subject grantedBy answer (existing registry package w.grants subject))
  | .projectAddPut subject grantedBy answer read =>
    World.proceed
      { w with grants := writeAdded registry package w.grants subject read grantedBy } id
      (.returned (.ok answer))
  | .listed entries =>
    World.proceed { w with owners := removeAllOwners registry package w.owners } id
      (nextRemoval (entries.filterMap OwnerEntry.subject))
  | .projectRemoveRead subject rest =>
    w.proceed id (.projectRemovePut subject (existing registry package w.grants subject) rest)
  | .projectRemovePut subject read rest =>
    World.proceed { w with grants := writeRemaining registry package w.grants subject read } id
      (nextRemoval rest)
  | .setChecked subject actions grantedBy =>
    World.proceed
      { w with
        grants := put w.grants (packageGrant registry package subject actions grantedBy)
        given :=
          if actions.any fun a => decide (a ∈ OWNERSHIP_ACTIONS) then subject :: w.given else w.given
        kept := Function.update w.kept subject (subtractOwnership actions) } id
      (.returned (.ok none))
  | .removeChecked subject =>
    w.proceed id (.removeRead subject
      ((w.grants.grantsOnNode registry .package package).any fun g => decide (g.subject = subject)))
  | .removeRead subject existed =>
    World.proceed
      { w with
        grants := w.grants.deleteGrant registry .package package subject
        kept := Function.update w.kept subject [] } id
      (.returned (.ok (some existed)))
  | .returned _ => w

def step (w : World) : Event → World
  | .call id call =>
    match w.tasks.lookup id with
    | none => w.proceed id (.called call)
    | some _ => w
  | .advance id =>
    match w.tasks.lookup id with
    | none => w
    | some task => advance registry package w id task

end Steps

end BatleHub.OwnershipGrants
