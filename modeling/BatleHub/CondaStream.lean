import BatleHub.Lib.JsonValues

/-!
The two filters of conda's `repodata.json` (`blocking/conda.rs`, `blocking/conda_stream.rs`).
One edits a parsed document, the other reads the bytes and writes the filtered document at
the same time, one package entry after the other.
-/
namespace BatleHub.CondaStream

open Lib JsonBytes JsonValues LastValues

section Blocks
variable {N : Type}

/-- The key of this protocol's versions is the version. -/
def normalize (version : String) : String := version

/-- The blocked packages and versions of a channel. -/
structure MultiPackageBlocks where
  pairs : List (String × String)

def MultiPackageBlocks.contains (blocked : MultiPackageBlocks) (name version : String) : Bool :=
  decide ((name, normalize version) ∈ blocked.pairs.map fun pair => (pair.1, normalize pair.2))

/-- `entry.get(field).and_then(Value::as_str)`. -/
def textField (entry : JsonTree N) (field : String) : Option String :=
  match entry with
  | .object members =>
    match members.lookup field with
    | some (.string s) => some s
    | _ => none
  | _ => none

/-- An entry whose coordinate cannot be read is kept. -/
def drops (blocked : MultiPackageBlocks) (entry : JsonTree N) : Bool :=
  match textField entry "name", textField entry "version" with
  | some name, some version => blocked.contains name version
  | _, _ => false

def label (entry : JsonTree N) : String :=
  (textField entry "name").getD "" ++ "-" ++ (textField entry "version").getD ""

/-- The two members of a repodata document that list packages. -/
def PACKAGE_MAPS : List String := ["packages", "packages.conda"]

end Blocks

section Parsed
variable {N : Type} (blocked : MultiPackageBlocks)

/-- The entries that are hit leave one package map, and their labels are reported. -/
def stripTable (done : List (String × JsonTree N) × List String) (key : String) :
    List (String × JsonTree N) × List String :=
  match done.1.lookup key with
  | some (.object entries) =>
    (done.1.map fun member =>
        if member.1 = key then
          (member.1, .object (entries.filter fun entry => !drops blocked entry.2))
        else member,
      done.2 ++ (entries.filter fun entry => drops blocked entry.2).map fun entry => label entry.2)
  | _ => done

def stripRepodata (doc : JsonTree N) : JsonTree N × List String :=
  match doc with
  | .object members =>
    let done := PACKAGE_MAPS.foldl (stripTable blocked) (members, [])
    (.object done.1, done.2)
  | doc => (doc, [])

end Parsed

section Streamed
variable {N : Type} (num : Numerals N)
-- What a reader may still open inside a package entry.
variable (limit : ℕ) (blocked : MultiPackageBlocks)

/-- What is written, whether a comma is due before the next member, and what was removed. -/
structure Copy where
  out : Bytes
  first : Bool
  removed : List String

def Copy.writeMember (copy : Copy) (key : String) (t : JsonTree N) : Copy :=
  ⟨copy.out ++ separator copy.first ++ writeString key ++ [colon] ++ write num t, false,
    copy.removed⟩

def Copy.entry (copy : Copy) (filename : String) (entry : JsonTree N) : Copy :=
  if drops blocked entry then { copy with removed := copy.removed ++ [label entry] }
  else copy.writeMember num filename entry

def visitEntry (copy : Copy) (filename : String) (bytes : Bytes) : Option (Copy × Bytes) :=
  (readValue num limit bytes).map fun read =>
    (copy.entry num blocked filename (value read.1), read.2)

/-- `Packages::visit_map`, at a value that has to be an object. -/
def visitPackages (copy : Copy) (bytes : Bytes) : Option (Copy × Bytes) :=
  (visitObject (visitEntry num limit blocked) ⟨copy.out ++ [openBrace], true, copy.removed⟩
      bytes).map fun read =>
    (⟨read.1.out ++ [closeBrace], false, read.1.removed⟩, read.2)

/-- One turn of `Document::visit_map`. -/
def visitMember (copy : Copy) (key : String) (bytes : Bytes) : Option (Copy × Bytes) :=
  if key ∈ PACKAGE_MAPS then
    visitPackages num limit blocked
      ⟨copy.out ++ separator copy.first ++ writeString key ++ [colon], false, copy.removed⟩ bytes
  else
    (readValue num (limit + 1) bytes).map fun read =>
      (copy.writeMember num key (value read.1), read.2)

/-- The filtered document and the removed pairs, or nothing where the reader fails. It stops
behind the object and does not look at what follows. -/
def filterRepodata (bytes : Bytes) : Option (Bytes × List String) :=
  (visitObject (visitMember num limit blocked) ⟨[openBrace], true, []⟩ bytes).map fun read =>
    (read.1.out ++ [closeBrace], read.1.removed)

end Streamed

section Spellings
variable {N : Type} (num : Numerals N) (limit : ℕ) (blocked : MultiPackageBlocks)

/-- The entries of a package map, as they are spelled. -/
def tableEntries (member : String × JsonTree N) : List (String × JsonTree N) :=
  if member.1 ∈ PACKAGE_MAPS then
    match member.2 with
    | .object entries => valueMembers entries
    | _ => []
  else []

/-- Every package map is an object. -/
def Tables (members : List (String × JsonTree N)) : Prop :=
  ∀ member ∈ members, member.1 ∈ PACKAGE_MAPS → ∃ entries, member.2 = .object entries

def streamedValue (member : String × JsonTree N) : JsonTree N :=
  if member.1 ∈ PACKAGE_MAPS then
    .object ((tableEntries member).filter fun entry => !drops blocked entry.2)
  else value member.2

def labels (entries : List (String × JsonTree N)) : List String :=
  (entries.filter fun entry => drops blocked entry.2).map fun entry => label entry.2

def stepEntry (copy : Copy) (entry : String × JsonTree N) : Option Copy :=
  some (copy.entry num blocked entry.1 (value entry.2))

def stepMember (copy : Copy) (member : String × JsonTree N) : Option Copy :=
  if member.1 ∈ PACKAGE_MAPS then
    match member.2 with
    | .object entries =>
      let opened : Copy := ⟨copy.out ++ separator copy.first ++ writeString member.1 ++ [colon] ++
        [openBrace], true, copy.removed⟩
      let done := entries.foldl (fun copy entry => copy.entry num blocked entry.1 (value entry.2))
        opened
      some ⟨done.out ++ [closeBrace], false, done.removed⟩
    | _ => none
  else some (copy.writeMember num member.1 (value member.2))

theorem foldl_entry (entries : List (String × JsonTree N)) (copy : Copy) :
    ∃ first, entries.foldl (fun copy entry => copy.entry num blocked entry.1 (value entry.2)) copy =
      ⟨copy.out ++ writeMembers num copy.first
          ((valueMembers entries).filter fun entry => !drops blocked entry.2), first,
        copy.removed ++ labels blocked (valueMembers entries)⟩ := by
  induction entries generalizing copy with
  | nil => exact ⟨copy.first, by simp [valueMembers, writeMembers, labels]⟩
  | cons entry entries ih =>
    obtain ⟨first, hrest⟩ := ih (copy.entry num blocked entry.1 (value entry.2))
    refine ⟨first, ?_⟩
    rw [List.foldl_cons, hrest]
    obtain ⟨filename, t⟩ := entry
    unfold Copy.entry
    cases hdrop : drops blocked (value t) with
    | true =>
      rw [if_pos rfl]
      simp [valueMembers, labels, hdrop]
    | false =>
      rw [if_neg (by decide)]
      simp [valueMembers, labels, hdrop, Copy.writeMember, writeMembers]

theorem foldlM_some {α β : Type} (f : β → α → β) (l : List α) (b : β) :
    l.foldlM (fun b a => some (f b a)) b = some (l.foldl f b) := by
  induction l generalizing b with
  | nil => rfl
  | cons a l ih => exact ih (f b a)

/-- The members are written one after the other, each filtered on its way. -/
theorem foldlM_stepMember (members : List (String × JsonTree N)) (h : Tables members) (copy : Copy) :
    ∃ first, members.foldlM (stepMember num blocked) copy =
      some ⟨copy.out ++ writeMembers num copy.first
          (members.map fun member => (member.1, streamedValue blocked member)), first,
        copy.removed ++ members.flatMap fun member => labels blocked (tableEntries member)⟩ := by
  induction members generalizing copy with
  | nil => exact ⟨copy.first, by simp [writeMembers]⟩
  | cons member members ih =>
    have hrest : Tables members := fun m hm => h m (List.mem_cons_of_mem member hm)
    obtain ⟨key, t⟩ := member
    by_cases hkey : key ∈ PACKAGE_MAPS
    · obtain ⟨entries, heq⟩ := h (key, t) List.mem_cons_self hkey
      obtain rfl : t = .object entries := heq
      obtain ⟨inner, hinner⟩ := foldl_entry num blocked entries
        ⟨copy.out ++ separator copy.first ++ writeString key ++ [colon] ++ [openBrace], true,
          copy.removed⟩
      obtain ⟨first, hafter⟩ := ih hrest
        ⟨copy.out ++ separator copy.first ++ writeString key ++ [colon] ++ [openBrace] ++
            writeMembers num true
              ((valueMembers entries).filter fun entry => !drops blocked entry.2) ++ [closeBrace],
          false, copy.removed ++ labels blocked (valueMembers entries)⟩
      refine ⟨first, ?_⟩
      have hstep : stepMember num blocked copy (key, .object entries) = some
          ⟨copy.out ++ separator copy.first ++ writeString key ++ [colon] ++ [openBrace] ++
            writeMembers num true
              ((valueMembers entries).filter fun entry => !drops blocked entry.2) ++ [closeBrace],
          false, copy.removed ++ labels blocked (valueMembers entries)⟩ := by
        rw [stepMember, if_pos hkey]
        simp only [hinner]
      rw [List.foldlM_cons, hstep, Option.bind_eq_bind, Option.bind_some, hafter]
      simp [streamedValue, tableEntries, hkey, writeMembers, write]
    · obtain ⟨first, hafter⟩ := ih hrest (copy.writeMember num key (value t))
      refine ⟨first, ?_⟩
      have hstep : stepMember num blocked copy (key, t) =
          some (copy.writeMember num key (value t)) := by
        rw [stepMember, if_neg hkey]
      rw [List.foldlM_cons, hstep, Option.bind_eq_bind, Option.bind_some, hafter]
      simp [streamedValue, tableEntries, hkey, writeMembers, Copy.writeMember, labels]

theorem foldlM_stepMember_none (members : List (String × JsonTree N)) (h : ¬ Tables members)
    (copy : Copy) : members.foldlM (stepMember num blocked) copy = none := by
  induction members generalizing copy with
  | nil => exact absurd (fun m hm => absurd hm List.not_mem_nil) h
  | cons member members ih =>
    rw [List.foldlM_cons, Option.bind_eq_bind, Option.bind_eq_none_iff]
    intro next hnext
    apply ih
    intro hrest
    apply h
    intro m hm hkey
    rcases List.mem_cons.mp hm with rfl | hmem
    · rw [stepMember, if_pos hkey] at hnext
      split at hnext
      · rename_i entries heq
        exact ⟨entries, heq⟩
      · cases hnext
    · exact hrest m hmem hkey

theorem visitEntry_eq (copy : Copy) (filename : String) (bytes : Bytes) :
    visitEntry num limit blocked copy filename bytes =
      (readValue num limit bytes).bind fun read =>
        (stepEntry num blocked copy (filename, read.1)).map fun copy => (copy, read.2) := by
  rw [visitEntry]
  cases readValue num limit bytes <;> rfl

theorem visitMember_eq (copy : Copy) (key : String) (bytes : Bytes) :
    visitMember num limit blocked copy key bytes =
      (readValue num (limit + 1) bytes).bind fun read =>
        (stepMember num blocked copy (key, read.1)).map fun copy => (copy, read.2) := by
  rw [visitMember]
  by_cases hkey : key ∈ PACKAGE_MAPS
  · rw [if_pos hkey, visitPackages, visitObject_eq (visitEntry_eq num limit blocked)]
    cases readValue num (limit + 1) bytes with
    | none => rfl
    | some read =>
      obtain ⟨t, rest⟩ := read
      rw [Option.bind_some, Option.bind_some, stepMember, if_pos hkey]
      cases t with
      | object entries =>
        have hfold : ∀ copy : Copy, entries.foldlM (stepEntry num blocked) copy =
            some (entries.foldl
              (fun copy entry => copy.entry num blocked entry.1 (value entry.2)) copy) :=
          fun copy => foldlM_some _ entries copy
        simp only [hfold, Option.map_some]
      | _ => rfl
  · rw [if_neg hkey]
    cases readValue num (limit + 1) bytes with
    | none => rfl
    | some read =>
      rw [Option.map_some, Option.bind_some, stepMember, if_neg hkey, Option.map_some]

/-- The filter of the bytes, by what they spell. -/
theorem filterRepodata_eq (bytes : Bytes) :
    filterRepodata num limit blocked bytes =
      (readValue num (limit + 2) bytes).bind fun read =>
        match read.1 with
        | .object members =>
          (members.foldlM (stepMember num blocked) ⟨[openBrace], true, []⟩).map fun copy =>
            (copy.out ++ [closeBrace], copy.removed)
        | _ => none := by
  rw [filterRepodata, visitObject_eq (visitMember_eq num limit blocked)]
  cases readValue num (limit + 2) bytes with
  | none => rfl
  | some read =>
    obtain ⟨t, rest⟩ := read
    rw [Option.bind_some, Option.bind_some]
    cases t with
    | object members => simp only [Option.map_map, Function.comp_def]
    | _ => rfl

end Spellings

end BatleHub.CondaStream
