import BatleHub.CondaStream

/-!
Where the two filters of `repodata.json` agree. They drop the same entries of the same
tables, so they can only differ over what a parsed document no longer has: a table or an
entry that a later one of its key replaced, and what stands behind the document.
-/
namespace BatleHub.CondaStream

open Lib JsonBytes JsonValues LastValues

section Removals
variable {N : Type} (blocked : MultiPackageBlocks)

theorem labels_perm {entries entries' : List (String × JsonTree N)} (h : entries.Perm entries') :
    (labels blocked entries).Perm (labels blocked entries') :=
  (h.filter _).map _

theorem labels_append (entries entries' : List (String × JsonTree N)) :
    labels blocked (entries ++ entries') = labels blocked entries ++ labels blocked entries' := by
  rw [labels, List.filter_append, List.map_append]
  rfl

theorem labels_eq_nil_iff (entries : List (String × JsonTree N)) :
    labels blocked entries = [] ↔ ∀ entry ∈ entries, drops blocked entry.2 = false := by
  rw [labels, List.map_eq_nil_iff, List.filter_eq_nil_iff]
  simp only [Bool.not_eq_true]

/-- What the streamed filter reports of what a parser does not keep. -/
def leftover (members : List (String × JsonTree N)) : List String :=
  ((kept members).flatMap fun member => labels blocked (shadowed (tableEntries member))) ++
    (shadowed members).flatMap fun member => labels blocked (tableEntries member)

theorem flatMap_append_perm {α β : Type} (l : List α) (f g : α → List β) :
    (l.flatMap fun a => f a ++ g a).Perm (l.flatMap f ++ l.flatMap g) :=
  (List.flatMap_append_perm l f g).symm

theorem removed_perm (members : List (String × JsonTree N)) :
    (members.flatMap fun member => labels blocked (tableEntries member)).Perm
      (((kept members).flatMap fun member => labels blocked (kept (tableEntries member))) ++
        leftover blocked members) := by
  have hsplit : ∀ member : String × JsonTree N, (labels blocked (tableEntries member)).Perm
      (labels blocked (kept (tableEntries member)) ++
        labels blocked (shadowed (tableEntries member))) := by
    intro member
    rw [← labels_append]
    exact labels_perm blocked (kept_append_shadowed _).symm
  have hmembers := ((kept_append_shadowed members).symm.flatMap_right
    fun member => labels blocked (tableEntries member))
  rw [List.flatMap_append] at hmembers
  refine hmembers.trans ?_
  rw [leftover, ← List.append_assoc]
  refine List.Perm.append_right _ ?_
  refine (List.Perm.flatMap_left _ fun member _ => hsplit member).trans ?_
  exact flatMap_append_perm _ _ _

/-- The reports agree exactly where there is nothing left over. -/
theorem removed_perm_iff (members : List (String × JsonTree N)) :
    (members.flatMap fun member => labels blocked (tableEntries member)).Perm
        ((kept members).flatMap fun member => labels blocked (kept (tableEntries member))) ↔
      leftover blocked members = [] := by
  have hall := removed_perm blocked members
  constructor
  · intro h
    have hlength := (h.symm.trans hall).length_eq
    rw [List.length_append] at hlength
    apply List.length_eq_zero_iff.mp
    omega
  · intro h
    rw [h, List.append_nil] at hall
    exact hall

theorem leftover_eq_nil_iff (members : List (String × JsonTree N)) :
    leftover blocked members = [] ↔
      (∀ member ∈ kept members, ∀ entry ∈ shadowed (tableEntries member),
          drops blocked entry.2 = false) ∧
        ∀ member ∈ shadowed members, ∀ entry ∈ tableEntries member,
          drops blocked entry.2 = false := by
  rw [leftover, List.append_eq_nil_iff, List.flatMap_eq_nil_iff, List.flatMap_eq_nil_iff]
  simp only [labels_eq_nil_iff]

end Removals

section Stripping
variable {N : Type} (blocked : MultiPackageBlocks)

/-- A package map without what is blocked; another value is left alone. -/
def strippedTable (t : JsonTree N) : JsonTree N :=
  match t with
  | .object entries => .object (entries.filter fun entry => !drops blocked entry.2)
  | t => t

def strippedValue (member : String × JsonTree N) : JsonTree N :=
  if member.1 ∈ PACKAGE_MAPS then strippedTable blocked member.2 else member.2

def tableLabels (t : Option (JsonTree N)) : List String :=
  match t with
  | some (.object entries) => labels blocked entries
  | _ => []

theorem lookup_of_mem {members : List (String × JsonTree N)} (h : (members.map Prod.fst).Nodup)
    {key : String} {t : JsonTree N} (hmem : (key, t) ∈ members) : members.lookup key = some t := by
  induction members with
  | nil => cases hmem
  | cons member members ih =>
    rw [List.map_cons, List.nodup_cons] at h
    rcases List.mem_cons.mp hmem with rfl | hrest
    · exact List.lookup_cons_self
    · have hne : (key == member.1) = false := by
        rw [beq_eq_false_iff_ne]
        rintro rfl
        exact h.1 (List.mem_map.mpr ⟨_, hrest, rfl⟩)
      rw [List.lookup_cons, hne]
      exact ih h.2 hrest

theorem stripTable_eq {members : List (String × JsonTree N)} (h : (members.map Prod.fst).Nodup)
    (removed : List String) (key : String) :
    stripTable blocked (members, removed) key =
      (members.map fun member =>
          (member.1, if member.1 = key then strippedTable blocked member.2 else member.2),
        removed ++ tableLabels blocked (members.lookup key)) := by
  have hother : ∀ {t : Option (JsonTree N)}, members.lookup key = t →
      (∀ entries, t ≠ some (.object entries)) →
      members.map (fun member =>
        (member.1, if member.1 = key then strippedTable blocked member.2 else member.2)) =
        members := by
    intro t hlookup hne
    conv_rhs => rw [← List.map_id members]
    refine List.map_congr_left fun member hmember => Prod.ext rfl ?_
    dsimp only [id]
    split_ifs with hkey
    · have hfound := lookup_of_mem h hmember
      rw [hkey, hlookup] at hfound
      unfold strippedTable
      split
      · rename_i entries heq
        exact absurd (hfound.trans (congrArg some heq)) (hne entries)
      · rfl
    · rfl
  unfold stripTable
  dsimp only
  split
  · rename_i entries hlookup
    rw [hlookup]
    refine Prod.ext (List.map_congr_left fun member hmember => ?_) rfl
    split_ifs with hkey
    · have hfound := lookup_of_mem h hmember
      rw [hkey, hlookup, Option.some_inj] at hfound
      rw [← hfound]
      rfl
    · rfl
  · rename_i hne
    rw [hother rfl fun entries heq => hne entries heq]
    refine Prod.ext rfl ?_
    have hnone : tableLabels blocked (members.lookup key) = [] := by
      unfold tableLabels
      split
      · rename_i entries heq
        exact absurd heq (hne entries)
      · rfl
    rw [hnone, List.append_nil]

theorem lookup_map (members : List (String × JsonTree N)) (f : String × JsonTree N → JsonTree N) (key : String)
    (hf : ∀ t, f (key, t) = t) :
    (members.map fun member => (member.1, f member)).lookup key = members.lookup key := by
  induction members with
  | nil => rfl
  | cons member members ih =>
    obtain ⟨name, t⟩ := member
    rw [List.map_cons, List.lookup_cons, List.lookup_cons, ih]
    cases hkey : key == name with
    | true =>
      rw [beq_iff_eq] at hkey
      subst hkey
      rw [hf]
    | false => rfl

/-- The parsed filter changes each member on its own, and reports both tables. -/
theorem stripRepodata_object {members : List (String × JsonTree N)}
    (h : (members.map Prod.fst).Nodup) :
    stripRepodata blocked (.object members) =
      (.object (members.map fun member => (member.1, strippedValue blocked member)),
        PACKAGE_MAPS.flatMap fun key => tableLabels blocked (members.lookup key)) := by
  have hnodup : ((members.map fun member => (member.1,
      if member.1 = "packages" then strippedTable blocked member.2 else member.2)).map
        Prod.fst).Nodup := by
    rw [List.map_map]
    exact h
  have hlookup := lookup_map members (fun member =>
    if member.1 = "packages" then strippedTable blocked member.2 else member.2) "packages.conda"
    fun t => if_neg (show ¬ "packages.conda" = "packages" by decide)
  unfold stripRepodata PACKAGE_MAPS
  simp only [List.foldl_cons, List.foldl_nil, stripTable_eq blocked h, stripTable_eq blocked hnodup,
    hlookup, List.nil_append, List.map_map, List.flatMap_cons, List.flatMap_nil, List.append_nil]
  refine Prod.ext (congrArg JsonTree.object (List.map_congr_left fun member _ => ?_)) rfl
  refine Prod.ext rfl ?_
  obtain ⟨key, t⟩ := member
  dsimp only [Function.comp]
  by_cases hfirst : key = "packages"
  · subst hfirst
    rfl
  · by_cases hsecond : key = "packages.conda"
    · subst hsecond
      rfl
    · have hnot : key ∉ PACKAGE_MAPS := by
        rw [PACKAGE_MAPS, List.mem_cons, List.mem_singleton, not_or]
        exact ⟨hfirst, hsecond⟩
      rw [if_neg hsecond, if_neg hfirst, strippedValue, if_neg hnot]

end Stripping

section Reports
variable {N : Type} (blocked : MultiPackageBlocks)

/-- What is found under one key of a list of keys stands once among the rest. -/
theorem flatMap_if_perm {keys : List String} (h : keys.Nodup) (key : String) (x : List String)
    (f : String → List String) (hf : f key = []) :
    (keys.flatMap fun k => if k = key then x else f k).Perm
      ((if key ∈ keys then x else []) ++ keys.flatMap f) := by
  induction keys with
  | nil => exact List.Perm.refl _
  | cons k keys ih =>
    obtain ⟨hfresh, hrest⟩ := List.nodup_cons.mp h
    have htail := ih hrest
    rw [List.flatMap_cons, List.flatMap_cons]
    by_cases hk : k = key
    · subst hk
      rw [if_neg hfresh, List.nil_append] at htail
      rw [if_pos rfl, if_pos List.mem_cons_self, hf, List.nil_append]
      exact htail.append_left x
    · have hmem : key ∈ k :: keys ↔ key ∈ keys := by
        rw [List.mem_cons, or_iff_right (fun heq => hk heq.symm)]
      rw [if_neg hk, if_congr hmem rfl rfl]
      refine (htail.append_left (f k)).trans ?_
      rw [← List.append_assoc, ← List.append_assoc]
      exact List.perm_append_comm.append_right _

/-- A report by keys is one by members. -/
theorem flatMap_lookup_perm {members : List (String × JsonTree N)} (h : (members.map Prod.fst).Nodup)
    {keys : List String} (hkeys : keys.Nodup) :
    (keys.flatMap fun key => tableLabels blocked (members.lookup key)).Perm
      (members.flatMap fun member =>
        if member.1 ∈ keys then tableLabels blocked (some member.2) else []) := by
  induction members with
  | nil =>
    refine List.Perm.of_eq ?_
    rw [List.flatMap_nil, List.flatMap_eq_nil_iff]
    exact fun key _ => rfl
  | cons member members ih =>
    obtain ⟨name, t⟩ := member
    rw [List.map_cons, List.nodup_cons] at h
    have habsent : members.lookup name = none := by
      rw [List.lookup_eq_none_iff]
      intro member hmember
      rw [bne_iff_ne]
      rintro rfl
      exact h.1 (List.mem_map.mpr ⟨_, hmember, rfl⟩)
    have hlookup : ∀ key : String, tableLabels blocked (List.lookup key ((name, t) :: members)) =
        if key = name then tableLabels blocked (some t)
        else tableLabels blocked (members.lookup key) := by
      intro key
      rw [List.lookup_cons]
      by_cases hkey : key = name
      · rw [if_pos hkey, beq_iff_eq.mpr hkey]
      · rw [if_neg hkey, beq_eq_false_iff_ne.mpr hkey]
    simp only [hlookup]
    rw [List.flatMap_cons]
    refine (flatMap_if_perm hkeys name _ _ (by rw [habsent]; rfl)).trans ?_
    exact (ih h.2).append_left _

theorem tableLabels_value (member : String × JsonTree N) :
    (if member.1 ∈ PACKAGE_MAPS then tableLabels blocked (some (value member.2)) else []).Perm
      (labels blocked (kept (tableEntries member))) := by
  obtain ⟨key, t⟩ := member
  unfold tableEntries
  dsimp only
  split_ifs with hkey
  · cases t with
    | object entries =>
      rw [value]
      exact labels_perm blocked (mapOf_perm (valueMembers entries))
    | _ => exact List.Perm.refl _
  · exact List.Perm.refl _

/-- The parsed filter reports the blocked entries that a parser keeps. -/
theorem stripped_labels_perm (members : List (String × JsonTree N)) :
    (stripRepodata blocked (value (.object members))).2.Perm
      ((kept members).flatMap fun member => labels blocked (kept (tableEntries member))) := by
  rw [value, stripRepodata_object blocked (nodup_keys_mapOf _)]
  refine (flatMap_lookup_perm blocked (nodup_keys_mapOf _) (by decide)).trans ?_
  refine ((mapOf_perm (valueMembers members)).flatMap_right _).trans ?_
  rw [valueMembers_eq_map, kept_map, List.flatMap_map]
  exact List.Perm.flatMap_left _ fun member _ => tableLabels_value blocked member

end Reports

section Documents
variable {N : Type} (blocked : MultiPackageBlocks)

/-- A dropped entry that a parser keeps has only dropped ones of its file name before it. -/
def Clear (entries : List (String × JsonTree N)) : Prop :=
  ∀ entry ∈ kept entries, drops blocked entry.2 = true →
    ∀ entry' ∈ entries, entry'.1 = entry.1 → drops blocked entry'.2 = true

theorem valueMembers_of_values {entries : List (String × JsonTree N)}
    (h : ∀ entry ∈ entries, value entry.2 = entry.2) : valueMembers entries = entries := by
  rw [valueMembers_eq_map]
  conv_rhs => rw [← List.map_id entries]
  exact List.map_congr_left fun entry hentry => Prod.ext rfl (h entry hentry)

theorem value_of_mem_tableEntries {member entry : String × JsonTree N}
    (h : entry ∈ tableEntries member) : value entry.2 = entry.2 := by
  unfold tableEntries at h
  split_ifs at h
  · split at h
    · rw [valueMembers_eq_map] at h
      obtain ⟨spelled, -, rfl⟩ := List.mem_map.mp h
      exact value_value spelled.2
    · cases h
  · cases h

/-- One member of the two documents. -/
theorem streamedValue_eq_iff {member : String × JsonTree N}
    (h : member.1 ∈ PACKAGE_MAPS → ∃ entries, member.2 = .object entries) :
    value (streamedValue blocked member) =
        strippedValue blocked (member.1, value member.2) ↔
      Clear blocked (tableEntries member) := by
  obtain ⟨key, t⟩ := member
  by_cases hkey : key ∈ PACKAGE_MAPS
  · obtain ⟨entries, heq⟩ := h hkey
    obtain rfl : t = .object entries := heq
    have hentries : tableEntries (key, .object entries) = valueMembers entries := if_pos hkey
    have hvalues : valueMembers ((tableEntries (key, .object entries)).filter
        fun entry => !drops blocked entry.2) =
        (valueMembers entries).filter fun entry => !drops blocked entry.2 := by
      rw [valueMembers_of_values fun entry hentry =>
        value_of_mem_tableEntries (List.mem_filter.mp hentry).1, hentries]
    rw [streamedValue, if_pos hkey, strippedValue, if_pos hkey, value, hvalues, value,
      strippedTable, JsonTree.object.injEq, mapOf_filter_iff, hentries, Clear]
    simp only [Bool.not_eq_false']
  · have hentries : tableEntries (key, t) = [] := if_neg hkey
    rw [streamedValue, if_neg hkey, strippedValue, if_neg hkey, value_value, hentries]
    exact iff_of_true rfl fun entry hentry => absurd hentry List.not_mem_nil

/-- The document that is written stands for the stripped one exactly where no dropped entry
shadows one that stays. -/
theorem documents_eq_iff {members : List (String × JsonTree N)} (h : Tables members) :
    value (.object (members.map fun member => (member.1, streamedValue blocked member))) =
        (stripRepodata blocked (value (.object members))).1 ↔
      ∀ member ∈ kept members, Clear blocked (tableEntries member) := by
  have hstripped : (stripRepodata blocked (value (.object members))).1 =
      .object (mapOf (members.map fun member =>
        (member.1, strippedValue blocked (member.1, value member.2)))) := by
    rw [value, stripRepodata_object blocked (nodup_keys_mapOf _), ← mapOf_map,
      valueMembers_eq_map, List.map_map]
    rfl
  have hwritten : value (.object (members.map fun member =>
      (member.1, streamedValue blocked member))) =
      .object (mapOf (members.map fun member =>
        (member.1, value (streamedValue blocked member)))) := by
    rw [value, valueMembers_eq_map, List.map_map]
    rfl
  rw [hstripped, hwritten, JsonTree.object.injEq, mapOf_map_eq_iff]
  exact forall₂_congr fun member hmember =>
    streamedValue_eq_iff blocked (h member (mem_of_mem_kept hmember))

end Documents

section Agreement
variable {N : Type} (num : Numerals N) (limit : ℕ) (blocked : MultiPackageBlocks)

/-- No blocked entry is replaced by a later one, nor replaces an earlier one, of its table or
its file name. -/
structure Alone (members : List (String × JsonTree N)) : Prop where
  tables : ∀ member ∈ shadowed members, ∀ entry ∈ tableEntries member,
    drops blocked entry.2 = false
  entries : ∀ member ∈ kept members, ∀ entry ∈ shadowed (tableEntries member),
    drops blocked entry.2 = false ∧
      ∀ last ∈ kept (tableEntries member), last.1 = entry.1 → drops blocked last.2 = false

theorem alone_iff (members : List (String × JsonTree N)) :
    Alone blocked members ↔
      (∀ member ∈ kept members, Clear blocked (tableEntries member)) ∧
        leftover blocked members = [] := by
  rw [leftover_eq_nil_iff]
  constructor
  · intro h
    refine ⟨?_, fun member hmember entry hentry => (h.entries member hmember entry hentry).1,
      h.tables⟩
    intro member hmember last hlast hdrop entry hentry hkey
    rcases List.mem_append.mp ((kept_append_shadowed _).symm.subset hentry) with hkept | hshadow
    · rw [eq_of_mem_kept hkept hlast hkey]
      exact hdrop
    · have hstays := (h.entries member hmember entry hshadow).2 last hlast hkey.symm
      rw [hdrop] at hstays
      cases hstays
  · rintro ⟨hclear, hentries, htables⟩
    refine ⟨htables, fun member hmember entry hentry => ⟨hentries member hmember entry hentry, ?_⟩⟩
    intro last hlast hkey
    by_contra hdrop
    rw [Bool.not_eq_false] at hdrop
    have hall : entry ∈ tableEntries member :=
      (kept_append_shadowed _).subset (List.mem_append_right _ hentry)
    have hearlier := hclear member hmember last hlast hdrop entry hall hkey.symm
    rw [hentries member hmember entry hentry] at hearlier
    cases hearlier

/-- The document that the streamed filter writes, where it writes one. -/
def written (members : List (String × JsonTree N)) : JsonTree N :=
  .object (members.map fun member => (member.1, streamedValue blocked member))

theorem filterRepodata_object {bytes rest : Bytes} {members : List (String × JsonTree N)}
    (hread : readValue num (limit + 2) bytes = some (.object members, rest))
    (htables : Tables members) :
    filterRepodata num limit blocked bytes =
      some (write num (written blocked members),
        members.flatMap fun member => labels blocked (tableEntries member)) := by
  obtain ⟨first, hfold⟩ := foldlM_stepMember num blocked members htables ⟨[openBrace], true, []⟩
  rw [filterRepodata_eq, hread, Option.bind_some]
  simp only [hfold, Option.map_some]
  simp [written, write]

theorem filterRepodata_none {bytes rest : Bytes} {t : JsonTree N}
    (hread : readValue num (limit + 2) bytes = some (t, rest))
    (h : ∀ members, t = .object members → ¬ Tables members) :
    filterRepodata num limit blocked bytes = none := by
  rw [filterRepodata_eq, hread, Option.bind_some]
  cases t with
  | object members =>
    simp only [foldlM_stepMember_none num blocked members (h members rfl), Option.map_none]
  | _ => rfl

/-- No more is open in the written document than in the one that was read. -/
theorem depth_written_le {members : List (String × JsonTree N)} (htables : Tables members)
    (h : (JsonTree.object members).depth ≤ limit + 2) :
    (written blocked members).depth ≤ limit + 2 := by
  have hmembers := depthMembers_le.mp (Nat.le_of_succ_le_succ h)
  refine Nat.succ_le_succ (depthMembers_le.mpr ?_)
  intro member hmember
  obtain ⟨⟨key, t⟩, hmem, rfl⟩ := List.mem_map.mp hmember
  have hdepth := hmembers (key, t) hmem
  dsimp only
  by_cases hkey : key ∈ PACKAGE_MAPS
  · obtain ⟨entries, heq⟩ := htables (key, t) hmem hkey
    obtain rfl : t = .object entries := heq
    rw [streamedValue, if_pos hkey]
    refine Nat.succ_le_succ (depthMembers_le.mpr ?_)
    intro entry hentry
    have hspelled := (List.mem_filter.mp hentry).1
    rw [show tableEntries (key, .object entries) = valueMembers entries from if_pos hkey,
      valueMembers_eq_map] at hspelled
    obtain ⟨spelled, hmember', rfl⟩ := List.mem_map.mp hspelled
    have hentries := depthMembers_le.mp (Nat.le_of_succ_le_succ hdepth)
    exact (depth_value_le spelled.2).trans (hentries spelled hmember')
  · rw [streamedValue, if_neg hkey]
    exact (depth_value_le t).trans hdepth

/-- The streamed filter answers for whole object documents only, and then as the parsed one. -/
def Agrees (bytes : Bytes) : Prop :=
  ((filterRepodata num limit blocked bytes).isSome = true ↔
      ∃ members, parseDocument num (limit + 2) bytes = some (.object members)) ∧
    ∀ out removed, filterRepodata num limit blocked bytes = some (out, removed) →
      ∃ doc, parseDocument num (limit + 2) bytes = some doc ∧
        parseDocument num (limit + 2) out = some (stripRepodata blocked doc).1 ∧
          removed.Perm (stripRepodata blocked doc).2

/-- An object at the front of the bytes has nothing behind it and objects for tables, in which
every blocked entry stands alone; or it has something behind it and a table that is no object. -/
def Clean (bytes : Bytes) : Prop :=
  ∀ members rest, readValue num (limit + 2) bytes = some (.object members, rest) →
    (skipBlank rest = [] ∧ Tables members ∧ Alone blocked members) ∨
      (skipBlank rest ≠ [] ∧ ¬ Tables members)

theorem parseDocument_of_read {bytes rest : Bytes} {t : JsonTree N}
    (hread : readValue num (limit + 2) bytes = some (t, rest)) :
    parseDocument num (limit + 2) bytes = if skipBlank rest = [] then some (value t) else none := by
  rw [parseDocument, hread]

/-- Bytes without an object at their front are refused by both. -/
theorem agrees_of_no_object {bytes : Bytes}
    (h : ∀ members rest, readValue num (limit + 2) bytes ≠ some (.object members, rest)) :
    Agrees num limit blocked bytes := by
  have hnone : filterRepodata num limit blocked bytes = none := by
    cases hread : readValue num (limit + 2) bytes with
    | none => rw [filterRepodata_eq, hread, Option.bind_none]
    | some read =>
      exact filterRepodata_none num limit blocked hread
        fun members heq => absurd (by rw [hread, ← heq]) (h members read.2)
  have hparse : ¬ ∃ members, parseDocument num (limit + 2) bytes = some (.object members) := by
    rintro ⟨members, hparse⟩
    unfold parseDocument at hparse
    split at hparse
    · rename_i t rest hread
      split_ifs at hparse
      cases t with
      | object spelled => exact h spelled rest hread
      | array items => rw [value] at hparse; cases hparse
      | null => cases hparse
      | bool b => cases hparse
      | number n => cases hparse
      | string s => cases hparse
    · cases hparse
  unfold Agrees
  rw [hnone]
  exact ⟨iff_of_false (by decide) hparse, fun _ _ h => by cases h⟩

theorem agrees_object_iff {bytes rest : Bytes} {members : List (String × JsonTree N)}
    (hread : readValue num (limit + 2) bytes = some (.object members, rest)) :
    Agrees num limit blocked bytes ↔
      (skipBlank rest = [] ∧ Tables members ∧ Alone blocked members) ∨
        (skipBlank rest ≠ [] ∧ ¬ Tables members) := by
  have hparse := parseDocument_of_read num limit hread
  by_cases htables : Tables members
  · have hfilter := filterRepodata_object num limit blocked hread htables
    by_cases hrest : skipBlank rest = []
    · rw [if_pos hrest] at hparse
      have hout : parseDocument num (limit + 2) (write num (written blocked members)) =
          some (value (written blocked members)) :=
        parseDocument_write num (limit + 2)
          (depth_written_le limit blocked htables (readValue_depth hread))
      have hdocs := documents_eq_iff blocked htables
      have hremoved := removed_perm_iff blocked members
      have hstripped := stripped_labels_perm blocked members
      have hagree : Agrees num limit blocked bytes ↔
          value (written blocked members) = (stripRepodata blocked (value (.object members))).1 ∧
            (members.flatMap fun member => labels blocked (tableEntries member)).Perm
              (stripRepodata blocked (value (.object members))).2 := by
        unfold Agrees
        rw [hfilter, hparse]
        constructor
        · rintro ⟨-, hboth⟩
          obtain ⟨doc, hdoc, hwritten, hperm⟩ := hboth _ _ rfl
          obtain rfl := Option.some.inj hdoc
          rw [hout, Option.some_inj] at hwritten
          exact ⟨hwritten, hperm⟩
        · rintro ⟨hwritten, hperm⟩
          refine ⟨iff_of_true rfl ⟨_, rfl⟩, ?_⟩
          intro out removed heq
          obtain ⟨rfl, rfl⟩ := Prod.mk.inj (Option.some.inj heq)
          exact ⟨_, rfl, by rw [hout, hwritten], hperm⟩
      have hperm : (members.flatMap fun member => labels blocked (tableEntries member)).Perm
          (stripRepodata blocked (value (.object members))).2 ↔ leftover blocked members = [] := by
        rw [← hremoved]
        exact ⟨fun h => h.trans hstripped, fun h => h.trans hstripped.symm⟩
      have hwritten : value (written blocked members) =
          (stripRepodata blocked (value (.object members))).1 ↔
          ∀ member ∈ kept members, Clear blocked (tableEntries member) := hdocs
      rw [hagree, hperm, hwritten, ← alone_iff]
      simp [hrest, htables]
    · rw [if_neg hrest] at hparse
      refine iff_of_false ?_ ?_
      · rintro ⟨hiff, -⟩
        obtain ⟨doc, hdoc⟩ := hiff.mp (by rw [hfilter]; rfl)
        rw [hparse] at hdoc
        cases hdoc
      · rintro (⟨hnil, -⟩ | ⟨-, hnot⟩)
        · exact hrest hnil
        · exact hnot htables
  · have hnone := filterRepodata_none num limit blocked hread
      fun members' heq => by rw [← JsonTree.object.inj heq]; exact htables
    by_cases hrest : skipBlank rest = []
    · rw [if_pos hrest] at hparse
      refine iff_of_false ?_ ?_
      · rintro ⟨hiff, -⟩
        have hsome := hiff.mpr ⟨_, hparse⟩
        rw [hnone] at hsome
        cases hsome
      · rintro (⟨-, hyes, -⟩ | ⟨hne, -⟩)
        · exact htables hyes
        · exact hne hrest
    · rw [if_neg hrest] at hparse
      refine iff_of_true ?_ (.inr ⟨hrest, htables⟩)
      unfold Agrees
      rw [hnone, hparse]
      exact ⟨iff_of_false (by decide) fun ⟨_, h⟩ => (nomatch h), fun _ _ h => nomatch h⟩

/-- The streamed filter equals the parsed one on exactly the clean inputs, and the fuel of the
readers behind both, the length of what is left to read, never runs out. -/
theorem filters_agree_iff (blocked : MultiPackageBlocks) (bytes : Bytes) :
    (Agrees num limit blocked bytes ↔ Clean num limit blocked bytes) ∧
      ∀ (depth extra : ℕ) (input : Bytes),
        readChars (input.length + extra) input = readChars input.length input ∧
          visitMembers (collect (readValue num depth)) (input.length + extra) true [] input =
            readMembers (readValue num depth) input ∧
          readItems (readValue num depth) (input.length + extra) true [] input =
            readItems (readValue num depth) input.length true [] input := by
  refine ⟨?_, fun depth extra input => fuel_suffices num depth extra⟩
  by_cases hobject : ∃ members rest,
      readValue num (limit + 2) bytes = some (.object members, rest)
  · obtain ⟨members, rest, hread⟩ := hobject
    rw [agrees_object_iff num limit blocked hread]
    constructor
    · intro h members' rest' hread'
      rw [hread] at hread'
      obtain ⟨hobject, rfl⟩ := Prod.mk.inj (Option.some.inj hread')
      obtain rfl := JsonTree.object.inj hobject
      exact h
    · exact fun h => h members rest hread
  · have hnot : ∀ members rest,
        readValue num (limit + 2) bytes ≠ some (.object members, rest) :=
      fun members rest hread => hobject ⟨members, rest, hread⟩
    exact iff_of_true (agrees_of_no_object num limit blocked hnot)
      fun members rest hread => absurd hread (hnot members rest)

end Agreement

section Inputs

/-- The digits and letters of a number behind its sign and integer part. -/
def isExponent : Bytes → Bool
  | [] => true
  | e :: rest =>
    let digits := match rest with
      | 43 :: digits | 45 :: digits => digits
      | digits => digits
    (e = 69 || e = 101) && !digits.isEmpty && digits.all fun b => 48 ≤ b && b ≤ 57

def isFraction (bytes : Bytes) : Bool :=
  match bytes with
  | 46 :: d :: rest =>
    (48 ≤ d && d ≤ 57) && isExponent (rest.dropWhile fun b => 48 ≤ b && b ≤ 57)
  | bytes => isExponent bytes

/-- The integer part, which has no leading zero, and what follows it. -/
def isUnsigned : Bytes → Bool
  | [] => false
  | d :: rest =>
    if d = 48 then isFraction rest
    else (49 ≤ d && d ≤ 57) && isFraction (rest.dropWhile fun b => 48 ≤ b && b ≤ 57)

def isNumeral : Bytes → Bool
  | [] => false
  | b :: rest =>
    startsNumber b && (b :: rest).all isNumberByte &&
      isUnsigned (if b = 45 then rest else b :: rest)

/-- Numbers kept as their texts. -/
structure NumberText where
  text : Bytes
  valid : isNumeral text = true

def numberTexts : Numerals NumberText where
  read bytes := if h : isNumeral bytes = true then some ⟨bytes, h⟩ else none
  write n := n.text
  read_write n := dif_pos n.valid
  write_bytes n := by
    obtain ⟨text, hvalid⟩ := n
    cases text with
    | nil => cases hvalid
    | cons b rest =>
      rw [isNumeral, Bool.and_eq_true, Bool.and_eq_true, List.all_eq_true] at hvalid
      exact hvalid.1.2
  write_head n := by
    obtain ⟨text, hvalid⟩ := n
    cases text with
    | nil => cases hvalid
    | cons b rest =>
      rw [isNumeral, Bool.and_eq_true, Bool.and_eq_true] at hvalid
      exact ⟨b, rest, rfl, hvalid.1.1⟩

/-- The recursion limit of the reader, less the document, its table and its entry. -/
def ENTRY_LIMIT : ℕ := 125

def blockedSix : MultiPackageBlocks := ⟨[("six", "1.17.0")]⟩

/-- A document whose table is null. -/
def nullTable : Bytes := Framing.utf8 "\x7b\"packages\":null, \"n\": -1.5e3\x7d"

/-- A document with more behind it. -/
def trailingInput : Bytes := Framing.utf8 "\x7b\x7d x"

/-- A blocked entry that replaces one that is not. -/
def replacedEntry : Bytes := Framing.utf8
  ("\x7b\"packages\": \x7b\"a\": \x7b\"name\": \"six\", \"version\": \"1\"\x7d, " ++
    "\"a\": \x7b\"name\": \"six\", \"version\": \"1.17.0\"\x7d\x7d\x7d")

def servedEntry : Bytes := Framing.utf8
  "\x7b\"packages\":\x7b\"a\":\x7b\"name\":\"six\",\"version\":\"1\"\x7d\x7d\x7d"

def isObject {N : Type} : JsonTree N → Bool
  | .object _ => true
  | _ => false

theorem filters_disagree :
    ¬ Agrees numberTexts ENTRY_LIMIT blockedSix nullTable ∧
      ¬ Agrees numberTexts ENTRY_LIMIT blockedSix trailingInput ∧
        ¬ Agrees numberTexts ENTRY_LIMIT blockedSix replacedEntry := by
  refine ⟨?_, ?_, ?_⟩
  · rintro ⟨hiff, -⟩
    have hrefused : filterRepodata numberTexts ENTRY_LIMIT blockedSix nullTable = none := by
      decide +kernel
    have hobject : (parseDocument numberTexts (ENTRY_LIMIT + 2) nullTable).any isObject = true := by
      decide +kernel
    rw [hrefused] at hiff
    cases hparse : parseDocument numberTexts (ENTRY_LIMIT + 2) nullTable with
    | none =>
      rw [hparse] at hobject
      cases hobject
    | some doc =>
      rw [hparse] at hobject
      cases doc with
      | object members => cases hiff.mpr ⟨members, hparse⟩
      | _ => cases hobject
  · rintro ⟨hiff, -⟩
    have hserved : (filterRepodata numberTexts ENTRY_LIMIT blockedSix trailingInput).isSome =
        true := by decide +kernel
    have hrefused : (parseDocument numberTexts (ENTRY_LIMIT + 2) trailingInput).isNone = true := by
      decide +kernel
    obtain ⟨members, hparse⟩ := hiff.mp hserved
    rw [hparse] at hrefused
    cases hrefused
  · rintro ⟨-, hboth⟩
    have hserved : filterRepodata numberTexts ENTRY_LIMIT blockedSix replacedEntry =
        some (servedEntry, ["six-1.17.0"]) := by decide +kernel
    have hstripped : (parseDocument numberTexts (ENTRY_LIMIT + 2) replacedEntry).map
        (fun doc => write numberTexts (stripRepodata blockedSix doc).1) =
          some (Framing.utf8 "\x7b\"packages\":\x7b\x7d\x7d") := by decide +kernel
    have hseen : (parseDocument numberTexts (ENTRY_LIMIT + 2) servedEntry).map
        (write numberTexts) = some servedEntry := by decide +kernel
    obtain ⟨doc, hdoc, hout, -⟩ := hboth _ _ hserved
    rw [hdoc, Option.map_some] at hstripped
    rw [hout, Option.map_some, hstripped] at hseen
    exact absurd hseen (by decide +kernel)

end Inputs

end BatleHub.CondaStream
