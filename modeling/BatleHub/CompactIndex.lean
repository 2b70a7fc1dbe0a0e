import BatleHub.Integrity
import BatleHub.Lib.Framing
import BatleHub.Lib.Lines
import BatleHub.Lib.Segments
import Mathlib.Data.List.DropRight
import Mathlib.Data.List.Forall2

/-!
The block filters of the RubyGems compact index (`blocking/rubygems.rs`): the versions of one
gem, a line each, and the versions of all gems, a line for each gem. Both filters edit lines
and leave what they do not understand.
-/
namespace BatleHub.CompactIndex

open Lib.Lines
open Lib.Texts (isWhiteSpace)

abbrev Text := List Char

section Blocks

/-- The key of this protocol's versions is the version. -/
def normalize (version : Text) : Text := version

/-- The blocked versions of one gem. -/
structure BlockedVersions where
  versions : List Text

def BlockedVersions.contains (blocked : BlockedVersions) (version : Text) : Bool :=
  decide (normalize version ∈ blocked.versions.map normalize)

/-- The blocked gems and versions of a registry. -/
structure MultiPackageBlocks where
  pairs : List (Text × Text)

def MultiPackageBlocks.contains (blocks : MultiPackageBlocks) (name version : Text) : Bool :=
  decide (normalize version ∈
    (blocks.pairs.filter fun pair => decide (pair.1 = name)).map fun pair => normalize pair.2)

end Blocks

section Filters

/-- `str::trim_end`. -/
def trimEnd (text : Text) : Text := text.rdropWhile isWhiteSpace

/-- What stands before the platform of a version. -/
def bare (field : Text) : Text := field.takeWhile fun c => decide (c ≠ '-')

/-- The lines that declare nothing. -/
def isHeader (line : Text) : Bool :=
  decide (line = []) || decide (line = ['-', '-', '-']) ||
    "created_at:".toList.isPrefixOf line

/-- The first field of a line of `/info`, none for the header and the separator. -/
def compactInfoField (segment : Text) : Option Text :=
  let line := trimEnd segment
  if isHeader line then none
  else ((line.splitOnP isWhiteSpace).filter fun field => decide (field ≠ [])).head?

def compactInfoVersion (segment : Text) : Option Text := (compactInfoField segment).map bare

def stripInfoLines (blocked : BlockedVersions) : List Text → List Text × List Text
  | [] => ([], [])
  | segment :: segments =>
    let (out, removed) := stripInfoLines blocked segments
    match compactInfoVersion segment with
    | some version =>
      if blocked.contains version then (out, version :: removed) else (segment :: out, removed)
    | none => (segment :: out, removed)

/-- The filtered `/info` of a gem, and the versions that were removed. -/
def stripCompactInfo (text : Text) (blocked : BlockedVersions) : Text × List Text :=
  let (out, removed) := stripInfoLines blocked (splitInclusive '\n' text)
  (out.flatten, removed)

/-- `str::strip_suffix` of one character. -/
def stripSuffix (c : Char) (text : Text) : Option Text :=
  if text.getLast? = some c then some text.dropLast else none

/-- A line of `/versions` without its terminator. -/
def lineOf (segment : Text) : Text :=
  match stripSuffix '\n' segment with
  | none => segment
  | some line => (stripSuffix '\r' line).getD line

def endingOf (segment : Text) : Text := segment.drop (lineOf segment).length

/-- `name versions checksum`, if a line is nothing else. -/
def splitCompactVersionsLine (line : Text) : Option (Text × Text × Text) :=
  let line := trimEnd line
  if isHeader line then none
  else
    match line.splitOn ' ' with
    | [name, versions, checksum] =>
      if name = [] ∨ versions = [] then none else some (name, versions, checksum)
    | _ => none

def joined (fields : List Text) : Text := [','].intercalate fields

variable (lib : Integrity.Hashes)

def rewrittenInfoChecksum (upstream : Text) (kept : List Text) : Text :=
  Lib.Hex.encode ((lib.sha256.digest (Lib.Framing.utf8 (String.ofList upstream) ++
    0 :: Lib.Framing.utf8 (String.ofList (joined kept)))).take 16)

/-- The line of a gem without its blocked versions, and what was removed. -/
def editLine (blocks : MultiPackageBlocks) (segment : Text) : Option Text × List Text :=
  match splitCompactVersionsLine (lineOf segment) with
  | none => (some segment, [])
  | some (name, versions, checksum) =>
    let fields := versions.splitOn ','
    let kept := fields.filter fun field => !blocks.contains name (bare field)
    let removed := (fields.filter fun field => blocks.contains name (bare field)).map
      fun field => name ++ '-' :: bare field
    if kept.length = fields.length then (some segment, removed)
    else if kept = [] then (none, removed)
    else
      (some (name ++ ' ' :: (joined kept ++ ' ' :: (rewrittenInfoChecksum lib checksum kept ++
        endingOf segment))), removed)

def stripVersionsLines (blocks : MultiPackageBlocks) : List Text → List Text × List Text
  | [] => ([], [])
  | segment :: segments =>
    let (out, removed) := stripVersionsLines blocks segments
    match editLine lib blocks segment with
    | (some segment', removed') => (segment' :: out, removed' ++ removed)
    | (none, removed') => (out, removed' ++ removed)

/-- The filtered `/versions`, and the entries that were removed. -/
def stripCompactVersions (text : Text) (blocks : MultiPackageBlocks) : Text × List Text :=
  let (out, removed) := stripVersionsLines lib blocks (splitInclusive '\n' text)
  (out.flatten, removed)

end Filters

section Info
variable {blocked : BlockedVersions}

/-- The lines of `/info` that declare a version, and the word that does: the first one. -/
theorem compactInfoField_eq_some_iff {segment field : Text} :
    compactInfoField segment = some field ↔
      isHeader (trimEnd segment) = false ∧
        (field ≠ [] ∧ ∀ c ∈ field, isWhiteSpace c = false) ∧
        ∃ blanks rest, trimEnd segment = blanks ++ field ++ rest ∧
          (∀ c ∈ blanks, isWhiteSpace c = true) ∧ ∀ c ∈ rest.head?, isWhiteSpace c = true := by
  unfold compactInfoField
  dsimp only
  rw [← Lib.Segments.head_words_eq_some_iff]
  cases hheader : isHeader (trimEnd segment) with
  | true => simp
  | false => simp

/-- A line of `/info` that declares a blocked version. -/
def blockedLine (blocked : BlockedVersions) (segment : Text) : Bool :=
  (compactInfoVersion segment).any blocked.contains

theorem stripInfoLines_eq (segments : List Text) :
    stripInfoLines blocked segments =
      (segments.filter fun segment => !blockedLine blocked segment,
        (segments.filterMap compactInfoVersion).filter blocked.contains) := by
  induction segments with
  | nil => rfl
  | cons segment segments ih =>
    unfold stripInfoLines
    rw [ih]
    cases hversion : compactInfoVersion segment with
    | none =>
      have hfree : blockedLine blocked segment = false := by rw [blockedLine, hversion]; rfl
      rw [List.filterMap_cons_none hversion, List.filter_cons_of_pos (by rw [hfree]; rfl)]
    | some version =>
      have hline : blockedLine blocked segment = blocked.contains version := by
        rw [blockedLine, hversion]
        rfl
      rw [List.filterMap_cons_some hversion, List.filter_cons, List.filter_cons, hline]
      dsimp only
      cases hblocked : blocked.contains version with
      | true => rw [if_pos rfl, if_pos rfl, if_neg (by decide)]
      | false => rw [if_neg Bool.false_ne_true, if_neg Bool.false_ne_true, if_pos (by decide)]

/-- The lines of a filtered `/info` are those that declare no blocked version. -/
theorem lines_stripCompactInfo (text : Text) :
    splitInclusive '\n' (stripCompactInfo text blocked).1 =
      (splitInclusive '\n' text).filter fun segment => !blockedLine blocked segment := by
  have hcut : Cut '\n' ((splitInclusive '\n' text).filter
      fun segment => !blockedLine blocked segment) := by
    rw [← List.filterMap_eq_filter]
    refine (cut_splitInclusive text).filterMap ?_
    intro line line' hline
    obtain ⟨rfl, -⟩ := Option.guard_eq_some_iff.mp hline
    exact ⟨id, id⟩
  unfold stripCompactInfo
  rw [stripInfoLines_eq]
  exact splitInclusive_flatten hcut

theorem stripCompactInfo_twice (text : Text) :
    stripCompactInfo (stripCompactInfo text blocked).1 blocked =
      ((stripCompactInfo text blocked).1, []) := by
  have hlines : splitInclusive '\n' (stripCompactInfo text blocked).1 = _ :=
    lines_stripCompactInfo text
  have hsame : (splitInclusive '\n' (stripCompactInfo text blocked).1).flatten = _ :=
    flatten_splitInclusive _
  generalize hout : (stripCompactInfo text blocked).1 = out at hlines hsame ⊢
  have hfree : ∀ segment ∈ splitInclusive '\n' out, blockedLine blocked segment = false := by
    intro segment hsegment
    rw [hlines] at hsegment
    simpa using (List.mem_filter.mp hsegment).2
  unfold stripCompactInfo
  rw [stripInfoLines_eq]
  refine Prod.ext ?_ ?_
  · dsimp only
    rw [List.filter_eq_self.mpr (fun segment hsegment => by rw [hfree segment hsegment]; rfl)]
    exact hsame
  · dsimp only
    rw [List.filter_eq_nil_iff]
    intro version hversion
    obtain ⟨segment, hsegment, heq⟩ := List.mem_filterMap.mp hversion
    have hnot := hfree segment hsegment
    rw [blockedLine, heq] at hnot
    exact Bool.eq_false_iff.mp hnot

end Info

section Versions
variable {lib : Integrity.Hashes} {blocks : MultiPackageBlocks}
  {segment line name versions checksum : Text}

theorem splitOn_three (hname : ' ' ∉ name) (hversions : ' ' ∉ versions)
    (hchecksum : ' ' ∉ checksum) :
    (name ++ ' ' :: (versions ++ ' ' :: checksum)).splitOn ' ' = [name, versions, checksum] := by
  rw [List.splitOn_append_cons_self_of_not_mem hname,
    List.splitOn_append_cons_self_of_not_mem hversions, List.splitOn_eq_singleton hchecksum]

/-- The lines of `/versions` that declare a gem: three fields with one blank between each two,
of which the last may be empty. -/
theorem splitCompactVersionsLine_eq_some_iff :
    splitCompactVersionsLine line = some (name, versions, checksum) ↔
      isHeader (trimEnd line) = false ∧
        trimEnd line = name ++ ' ' :: (versions ++ ' ' :: checksum) ∧
        (' ' ∉ name ∧ ' ' ∉ versions ∧ ' ' ∉ checksum) ∧ name ≠ [] ∧ versions ≠ [] := by
  unfold splitCompactVersionsLine
  dsimp only
  constructor
  · intro h
    split at h
    · cases h
    · rename_i hheader
      refine ⟨Bool.eq_false_iff.mpr hheader, ?_⟩
      split at h
      · rename_i name' versions' checksum' hparts
        split at h
        · cases h
        · rename_i hne
          cases h
          have hline : [' '].intercalate ((trimEnd line).splitOn ' ') = trimEnd line :=
            List.intercalate_splitOn ' '
          rw [hparts] at hline
          have hnot : ∀ part ∈ [name, versions, checksum], ' ' ∉ part :=
            fun part hpart => (Lib.Segments.of_mem_splitOn (hparts ▸ hpart)).1
          refine ⟨?_, ⟨hnot name (by simp), hnot versions (by simp), hnot checksum (by simp)⟩,
            not_or.mp hne⟩
          rw [← hline]
          simp
      · cases h
  · intro h
    obtain ⟨hheader, hline, ⟨hname, hversions, hchecksum⟩, hne⟩ := h
    rw [if_neg (Bool.eq_false_iff.mp hheader), hline, splitOn_three hname hversions hchecksum]
    exact if_neg (not_or.mpr hne)

/-- The characters of a checksum are hexadecimal digits. -/
theorem rewrittenInfoChecksum_chars (upstream : Text) (kept : List Text) :
    ∀ c ∈ rewrittenInfoChecksum lib upstream kept, isWhiteSpace c = false :=
  Lib.Hex.forall_mem_encode (by decide) _

theorem rewrittenInfoChecksum_ne_nil (upstream : Text) (kept : List Text) :
    rewrittenInfoChecksum lib upstream kept ≠ [] := by
  intro hnil
  have hlength := congrArg List.length hnil
  unfold rewrittenInfoChecksum at hlength
  rw [Lib.Hex.length_encode, List.length_take, lib.length_sha256] at hlength
  exact absurd hlength (by decide)

/-- The three ends of a line. -/
theorem segment_eq (segment : Text) :
    segment = lineOf segment ++ endingOf segment ∧
      (endingOf segment = [] ∨ endingOf segment = ['\n'] ∨ endingOf segment = ['\r', '\n']) := by
  have hsuffix : ∀ (c : Char) (text : Text), (stripSuffix c text = none) ∨
      stripSuffix c text = some text.dropLast ∧ text = text.dropLast ++ [c] := by
    intro c text
    unfold stripSuffix
    split
    · rename_i hlast
      obtain ⟨front, rfl⟩ := List.getLast?_eq_some_iff.mp hlast
      rw [List.dropLast_concat]
      exact .inr ⟨rfl, rfl⟩
    · exact .inl rfl
  rcases hsuffix '\n' segment with hnone | ⟨hsome, heq⟩
  · have hline : lineOf segment = segment := by rw [lineOf, hnone]
    have hend : endingOf segment = [] := by rw [endingOf, hline, List.drop_length]
    rw [hline, hend]
    exact ⟨(List.append_nil segment).symm, .inl rfl⟩
  · rcases hsuffix '\r' segment.dropLast with hnone' | ⟨hsome', heq'⟩
    · have hline : lineOf segment = segment.dropLast := by
        rw [lineOf, hsome]
        dsimp only
        rw [hnone', Option.getD_none]
      have hend : endingOf segment = ['\n'] := by
        rw [endingOf, hline]
        conv_lhs => rw [heq]
        rw [List.drop_left' (by rw [← heq])]
      rw [hline, hend]
      exact ⟨heq, .inr (.inl rfl)⟩
    · have hline : lineOf segment = segment.dropLast.dropLast := by
        rw [lineOf, hsome]
        dsimp only
        rw [hsome', Option.getD_some]
      have hsegment : segment = segment.dropLast.dropLast ++ ['\r', '\n'] := by
        conv_lhs => rw [heq, heq']
        rw [List.append_assoc]
        rfl
      have hend : endingOf segment = ['\r', '\n'] := by
        rw [endingOf, hline]
        conv_lhs => rw [hsegment]
        rw [List.drop_left' (by rw [← hsegment])]
      rw [hline, hend]
      exact ⟨hsegment, .inr (.inr rfl)⟩

/-- A line that does not end in the characters of a line end is read back with its end. -/
theorem lineOf_append {ending : Text} {c : Char} (hlast : line.getLast? = some c)
    (hc : isWhiteSpace c = false)
    (hending : ending = [] ∨ ending = ['\n'] ∨ ending = ['\r', '\n']) :
    lineOf (line ++ ending) = line ∧ endingOf (line ++ ending) = ending := by
  have hnewline : c ≠ '\n' := by
    rintro rfl
    exact absurd hc (by decide)
  have hreturn : c ≠ '\r' := by
    rintro rfl
    exact absurd hc (by decide)
  have hline : lineOf (line ++ ending) = line := by
    rcases hending with rfl | rfl | rfl
    · rw [List.append_nil, lineOf, stripSuffix, hlast,
        if_neg (fun heq => hnewline (Option.some_inj.mp heq))]
    · have hfirst : stripSuffix '\n' (line ++ ['\n']) = some line := by
        rw [stripSuffix, List.getLast?_concat, if_pos rfl, List.dropLast_concat]
      have hsecond : stripSuffix '\r' line = none := by
        rw [stripSuffix, hlast, if_neg (fun heq => hreturn (Option.some_inj.mp heq))]
      rw [lineOf, hfirst]
      dsimp only
      rw [hsecond, Option.getD_none]
    · have hfirst : stripSuffix '\n' (line ++ ['\r', '\n']) = some (line ++ ['\r']) := by
        have hassoc : line ++ ['\r', '\n'] = (line ++ ['\r']) ++ ['\n'] := by
          rw [List.append_assoc]
          rfl
        rw [hassoc, stripSuffix, List.getLast?_concat, if_pos rfl, List.dropLast_concat]
      have hsecond : stripSuffix '\r' (line ++ ['\r']) = some line := by
        rw [stripSuffix, List.getLast?_concat, if_pos rfl, List.dropLast_concat]
      rw [lineOf, hfirst]
      dsimp only
      rw [hsecond, Option.getD_some]
  refine ⟨hline, ?_⟩
  rw [endingOf, hline, List.drop_left]

/-- The line of a gem with the fields that are left. -/
def shortLine (name : Text) (kept : List Text) (checksum : Text) : Text :=
  name ++ ' ' :: (joined kept ++ ' ' :: checksum)

theorem mem_joined {fields : List Text} {c : Char} (h : c ∈ joined fields) :
    c = ',' ∨ ∃ field ∈ fields, c ∈ field := by
  unfold joined at h
  induction fields with
  | nil =>
    rw [List.intercalate_nil] at h
    cases h
  | cons field fields ih =>
    cases fields with
    | nil =>
      rw [List.intercalate_singleton] at h
      exact .inr ⟨field, List.mem_cons_self, h⟩
    | cons field' fields =>
      rw [List.intercalate_cons_cons, List.append_assoc, List.mem_append, List.mem_append,
        List.mem_singleton] at h
      rcases h with hfield | rfl | hrest
      · exact .inr ⟨field, List.mem_cons_self, hfield⟩
      · exact .inl rfl
      · exact (ih hrest).imp_right fun ⟨f, hf, hc⟩ => ⟨f, List.mem_cons_of_mem field hf, hc⟩

/-- A leading text without blanks does not reach over the first one. -/
theorem isPrefixOf_before_blank {lead name rest : Text} (hlead : ' ' ∉ lead) :
    lead.isPrefixOf (name ++ ' ' :: rest) = lead.isPrefixOf name := by
  induction name generalizing lead with
  | nil =>
    cases lead with
    | nil => rfl
    | cons c lead =>
      rw [List.mem_cons, not_or] at hlead
      have hne : (c == ' ') = false := beq_eq_false_iff_ne.mpr fun heq => hlead.1 heq.symm
      rw [List.nil_append, List.isPrefixOf_cons_cons, hne, Bool.false_and]
      rfl
  | cons d name ih =>
    cases lead with
    | nil => rfl
    | cons c lead =>
      rw [List.mem_cons, not_or] at hlead
      rw [List.cons_append, List.isPrefixOf_cons_cons, List.isPrefixOf_cons_cons, ih hlead.2]

theorem shortLine_concat (name : Text) (kept : List Text)
    (hchars : ∀ c ∈ checksum, isWhiteSpace c = false) (hne : checksum ≠ []) :
    ∃ front last, shortLine name kept checksum = front ++ [last] ∧ isWhiteSpace last = false := by
  obtain ⟨front, last, rfl⟩ : ∃ front last, checksum = front ++ [last] :=
    ⟨_, _, (List.dropLast_append_getLast hne).symm⟩
  refine ⟨name ++ ' ' :: (joined kept ++ ' ' :: front), last, by simp [shortLine], ?_⟩
  exact hchars last (List.mem_append_right _ List.mem_cons_self)

/-- A shortened line is read back, unless nothing is left between its blanks. -/
theorem splitCompactVersionsLine_shortLine {kept : List Text}
    (h : splitCompactVersionsLine line = some (name, versions, checksum))
    (hkept : ∀ field ∈ kept, field ∈ versions.splitOn ',') {checksum' : Text}
    (hchars : ∀ c ∈ checksum', isWhiteSpace c = false) (hne : checksum' ≠ []) :
    splitCompactVersionsLine (shortLine name kept checksum') =
      if joined kept = [] then none else some (name, joined kept, checksum') := by
  obtain ⟨hheader, hline, ⟨hname, hversions, -⟩, hnamed, -⟩ :=
    splitCompactVersionsLine_eq_some_iff.mp h
  have hblank : ' ' ∉ joined kept := by
    intro hmem
    rcases mem_joined hmem with heq | ⟨field, hfield, hc⟩
    · exact absurd heq (by decide)
    · exact hversions ((Lib.Segments.of_mem_splitOn (hkept field hfield)).2 ' ' hc)
  have hchecksum : ' ' ∉ checksum' := by
    intro hmem
    exact absurd (hchars ' ' hmem) (by decide)
  have htrim : trimEnd (shortLine name kept checksum') = shortLine name kept checksum' := by
    obtain ⟨front, last, hshape, hlast⟩ := shortLine_concat name kept hchars hne
    unfold trimEnd
    rw [hshape, List.rdropWhile_concat_neg _ _ _ (by rw [hlast]; exact Bool.false_ne_true)]
  have hheader' : isHeader (shortLine name kept checksum') = false := by
    unfold isHeader at hheader ⊢
    rw [Bool.or_eq_false_iff, Bool.or_eq_false_iff] at hheader ⊢
    refine ⟨⟨?_, ?_⟩, ?_⟩
    · exact decide_eq_false (List.append_ne_nil_of_left_ne_nil hnamed _)
    · refine decide_eq_false ?_
      intro heq
      have hmem : ' ' ∈ shortLine name kept checksum' :=
        List.mem_append_right _ List.mem_cons_self
      rw [heq] at hmem
      exact absurd hmem (by decide)
    · have hlead := hheader.2
      rw [hline, isPrefixOf_before_blank (by decide)] at hlead
      rw [shortLine, isPrefixOf_before_blank (by decide)]
      exact hlead
  have hparts : (shortLine name kept checksum').splitOn ' ' = [name, joined kept, checksum'] :=
    splitOn_three hname hblank hchecksum
  unfold splitCompactVersionsLine
  dsimp only
  rw [htrim, hheader', if_neg Bool.false_ne_true, hparts]
  dsimp only
  by_cases hjoined : joined kept = []
  · rw [if_pos (.inr hjoined), if_pos hjoined]
  · rw [if_neg (not_or.mpr ⟨hnamed, hjoined⟩), if_neg hjoined]

/-- The gem of a line and its version fields. -/
def versionFields (segment : Text) : Option (Text × List Text) :=
  (splitCompactVersionsLine (lineOf segment)).map fun parts => (parts.1, parts.2.1.splitOn ',')

/-- What becomes of a line: it stays as it is without blocked fields, goes if all are blocked,
and keeps its gem, the other fields and its end if some are. -/
inductive Edited (blocks : MultiPackageBlocks) (segment : Text) : Option Text → Prop
  | untouched (hfree : ∀ name fields, versionFields segment = some (name, fields) →
      ∀ field ∈ fields, blocks.contains name (bare field) = false) :
      Edited blocks segment (some segment)
  | dropped {name : Text} {fields : List Text}
      (hfields : versionFields segment = some (name, fields))
      (hall : ∀ field ∈ fields, blocks.contains name (bare field) = true) :
      Edited blocks segment none
  | shortened {name checksum : Text} {fields kept : List Text}
      (hfields : versionFields segment = some (name, fields))
      (hkept : kept = fields.filter fun field => !blocks.contains name (bare field))
      (hsome : kept ≠ fields) (hleft : kept ≠ [])
      (hchars : ∀ c ∈ checksum, isWhiteSpace c = false) (hne : checksum ≠ []) :
      Edited blocks segment (some (shortLine name kept checksum ++ endingOf segment))

theorem edited_editLine (lib : Integrity.Hashes) (blocks : MultiPackageBlocks) (segment : Text) :
    Edited blocks segment (editLine lib blocks segment).1 := by
  unfold editLine
  cases hline : splitCompactVersionsLine (lineOf segment) with
  | none =>
    refine .untouched ?_
    intro name fields hfields
    rw [versionFields, hline] at hfields
    cases hfields
  | some parts =>
    obtain ⟨name, versions, checksum⟩ := parts
    have hfields : versionFields segment = some (name, versions.splitOn ',') := by
      rw [versionFields, hline]
      rfl
    dsimp only
    split
    · rename_i hlength
      refine .untouched ?_
      intro name' fields' hfields'
      cases hfields.symm.trans hfields'
      intro field hfield
      have hfree := List.length_filter_eq_length_iff.mp hlength field hfield
      rwa [Bool.not_eq_true'] at hfree
    · rename_i hlength
      split
      · rename_i hnone
        refine .dropped hfields ?_
        intro field hfield
        have hblocked := List.filter_eq_nil_iff.mp hnone field hfield
        rwa [Bool.not_eq_true', Bool.not_eq_false] at hblocked
      · rename_i hleft
        generalize hkept : (versions.splitOn ',').filter
          (fun field => !blocks.contains name (bare field)) = kept at hlength hleft ⊢
        have hshape : name ++ ' ' :: (joined kept ++ ' ' ::
              (rewrittenInfoChecksum lib checksum kept ++ endingOf segment)) =
            shortLine name kept (rewrittenInfoChecksum lib checksum kept) ++ endingOf segment := by
          simp [shortLine]
        rw [hshape]
        exact .shortened hfields hkept.symm (fun heq => hlength (congrArg List.length heq)) hleft
          (rewrittenInfoChecksum_chars checksum kept) (rewrittenInfoChecksum_ne_nil checksum kept)

variable {edited : Option Text}

/-- The fields of a shortened line are those that were kept, or it has no fields at all. -/
theorem versionFields_shortened {kept fields : List Text}
    (hfields : versionFields segment = some (name, fields)) (hkept : kept ⊆ fields)
    (hleft : kept ≠ []) (hchars : ∀ c ∈ checksum, isWhiteSpace c = false) (hne : checksum ≠ []) :
    versionFields (shortLine name kept checksum ++ endingOf segment) =
      if joined kept = [] then none else some (name, kept) := by
  obtain ⟨⟨gem, versions, checksum'⟩, hsplit, heq⟩ := Option.map_eq_some_iff.mp hfields
  obtain ⟨rfl, rfl⟩ := Prod.mk.inj heq
  obtain ⟨front, last, hshape, hlast⟩ := shortLine_concat gem kept hchars hne
  have hgetLast : (shortLine gem kept checksum).getLast? = some last := by
    rw [hshape, List.getLast?_concat]
  have hline := (lineOf_append hgetLast hlast (segment_eq segment).2).1
  rw [versionFields, hline,
    splitCompactVersionsLine_shortLine hsplit (fun field hfield => hkept hfield) hchars hne]
  split
  · rfl
  · have hcommas : ∀ field ∈ kept, ',' ∉ field :=
      fun field hfield => (Lib.Segments.of_mem_splitOn (hkept hfield)).1
    rw [Option.map_some, joined, List.splitOn_intercalate ',' hcommas hleft]

theorem editLine_of_free (lib : Integrity.Hashes) {segment : Text}
    (hfree : ∀ name fields, versionFields segment = some (name, fields) →
      ∀ field ∈ fields, blocks.contains name (bare field) = false) :
    editLine lib blocks segment = (some segment, []) := by
  unfold editLine
  cases hline : splitCompactVersionsLine (lineOf segment) with
  | none => rfl
  | some parts =>
    obtain ⟨name, versions, checksum⟩ := parts
    have hfields : versionFields segment = some (name, versions.splitOn ',') := by
      rw [versionFields, hline]
      rfl
    have hall := hfree _ _ hfields
    dsimp only
    rw [List.filter_eq_self.mpr (fun field hfield => by rw [hall field hfield]; rfl), if_pos rfl]
    have hnone : (versions.splitOn ',').filter (fun field => blocks.contains name (bare field)) =
        [] := by
      refine List.filter_eq_nil_iff.mpr ?_
      intro field hfield
      rw [hall field hfield]
      exact Bool.false_ne_true
    rw [hnone]
    rfl

/-- What is left of a line has no blocked fields. -/
theorem Edited.free (h : Edited blocks segment (some line)) :
    ∀ name fields, versionFields line = some (name, fields) →
      ∀ field ∈ fields, blocks.contains name (bare field) = false := by
  generalize hedited : some line = edited at h
  cases h with
  | untouched hfree =>
    cases hedited
    exact hfree
  | dropped hfields hall => cases hedited
  | @shortened name checksum fields kept hfields hkept hsome hleft hchars hne =>
    cases hedited
    intro name' fields' hfields' field hfield
    rw [versionFields_shortened hfields (hkept ▸ List.filter_subset_self _) hleft hchars hne]
      at hfields'
    split at hfields'
    · cases hfields'
    · cases hfields'
      rw [hkept] at hfield
      simpa using (List.mem_filter.mp hfield).2

theorem endingOf_ne_nil {body : Text} (h : segment = body ++ ['\n']) : endingOf segment ≠ [] := by
  intro hnil
  have hsegment := (segment_eq segment).1
  rw [hnil, List.append_nil] at hsegment
  have hstrip : stripSuffix '\n' segment = some body := by
    rw [h, stripSuffix, List.getLast?_concat, if_pos rfl, List.dropLast_concat]
  have hshort : (lineOf segment).length ≤ body.length := by
    rw [lineOf, hstrip]
    dsimp only
    unfold stripSuffix
    split
    · rw [Option.getD_some, List.length_dropLast]
      exact Nat.sub_le ..
    · exact le_rfl
  have hlength := congrArg List.length h
  rw [List.length_append, List.length_singleton] at hlength
  rw [← hsegment] at hshort
  omega

theorem newline_notMem_lineOf (h : Ended '\n' segment ∨ Unended '\n' segment) :
    '\n' ∉ lineOf segment := by
  obtain ⟨hsegment, hending⟩ := segment_eq segment
  intro hmem
  rcases h with ⟨body, hbody, hnot⟩ | ⟨-, hnot⟩
  · have hne := endingOf_ne_nil hbody
    generalize hline : lineOf segment = line at hsegment hmem
    rcases hending with hnil | hnewline | hreturn
    · exact absurd hnil hne
    · rw [hnewline, hbody] at hsegment
      exact hnot (List.append_inj_left' hsegment rfl ▸ hmem)
    · have hassoc : line ++ ['\r', '\n'] = (line ++ ['\r']) ++ ['\n'] := by
        rw [List.append_assoc]
        rfl
      rw [hreturn, hassoc, hbody] at hsegment
      exact hnot (List.append_inj_left' hsegment rfl ▸ List.mem_append_left _ hmem)
  · exact hnot (hsegment ▸ List.mem_append_left _ hmem)

theorem notMem_shortLine {c : Char} {kept fields : List Text}
    (hfields : versionFields segment = some (name, fields)) (hkept : kept ⊆ fields)
    (hline : c ∉ lineOf segment) (hcomma : c ≠ ',') (hblank : c ≠ ' ') (hchecksum : c ∉ checksum) :
    c ∉ shortLine name kept checksum := by
  obtain ⟨⟨gem, versions, checksum'⟩, hsplit, heq⟩ := Option.map_eq_some_iff.mp hfields
  obtain ⟨rfl, rfl⟩ := Prod.mk.inj heq
  obtain ⟨-, htrim, -⟩ := splitCompactVersionsLine_eq_some_iff.mp hsplit
  have hsub : ∀ d ∈ gem ++ ' ' :: (versions ++ ' ' :: checksum'), d ∈ lineOf segment := by
    intro d hd
    rw [← htrim] at hd
    exact (List.rdropWhile_prefix _ _).subset hd
  intro hmem
  unfold shortLine at hmem
  rw [List.mem_append, List.mem_cons, List.mem_append, List.mem_cons] at hmem
  rcases hmem with hname | rfl | hjoined | rfl | hend
  · exact hline (hsub c (List.mem_append_left _ hname))
  · exact hblank rfl
  · rcases mem_joined hjoined with rfl | ⟨field, hfield, hc⟩
    · exact hcomma rfl
    · have hversions := (Lib.Segments.of_mem_splitOn (hkept hfield)).2 c hc
      exact hline (hsub c (List.mem_append_right _
        (List.mem_cons_of_mem _ (List.mem_append_left _ hversions))))
  · exact hblank rfl
  · exact hchecksum hend

/-- A line that is kept ends as it did. -/
theorem Edited.ends (h : Edited blocks segment (some line)) :
    (Ended '\n' segment → Ended '\n' line) ∧ (Unended '\n' segment → Unended '\n' line) := by
  generalize hedited : some line = edited at h
  cases h with
  | untouched hfree =>
    cases hedited
    exact ⟨id, id⟩
  | dropped hfields hall => cases hedited
  | @shortened name checksum fields kept hfields hkept hsome hleft hchars hne =>
    cases hedited
    have hsub : kept ⊆ fields := hkept ▸ List.filter_subset_self _
    have hchecksum : '\n' ∉ checksum := fun hmem => absurd (hchars _ hmem) (by decide)
    have hshort : '\n' ∉ lineOf segment → '\n' ∉ shortLine name kept checksum := fun hline =>
      notMem_shortLine hfields hsub hline (by decide) (by decide) hchecksum
    obtain ⟨hsegment, hending⟩ := segment_eq segment
    constructor
    · intro hended
      have hline := hshort (newline_notMem_lineOf (.inl hended))
      obtain ⟨body, hbody, -⟩ := hended
      rcases hending with hnil | hnewline | hreturn
      · exact absurd hnil (endingOf_ne_nil hbody)
      · exact ⟨_, by rw [hnewline], hline⟩
      · refine ⟨shortLine name kept checksum ++ ['\r'], ?_, ?_⟩
        · rw [hreturn, List.append_assoc]
          rfl
        · rw [List.mem_append, not_or]
          exact ⟨hline, by decide⟩
    · intro hunended
      have hline := hshort (newline_notMem_lineOf (.inr hunended))
      obtain ⟨front, last, hshape, -⟩ := shortLine_concat name kept hchars hne
      have hnil : '\n' ∉ endingOf segment := fun hmem =>
        hunended.2 (hsegment ▸ List.mem_append_right _ hmem)
      refine ⟨?_, ?_⟩
      · rw [hshape]
        simp
      · rw [List.mem_append, not_or]
        exact ⟨hline, hnil⟩

theorem stripVersionsLines_eq (segments : List Text) :
    stripVersionsLines lib blocks segments =
      (segments.filterMap fun segment => (editLine lib blocks segment).1,
        segments.flatMap fun segment => (editLine lib blocks segment).2) := by
  induction segments with
  | nil => rfl
  | cons segment segments ih =>
    unfold stripVersionsLines
    rw [ih]
    cases hedit : editLine lib blocks segment with
    | mk edited removed =>
      cases edited with
      | none => rw [List.filterMap_cons_none (by rw [hedit]), List.flatMap_cons, hedit]
      | some line => rw [List.filterMap_cons_some (by rw [hedit]), List.flatMap_cons, hedit]

/-- The lines of a filtered `/versions`. -/
theorem lines_stripCompactVersions (text : Text) :
    splitInclusive '\n' (stripCompactVersions lib text blocks).1 =
      (splitInclusive '\n' text).filterMap fun segment => (editLine lib blocks segment).1 := by
  unfold stripCompactVersions
  rw [stripVersionsLines_eq]
  refine splitInclusive_flatten ((cut_splitInclusive text).filterMap ?_)
  intro segment line hline
  exact (hline ▸ edited_editLine lib blocks segment : Edited blocks segment (some line)).ends

theorem stripCompactVersions_twice (text : Text) :
    stripCompactVersions lib (stripCompactVersions lib text blocks).1 blocks =
      ((stripCompactVersions lib text blocks).1, []) := by
  have hlines : splitInclusive '\n' (stripCompactVersions lib text blocks).1 = _ :=
    lines_stripCompactVersions text
  have hsame : (splitInclusive '\n' (stripCompactVersions lib text blocks).1).flatten = _ :=
    flatten_splitInclusive _
  generalize (stripCompactVersions lib text blocks).1 = out at hlines hsame ⊢
  have hedit : ∀ line ∈ splitInclusive '\n' out, editLine lib blocks line = (some line, []) := by
    intro line hline
    rw [hlines] at hline
    obtain ⟨segment, -, hsome⟩ := List.mem_filterMap.mp hline
    exact editLine_of_free lib
      (hsome ▸ edited_editLine lib blocks segment : Edited blocks segment (some line)).free
  have hout : (splitInclusive '\n' out).filterMap (fun line => (editLine lib blocks line).1) =
      splitInclusive '\n' out := by
    refine Eq.trans (List.filterMap_congr ?_) List.filterMap_some
    intro line hline
    rw [hedit line hline]
  have hremoved : (splitInclusive '\n' out).flatMap (fun line => (editLine lib blocks line).2) =
      [] := by
    rw [List.flatMap_eq_nil_iff]
    intro line hline
    rw [hedit line hline]
  unfold stripCompactVersions
  rw [stripVersionsLines_eq, hout, hremoved]
  exact Prod.ext hsame rfl

end Versions

section Consistency
variable {lib : Integrity.Hashes} {blocks : MultiPackageBlocks} {name field : Text}
  {fields : List Text} {segment : Text}

/-- The fields of a gem that its line still has, none if the line is gone. -/
def fieldsLeft (lib : Integrity.Hashes) (blocks : MultiPackageBlocks) (segment : Text) :
    List Text :=
  (((editLine lib blocks segment).1.bind versionFields).map Prod.snd).getD []

/-- A field is left just when its version is not blocked. -/
theorem mem_fieldsLeft (hfields : versionFields segment = some (name, fields))
    (hfield : field ∈ fields) (hne : field ≠ []) :
    field ∈ fieldsLeft lib blocks segment ↔ blocks.contains name (bare field) = false := by
  have hedited := edited_editLine lib blocks segment
  unfold fieldsLeft
  generalize (editLine lib blocks segment).1 = edited at hedited ⊢
  cases hedited with
  | untouched hfree =>
    rw [Option.bind_some, hfields]
    exact iff_of_true hfield (hfree name fields hfields field hfield)
  | @dropped name' fields' hfields' hall =>
    cases hfields.symm.trans hfields'
    refine iff_of_false List.not_mem_nil ?_
    rw [hall field hfield]
    decide
  | @shortened name' checksum fields' kept hfields' hkept hsome hleft hchars hnonempty =>
    cases hfields.symm.trans hfields'
    rw [Option.bind_some, versionFields_shortened hfields (hkept ▸ List.filter_subset_self _) hleft
      hchars hnonempty]
    have hmem : field ∈ kept ↔ blocks.contains name (bare field) = false := by
      rw [hkept, List.mem_filter, Bool.not_eq_true']
      exact and_iff_right hfield
    split
    · rename_i hempty
      rw [← hmem]
      refine iff_of_false List.not_mem_nil ?_
      -- only an empty field leaves nothing between the blanks
      intro hin
      have hsplit : [','].intercalate kept = [] := hempty
      cases kept with
      | nil => exact hleft rfl
      | cons first rest =>
        cases rest with
        | nil =>
          rw [List.intercalate_singleton] at hsplit
          exact hne (List.mem_singleton.mp (hsplit ▸ hin))
        | cons second rest =>
          rw [List.intercalate_cons_cons] at hsplit
          exact absurd hsplit (by simp)
    · exact hmem

/-- Both filters take out exactly the entries with a blocked version and leave every other line
as it is, a second pass changes and reports nothing, and with the same blocks for a gem a field
of its line goes just when the line of `/info` that declares it goes. -/
theorem compact_index_consistent (lib : Integrity.Hashes) (infoText versionsText : Text)
    (blocked : BlockedVersions) (blocks : MultiPackageBlocks) :
    (splitInclusive '\n' (stripCompactInfo infoText blocked).1 =
        (splitInclusive '\n' infoText).filter (fun segment => !blockedLine blocked segment) ∧
      stripCompactInfo (stripCompactInfo infoText blocked).1 blocked =
        ((stripCompactInfo infoText blocked).1, [])) ∧
    ((∃ edits, List.Forall₂ (Edited blocks) (splitInclusive '\n' versionsText) edits ∧
        splitInclusive '\n' (stripCompactVersions lib versionsText blocks).1 =
          edits.filterMap id) ∧
      stripCompactVersions lib (stripCompactVersions lib versionsText blocks).1 blocks =
        ((stripCompactVersions lib versionsText blocks).1, [])) ∧
    ∀ name, (∀ version, blocked.contains version = blocks.contains name version) →
      ∀ segment ∈ splitInclusive '\n' versionsText, ∀ fields,
        versionFields segment = some (name, fields) → ∀ field ∈ fields,
          ∀ infoLine ∈ splitInclusive '\n' infoText, compactInfoField infoLine = some field →
            (field ∉ fieldsLeft lib blocks segment ↔
              infoLine ∉ splitInclusive '\n' (stripCompactInfo infoText blocked).1) := by
  refine ⟨⟨lines_stripCompactInfo infoText, stripCompactInfo_twice infoText⟩,
    ⟨⟨(splitInclusive '\n' versionsText).map fun segment => (editLine lib blocks segment).1,
      ?_, ?_⟩, stripCompactVersions_twice versionsText⟩, ?_⟩
  · rw [List.forall₂_map_right_iff]
    exact List.forall₂_same.mpr fun segment _ => edited_editLine lib blocks segment
  · rw [lines_stripCompactVersions, List.filterMap_map]
    rfl
  · intro name hsame segment hsegment fields hfields field hfield infoLine hinfo hdeclares
    have hne : field ≠ [] := (compactInfoField_eq_some_iff.mp hdeclares).2.1.1
    rw [mem_fieldsLeft hfields hfield hne, lines_stripCompactInfo, List.mem_filter, not_and,
      Bool.not_eq_false, Bool.not_eq_true', Bool.not_eq_false]
    have hline : blockedLine blocked infoLine = blocks.contains name (bare field) := by
      rw [blockedLine, compactInfoVersion, hdeclares, ← hsame]
      rfl
    rw [hline]
    exact (imp_iff_right hinfo).symm

/-- A gem with a platform build, its two lines ended in two ways. -/
def rackInfo : Text :=
  "---".toList ++ '\n' :: "1.0.0-java |checksum:a".toList ++ '\r' :: '\n' ::
    "1.1.0 rack:>= 1.0|checksum:b".toList

example : stripCompactInfo rackInfo ⟨["1.0.0".toList]⟩ =
    ("---".toList ++ '\n' :: "1.1.0 rack:>= 1.0|checksum:b".toList, ["1.0.0".toList]) := by
  decide

def rackVersions : Text :=
  "rack 1.0.0-java,1.1.0 abc".toList ++ '\r' :: '\n' :: "rails 1.0.0 def".toList

example : (splitInclusive '\n' (stripCompactVersions Integrity.sampleHashes rackVersions
      ⟨[("rack".toList, "1.0.0".toList)]⟩).1).map versionFields =
    [some ("rack".toList, ["1.1.0".toList]), some ("rails".toList, ["1.0.0".toList])] := by
  decide

end Consistency

end BatleHub.CompactIndex
