import BatleHub.Fingerprints

/-!
The wire form of a narinfo that is relayed (`nix.rs`): what was read can be written back, and
every edit of a relayed document keeps it so.
-/
namespace BatleHub.Nix

open Lib

section Readings
variable {escapeDebug : String → String} {text : String} {info : NarInfo}

/-- The text ends in a newline, and each of its lines is a name, a colon, a blank and a value. -/
def Spelled (text : String) : Prop :=
  text.toList.getLast? = some '\n' ∧
    ∀ line ∈ (text.toList.splitOn '\n').dropLast,
      ∃ name value : List Char, ':' ∉ name ∧ line = name ++ ':' :: ' ' :: value

theorem exists_of_spelled (h : Spelled text) :
    ∃ info : NarInfo, info.Plain ∧ info.toWire = text := by
  obtain ⟨hend, hspelled⟩ := h
  have hlines : ∀ raw ∈ (text.toList.splitOn '\n').dropLast,
      ∃ line : String × String, PlainLine line ∧ wireLine line = raw := by
    intro raw hraw
    obtain ⟨name, value, hcolon, rfl⟩ := hspelled raw hraw
    have hnewline : '\n' ∉ name ++ ':' :: ' ' :: value :=
      (Segments.of_mem_splitOn (List.dropLast_subset _ hraw)).1
    rw [List.mem_append, not_or] at hnewline
    refine ⟨(String.ofList name, String.ofList value), ⟨?_, ?_, ?_⟩, by simp [wireLine]⟩
    · simpa using hcolon
    · simpa using hnewline.1
    · intro hmem
      rw [String.toList_ofList] at hmem
      exact hnewline.2 (List.mem_cons_of_mem _ (List.mem_cons_of_mem _ hmem))
  obtain ⟨lines, hmap, hplain⟩ : ∃ lines : List (String × String),
      lines.map wireLine = (text.toList.splitOn '\n').dropLast ∧
        ∀ line ∈ lines, PlainLine line := by
    generalize (text.toList.splitOn '\n').dropLast = raws at hlines
    induction raws with
    | nil => exact ⟨[], rfl, fun _ h => absurd h List.not_mem_nil⟩
    | cons raw raws ih =>
      obtain ⟨line, hline, heq⟩ := hlines raw List.mem_cons_self
      obtain ⟨lines, hrest, hall⟩ :=
        ih fun raw' hraw' => hlines raw' (List.mem_cons_of_mem raw hraw')
      refine ⟨line :: lines, by rw [List.map_cons, heq, hrest], ?_⟩
      intro line' hline'
      rcases List.mem_cons.mp hline' with rfl | hmem
      · exact hline
      · exact hall line' hmem
  refine ⟨⟨lines⟩, hplain, String.toList_inj.mp ?_⟩
  rw [toList_toWire, hmap, ← Segments.eq_flatMap_dropLast_splitOn hend]

/-- A document that is spelled as it is written comes out unchanged. -/
theorem toWire_of_parse (h : NarInfo.parse escapeDebug text = .ok info) (hspelled : Spelled text) :
    info.toWire = text := by
  obtain ⟨info', hplain, rfl⟩ := exists_of_spelled hspelled
  rw [parse_toWire hplain] at h
  obtain ⟨-, -, rfl⟩ := (Fallible.map_eq_ok_iff _ _ _).mp h
  rfl

theorem plainLine_of_parseLine {raw : String} {line : String × String}
    (h : parseLine raw = .ok line) (hraw : '\n' ∉ raw.toList) : PlainLine line := by
  unfold parseLine at h
  split at h
  · cases h
  · rename_i name rest hsplit
    obtain ⟨rfl, hcolon⟩ := (Texts.splitOnce_eq_some_iff _ _ _ _).mp hsplit
    split at h
    · cases h
    · rename_i skipped value hvalue
      obtain rfl := Except.ok.inj h
      rw [String.toList_append, Texts.splitAtBytes_eq_some hvalue] at hraw
      simp only [String.toList_append, List.mem_append, not_or] at hraw
      refine ⟨hcolon, hraw.1.1, ?_⟩
      rw [String.toList_ofList]
      exact hraw.2.2

theorem plain_of_parse (h : NarInfo.parse escapeDebug text = .ok info) : info.Plain := by
  unfold NarInfo.parse at h
  obtain ⟨lines, hlines, h⟩ := (Fallible.bind_eq_ok_iff _ _ _).mp h
  obtain ⟨⟨⟩, -, h⟩ := (Fallible.bind_eq_ok_iff _ _ _).mp h
  obtain rfl := Except.ok.inj h
  intro line hline
  obtain ⟨raw, hraw, hparse⟩ := Fallible.exists_of_mem_mapM hlines hline
  obtain ⟨piece, hpiece, rfl⟩ := List.mem_map.mp hraw
  apply plainLine_of_parseLine hparse
  rw [String.toList_ofList]
  exact (Segments.of_mem_splitOn (List.mem_filter.mp hpiece).1).1

end Readings

section Relays
variable {escapeDebug : String → String} {text : String} {info : NarInfo} {e : Edit}

/-- The fields a reader checks. -/
def CHECKED_FIELDS : List String := ["StorePath", "References", "NarHash"]

theorem checkFingerprintFields_congr {info' : NarInfo}
    (h : ∀ field ∈ CHECKED_FIELDS, info'.getAll field = info.getAll field) :
    checkFingerprintFields escapeDebug info' = checkFingerprintFields escapeDebug info := by
  have hpath : info'.get "StorePath" = info.get "StorePath" := get_congr (h _ (by decide))
  have hhash : info'.get "NarHash" = info.get "NarHash" := get_congr (h _ (by decide))
  have hrefs : info'.referenceTokens = info.referenceTokens := by
    unfold NarInfo.referenceTokens
    rw [h "References" (by decide)]
  unfold checkFingerprintFields checkStorePathField checkReferencesField checkNarHashField
  rw [hpath, hrefs, hhash]

/-- A document as a reader accepts it, line by line. -/
structure NarInfo.Readable (escapeDebug : String → String) (info : NarInfo) : Prop where
  plain : info.Plain
  checks : checkFingerprintFields escapeDebug info = .ok ()

theorem readable_of_parse (h : NarInfo.parse escapeDebug text = .ok info) :
    info.Readable escapeDebug := by
  obtain ⟨hpath, hrefs, hhash⟩ := parse_checks h
  refine ⟨plain_of_parse h, ?_⟩
  unfold checkFingerprintFields
  rw [hpath, hrefs, hhash]
  rfl

theorem NarInfo.Readable.parse_eq (h : info.Readable escapeDebug) :
    NarInfo.parse escapeDebug info.toWire = .ok info := by
  rw [parse_toWire h.plain, h.checks]
  rfl

/-- An edit that leaves the checked fields alone and writes no newline, nor a colon in a name. -/
def Edit.Relayed : Edit → Prop
  | .set name value =>
    name ∉ CHECKED_FIELDS ∧ ':' ∉ name.toList ∧ '\n' ∉ name.toList ∧ '\n' ∉ value.toList
  | .remove name => name ∉ CHECKED_FIELDS
  | .dropSignaturesBy _ => True
  | .pushSignature signature => '\n' ∉ signature.toList
  | .rewriteUrl storeHash => '\n' ∉ storeHash.toList

theorem mem_of_mem_retainFirst {name : String} {seen : Bool} {lines : List (String × String)}
    {line : String × String} (h : line ∈ retainFirst name seen lines) : line ∈ lines := by
  induction lines generalizing seen with
  | nil => exact h
  | cons first rest ih =>
    rw [retainFirst] at h
    split_ifs at h
    · rcases List.mem_cons.mp h with rfl | hrest
      · exact List.mem_cons_self
      · exact List.mem_cons_of_mem first (ih hrest)
    · exact List.mem_cons_of_mem first (ih h)
    · rcases List.mem_cons.mp h with rfl | hrest
      · exact List.mem_cons_self
      · exact List.mem_cons_of_mem first (ih hrest)

/-- The lines after a field is set: those before, one with the value, and perhaps a new one. -/
theorem mem_set {name value : String} {line : String × String}
    (h : line ∈ (info.set name value).lines) :
    line ∈ info.lines ∨ (∃ old ∈ info.lines, line = (old.1, value)) ∨ line = (name, value) := by
  unfold NarInfo.set at h
  split at h
  · obtain ⟨i, hi⟩ := List.mem_iff_getElem?.mp (mem_of_mem_retainFirst h)
    rw [List.getElem?_modify] at hi
    obtain ⟨old, hold, rfl⟩ := Option.map_eq_some_iff.mp hi
    have hmem : old ∈ info.lines := List.mem_of_getElem? hold
    split_ifs
    · exact .inr (.inl ⟨old, hmem, rfl⟩)
    · exact .inl hmem
  · rcases List.mem_append.mp h with hmem | hnew
    · exact .inl hmem
    · exact .inr (.inr (List.mem_singleton.mp hnew))

theorem plain_set (h : info.Plain) {name value : String} (hcolon : ':' ∉ name.toList)
    (hname : '\n' ∉ name.toList) (hvalue : '\n' ∉ value.toList) : (info.set name value).Plain := by
  intro line hline
  rcases mem_set hline with hmem | ⟨old, hold, rfl⟩ | rfl
  · exact h line hmem
  · exact ⟨(h old hold).colon, (h old hold).name, hvalue⟩
  · exact ⟨hcolon, hname, hvalue⟩

theorem value_plain_of_get (h : info.Plain) {name value : String}
    (hget : info.get name = some value) : '\n' ∉ value.toList := by
  obtain ⟨line, hline, rfl⟩ := Option.map_eq_some_iff.mp hget
  exact (h line (List.mem_of_find?_eq_some hline)).value

theorem basenameOf_subset (url : String) : (basenameOf url).toList ⊆ url.toList := by
  unfold basenameOf
  split
  · rename_i dir base hsplit
    obtain ⟨rfl, -⟩ := (Texts.rsplitOnce_eq_some_iff _ _ _ _).mp hsplit
    rw [String.toList_append]
    exact List.subset_append_right _ _
  · exact fun _ h => h

theorem plain_rewriteUrl (h : info.Plain) {storeHash : String} (hhash : '\n' ∉ storeHash.toList) :
    (rewriteUrl info storeHash).2.Plain := by
  unfold rewriteUrl
  split
  · exact h
  · rename_i url hurl
    dsimp only
    split_ifs
    · exact h
    · split
      · exact h
      · have hbase : '\n' ∉ (basenameOf url).toList :=
          fun hmem => value_plain_of_get h hurl (basenameOf_subset url hmem)
        refine plain_set h (by decide) (by decide) ?_
        simp only [String.toList_append, List.mem_append, not_or]
        exact ⟨⟨⟨by decide, hhash⟩, by decide⟩, hbase⟩

theorem plain_apply (h : info.Plain) (he : e.Relayed) : (e.apply info).Plain := by
  cases e with
  | rewriteUrl storeHash => exact plain_rewriteUrl h he
  | dropSignaturesBy keyName => exact fun line hline => h line (List.mem_filter.mp hline).1
  | pushSignature signature =>
    intro line hline
    rcases List.mem_append.mp hline with hmem | hnew
    · exact h line hmem
    · obtain rfl := List.mem_singleton.mp hnew
      have hcolon : ':' ∉ "Sig".toList := by decide
      have hname : '\n' ∉ "Sig".toList := by decide
      exact ⟨hcolon, hname, he⟩
  | set name value => exact plain_set h he.2.1 he.2.2.1 he.2.2.2
  | remove name => exact fun line hline => h line (List.mem_filter.mp hline).1

theorem getAll_apply (he : e.Relayed) {field : String} (hfield : field ∈ CHECKED_FIELDS) :
    (e.apply info).getAll field = info.getAll field := by
  have hne : ∀ {name : String}, name ∉ CHECKED_FIELDS → field ≠ name := by
    intro name hname heq
    exact hname (heq ▸ hfield)
  cases e with
  | rewriteUrl storeHash => exact getAll_rewriteUrl info storeHash (hne (by decide))
  | dropSignaturesBy keyName => exact getAll_dropSignaturesBy info (hne (by decide)) keyName
  | pushSignature signature => exact getAll_pushSignature info (hne (by decide)) signature
  | set name value => exact getAll_set info (hne he.1) value
  | remove name => exact getAll_remove info (hne he)

theorem readable_apply (h : info.Readable escapeDebug) (he : e.Relayed) :
    (e.apply info).Readable escapeDebug := by
  refine ⟨plain_apply h.plain he, ?_⟩
  rw [checkFingerprintFields_congr fun field hfield => getAll_apply he hfield]
  exact h.checks

theorem readable_foldl_apply (edits : List Edit) (h : info.Readable escapeDebug)
    (hedits : ∀ e ∈ edits, e.Relayed) : (edits.foldl Edit.apply info).Readable escapeDebug := by
  induction edits generalizing info with
  | nil => exact h
  | cons e edits ih =>
    exact ih (readable_apply h (hedits e List.mem_cons_self)) fun e' he' =>
      hedits e' (List.mem_cons_of_mem e he')

end Relays

section Signatures
variable (info : NarInfo) {keyName signature : String}

def isSignatureBy (keyName : String) (line : String × String) : Bool :=
  decide (line.1 = "Sig" ∧ keyNameOf line.2 = keyName)

theorem lines_dropSignaturesBy (keyName : String) :
    (info.dropSignaturesBy keyName).1.lines =
      info.lines.filter fun line => !isSignatureBy keyName line := by
  apply List.filter_congr
  intro line _
  unfold isSignatureBy
  rw [← decide_not, decide_eq_decide, not_and_or]

theorem signatures_pushSignature (h : keyNameOf signature = keyName) :
    ((info.dropSignaturesBy keyName).1.pushSignature signature).lines.filter
      (isSignatureBy keyName) = [("Sig", signature)] := by
  have hown : isSignatureBy keyName ("Sig", signature) = true := decide_eq_true ⟨rfl, h⟩
  unfold NarInfo.pushSignature
  rw [lines_dropSignaturesBy, List.filter_append, List.filter_filter,
    List.filter_cons_of_pos hown]
  simp

theorem others_pushSignature (h : keyNameOf signature = keyName) :
    (((info.dropSignaturesBy keyName).1.pushSignature signature).lines.filter
      fun line => !isSignatureBy keyName line) =
      info.lines.filter fun line => !isSignatureBy keyName line := by
  have hown : isSignatureBy keyName ("Sig", signature) = true := decide_eq_true ⟨rfl, h⟩
  unfold NarInfo.pushSignature
  rw [lines_dropSignaturesBy, List.filter_append, List.filter_filter,
    List.filter_cons_of_neg (by rw [hown]; decide)]
  simp

/-- The wire form of a narinfo is read back to what was written, after any relayed edits, and
a signed document carries one signature of the registry's. -/
theorem wire_round_trip (escapeDebug : String → String) :
    (∀ (text : String) (info : NarInfo), NarInfo.parse escapeDebug text = .ok info →
        Spelled text → info.toWire = text) ∧
      (∀ (text : String) (info : NarInfo) (edits : List Edit),
        NarInfo.parse escapeDebug text = .ok info → (∀ e ∈ edits, e.Relayed) →
        NarInfo.parse escapeDebug (edits.foldl Edit.apply info).toWire =
          .ok (edits.foldl Edit.apply info)) ∧
      ∀ (info : NarInfo) (keyName signature : String), keyNameOf signature = keyName →
        let signed := (info.dropSignaturesBy keyName).1.pushSignature signature
        signed.lines.filter (isSignatureBy keyName) = [("Sig", signature)] ∧
          (signed.lines.filter fun line => !isSignatureBy keyName line) =
            info.lines.filter fun line => !isSignatureBy keyName line := by
  refine ⟨fun text info => toWire_of_parse, ?_, ?_⟩
  · intro text info edits hparse hedits
    exact (readable_foldl_apply edits (readable_of_parse hparse) hedits).parse_eq
  · intro info keyName signature hkey
    exact ⟨signatures_pushSignature info hkey, others_pushSignature info hkey⟩

/-- A document with a carriage return, a value with colons and two signatures, as relayed. -/
def relayedText : String :=
  "StorePath: /nix/store/0123456789abcdfghijklmnpqrsvwxyz-a\nURL: a\nSystem: x\r\nSig: m:1\n" ++
    "NarHash: md5:1\nNarSize: 7\nSig: o:2:3\n"

def relayedInfo : NarInfo :=
  ⟨[("StorePath", "/nix/store/0123456789abcdfghijklmnpqrsvwxyz-a"), ("URL", "a"),
    ("System", "x\r"), ("Sig", "m:1"), ("NarHash", "md5:1"), ("NarSize", "7"), ("Sig", "o:2:3")]⟩

def relayEdits : List Edit :=
  [.rewriteUrl "h", .remove "System", .dropSignaturesBy "m", .pushSignature "m:4"]

theorem relayed_document_survives :
    NarInfo.parse id relayedText = .ok relayedInfo ∧ relayedInfo.toWire = relayedText ∧
      NarInfo.parse id (relayEdits.foldl Edit.apply relayedInfo).toWire =
        .ok (relayEdits.foldl Edit.apply relayedInfo) ∧
      ((relayedInfo.dropSignaturesBy "m").1.pushSignature "m:4").lines.filter
        (isSignatureBy "m") = [("Sig", "m:4")] := by
  have htext : relayedText = relayedInfo.toWire := by decide +kernel
  have hplain : relayedInfo.Plain := by
    simp [NarInfo.Plain, plainLine_iff, relayedInfo]
  have hparse : NarInfo.parse id relayedText = .ok relayedInfo := by
    rw [htext, parse_toWire hplain]
    decide +kernel
  have hspelled : Spelled relayedText := by
    have hlines : relayedInfo.lines.map wireLine ≠ [] := List.cons_ne_nil _ _
    refine ⟨?_, ?_⟩
    · rw [htext, toList_toWire, Segments.flatMap_ended hlines, List.getLast?_concat]
    · intro line hline
      rw [htext, splitOn_toWire hplain, List.dropLast_concat] at hline
      obtain ⟨parts, hparts, rfl⟩ := List.mem_map.mp hline
      exact ⟨parts.1.toList, parts.2.toList, (hplain parts hparts).colon, rfl⟩
  have hedits : ∀ e ∈ relayEdits, e.Relayed := by
    intro e he
    simp only [relayEdits, List.mem_cons, List.not_mem_nil, or_false] at he
    rcases he with rfl | rfl | rfl | rfl
    · exact show '\n' ∉ "h".toList by decide
    · exact show "System" ∉ CHECKED_FIELDS by decide
    · trivial
    · exact show '\n' ∉ "m:4".toList by decide
  obtain ⟨hwire, hread, hsigned⟩ := wire_round_trip id
  exact ⟨hparse, hwire relayedText relayedInfo hparse hspelled,
    hread relayedText relayedInfo relayEdits hparse hedits,
    (hsigned relayedInfo "m" "m:4" (by decide)).1⟩

end Signatures

end BatleHub.Nix
