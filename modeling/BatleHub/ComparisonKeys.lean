import BatleHub.Lib.Segments
import BatleHub.Lib.Spans
import BatleHub.Lib.Texts
import BatleHub.MetadataCache
import BatleHub.Pep440

/-!
The comparison key of a Python version (`services/blocking/mod.rs`). Blocks and listings
spell versions differently and are compared through this key. The numbers of a spelling
enter the key as canonical numerals; the runs of its suffix are read without the
separators between them.
-/
namespace BatleHub.ComparisonKeys

open Lib.Decimals
open Lib.Texts (splitAtFirst splitAtFirst_eq_some_iff)
open MetadataCache (trim)
open Pep440 hiding trim

section Code

/-- Membership among texts is decided by comparing them. -/
local instance texts_lawful : LawfulBEq (List Char) := inferInstance

/-- A numeral without leading zeros, `0` where nothing is left. -/
def number (digits : Text) : Text :=
  let trimmed := stripZeros digits
  if trimmed = [] then ['0'] else trimmed

def suffixWord (word num : Text) : Text :=
  if word ∈ [['a'], ['a', 'l', 'p', 'h', 'a']] then 'a' :: num
  else if word ∈ [['b'], ['b', 'e', 't', 'a']] then 'b' :: num
  else if word ∈ [['c'], ['r', 'c'], ['p', 'r', 'e'], ['p', 'r', 'e', 'v', 'i', 'e', 'w']] then
    ['r', 'c'] ++ num
  else if word ∈ [['p', 'o', 's', 't'], ['r', 'e', 'v'], ['r']] then
    ['.', 'p', 'o', 's', 't'] ++ num
  else if word ∈ [['d', 'e', 'v']] then ['.', 'd', 'e', 'v'] ++ num
  else word ++ num

/-- One word and one number at a time; a separator was dropped before. -/
def suffixRuns (rest : Text) : Text :=
  match rest with
  | [] => []
  | c :: cs =>
    let word := (c :: cs).takeWhile fun d => !d.isDigit
    let tail := (c :: cs).dropWhile fun d => !d.isDigit
    let num := tail.takeWhile Char.isDigit
    let next := tail.dropWhile Char.isDigit
    suffixWord word (number num) ++ suffixRuns next
termination_by rest.length
decreasing_by
  by_cases hc : c.isDigit = true
  · rw [List.dropWhile_cons_of_neg (by simpa using hc), List.dropWhile_cons_of_pos hc]
    exact Nat.lt_succ_of_le (List.dropWhile_suffix _).length_le
  · rw [List.dropWhile_cons_of_pos (by simpa using hc)]
    exact Nat.lt_succ_of_le
      ((List.dropWhile_suffix _).trans (List.dropWhile_suffix _)).length_le

def isSeparator (c : Char) : Bool := ['-', '_', '.', ' '].contains c

def normalizePep440Suffix (suffix : Text) : Text :=
  suffixRuns (suffix.filter fun c => !isSeparator c)

/-- Trailing zero components are dropped behind the second one. -/
def popZeros (parts : List Text) : List Text :=
  parts.take 2 ++ (parts.drop 2).rdropWhile fun part => decide (part = ['0'])

/-- Two components at least. -/
def pushZeros : List Text → List Text
  | [] => [['0'], ['0']]
  | [part] => [part, ['0']]
  | parts => parts

def releaseParts (release : Text) : List Text :=
  pushZeros (popZeros (((release.splitOn '.').filter fun part => !part.isEmpty).map number))

/-- The separators of a local part become dots. -/
def foldSeparator (c : Char) : Char := if c = '-' ∨ c = '_' then '.' else c

def splitLocal (s : Text) : Text × Option Text :=
  match splitAtFirst '+' s with
  | some (head, tail) =>
    (head, some (tail.map foldSeparator))
  | none => (s, none)

def splitEpoch (s : Text) : Option Text × Text :=
  match splitAtFirst '!' s with
  | some (e, rest) => (if stripZeros e = [] then none else some (stripZeros e), rest)
  | none => (none, s)

def stripV (s : Text) : Text :=
  match s with
  | 'v' :: rest => rest
  | _ => s

def isReleaseChar (c : Char) : Bool := c.isDigit || c == '.'

def pushEpoch : Option Text → Text
  | some e => e ++ ['!']
  | none => []

def pushLocal : Option Text → Text
  | some l => '+' :: l
  | none => []

def normalizePep440 (version : Text) : Text :=
  let lower := (trim version).map Char.toLower
  let (s, loc) := splitLocal (stripV lower)
  let (epoch, s) := splitEpoch s
  let release := s.takeWhile isReleaseChar
  let suffix := s.dropWhile isReleaseChar
  pushEpoch epoch ++ ['.'].intercalate (releaseParts release) ++
    normalizePep440Suffix suffix ++ pushLocal loc

end Code

section Characters

/-- The characters of a spelling, the marks before a local part and behind an epoch apart. -/
def isPlain (c : Char) : Bool := c.isDigit || c.isLower || ['.', '-', '_'].contains c

theorem ne_plus_of_isPlain {c : Char} (h : isPlain c = true) : c ≠ '+' := by
  rintro rfl
  exact absurd h (by decide)

theorem ne_bang_of_isPlain {c : Char} (h : isPlain c = true) : c ≠ '!' := by
  rintro rfl
  exact absurd h (by decide)

theorem isPlain_of_isDigit {c : Char} (h : c.isDigit = true) : isPlain c = true := by
  simp [isPlain, h]

theorem isPlain_of_isLower {c : Char} (h : c.isLower = true) : isPlain c = true := by
  simp [isPlain, h]

theorem isPlain_char (separator : Separator) : isPlain separator.char = true := by
  cases separator <;> decide

theorem isSeparator_char (separator : Separator) : isSeparator separator.char = true := by
  cases separator <;> decide

theorem not_isSeparator_of_isDigit {c : Char} (h : c.isDigit = true) : isSeparator c = false := by
  rw [Bool.eq_false_iff]
  intro hs
  simp only [isSeparator, List.contains_cons, List.contains_nil, Bool.or_false, Bool.or_eq_true,
    beq_iff_eq] at hs
  rcases hs with rfl | rfl | rfl | rfl <;> exact absurd h (by decide)

theorem not_isSeparator_of_isLower {c : Char} (h : c.isLower = true) : isSeparator c = false := by
  rw [Bool.eq_false_iff]
  intro hs
  simp only [isSeparator, List.contains_cons, List.contains_nil, Bool.or_false, Bool.or_eq_true,
    beq_iff_eq] at hs
  rcases hs with rfl | rfl | rfl | rfl <;> exact absurd h (by decide)

theorem not_isDigit_of_isLower {c : Char} (h : c.isLower = true) : c.isDigit = false := by
  rw [Bool.eq_false_iff]
  intro hd
  have hlow := (isLower_bounds h).1
  have hhigh := (isDigit_bounds hd).2
  omega

theorem isReleaseChar_of_isLower {c : Char} (h : c.isLower = true) : isReleaseChar c = false := by
  have hne : (c == '.') = false := by
    rw [beq_eq_false_iff_ne]
    rintro rfl
    exact absurd h (by decide)
  simp [isReleaseChar, not_isDigit_of_isLower h, hne]

theorem lower_of_all {words : List Text}
    (h : ∀ word ∈ words, word ≠ [] ∧ word.all Char.isLower = true) :
    ∀ word ∈ words, word ≠ [] ∧ ∀ c ∈ word, c.isLower = true :=
  fun word hword => ⟨(h word hword).1, List.all_eq_true.mp (h word hword).2⟩

theorem preWords_lower : ∀ word ∈ preWords, word ≠ [] ∧ ∀ c ∈ word, c.isLower = true :=
  lower_of_all (by decide)

theorem postWords_lower : ∀ word ∈ postWords, word ≠ [] ∧ ∀ c ∈ word, c.isLower = true :=
  lower_of_all (by decide)

theorem devWords_lower : ∀ word ∈ devWords, word ≠ [] ∧ ∀ c ∈ word, c.isLower = true :=
  lower_of_all (by decide)

end Characters

section Suffixes

variable {words : List Text}

/-- What the code reads of a marker: its word and its number. -/
def markerRuns : Option (Marker words) → Text
  | none => []
  | some m => m.word ++ digitsText m.number

def postRuns : Option PostSpelling → Text
  | none => []
  | some (.implicit number) => number.run
  | some (.explicit m) => m.word ++ digitsText m.number

def suffixRunsOf (sp : Spelling) : Text :=
  markerRuns sp.pre ++ postRuns sp.post ++ markerRuns sp.dev

theorem separatorText_plain (separator : Option Separator) :
    ∀ c ∈ separatorText separator, isPlain c = true := by
  cases separator with
  | none => exact fun c hc => absurd hc List.not_mem_nil
  | some separator =>
    intro c hc
    rw [List.mem_singleton.mp hc]
    exact isPlain_char separator

theorem separatorText_filter (separator : Option Separator) :
    (separatorText separator).filter (fun c => !isSeparator c) = [] := by
  cases separator with
  | none => rfl
  | some separator =>
    rw [separatorText, List.filter_cons_of_neg (by simp [isSeparator_char]), List.filter_nil]

theorem digitsText_digits (d : Option Digits) : ∀ c ∈ digitsText d, c.isDigit = true := by
  cases d with
  | none => exact fun c hc => absurd hc List.not_mem_nil
  | some d => exact d.digits

theorem filter_of_isDigit {l : Text} (h : ∀ c ∈ l, c.isDigit = true) :
    l.filter (fun c => !isSeparator c) = l := by
  refine List.filter_eq_self.mpr fun c hc => ?_
  rw [not_isSeparator_of_isDigit (h c hc)]
  rfl

theorem filter_of_isLower {l : Text} (h : ∀ c ∈ l, c.isLower = true) :
    l.filter (fun c => !isSeparator c) = l := by
  refine List.filter_eq_self.mpr fun c hc => ?_
  rw [not_isSeparator_of_isLower (h c hc)]
  rfl

section Markers

variable (hwords : ∀ word ∈ words, word ≠ [] ∧ ∀ c ∈ word, c.isLower = true)
include hwords

theorem marker_filter (m : Marker words) :
    m.text.filter (fun c => !isSeparator c) = m.word ++ digitsText m.number := by
  unfold Marker.text
  rw [List.filter_append, List.filter_append, List.filter_append, separatorText_filter,
    separatorText_filter, filter_of_isLower (hwords m.word m.listed).2,
    filter_of_isDigit (digitsText_digits m.number), List.nil_append, List.append_nil]

theorem markerText_filter (m : Option (Marker words)) :
    (markerText m).filter (fun c => !isSeparator c) = markerRuns m := by
  cases m with
  | none => rfl
  | some m => exact marker_filter hwords m

theorem marker_plain (m : Marker words) : ∀ c ∈ m.text, isPlain c = true := by
  intro c hc
  unfold Marker.text at hc
  simp only [List.mem_append, or_assoc] at hc
  rcases hc with hsep | hword | hsep | hnumber
  · exact separatorText_plain m.before c hsep
  · exact isPlain_of_isLower ((hwords m.word m.listed).2 c hword)
  · exact separatorText_plain m.between c hsep
  · exact isPlain_of_isDigit (digitsText_digits m.number c hnumber)

theorem markerText_plain (m : Option (Marker words)) : ∀ c ∈ markerText m, isPlain c = true := by
  cases m with
  | none => exact fun c hc => absurd hc List.not_mem_nil
  | some m => exact marker_plain hwords m

end Markers

theorem postText_filter (post : Option PostSpelling) :
    (postText post).filter (fun c => !isSeparator c) = postRuns post := by
  rcases post with _ | ⟨number⟩ | ⟨m⟩
  · rfl
  · rw [postText, PostSpelling.text, List.filter_cons_of_neg (by decide),
      filter_of_isDigit number.digits]
    rfl
  · exact marker_filter postWords_lower m

theorem postText_plain (post : Option PostSpelling) : ∀ c ∈ postText post, isPlain c = true := by
  rcases post with _ | ⟨number⟩ | ⟨m⟩
  · exact fun c hc => absurd hc List.not_mem_nil
  · intro c hc
    rcases List.mem_cons.mp hc with rfl | hrun
    · decide
    · exact isPlain_of_isDigit (number.digits c hrun)
  · exact marker_plain postWords_lower m

theorem suffixText_plain (sp : Spelling) : ∀ c ∈ sp.suffixText, isPlain c = true := by
  intro c hc
  unfold Spelling.suffixText at hc
  simp only [List.mem_append, or_assoc] at hc
  rcases hc with hpre | hpost | hdev
  · exact markerText_plain preWords_lower sp.pre c hpre
  · exact postText_plain sp.post c hpost
  · exact markerText_plain devWords_lower sp.dev c hdev

theorem suffixText_filter (sp : Spelling) :
    sp.suffixText.filter (fun c => !isSeparator c) = suffixRunsOf sp := by
  unfold Spelling.suffixText suffixRunsOf
  rw [List.filter_append, List.filter_append, markerText_filter preWords_lower,
    postText_filter, markerText_filter devWords_lower]

end Suffixes

section Releases

/-- The release characters end at once or behind one separator. -/
def Cuts (s : Text) : Prop :=
  Lib.Spans.Stops isReleaseChar s ∨
    ∃ rest, s = '.' :: rest ∧ Lib.Spans.Stops isReleaseChar rest

theorem stops_of_lower {word rest : Text} (h : word ≠ [] ∧ ∀ c ∈ word, c.isLower = true) :
    Lib.Spans.Stops isReleaseChar (word ++ rest) := by
  obtain ⟨c, cs, rfl⟩ := List.exists_cons_of_ne_nil h.1
  exact Lib.Spans.stops_cons (isReleaseChar_of_isLower (h.2 c List.mem_cons_self))

theorem marker_cuts {words : List Text}
    (hwords : ∀ word ∈ words, word ≠ [] ∧ ∀ c ∈ word, c.isLower = true) (m : Marker words)
    (rest : Text) : Cuts (m.text ++ rest) := by
  have hword : Lib.Spans.Stops isReleaseChar
      (m.word ++ (separatorText m.between ++ digitsText m.number ++ rest)) :=
    stops_of_lower (hwords m.word m.listed)
  have htext : m.text ++ rest = separatorText m.before ++
      (m.word ++ (separatorText m.between ++ digitsText m.number ++ rest)) := by
    unfold Marker.text
    simp only [List.append_assoc]
  rw [htext]
  rcases hbefore : m.before with _ | separator
  · exact Or.inl hword
  · cases separator with
    | dot => exact Or.inr ⟨_, rfl, hword⟩
    | dash => exact Or.inl (Lib.Spans.stops_cons (by decide))
    | underscore => exact Or.inl (Lib.Spans.stops_cons (by decide))

theorem suffixText_cuts (sp : Spelling) : Cuts sp.suffixText := by
  unfold Spelling.suffixText
  rw [List.append_assoc]
  rcases sp.pre with _ | m
  · rcases sp.post with _ | ⟨number⟩ | ⟨m⟩
    · rcases sp.dev with _ | m
      · exact Or.inl Lib.Spans.stops_nil
      · have hcuts := marker_cuts devWords_lower m []
        rw [List.append_nil] at hcuts
        exact hcuts
    · exact Or.inl (Lib.Spans.stops_cons (by decide))
    · exact marker_cuts postWords_lower m _
  · exact marker_cuts preWords_lower m _

/-- The code's release and suffix: at most one separator goes with the release. -/
theorem cut_release {release s : Text} (hrelease : ∀ c ∈ release, isReleaseChar c = true)
    (hcuts : Cuts s) :
    ∃ dots rest, (dots = [] ∨ dots = ['.']) ∧ s = dots ++ rest ∧
      (release ++ s).takeWhile isReleaseChar = release ++ dots ∧
      (release ++ s).dropWhile isReleaseChar = rest := by
  rcases hcuts with hstop | ⟨rest, rfl, hstop⟩
  · refine ⟨[], s, Or.inl rfl, rfl, ?_, Lib.Spans.dropWhile_append hrelease hstop⟩
    rw [List.append_nil]
    exact Lib.Spans.takeWhile_append hrelease hstop
  · have hdots : ∀ c ∈ release ++ ['.'], isReleaseChar c = true := by
      intro c hc
      rcases List.mem_append.mp hc with hmem | hdot
      · exact hrelease c hmem
      · rw [List.mem_singleton.mp hdot]
        decide
    have happend : release ++ '.' :: rest = (release ++ ['.']) ++ rest := by simp
    rw [happend]
    exact ⟨['.'], rest, Or.inr rfl, rfl, Lib.Spans.takeWhile_append hdots hstop,
      Lib.Spans.dropWhile_append hdots hstop⟩

theorem dot_notMem_of_digits {run : Text} (h : ∀ c ∈ run, c.isDigit = true) : '.' ∉ run :=
  fun hmem => absurd (h '.' hmem) (by decide)

theorem components_split (sp : Spelling) {dots : Text} (hdots : dots = [] ∨ dots = ['.']) :
    ((sp.releaseText ++ dots).splitOn '.').filter (fun part => !part.isEmpty) =
      sp.components.map Digits.run := by
  have hne : sp.components.map Digits.run ≠ [] := List.cons_ne_nil _ _
  have hnot : ∀ part ∈ sp.components.map Digits.run, '.' ∉ part := by
    intro part hpart
    obtain ⟨d, -, rfl⟩ := List.mem_map.mp hpart
    exact dot_notMem_of_digits d.digits
  have hkeep : (sp.components.map Digits.run).filter (fun part => !part.isEmpty) =
      sp.components.map Digits.run := by
    refine List.filter_eq_self.mpr fun part hpart => ?_
    obtain ⟨d, -, rfl⟩ := List.mem_map.mp hpart
    simpa using d.nonempty
  unfold Spelling.releaseText
  rcases hdots with rfl | rfl
  · rw [List.append_nil, List.splitOn_intercalate '.' hnot hne, hkeep]
  · have hend : ['.'].intercalate (sp.components.map Digits.run) ++ ['.'] =
        ['.'].intercalate (sp.components.map Digits.run ++ [[]]) := by
      rw [Lib.Segments.intercalate_append '.' hne (List.cons_ne_nil _ _)]
      rfl
    have hnot' : ∀ part ∈ sp.components.map Digits.run ++ [[]], '.' ∉ part := by
      intro part hpart
      rcases List.mem_append.mp hpart with hmem | hnil
      · exact hnot part hmem
      · rw [List.mem_singleton.mp hnil]
        exact List.not_mem_nil
    rw [hend, List.splitOn_intercalate '.' hnot' (by simp), List.filter_append, hkeep,
      List.filter_cons_of_neg (by decide), List.filter_nil, List.append_nil]

theorem mem_of_mem_intercalate {a c : Char} {parts : List Text}
    (h : c ∈ [a].intercalate parts) : c = a ∨ ∃ part ∈ parts, c ∈ part := by
  induction parts with
  | nil => exact absurd h List.not_mem_nil
  | cons part parts ih =>
    by_cases hnil : parts = []
    · subst hnil
      rw [List.intercalate_singleton] at h
      exact Or.inr ⟨part, List.mem_cons_self, h⟩
    · rw [List.intercalate_cons_of_ne_nil hnil] at h
      simp only [List.mem_append, List.mem_singleton] at h
      rcases h with (hpart | hsep) | hrest
      · exact Or.inr ⟨part, List.mem_cons_self, hpart⟩
      · exact Or.inl hsep
      · rcases ih hrest with heq | ⟨other, hother, hmem⟩
        · exact Or.inl heq
        · exact Or.inr ⟨other, List.mem_cons_of_mem _ hother, hmem⟩

theorem releaseText_chars (sp : Spelling) : ∀ c ∈ sp.releaseText, isReleaseChar c = true := by
  intro c hc
  unfold Spelling.releaseText at hc
  rcases mem_of_mem_intercalate hc with rfl | ⟨part, hpart, hmem⟩
  · decide
  · obtain ⟨d, -, rfl⟩ := List.mem_map.mp hpart
    rw [isReleaseChar, d.digits c hmem, Bool.true_or]

end Releases

section Numbers

theorem number_eq_decimal {run : Text} (h : ∀ c ∈ run, c.isDigit = true) :
    number run = decimal (value run) := by
  unfold number
  rw [stripZeros_eq h]
  by_cases hzero : value run = 0
  · rw [if_pos hzero, if_pos rfl, hzero, decimal_zero]
  · rw [if_neg hzero, if_neg (decimal_ne_nil _)]

/-- The components of a key: two at least, and behind these no trailing zero. -/
def pad : List ℕ → List ℕ
  | [] => [0, 0]
  | [n] => [n, 0]
  | release => release

def releaseKey (release : List ℕ) : Text := ['.'].intercalate ((pad release).map decimal)

theorem pushZeros_map (release : List ℕ) :
    pushZeros (release.map decimal) = (pad release).map decimal := by
  match release with
  | [] => simp [pushZeros, pad]
  | [n] => simp [pushZeros, pad]
  | m :: n :: release => rfl

theorem decimal_eq_zero_iff (n : ℕ) : decimal n = ['0'] ↔ n = 0 := by
  rw [← decimal_zero]
  exact ⟨fun h => decimal_injective h, fun h => congrArg decimal h⟩

theorem popZeros_append_zero {parts : List Text} (h : 2 ≤ parts.length) :
    popZeros (parts ++ [['0']]) = popZeros parts := by
  unfold popZeros
  rw [List.take_append_of_le_length h, List.drop_append_of_le_length h,
    List.rdropWhile_concat_pos _ _ _ (by decide)]

theorem popZeros_append_of_ne {parts : List Text} {part : Text} (h : part ≠ ['0']) :
    popZeros (parts ++ [part]) = parts ++ [part] := by
  unfold popZeros
  by_cases hlen : 2 ≤ parts.length
  · rw [List.take_append_of_le_length hlen, List.drop_append_of_le_length hlen,
      List.rdropWhile_concat_neg _ _ _ (by simpa using h), ← List.append_assoc,
      List.take_append_drop]
  · have hshort : (parts ++ [part]).length ≤ 2 := by
      rw [List.length_append, List.length_singleton]
      omega
    rw [List.take_of_length_le hshort, List.drop_eq_nil_of_le hshort, List.rdropWhile_nil,
      List.append_nil]

/-- Dropping zeros behind the second component and filling up to two is dropping all of
them and filling up. -/
theorem pushZeros_popZeros (release : List ℕ) :
    pushZeros (popZeros (release.map decimal)) = (pad (Pep440.trim release)).map decimal := by
  induction release using List.reverseRecOn with
  | nil => rw [← pushZeros_map]; rfl
  | append_singleton release n ih =>
    by_cases hn : n = 0
    · subst hn
      rw [trim_append_zero, ← ih, List.map_append, List.map_singleton, decimal_zero]
      match release with
      | [] => rfl
      | [m] => simp [popZeros, pushZeros]
      | m :: m' :: release =>
        rw [popZeros_append_zero (by simp)]
    · rw [trim_append_of_ne hn, ← pushZeros_map, List.map_append, List.map_singleton,
        popZeros_append_of_ne (mt (decimal_eq_zero_iff n).mp hn)]

theorem releaseParts_eq (sp : Spelling) {dots : Text} (hdots : dots = [] ∨ dots = ['.']) :
    ['.'].intercalate (releaseParts (sp.releaseText ++ dots)) = releaseKey sp.version.release := by
  have hnumbers : (sp.components.map Digits.run).map number =
      (sp.components.map Digits.value).map decimal := by
    rw [List.map_map, List.map_map]
    exact List.map_congr_left fun d _ => number_eq_decimal d.digits
  unfold releaseParts
  rw [components_split sp hdots, hnumbers, pushZeros_popZeros]
  rfl

end Numbers

section Epochs

theorem splitAtFirst_eq_none {c : Char} {l : Text} (h : c ∉ l) : splitAtFirst c l = none := by
  rw [Option.eq_none_iff_forall_ne_some]
  rintro ⟨before, after⟩ hsome
  apply h
  rw [((splitAtFirst_eq_some_iff _ _ _ _).mp hsome).1]
  simp

def epochKey (epoch : ℕ) : Text := if epoch = 0 then [] else decimal epoch ++ ['!']

theorem pushEpoch_stripZeros (epoch : Digits) :
    pushEpoch (if stripZeros epoch.run = [] then none else some (stripZeros epoch.run)) =
      epochKey epoch.value := by
  have hstrip : stripZeros epoch.run = if epoch.value = 0 then [] else decimal epoch.value :=
    stripZeros_eq epoch.digits
  unfold epochKey
  rw [hstrip]
  by_cases hzero : epoch.value = 0
  · rw [if_pos hzero, if_pos rfl, if_pos hzero, pushEpoch]
  · rw [if_neg hzero, if_neg (decimal_ne_nil _), if_neg hzero, pushEpoch]

theorem splitEpoch_eq (sp : Spelling) {rest : Text} (hrest : '!' ∉ rest) :
    pushEpoch (splitEpoch (sp.epochText ++ rest)).1 = epochKey (digitsValue sp.epoch) ∧
    (splitEpoch (sp.epochText ++ rest)).2 = rest := by
  unfold splitEpoch Spelling.epochText
  rcases sp.epoch with _ | epoch
  · have hnone : splitAtFirst '!' ([] ++ rest) = none := splitAtFirst_eq_none hrest
    rw [hnone]
    exact ⟨rfl, rfl⟩
  · have hnot : '!' ∉ epoch.run := fun hmem => absurd (epoch.digits '!' hmem) (by decide)
    have hsome : splitAtFirst '!' ((epoch.run ++ ['!']) ++ rest) = some (epoch.run, rest) := by
      refine (splitAtFirst_eq_some_iff _ _ _ _).mpr ⟨?_, hnot⟩
      simp
    rw [hsome]
    exact ⟨pushEpoch_stripZeros epoch, rfl⟩

end Epochs

section Locals

/-- The segments of the local part, as they are spelled. -/
def localRuns (sp : Spelling) : List Text :=
  match sp.loc with
  | none => []
  | some l => l.segments.map LocalSegment.run

def localKey : List Text → Text
  | [] => []
  | runs => '+' :: ['.'].intercalate runs

theorem foldSeparator_of_mem (segment : LocalSegment) :
    ∀ c ∈ segment.run, foldSeparator c = id c := by
  intro c hc
  unfold foldSeparator
  rw [if_neg, id_eq]
  rintro (rfl | rfl) <;> exact absurd (segment.alphanumeric _ hc) (by decide)

theorem foldSeparator_segment (segment : LocalSegment) :
    segment.run.map foldSeparator = segment.run := by
  rw [List.map_congr_left (foldSeparator_of_mem segment), List.map_id]

theorem foldSeparator_char (separator : Separator) : foldSeparator separator.char = '.' := by
  cases separator <;> decide

theorem foldSeparator_text (l : LocalSpelling) :
    l.text.map foldSeparator = ['.'].intercalate (l.segments.map LocalSegment.run) := by
  obtain ⟨first, others⟩ := l
  unfold LocalSpelling.text LocalSpelling.segments
  induction others generalizing first with
  | nil => simp [foldSeparator_segment]
  | cons other others ih =>
    have htail := ih other.2
    simp only at htail
    simp only [List.flatMap_cons, List.map_append, List.map_cons, foldSeparator_segment,
      foldSeparator_char, List.intercalate_cons_cons] at htail ⊢
    rw [← htail]
    simp only [List.append_assoc, List.cons_append, List.nil_append]

theorem splitLocal_eq (sp : Spelling) {head : Text} (hhead : '+' ∉ head) :
    (splitLocal (head ++ sp.localText)).1 = head ∧
    pushLocal (splitLocal (head ++ sp.localText)).2 = localKey (localRuns sp) := by
  unfold splitLocal Spelling.localText localRuns
  rcases sp.loc with _ | l
  · rw [List.append_nil, splitAtFirst_eq_none hhead]
    exact ⟨rfl, rfl⟩
  · have hsome : splitAtFirst '+' (head ++ '+' :: l.text) = some (head, l.text) :=
      (splitAtFirst_eq_some_iff _ _ _ _).mpr ⟨rfl, hhead⟩
    rw [hsome]
    exact ⟨rfl, congrArg ('+' :: ·) (foldSeparator_text l)⟩

end Locals

section Formula

theorem releaseText_eq (sp : Spelling) : ∃ more, sp.releaseText = sp.first.run ++ more := by
  unfold Spelling.releaseText Spelling.components
  rcases sp.others with _ | ⟨second, others⟩
  · exact ⟨[], by simp⟩
  · refine ⟨'.' :: ['.'].intercalate ((second :: others).map Digits.run), ?_⟩
    simp only [List.map_cons, List.intercalate_cons_cons, List.append_assoc, List.singleton_append]

/-- A version starts with a digit, its `v` apart. -/
theorem body_head (sp : Spelling) : ∃ c rest, c.isDigit = true ∧
    sp.epochText ++ (sp.releaseText ++ sp.suffixText) ++ sp.localText = c :: rest := by
  have hdigits : ∀ (d : Digits) (more : Text),
      ∃ c rest, c.isDigit = true ∧ d.run ++ more = c :: rest := by
    intro d more
    obtain ⟨c, cs, hrun⟩ := List.exists_cons_of_ne_nil d.nonempty
    refine ⟨c, cs ++ more, d.digits c (hrun ▸ List.mem_cons_self), ?_⟩
    rw [hrun, List.cons_append]
  unfold Spelling.epochText
  rcases sp.epoch with _ | epoch
  · obtain ⟨more, hmore⟩ := releaseText_eq sp
    simp only [hmore, List.nil_append, List.append_assoc]
    exact hdigits sp.first _
  · simp only [List.append_assoc]
    exact hdigits epoch _

theorem stripV_eq (sp : Spelling) :
    stripV sp.text = sp.epochText ++ (sp.releaseText ++ sp.suffixText) ++ sp.localText := by
  unfold Spelling.text
  by_cases hv : sp.hasV = true
  · rw [if_pos hv]
    rfl
  · obtain ⟨c, rest, hc, hbody⟩ := body_head sp
    rw [if_neg hv, List.nil_append, hbody]
    unfold stripV
    split
    · next heq =>
      rw [(List.cons.inj heq).1] at hc
      exact absurd hc (by decide)
    · rfl

theorem whiteSpace_bounds {c : Char} (h : Lib.Texts.isWhiteSpace c = true) :
    c.toNat ≤ 32 ∨ 123 ≤ c.toNat := by
  simp only [Lib.Texts.isWhiteSpace, List.contains_cons, List.contains_nil, Bool.or_false,
    Bool.or_eq_true, Bool.and_eq_true, decide_eq_true_eq, beq_iff_eq] at h
  omega

theorem isWhiteSpace_of_isBlank {c : Char} (h : isBlank c = true) :
    Lib.Texts.isWhiteSpace c = true := by
  simp only [isBlank, List.contains_cons, List.contains_nil, Bool.or_false, Bool.or_eq_true,
    beq_iff_eq] at h
  rcases h with rfl | rfl | rfl | rfl | rfl | rfl <;> decide

theorem isPlain_bounds {c : Char} (h : isPlain c = true) : 33 ≤ c.toNat ∧ c.toNat ≤ 122 := by
  simp only [isPlain, List.contains_cons, List.contains_nil, Bool.or_false, Bool.or_eq_true,
    beq_iff_eq] at h
  rcases h with (hdigit | hlower) | rfl | rfl | rfl
  · have hbounds := isDigit_bounds hdigit
    omega
  · have hbounds := isLower_bounds hlower
    omega
  · decide
  · decide
  · decide

/-- The characters of a spelling are none that lowering the case changes. -/
def isSpelled (c : Char) : Bool := isPlain c || c == '!' || c == '+'

theorem isSpelled_of_isPlain {c : Char} (h : isPlain c = true) : isSpelled c = true := by
  simp [isSpelled, h]

theorem isSpelled_bounds {c : Char} (h : isSpelled c = true) :
    33 ≤ c.toNat ∧ c.toNat ≤ 122 := by
  simp only [isSpelled, Bool.or_eq_true, beq_iff_eq] at h
  rcases h with (hplain | rfl) | rfl
  · exact isPlain_bounds hplain
  · decide
  · decide

theorem toLower_eq_self {c : Char} (h : c.toNat < 65 ∨ 90 < c.toNat) : c.toLower = c := by
  refine dif_neg ?_
  rintro ⟨hlow, hhigh⟩
  have hlow' : 65 ≤ c.toNat := hlow
  have hhigh' : c.toNat ≤ 90 := hhigh
  omega

/-- Lowering the case of a blank leaves it a blank. -/
theorem not_isWhiteSpace_of_toLower {c : Char} (h : 33 ≤ c.toLower.toNat ∧ c.toLower.toNat ≤ 122) :
    Lib.Texts.isWhiteSpace c = false := by
  rw [Bool.eq_false_iff]
  intro hws
  have hbounds := whiteSpace_bounds hws
  rw [toLower_eq_self (by omega)] at h
  omega

theorem toLower_of_isSpelled {c : Char} (h : isSpelled c = true) : c.toLower = c := by
  apply toLower_eq_self
  simp only [isSpelled, isPlain, List.contains_cons, List.contains_nil, Bool.or_false,
    Bool.or_eq_true, beq_iff_eq] at h
  rcases h with (((hdigit | hlower) | rfl | rfl | rfl) | rfl) | rfl
  · have hbounds := isDigit_bounds hdigit
    omega
  · have hbounds := isLower_bounds hlower
    omega
  all_goals decide

theorem localText_chars (sp : Spelling) : ∀ c ∈ sp.localText, isSpelled c = true := by
  have hsegment : ∀ (segment : LocalSegment), ∀ c ∈ segment.run, isSpelled c = true := by
    intro segment c hc
    refine isSpelled_of_isPlain ?_
    rcases segment.alphanumeric c hc with hdigit | hlower
    · exact isPlain_of_isDigit hdigit
    · exact isPlain_of_isLower hlower
  intro c hc
  unfold Spelling.localText at hc
  rcases hloc : sp.loc with _ | l
  · rw [hloc] at hc
    exact absurd hc List.not_mem_nil
  · rw [hloc] at hc
    rcases List.mem_cons.mp hc with rfl | htext
    · decide
    · unfold LocalSpelling.text at htext
      rcases List.mem_append.mp htext with hfirst | hothers
      · exact hsegment l.first c hfirst
      · obtain ⟨other, -, hother⟩ := List.mem_flatMap.mp hothers
        rcases List.mem_cons.mp hother with rfl | hrun
        · exact isSpelled_of_isPlain (isPlain_char other.1)
        · exact hsegment other.2 c hrun

theorem isPlain_of_isReleaseChar {c : Char} (h : isReleaseChar c = true) : isPlain c = true := by
  unfold isReleaseChar at h
  rcases Bool.or_eq_true _ _ |>.mp h with hdigit | hdot
  · exact isPlain_of_isDigit hdigit
  · rw [beq_iff_eq.mp hdot]
    decide

theorem middle_plain (sp : Spelling) : ∀ c ∈ sp.releaseText ++ sp.suffixText, isPlain c = true := by
  intro c hc
  rcases List.mem_append.mp hc with hrelease | hsuffix
  · exact isPlain_of_isReleaseChar (releaseText_chars sp c hrelease)
  · exact suffixText_plain sp c hsuffix

theorem epochText_chars (sp : Spelling) : ∀ c ∈ sp.epochText, isPlain c = true ∨ c = '!' := by
  intro c hc
  unfold Spelling.epochText at hc
  rcases hepoch : sp.epoch with _ | epoch
  · rw [hepoch] at hc
    exact absurd hc List.not_mem_nil
  · rw [hepoch] at hc
    rcases List.mem_append.mp hc with hrun | hmark
    · exact Or.inl (isPlain_of_isDigit (epoch.digits c hrun))
    · exact Or.inr (List.mem_singleton.mp hmark)

theorem text_chars (sp : Spelling) : ∀ c ∈ sp.text, isSpelled c = true := by
  intro c hc
  unfold Spelling.text at hc
  simp only [List.mem_append] at hc
  rcases hc with hv | (hepoch | hmiddle) | hloc
  · have hc : c = 'v' := by
      by_cases h : sp.hasV = true
      · rw [if_pos h] at hv
        exact List.mem_singleton.mp hv
      · rw [if_neg h] at hv
        exact absurd hv List.not_mem_nil
    rw [hc]
    decide
  · rcases epochText_chars sp c hepoch with hplain | rfl
    · exact isSpelled_of_isPlain hplain
    · decide
  · exact isSpelled_of_isPlain (middle_plain sp c (List.mem_append.mpr hmiddle))
  · exact localText_chars sp c hloc

/-- A spelling reads as itself. -/
theorem reads_text (sp : Spelling) : Reads sp.text sp := by
  refine ⟨[], sp.text, [], by simp, fun c hc => absurd hc List.not_mem_nil,
    fun c hc => absurd hc List.not_mem_nil, ?_⟩
  have hkeep : ∀ c ∈ sp.text, c.toLower = id c := fun c hc =>
    toLower_of_isSpelled (text_chars sp c hc)
  rw [List.map_congr_left hkeep, List.map_id]

/-- The blanks around a version are among those `trim` removes. -/
theorem trim_reads {before core after : Text} (hbefore : ∀ c ∈ before, isBlank c = true)
    (hafter : ∀ c ∈ after, isBlank c = true) (hne : core ≠ [])
    (hcore : ∀ c ∈ core, Lib.Texts.isWhiteSpace c = false) :
    trim (before ++ core ++ after) = core := by
  have hstops : ∀ (l more : Text), l ≠ [] → (∀ c ∈ l, Lib.Texts.isWhiteSpace c = false) →
      Lib.Spans.Stops Lib.Texts.isWhiteSpace (l ++ more) := by
    intro l more hl hall
    obtain ⟨c, cs, rfl⟩ := List.exists_cons_of_ne_nil hl
    exact Lib.Spans.stops_cons (hall c List.mem_cons_self)
  have hreverse := hstops core.reverse [] (by simpa using hne)
    (fun c hc => hcore c (List.mem_reverse.mp hc))
  rw [List.append_nil] at hreverse
  unfold trim
  rw [List.append_assoc,
    Lib.Spans.dropWhile_append (fun c hc => isWhiteSpace_of_isBlank (hbefore c hc))
      (hstops core after hne hcore),
    List.reverse_append,
    Lib.Spans.dropWhile_append
      (fun c hc => isWhiteSpace_of_isBlank (hafter c (List.mem_reverse.mp hc))) hreverse,
    List.reverse_reverse]

theorem trim_lower {text : Text} {sp : Spelling} (h : Reads text sp) :
    (trim text).map Char.toLower = sp.text := by
  obtain ⟨before, core, after, rfl, hbefore, hafter, hcore⟩ := h
  have hne : core ≠ [] := by
    rintro rfl
    obtain ⟨c, rest, -, hbody⟩ := body_head sp
    unfold Spelling.text at hcore
    rw [hbody] at hcore
    simp at hcore
  have hblank : ∀ c ∈ core, Lib.Texts.isWhiteSpace c = false := by
    intro c hc
    apply not_isWhiteSpace_of_toLower
    apply isSpelled_bounds
    apply text_chars sp
    rw [← hcore]
    exact List.mem_map_of_mem hc
  rw [trim_reads hbefore hafter hne hblank, hcore]

/-- The key of a version, from what its spelling says. -/
def keyOf (sp : Spelling) : Text :=
  epochKey (digitsValue sp.epoch) ++ releaseKey sp.version.release ++
    suffixRuns (suffixRunsOf sp) ++ localKey (localRuns sp)

theorem normalizePep440_eq {text : Text} {sp : Spelling} (h : Reads text sp) :
    normalizePep440 text = keyOf sp := by
  have hbang : '!' ∉ sp.releaseText ++ sp.suffixText := fun hmem =>
    ne_bang_of_isPlain (middle_plain sp '!' hmem) rfl
  have hplus : '+' ∉ sp.epochText ++ (sp.releaseText ++ sp.suffixText) := by
    intro hmem
    rcases List.mem_append.mp hmem with hepoch | hmiddle
    · rcases epochText_chars sp '+' hepoch with hplain | heq
      · exact ne_plus_of_isPlain hplain rfl
      · exact absurd heq (by decide)
    · exact ne_plus_of_isPlain (middle_plain sp '+' hmiddle) rfl
  obtain ⟨hhead, hloc⟩ := splitLocal_eq sp hplus
  obtain ⟨hepoch, hrest⟩ := splitEpoch_eq sp hbang
  obtain ⟨dots, rest, hdots, hsuffix, htake, hdrop⟩ :=
    cut_release (releaseText_chars sp) (suffixText_cuts sp)
  have hclean : rest.filter (fun c => !isSeparator c) = suffixRunsOf sp := by
    rw [← suffixText_filter, hsuffix, List.filter_append]
    rcases hdots with rfl | rfl
    · rfl
    · rfl
  unfold normalizePep440 normalizePep440Suffix keyOf
  simp only [trim_lower h, stripV_eq, hhead, hloc, hepoch, hrest, htake, hdrop, hclean,
    releaseParts_eq sp hdots]

end Formula

end BatleHub.ComparisonKeys
