import BatleHub.Lib.Decimals
import Mathlib.Data.List.DropRight

/-!
The versions of PEP 440, independently of the proxy: how a version may be spelled and
which version a spelling means. Two spellings are the same version when every part of
them is.
-/
namespace BatleHub.Pep440

open Lib.Decimals

abbrev Text := List Char

section Spellings

/-- A numeral, with as many leading zeros as one likes. -/
structure Digits where
  run : Text
  nonempty : run ≠ []
  digits : ∀ c ∈ run, c.isDigit = true

def Digits.value (d : Digits) : ℕ := Lib.Decimals.value d.run

inductive Separator where
  | dot
  | dash
  | underscore
  deriving DecidableEq, Repr

def Separator.char : Separator → Char
  | .dot => '.'
  | .dash => '-'
  | .underscore => '_'

def separatorText : Option Separator → Text
  | none => []
  | some separator => [separator.char]

def digitsText : Option Digits → Text
  | none => []
  | some d => d.run

/-- A number that is left out is zero. -/
def digitsValue : Option Digits → ℕ
  | none => 0
  | some d => d.value

def preWords : List Text :=
  [['a'], ['a', 'l', 'p', 'h', 'a'], ['b'], ['b', 'e', 't', 'a'], ['c'], ['r', 'c'],
    ['p', 'r', 'e'], ['p', 'r', 'e', 'v', 'i', 'e', 'w']]

def postWords : List Text := [['p', 'o', 's', 't'], ['r', 'e', 'v'], ['r']]

def devWords : List Text := [['d', 'e', 'v']]

/-- A word of one of the lists, with optional separators around it and an optional number. -/
structure Marker (words : List Text) where
  before : Option Separator
  word : Text
  listed : word ∈ words
  between : Option Separator
  number : Option Digits

def Marker.text {words : List Text} (m : Marker words) : Text :=
  separatorText m.before ++ m.word ++ separatorText m.between ++ digitsText m.number

def markerText {words : List Text} : Option (Marker words) → Text
  | none => []
  | some m => m.text

inductive PostSpelling where
  /-- `-N`. -/
  | implicit (number : Digits)
  | explicit (marker : Marker postWords)

def PostSpelling.text : PostSpelling → Text
  | .implicit number => '-' :: number.run
  | .explicit marker => marker.text

def postText : Option PostSpelling → Text
  | none => []
  | some post => post.text

/-- Letters and digits, at least one. -/
structure LocalSegment where
  run : Text
  nonempty : run ≠ []
  alphanumeric : ∀ c ∈ run, c.isDigit = true ∨ c.isLower = true

structure LocalSpelling where
  first : LocalSegment
  others : List (Separator × LocalSegment)

def LocalSpelling.segments (l : LocalSpelling) : List LocalSegment :=
  l.first :: l.others.map Prod.snd

def LocalSpelling.text (l : LocalSpelling) : Text :=
  l.first.run ++ l.others.flatMap fun other => other.1.char :: other.2.run

/-- A version in lower case, without the blanks around it. Where a pre-release word ends
without a separator and a number, what follows after a dash is its number. -/
structure Spelling where
  hasV : Bool
  epoch : Option Digits
  first : Digits
  others : List Digits
  pre : Option (Marker preWords)
  post : Option PostSpelling
  dev : Option (Marker devWords)
  loc : Option LocalSpelling
  unambiguous : ∀ m, pre = some m → m.between = none → m.number = none →
    ∀ number, post ≠ some (.implicit number)

namespace Spelling

variable (sp : Spelling)

def components : List Digits := sp.first :: sp.others

def releaseText : Text := ['.'].intercalate (sp.components.map Digits.run)

def suffixText : Text := markerText sp.pre ++ postText sp.post ++ markerText sp.dev

def epochText : Text :=
  match sp.epoch with
  | none => []
  | some epoch => epoch.run ++ ['!']

def localText : Text :=
  match sp.loc with
  | none => []
  | some l => '+' :: l.text

def text : Text :=
  (if sp.hasV then ['v'] else []) ++
    (sp.epochText ++ (sp.releaseText ++ sp.suffixText) ++ sp.localText)

end Spelling

def isBlank (c : Char) : Bool := [' ', '\t', '\n', '\r', '\x0b', '\x0c'].contains c

/-- The blanks around a version and the case of its letters do not matter. -/
def Reads (text : Text) (sp : Spelling) : Prop :=
  ∃ before core after, text = before ++ core ++ after ∧
    (∀ c ∈ before, isBlank c = true) ∧ (∀ c ∈ after, isBlank c = true) ∧
    core.map Char.toLower = sp.text

end Spellings

section Versions

inductive PreLabel where
  | alpha
  | beta
  | candidate
  deriving DecidableEq, Repr

def preLabel (word : Text) : PreLabel :=
  if word = ['a'] ∨ word = ['a', 'l', 'p', 'h', 'a'] then .alpha
  else if word = ['b'] ∨ word = ['b', 'e', 't', 'a'] then .beta
  else .candidate

/-- A segment of digits is compared as a number. -/
inductive LocalPart where
  | number (n : ℕ)
  | word (text : Text)
  deriving DecidableEq, Repr

def LocalSegment.part (segment : LocalSegment) : LocalPart :=
  if segment.run.all Char.isDigit then .number (value segment.run) else .word segment.run

/-- A version. The shorter of two releases is padded with zeros, so none ends in one. -/
@[ext]
structure Version where
  epoch : ℕ
  release : List ℕ
  trimmed : release.getLast? ≠ some 0
  pre : Option (PreLabel × ℕ)
  post : Option ℕ
  dev : Option ℕ
  loc : List LocalPart

def trim (release : List ℕ) : List ℕ := release.rdropWhile fun n => decide (n = 0)

theorem trim_getLast? (release : List ℕ) : (trim release).getLast? ≠ some 0 := by
  intro h
  obtain ⟨init, heq⟩ := List.getLast?_eq_some_iff.mp h
  have hne : trim release ≠ [] := by
    rw [heq]
    simp
  have hlast := List.rdropWhile_last_not (fun n : ℕ => decide (n = 0)) release hne
  have hzero : (trim release).getLast hne = 0 := by simp [heq]
  exact hlast (decide_eq_true hzero)

theorem trim_of_getLast? {release : List ℕ} (h : release.getLast? ≠ some 0) :
    trim release = release := by
  refine List.rdropWhile_eq_self_iff.mpr ?_
  intro hne hlast
  apply h
  rw [List.getLast?_eq_some_getLast hne]
  exact congrArg some (of_decide_eq_true hlast)

theorem trim_append_zero (release : List ℕ) : trim (release ++ [0]) = trim release :=
  List.rdropWhile_concat_pos _ _ _ (by decide)

theorem trim_append_of_ne {release : List ℕ} {n : ℕ} (h : n ≠ 0) :
    trim (release ++ [n]) = release ++ [n] :=
  List.rdropWhile_concat_neg _ _ _ (by simpa using h)

def PostSpelling.value : PostSpelling → ℕ
  | .implicit number => number.value
  | .explicit marker => digitsValue marker.number

/-- The version a spelling means. -/
def Spelling.version (sp : Spelling) : Version where
  epoch := digitsValue sp.epoch
  release := trim (sp.components.map Digits.value)
  trimmed := trim_getLast? _
  pre := sp.pre.map fun m => (preLabel m.word, digitsValue m.number)
  post := sp.post.map PostSpelling.value
  dev := sp.dev.map fun m => digitsValue m.number
  loc :=
    match sp.loc with
    | none => []
    | some l => l.segments.map LocalSegment.part

end Versions

end BatleHub.Pep440
