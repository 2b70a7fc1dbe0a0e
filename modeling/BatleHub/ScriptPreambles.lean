import BatleHub.Integrity
import BatleHub.Lib.Cuts
import BatleHub.PathDecodings

/-!
Whether a file starts like a script (`RawPolicy::starts_like_script` in `entities/forge.rs`).
The first 512 bytes are read as text, however they are cut. What is seen in the bytes at
hand stays seen when more of them come: a character that is cut off is read as a
replacement character, and no preamble has one.
-/
namespace BatleHub.ScriptPreambles

open Lib
open FilesystemStorage (lossyChar lossyChars sequenceOf isContinuation replacementChar
  fromUtf8Lossy)
open PathDecodings (lossyChars_eq_drop)
open Integrity (Bytes toAsciiLowercase)

/-- `str::contains`. -/
def contains (text pat : String) : Bool := (Cuts.beforeFirst pat.toList text.toList).isSome

/-- `#!` -/
def SHEBANG : Bytes := [35, 33]

def preamble (text : String) : Bool :=
  Texts.startsWith text "@echo off" || Texts.startsWith text "<#" ||
    (contains text "param(" && contains text "$psscriptroot")

def startsLikeScript (firstBytes : Bytes) : Bool :=
  let head := firstBytes.take 512
  if SHEBANG.isPrefixOf head then true else preamble (toAsciiLowercase (fromUtf8Lossy head))

theorem contains_iff (text pat : String) :
    contains text pat = true ↔ pat.toList <:+: text.toList := by
  rw [contains, Option.isSome_iff_exists]
  constructor
  · rintro ⟨before, h⟩
    obtain ⟨after, hafter⟩ := (Cuts.firstAt_of_beforeFirst h).occurs
    exact ⟨before, after, hafter⟩
  · rintro ⟨before, after, h⟩
    exact Cuts.exists_beforeFirst ⟨after, h⟩

section Patterns
variable {α : Type*} {pat front tail : List α}

/-- A pattern at the start stays there when the elements it does not have are replaced. -/
theorem prefix_of_avoids (h : pat <+: front ++ tail) (havoids : ∀ a ∈ tail, a ∉ pat) :
    pat <+: front := by
  obtain ⟨rest, hrest⟩ := h
  rcases List.append_eq_append_iff.mp hrest with ⟨more, hfront, -⟩ | ⟨more, hpat, htail⟩
  · exact ⟨more, hfront.symm⟩
  · cases more with
    | nil => exact ⟨[], by rw [List.append_nil, hpat, List.append_nil]⟩
    | cons a more =>
      exfalso
      refine havoids a ?_ ?_
      · rw [htail]
        exact List.mem_cons_self
      · rw [hpat]
        exact List.mem_append_right front List.mem_cons_self

/-- An occurrence of the pattern lies before them. -/
theorem infix_of_avoids (h : pat <:+: front ++ tail) (havoids : ∀ a ∈ tail, a ∉ pat) :
    pat <:+: front := by
  obtain ⟨before, rest, hrest⟩ := h
  rw [List.append_assoc] at hrest
  rcases List.append_eq_append_iff.mp hrest with ⟨more, hfront, hpat⟩ | ⟨more, -, htail⟩
  · have hmore : pat <+: more := prefix_of_avoids ⟨rest, hpat⟩ havoids
    rw [hfront]
    exact hmore.isInfix.trans (List.suffix_append before more).isInfix
  · have hnil : pat = [] := by
      rw [List.eq_nil_iff_forall_not_mem]
      intro a ha
      refine havoids a ?_ ha
      rw [htail]
      exact List.mem_append_right more (List.mem_append_left rest ha)
    rw [hnil]
    exact List.nil_infix

end Patterns

section Growth

/-- More elements change only a run that reached the end of the list too early. -/
theorem takeWhile_take_append {α : Type*} (p : α → Bool) (n : ℕ) (l : List α) :
    (∀ more, ((l ++ more).take n).takeWhile p = (l.take n).takeWhile p) ∨
      ((l.take n).takeWhile p = l ∧ l.length < n) := by
  rcases Nat.lt_or_ge l.length n with hshort | hlong
  · have htake : l.take n = l := List.take_of_length_le (Nat.le_of_lt hshort)
    rw [htake]
    by_cases hrun : (l.takeWhile p).length = l.length
    · exact .inr ⟨(List.takeWhile_prefix p).eq_of_length hrun, hshort⟩
    · left
      intro more
      rw [List.take_append, htake, List.takeWhile_append, if_neg hrun]
  · left
    intro more
    rw [List.take_append_of_le_length hlong]

/-- More bytes change only a character that is cut off at the end. -/
theorem lossyChar_append (b : UInt8) (rest : Bytes) :
    ((lossyChar b rest).2 ≤ rest.length ∧
      ∀ more, lossyChar b (rest ++ more) = lossyChar b rest) ∨
    ((lossyChar b rest).1 = replacementChar ∧ rest.length ≤ (lossyChar b rest).2) := by
  by_cases hascii : b < 128
  · simp [lossyChar, hascii]
  · cases hspec : sequenceOf b with
    | none => simp [lossyChar, hascii, hspec]
    | some spec =>
      obtain ⟨low, high, n⟩ := spec
      cases rest with
      | nil => simp [lossyChar, hascii, hspec]
      | cons second rest =>
        by_cases hsecond : low ≤ second ∧ second ≤ high
        · rcases takeWhile_take_append isContinuation n rest with hsame | ⟨hrun, hshort⟩
          · left
            have hlength : ((rest.take n).takeWhile isContinuation).length ≤ rest.length :=
              ((List.takeWhile_prefix _).trans (List.take_prefix n rest)).length_le
            constructor
            · simp only [lossyChar, hascii, if_false, hspec, hsecond, and_self, if_true,
                List.length_cons]
              split <;> dsimp only <;> omega
            · intro more
              simp only [lossyChar, hascii, if_false, hspec, hsecond, and_self, if_true,
                List.cons_append, hsame]
          · right
            simp [lossyChar, hascii, hspec, hsecond, hrun, Nat.ne_of_lt hshort]
        · simp [lossyChar, hascii, hspec, hsecond]

/-- The text of the bytes at hand, up to a character that is cut off, is that of any more. -/
theorem lossyChars_append (bytes : Bytes) :
    ∃ whole broken, lossyChars 0 bytes = whole ++ broken ∧
      (∀ c ∈ broken, c = replacementChar) ∧
      ∀ more, whole <+: lossyChars 0 (bytes ++ more) := by
  match bytes with
  | [] => exact ⟨[], [], by rw [lossyChars, List.append_nil], by simp, fun _ => List.nil_prefix⟩
  | b :: rest =>
    have hread : ∀ more, lossyChars 0 (b :: rest ++ more) = (lossyChar b (rest ++ more)).1 ::
        lossyChars 0 ((rest ++ more).drop (lossyChar b (rest ++ more)).2) := by
      intro more
      rw [List.cons_append, lossyChars]
      exact congrArg _ (lossyChars_eq_drop _ _)
    have hhere := hread []
    rw [List.append_nil, List.append_nil] at hhere
    rw [hhere]
    rcases lossyChar_append b rest with ⟨htaken, hsame⟩ | ⟨hchar, htaken⟩
    · obtain ⟨whole, broken, hsplit, hbroken, hgrows⟩ :=
        lossyChars_append (rest.drop (lossyChar b rest).2)
      refine ⟨(lossyChar b rest).1 :: whole, broken, by rw [hsplit, List.cons_append], hbroken, ?_⟩
      intro more
      rw [hread, hsame, List.drop_append_of_le_length htaken]
      exact (List.prefix_cons_inj _).mpr (hgrows more)
    · refine ⟨[], [replacementChar], ?_, by simp, fun _ => List.nil_prefix⟩
      rw [hchar, List.drop_eq_nil_of_le htaken, lossyChars]
      rfl
termination_by bytes.length
decreasing_by
  simp only [List.length_drop, List.length_cons]
  omega

/-- No preamble has a replacement character. -/
theorem preamble_append {bytes : Bytes} (more : Bytes)
    (h : preamble (toAsciiLowercase (fromUtf8Lossy bytes)) = true) :
    preamble (toAsciiLowercase (fromUtf8Lossy (bytes ++ more))) = true := by
  obtain ⟨whole, broken, hsplit, hbroken, hgrows⟩ := lossyChars_append bytes
  have hlower : (toAsciiLowercase (fromUtf8Lossy bytes)).toList =
      whole.map Char.toLower ++ broken.map Char.toLower := by
    rw [toAsciiLowercase, fromUtf8Lossy, String.toList_ofList, String.toList_ofList, hsplit,
      List.map_append]
  have hmore : whole.map Char.toLower <+:
      (toAsciiLowercase (fromUtf8Lossy (bytes ++ more))).toList := by
    rw [toAsciiLowercase, fromUtf8Lossy, String.toList_ofList, String.toList_ofList]
    exact (hgrows more).map Char.toLower
  have havoids : ∀ pat : String, replacementChar ∉ pat.toList →
      ∀ c ∈ broken.map Char.toLower, c ∉ pat.toList := by
    intro pat hpat c hc
    obtain ⟨d, hd, rfl⟩ := List.mem_map.mp hc
    rw [hbroken d hd]
    exact hpat
  have hstarts : ∀ pat : String, replacementChar ∉ pat.toList →
      Texts.startsWith (toAsciiLowercase (fromUtf8Lossy bytes)) pat = true →
      Texts.startsWith (toAsciiLowercase (fromUtf8Lossy (bytes ++ more))) pat = true := by
    intro pat hpat hstart
    rw [Texts.startsWith, List.isPrefixOf_iff_prefix] at hstart ⊢
    rw [hlower] at hstart
    exact (prefix_of_avoids hstart (havoids pat hpat)).trans hmore
  have hcontains : ∀ pat : String, replacementChar ∉ pat.toList →
      contains (toAsciiLowercase (fromUtf8Lossy bytes)) pat = true →
      contains (toAsciiLowercase (fromUtf8Lossy (bytes ++ more))) pat = true := by
    intro pat hpat hocc
    rw [contains_iff] at hocc ⊢
    rw [hlower] at hocc
    exact (infix_of_avoids hocc (havoids pat hpat)).trans hmore.isInfix
  simp only [preamble, Bool.or_eq_true, Bool.and_eq_true] at h ⊢
  rcases h with (hecho | hhelp) | ⟨hparam, hroot⟩
  · exact .inl (.inl (hstarts _ (by decide) hecho))
  · exact .inl (.inr (hstarts _ (by decide) hhelp))
  · exact .inr ⟨hcontains _ (by decide) hparam, hcontains _ (by decide) hroot⟩

/-- What the first bytes show, the whole file shows. -/
theorem startsLikeScript_append {first : Bytes} (rest : Bytes)
    (h : startsLikeScript first = true) : startsLikeScript (first ++ rest) = true := by
  have hhead : (first ++ rest).take 512 = first.take 512 ++ rest.take (512 - first.length) :=
    List.take_append
  simp only [startsLikeScript] at h ⊢
  split_ifs at h with hshebang
  · have hstart := List.isPrefixOf_iff_prefix.mp hshebang
    rw [hhead, if_pos (List.isPrefixOf_iff_prefix.mpr (hstart.trans (List.prefix_append _ _)))]
  · split_ifs
    · rfl
    · rw [hhead]
      exact preamble_append _ h

end Growth

end BatleHub.ScriptPreambles
