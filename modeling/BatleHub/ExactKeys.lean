import BatleHub.ComparisonKeys
import BatleHub.Lib.Joins

/-!
Which comparison keys of Python versions are exact. The runs of a suffix are read without
the separators, so numbers that follow each other are read as one: a key stands for one
version where no number can be the join of two.
-/
namespace BatleHub.ExactKeys

open ComparisonKeys
open Lib.Decimals
open Lib.Spans (Stops stops_cons stops_nil)
open Pep440

section Runs

theorem suffixRuns_nil : suffixRuns [] = [] := by
  rw [suffixRuns]

/-- One round of the loop. -/
theorem suffixRuns_run {word digits rest : Text} (hword : ∀ c ∈ word, c.isDigit = false)
    (hdigits : ∀ c ∈ digits, c.isDigit = true) (hne : word ++ digits ≠ [])
    (hstop : Stops (fun c => !c.isDigit) (digits ++ rest)) (hrest : Stops Char.isDigit rest) :
    suffixRuns (word ++ (digits ++ rest)) =
      suffixWord word (number digits) ++ suffixRuns rest := by
  have hword' : ∀ c ∈ word, (!c.isDigit) = true := fun c hc => by rw [hword c hc]; rfl
  have hlist : word ++ (digits ++ rest) ≠ [] := by
    rw [← List.append_assoc]
    exact List.append_ne_nil_of_left_ne_nil hne rest
  obtain ⟨c, cs, hcons⟩ := List.exists_cons_of_ne_nil hlist
  rw [hcons, suffixRuns]
  simp only [← hcons, Lib.Spans.takeWhile_append hword' hstop,
    Lib.Spans.dropWhile_append hword' hstop, Lib.Spans.takeWhile_append hdigits hrest,
    Lib.Spans.dropWhile_append hdigits hrest]

/-- A last run of digits. -/
theorem suffixRuns_word {word digits : Text} (hword : ∀ c ∈ word, c.isDigit = false)
    (hdigits : ∀ c ∈ digits, c.isDigit = true) (hne : word ++ digits ≠ []) :
    suffixRuns (word ++ digits) = suffixWord word (number digits) := by
  have hstop : Stops (fun c => !c.isDigit) (digits ++ []) := by
    rw [List.append_nil]
    intro c hc
    change (!c.isDigit) = false
    rw [hdigits c (List.mem_of_mem_head? hc)]
    rfl
  have hrun := suffixRuns_run hword hdigits hne hstop stops_nil
  rw [List.append_nil, suffixRuns_nil, List.append_nil] at hrun
  exact hrun

def devKey : Option ℕ → Text
  | none => []
  | some n => ['.', 'd', 'e', 'v'] ++ decimal n

theorem number_digitsText (d : Option Digits) :
    number (digitsText d) = decimal (digitsValue d) := by
  rw [number_eq_decimal (digitsText_digits d)]
  rcases d with _ | d
  · rfl
  · rfl

theorem not_isDigit_of_word {words : List Text} (m : Marker words)
    (hwords : ∀ word ∈ words, word ≠ [] ∧ ∀ c ∈ word, c.isLower = true) :
    ∀ c ∈ m.word, c.isDigit = false :=
  fun c hc => not_isDigit_of_isLower ((hwords m.word m.listed).2 c hc)

theorem suffixRuns_dev (dev : Option (Marker devWords)) :
    suffixRuns (markerRuns dev) = devKey (dev.map fun m => digitsValue m.number) := by
  rcases dev with _ | m
  · exact suffixRuns_nil
  · have hword : m.word = ['d', 'e', 'v'] := List.mem_singleton.mp m.listed
    have hne : m.word ++ digitsText m.number ≠ [] :=
      List.append_ne_nil_of_left_ne_nil (devWords_lower m.word m.listed).1 _
    rw [markerRuns, suffixRuns_word (not_isDigit_of_word m devWords_lower)
      (digitsText_digits m.number) hne, number_digitsText, hword]
    rfl

theorem stops_markerRuns {words : List Text}
    (hwords : ∀ word ∈ words, word ≠ [] ∧ ∀ c ∈ word, c.isLower = true)
    (m : Option (Marker words)) : Stops Char.isDigit (markerRuns m) := by
  rcases m with _ | m
  · exact stops_nil
  · obtain ⟨hne, hlower⟩ := hwords m.word m.listed
    obtain ⟨c, cs, hcons⟩ := List.exists_cons_of_ne_nil hne
    rw [markerRuns, hcons]
    exact stops_cons (not_isDigit_of_isLower (hlower c (hcons ▸ List.mem_cons_self)))

/-- The number of an implicit post release goes on the end of the release. -/
theorem suffixRuns_implicit (number : Digits) (dev : Option (Marker devWords)) :
    suffixRuns (number.run ++ markerRuns dev) =
      decimal number.value ++ devKey (dev.map fun m => digitsValue m.number) := by
  have hstop : Stops (fun c => !c.isDigit) (number.run ++ markerRuns dev) := by
    obtain ⟨c, cs, hcons⟩ := List.exists_cons_of_ne_nil number.nonempty
    rw [hcons]
    refine stops_cons ?_
    rw [number.digits c (hcons ▸ List.mem_cons_self)]
    rfl
  have hrun := @suffixRuns_run [] number.run (markerRuns dev)
    (fun c hc => absurd hc List.not_mem_nil) number.digits (by simpa using number.nonempty)
    hstop (stops_markerRuns devWords_lower dev)
  rw [List.nil_append] at hrun
  rw [hrun, suffixRuns_dev, number_eq_decimal number.digits]
  rfl

/-- A suffix that starts with another word does not read as a development release. -/
theorem suffixRuns_letter {c : Char} {rest : Text} (hlower : c.isLower = true) (hd : c ≠ 'd') :
    (∃ d more, d.isLower = true ∧ suffixRuns (c :: rest) = d :: more) ∨
      ∃ more, suffixRuns (c :: rest) = '.' :: 'p' :: more := by
  have hnot : (!c.isDigit) = true := by rw [not_isDigit_of_isLower hlower]; rfl
  have hword : (c :: rest).takeWhile (fun d => !d.isDigit) =
      c :: rest.takeWhile (fun d => !d.isDigit) := List.takeWhile_cons_of_pos hnot
  rw [suffixRuns]
  simp only [hword]
  unfold suffixWord
  split_ifs with halpha hbeta hcandidate hpost hdev
  · exact Or.inl ⟨'a', _, by decide, rfl⟩
  · exact Or.inl ⟨'b', _, by decide, rfl⟩
  · exact Or.inl ⟨'r', _, by decide, rfl⟩
  · exact Or.inr ⟨_, rfl⟩
  · exact absurd (List.cons.inj (List.mem_singleton.mp hdev)).1 hd
  · exact Or.inl ⟨c, _, hlower, rfl⟩

end Runs

section Shapes

theorem isPlain_number {digits : Text} (h : ∀ c ∈ digits, c.isDigit = true) :
    ∀ c ∈ number digits, isPlain c = true := by
  rw [number_eq_decimal h]
  exact fun c hc => isPlain_of_isDigit (isDigit_of_mem_decimal hc)

theorem isPlain_suffixWord {word num : Text} (hword : ∀ c ∈ word, isPlain c = true)
    (hnum : ∀ c ∈ num, isPlain c = true) : ∀ c ∈ suffixWord word num, isPlain c = true := by
  have happend : ∀ token : Text, (∀ c ∈ token, isPlain c = true) →
      ∀ c ∈ token ++ num, isPlain c = true := by
    intro token htoken c hc
    exact (List.mem_append.mp hc).elim (htoken c) (hnum c)
  unfold suffixWord
  split_ifs
  · exact happend ['a'] (List.all_eq_true.mp rfl)
  · exact happend ['b'] (List.all_eq_true.mp rfl)
  · exact happend ['r', 'c'] (List.all_eq_true.mp rfl)
  · exact happend ['.', 'p', 'o', 's', 't'] (List.all_eq_true.mp rfl)
  · exact happend ['.', 'd', 'e', 'v'] (List.all_eq_true.mp rfl)
  · exact happend word hword

theorem isPlain_suffixRuns (rest : Text) (h : ∀ c ∈ rest, isPlain c = true) :
    ∀ c ∈ suffixRuns rest, isPlain c = true := by
  induction rest using suffixRuns.induct with
  | case1 => simp [suffixRuns_nil]
  | case2 c cs tail next ih =>
    have htail : ∀ d ∈ tail, isPlain d = true := fun d hd =>
      h d ((List.dropWhile_suffix _).subset hd)
    have hnum : ∀ d ∈ tail.takeWhile Char.isDigit, d.isDigit = true := fun d hd =>
      List.mem_takeWhile_imp hd
    intro d hd
    rw [suffixRuns] at hd
    rcases List.mem_append.mp hd with hword | hrest
    · refine isPlain_suffixWord ?_ (isPlain_number hnum) d hword
      exact fun e he => h e ((List.takeWhile_prefix _).subset he)
    · exact ih (fun e he => htail e ((List.dropWhile_suffix _).subset he)) d hrest

theorem suffixRunsOf_plain (sp : Spelling) : ∀ c ∈ suffixRunsOf sp, isPlain c = true := by
  intro c hc
  rw [← suffixText_filter] at hc
  exact suffixText_plain sp c (List.mem_of_mem_filter hc)

theorem isReleaseChar_releaseKey (release : List ℕ) :
    ∀ c ∈ releaseKey release, isReleaseChar c = true := by
  intro c hc
  rcases mem_of_mem_intercalate hc with rfl | ⟨part, hpart, hmem⟩
  · decide
  · obtain ⟨n, -, rfl⟩ := List.mem_map.mp hpart
    rw [isReleaseChar, isDigit_of_mem_decimal hmem, Bool.true_or]

/-- What stands between the epoch and the local part of a key. -/
def middleOf (sp : Spelling) : Text :=
  releaseKey sp.version.release ++ suffixRuns (suffixRunsOf sp)

theorem middleOf_plain (sp : Spelling) : ∀ c ∈ middleOf sp, isPlain c = true := by
  intro c hc
  rcases List.mem_append.mp hc with hrelease | hsuffix
  · exact isPlain_of_isReleaseChar (isReleaseChar_releaseKey _ c hrelease)
  · exact isPlain_suffixRuns _ (suffixRunsOf_plain sp) c hsuffix

theorem keyOf_eq (sp : Spelling) :
    keyOf sp = (epochKey (digitsValue sp.epoch) ++ middleOf sp) ++ localKey (localRuns sp) := by
  unfold keyOf middleOf
  simp only [List.append_assoc]

theorem stops_localKey (runs : List Text) : Stops (fun c => decide (c ≠ '+')) (localKey runs) := by
  rcases runs with _ | ⟨run, runs⟩
  · exact stops_nil
  · exact stops_cons (by decide)

theorem epochKey_append_inj {m n : ℕ} {x y : Text} (hx : '!' ∉ x) (hy : '!' ∉ y)
    (h : epochKey m ++ x = epochKey n ++ y) : m = n ∧ x = y := by
  have hmark : ∀ (k : ℕ), '!' ∉ decimal k := fun k hk =>
    absurd (isDigit_of_mem_decimal hk) (by decide)
  have hshape : ∀ (k : ℕ) (z : Text), k ≠ 0 → epochKey k ++ z = decimal k ++ '!' :: z := by
    intro k z hk
    rw [epochKey, if_neg hk]
    simp
  by_cases hm : m = 0
  · by_cases hn : n = 0
    · subst hm hn
      exact ⟨rfl, h⟩
    · exfalso
      subst hm
      rw [hshape n y hn] at h
      apply hx
      rw [show x = decimal n ++ '!' :: y from h]
      simp
  · by_cases hn : n = 0
    · exfalso
      subst hn
      rw [hshape m x hm] at h
      apply hy
      rw [show y = decimal m ++ '!' :: x from h.symm]
      simp
    · rw [hshape m x hm, hshape n y hn] at h
      obtain ⟨hnum, hrest⟩ := Lib.Joins.field_inj (hmark m) (hmark n) h
      exact ⟨decimal_injective hnum, hrest⟩

theorem ne_plus_of_body (sp : Spelling) :
    ∀ c ∈ epochKey (digitsValue sp.epoch) ++ middleOf sp, decide (c ≠ '+') = true := by
  intro c hc
  rw [decide_eq_true_eq]
  rcases List.mem_append.mp hc with hepoch | hmiddle
  · unfold epochKey at hepoch
    split_ifs at hepoch
    · exact absurd hepoch List.not_mem_nil
    · rcases List.mem_append.mp hepoch with hnum | hmark
      · exact ne_plus_of_isPlain (isPlain_of_isDigit (isDigit_of_mem_decimal hnum))
      · rw [List.mem_singleton.mp hmark]
        decide
  · exact ne_plus_of_isPlain (middleOf_plain sp c hmiddle)

/-- Equal keys agree in the epoch, in the local part and in what stands between. -/
theorem keyOf_inj {sp sp' : Spelling} (h : keyOf sp = keyOf sp') :
    digitsValue sp.epoch = digitsValue sp'.epoch ∧ middleOf sp = middleOf sp' ∧
      localKey (localRuns sp) = localKey (localRuns sp') := by
  rw [keyOf_eq, keyOf_eq] at h
  obtain ⟨hbody, hloc⟩ := Lib.Spans.append_inj (ne_plus_of_body sp) (ne_plus_of_body sp')
    (stops_localKey _) (stops_localKey _) h
  have hnot : ∀ sp : Spelling, '!' ∉ middleOf sp := fun sp hmem =>
    ne_bang_of_isPlain (middleOf_plain sp '!' hmem) rfl
  obtain ⟨hepoch, hmiddle⟩ := epochKey_append_inj (hnot sp) (hnot sp') hbody
  exact ⟨hepoch, hmiddle, hloc⟩

end Shapes

section Releases

/-- Release characters that end in a digit. -/
def IsRelease (text : Text) : Prop :=
  (∀ c ∈ text, isReleaseChar c = true) ∧ ∃ c, text.getLast? = some c ∧ c.isDigit = true

theorem isRelease_append_decimal {text : Text} (h : ∀ c ∈ text, isReleaseChar c = true) (n : ℕ) :
    IsRelease (text ++ decimal n) := by
  constructor
  · intro c hc
    rcases List.mem_append.mp hc with htext | hnum
    · exact h c htext
    · rw [isReleaseChar, isDigit_of_mem_decimal hnum, Bool.true_or]
  · refine ⟨(decimal n).getLast (decimal_ne_nil n), ?_,
      isDigit_of_mem_decimal (List.getLast_mem _)⟩
    rw [List.getLast?_append_of_ne_nil _ (decimal_ne_nil n),
      List.getLast?_eq_some_getLast (decimal_ne_nil n)]

/-- A key has at least two components. -/
theorem exists_pad_eq (release : List ℕ) :
    ∃ init last, init ≠ [] ∧ pad release = init ++ [last] := by
  match release with
  | [] => exact ⟨[0], 0, by simp, rfl⟩
  | [n] => exact ⟨[n], 0, by simp, rfl⟩
  | m :: n :: release =>
    refine ⟨(m :: n :: release).dropLast, (m :: n :: release).getLast (by simp), by simp, ?_⟩
    rw [List.dropLast_append_getLast]
    rfl

theorem releaseKey_eq {release init : List ℕ} {last : ℕ} (hinit : init ≠ [])
    (h : pad release = init ++ [last]) :
    releaseKey release = ['.'].intercalate (init.map decimal) ++ '.' :: decimal last := by
  unfold releaseKey
  rw [h, List.map_append, List.map_singleton,
    Lib.Segments.intercalate_append '.' (by simpa using hinit) (by simp),
    List.intercalate_singleton]

theorem isRelease_releaseKey (release : List ℕ) : IsRelease (releaseKey release) := by
  obtain ⟨init, last, hinit, hpad⟩ := exists_pad_eq release
  have hkey : releaseKey release =
      (['.'].intercalate (init.map decimal) ++ ['.']) ++ decimal last := by
    rw [releaseKey_eq hinit hpad]
    simp
  have hchars := isReleaseChar_releaseKey release
  rw [hkey] at hchars ⊢
  exact isRelease_append_decimal
    (fun c hc => hchars c (List.mem_append_left _ hc)) last

theorem ne_append_dot {text other : Text} (h : IsRelease text) : text ≠ other ++ ['.'] := by
  rintro rfl
  obtain ⟨-, c, hlast, hdigit⟩ := h
  rw [List.getLast?_concat, Option.some.injEq] at hlast
  exact absurd hdigit (hlast ▸ by decide)

theorem isReleaseChar_append_dot {text : Text} (h : IsRelease text) :
    ∀ c ∈ text ++ ['.'], isReleaseChar c = true := by
  intro c hc
  rcases List.mem_append.mp hc with htext | hdot
  · exact h.1 c htext
  · rw [List.mem_singleton.mp hdot]
    decide

/-- Where a release ends, a word may follow, or a separator and a word. -/
theorem release_cut {x y r s : Text} (hx : IsRelease x) (hy : IsRelease y)
    (hr : Stops isReleaseChar r) (hs : Stops isReleaseChar s) :
    (x ++ r = y ++ s → x = y ∧ r = s) ∧ (x ++ '.' :: r = y ++ '.' :: s → x = y ∧ r = s) ∧
      x ++ '.' :: r ≠ y ++ s := by
  have hdot : ∀ (z t : Text), z ++ '.' :: t = (z ++ ['.']) ++ t := by simp
  refine ⟨Lib.Spans.append_inj hx.1 hy.1 hr hs, ?_, ?_⟩
  · intro h
    rw [hdot x r, hdot y s] at h
    obtain ⟨heq, hrest⟩ := Lib.Spans.append_inj (isReleaseChar_append_dot hx)
      (isReleaseChar_append_dot hy) hr hs h
    exact ⟨List.append_cancel_right heq, hrest⟩
  · intro h
    rw [hdot x r] at h
    exact ne_append_dot hy
      (Lib.Spans.append_inj (isReleaseChar_append_dot hx) hy.1 hr hs h).1.symm

def devWord (n : ℕ) : Text := ['d', 'e', 'v'] ++ decimal n

theorem stops_lower {c : Char} {rest : Text} (h : c.isLower = true) :
    Stops isReleaseChar (c :: rest) := stops_cons (isReleaseChar_of_isLower h)

theorem stops_devWord (n : ℕ) : Stops isReleaseChar (devWord n) := stops_lower (by decide)

theorem release_dev_inj {x y : Text} {dev dev' : Option ℕ} (hx : IsRelease x) (hy : IsRelease y)
    (h : x ++ devKey dev = y ++ devKey dev') : x = y ∧ dev = dev' := by
  cases dev with
  | none =>
    cases dev' with
    | none => exact ⟨by simpa [devKey] using h, rfl⟩
    | some n => exact absurd h.symm ((release_cut hy hx (stops_devWord n) stops_nil).2.2)
  | some m =>
    cases dev' with
    | none => exact absurd h ((release_cut hx hy (stops_devWord m) stops_nil).2.2)
    | some n =>
      obtain ⟨heq, hword⟩ :=
        (release_cut hx hy (stops_devWord m) (stops_devWord n)).2.1 h
      refine ⟨heq, ?_⟩
      rw [decimal_injective (List.append_cancel_left hword)]

theorem release_dev_ne_letter {x y : Text} {dev : Option ℕ} {c : Char} {rest : Text}
    (hx : IsRelease x) (hy : IsRelease y) (hc : c.isLower = true) :
    x ++ devKey dev ≠ y ++ c :: rest := by
  cases dev with
  | none =>
    intro h
    have hcut := ((release_cut hx hy stops_nil (stops_lower hc)).1 h).2
    exact absurd hcut (by simp)
  | some n => exact (release_cut hx hy (stops_devWord n) (stops_lower hc)).2.2

theorem release_dev_ne_post {x y : Text} {dev : Option ℕ} {rest : Text} (hx : IsRelease x)
    (hy : IsRelease y) : x ++ devKey dev ≠ y ++ '.' :: 'p' :: rest := by
  have hp : Stops isReleaseChar ('p' :: rest) := stops_lower (by decide)
  cases dev with
  | none => exact fun h => (release_cut hy hx hp stops_nil).2.2 h.symm
  | some n =>
    intro h
    have hcut := ((release_cut hx hy (stops_devWord n) hp).2.1 h).2
    exact absurd (List.cons.inj hcut).1 (by decide)

theorem dot_notMem_decimal (n : ℕ) : '.' ∉ decimal n :=
  fun h => absurd (isDigit_of_mem_decimal h) (by decide)

/-- A component of one digit is no join of two numbers. -/
theorem releaseKey_ne_append {release release' : List ℕ} {n : ℕ}
    (hlast : ∀ last, (pad release).getLast? = some last → last < 10) :
    releaseKey release ≠ releaseKey release' ++ decimal n := by
  intro h
  obtain ⟨init, last, hinit, hpad⟩ := exists_pad_eq release
  obtain ⟨init', last', hinit', hpad'⟩ := exists_pad_eq release'
  rw [releaseKey_eq hinit hpad, releaseKey_eq hinit' hpad', List.append_assoc,
    List.cons_append] at h
  have hjoin : '.' ∉ decimal last' ++ decimal n := by
    rw [List.mem_append, not_or]
    exact ⟨dot_notMem_decimal last', dot_notMem_decimal n⟩
  have heq := (Lib.Joins.last_field_inj (dot_notMem_decimal last) hjoin h).2
  have hshort := (length_decimal_le_one_iff last).mpr (hlast last (by rw [hpad]; simp))
  rw [heq, List.length_append] at hshort
  have hpos := length_decimal_pos last'
  have hpos' := length_decimal_pos n
  omega

theorem trim_pad (release : List ℕ) : Pep440.trim (pad release) = Pep440.trim release := by
  match release with
  | [] => rfl
  | [n] => exact trim_append_zero [n]
  | m :: n :: release => rfl

theorem mem_map_decimal {release : List ℕ} :
    ∀ part ∈ release.map decimal, part ≠ [] ∧ '.' ∉ part := by
  intro part hpart
  obtain ⟨n, -, rfl⟩ := List.mem_map.mp hpart
  exact ⟨decimal_ne_nil n, dot_notMem_decimal n⟩

theorem releaseKey_inj {release release' : List ℕ} (h : releaseKey release = releaseKey release') :
    Pep440.trim release = Pep440.trim release' := by
  have hpad : pad release = pad release' := by
    apply decimal_injective.list_map
    exact Lib.Joins.intercalate_injective mem_map_decimal mem_map_decimal h
  rw [← trim_pad, hpad, trim_pad]

end Releases

section Locals

def runPart (run : Text) : LocalPart :=
  if run.all Char.isDigit then .number (value run) else .word run

theorem version_loc (sp : Spelling) : sp.version.loc = (localRuns sp).map runPart := by
  unfold Spelling.version localRuns
  rcases sp.loc with _ | l
  · rfl
  · simp only [List.map_map]
    rfl

theorem mem_localRuns {sp : Spelling} : ∀ run ∈ localRuns sp, run ≠ [] ∧ '.' ∉ run := by
  intro run hrun
  unfold localRuns at hrun
  rcases hloc : sp.loc with _ | l
  · rw [hloc] at hrun
    exact absurd hrun List.not_mem_nil
  · rw [hloc] at hrun
    obtain ⟨segment, -, rfl⟩ := List.mem_map.mp hrun
    exact ⟨segment.nonempty, fun hdot => absurd (segment.alphanumeric '.' hdot) (by decide)⟩

theorem localKey_inj {sp sp' : Spelling} (h : localKey (localRuns sp) = localKey (localRuns sp')) :
    localRuns sp = localRuns sp' := by
  rcases hruns : localRuns sp with _ | ⟨run, runs⟩
  · rcases hruns' : localRuns sp' with _ | ⟨run', runs'⟩
    · rfl
    · rw [hruns, hruns'] at h
      exact absurd h (by simp [localKey])
  · rcases hruns' : localRuns sp' with _ | ⟨run', runs'⟩
    · rw [hruns, hruns'] at h
      exact absurd h (by simp [localKey])
    · rw [hruns, hruns'] at h
      refine Lib.Joins.intercalate_injective ?_ ?_ (List.cons.inj h).2
      · rw [← hruns]
        exact mem_localRuns
      · rw [← hruns']
        exact mem_localRuns

def partText : LocalPart → Text
  | .number n => decimal n
  | .word text => text

/-- Without numbers a local part is spelled in one way. -/
theorem localRuns_eq {sp : Spelling} (h : ∀ n, LocalPart.number n ∉ sp.version.loc) :
    localRuns sp = sp.version.loc.map partText := by
  rw [version_loc] at h ⊢
  rw [List.map_map]
  have hkeep : ∀ run ∈ localRuns sp, id run = (partText ∘ runPart) run := by
    intro run hrun
    rcases hall : run.all Char.isDigit with _ | _
    · simp [runPart, hall, partText]
    · exact absurd (List.mem_map.mpr ⟨run, hrun, by simp [runPart, hall]⟩) (h (value run))
  rw [← List.map_congr_left hkeep, List.map_id]

end Locals

section Distinct

/-- A version of which no number follows another one and none of the local part has
leading zeros to lose: a final or development release with a last component below ten. -/
structure Distinct (v : Version) : Prop where
  pre : v.pre = none
  post : v.post = none
  lastDigit : ∀ last, (pad v.release).getLast? = some last → last < 10
  noNumbers : ∀ n, LocalPart.number n ∉ v.loc

theorem suffixRunsOf_plainRelease {sp : Spelling} (hpre : sp.pre = none) (hpost : sp.post = none) :
    suffixRuns (suffixRunsOf sp) = devKey sp.version.dev := by
  unfold suffixRunsOf
  rw [hpre, hpost]
  exact suffixRuns_dev sp.dev

theorem version_pre_eq_none_iff (sp : Spelling) : sp.version.pre = none ↔ sp.pre = none :=
  Option.map_eq_none_iff

theorem version_post_eq_none_iff (sp : Spelling) : sp.version.post = none ↔ sp.post = none :=
  Option.map_eq_none_iff

/-- The spellings of such a version have one key. -/
theorem keyOf_eq_of_version_eq {sp sp' : Spelling} (hd : Distinct sp.version)
    (h : sp.version = sp'.version) : keyOf sp = keyOf sp' := by
  have hd' : Distinct sp'.version := h ▸ hd
  have hsuffix := suffixRunsOf_plainRelease ((version_pre_eq_none_iff sp).mp hd.pre)
    ((version_post_eq_none_iff sp).mp hd.post)
  have hsuffix' := suffixRunsOf_plainRelease ((version_pre_eq_none_iff sp').mp hd'.pre)
    ((version_post_eq_none_iff sp').mp hd'.post)
  have hepoch : digitsValue sp.epoch = digitsValue sp'.epoch := congrArg Version.epoch h
  unfold keyOf
  rw [hsuffix, hsuffix', localRuns_eq hd.noNumbers, localRuns_eq hd'.noNumbers, hepoch, h]

/-- What the suffix of a spelling reads as: a development release or nothing, the same
behind a number, or something that starts with a word. -/
theorem suffix_cases (sp : Spelling) :
    (sp.pre = none ∧ sp.post = none) ∨
      (∃ n, suffixRuns (suffixRunsOf sp) = decimal n ++ devKey sp.version.dev) ∨
      (∃ c rest, c.isLower = true ∧ suffixRuns (suffixRunsOf sp) = c :: rest) ∨
      ∃ rest, suffixRuns (suffixRunsOf sp) = '.' :: 'p' :: rest := by
  have hfirst : ∀ (word rest : Text), (word ≠ [] ∧ ∀ c ∈ word, c.isLower = true) →
      word.head? ≠ some 'd' →
      (∃ c more, c.isLower = true ∧ suffixRuns (word ++ rest) = c :: more) ∨
        ∃ more, suffixRuns (word ++ rest) = '.' :: 'p' :: more := by
    intro word rest hword hhead
    obtain ⟨c, cs, rfl⟩ := List.exists_cons_of_ne_nil hword.1
    refine suffixRuns_letter (hword.2 c List.mem_cons_self) ?_
    rintro rfl
    exact hhead rfl
  have hpreHead : ∀ word ∈ preWords, word.head? ≠ some 'd' := by decide
  have hpostHead : ∀ word ∈ postWords, word.head? ≠ some 'd' := by decide
  unfold suffixRunsOf
  rcases hpre : sp.pre with _ | m
  · rcases hpost : sp.post with _ | ⟨number⟩ | ⟨m⟩
    · exact Or.inl ⟨rfl, rfl⟩
    · exact Or.inr (Or.inl ⟨number.value, suffixRuns_implicit number sp.dev⟩)
    · refine Or.inr (Or.inr ?_)
      have hword := hfirst m.word (digitsText m.number ++ markerRuns sp.dev)
        (postWords_lower m.word m.listed) (hpostHead m.word m.listed)
      rw [← List.append_assoc] at hword
      exact hword
  · refine Or.inr (Or.inr ?_)
    have hword := hfirst m.word (digitsText m.number ++ postRuns sp.post ++ markerRuns sp.dev)
      (preWords_lower m.word m.listed) (hpreHead m.word m.listed)
    simp only [markerRuns, List.append_assoc] at hword ⊢
    exact hword

/-- No other version has the key of such a version. -/
theorem version_eq_of_keyOf_eq {sp sp' : Spelling} (hd : Distinct sp.version)
    (h : keyOf sp = keyOf sp') : sp.version = sp'.version := by
  obtain ⟨hepoch, hmiddle, hloc⟩ := keyOf_inj h
  have hlocal : sp.version.loc = sp'.version.loc := by
    rw [version_loc, version_loc, localKey_inj hloc]
  have hsuffix := suffixRunsOf_plainRelease ((version_pre_eq_none_iff sp).mp hd.pre)
    ((version_post_eq_none_iff sp).mp hd.post)
  unfold middleOf at hmiddle
  rw [hsuffix] at hmiddle
  have hrelease := isRelease_releaseKey sp.version.release
  have hrelease' := isRelease_releaseKey sp'.version.release
  rcases suffix_cases sp' with
    ⟨hpre', hpost'⟩ | ⟨n, hcase⟩ | ⟨c, rest, hlower, hcase⟩ | ⟨rest, hcase⟩
  · rw [suffixRunsOf_plainRelease hpre' hpost'] at hmiddle
    obtain ⟨hkey, hdev⟩ := release_dev_inj hrelease hrelease' hmiddle
    have htrim := releaseKey_inj hkey
    rw [trim_of_getLast? sp.version.trimmed, trim_of_getLast? sp'.version.trimmed] at htrim
    refine Version.ext hepoch htrim ?_ ?_ hdev hlocal
    · rw [hd.pre, (version_pre_eq_none_iff sp').mpr hpre']
    · rw [hd.post, (version_post_eq_none_iff sp').mpr hpost']
  · rw [hcase, ← List.append_assoc] at hmiddle
    have hkey := (release_dev_inj hrelease
      (isRelease_append_decimal hrelease'.1 n) hmiddle).1
    exact absurd hkey (releaseKey_ne_append hd.lastDigit)
  · rw [hcase] at hmiddle
    exact absurd hmiddle (release_dev_ne_letter hrelease hrelease' hlower)
  · rw [hcase] at hmiddle
    exact absurd hmiddle (release_dev_ne_post hrelease hrelease')

end Distinct

section Canonical

def ofNat (n : ℕ) : Digits := ⟨decimal n, decimal_ne_nil n, fun _ h => isDigit_of_mem_decimal h⟩

@[simp] theorem value_ofNat (n : ℕ) : (ofNat n).value = n := value_decimal n

@[simp] theorem run_ofNat (n : ℕ) : (ofNat n).run = decimal n := rfl

/-- The same marker with its number written out. -/
def numbered {words : List Text} (m : Marker words) : Marker words :=
  { m with number := some (ofNat (digitsValue m.number)) }

def dotted (l : LocalSpelling) : LocalSpelling :=
  ⟨l.first, l.others.map fun other => (.dot, other.2)⟩

theorem dotted_segments (l : LocalSpelling) : (dotted l).segments = l.segments := by
  unfold dotted LocalSpelling.segments
  simp only [List.map_map]
  rfl

theorem dotted_text (l : LocalSpelling) :
    (dotted l).text = ['.'].intercalate (l.segments.map LocalSegment.run) := by
  have hfold : (dotted l).text.map foldSeparator = (dotted l).text := by
    have hkeep : ∀ c ∈ (dotted l).text, foldSeparator c = id c := by
      intro c hc
      rcases List.mem_append.mp hc with hfirst | hothers
      · exact foldSeparator_of_mem l.first c hfirst
      · obtain ⟨other, hmem, hother⟩ := List.mem_flatMap.mp hothers
        obtain ⟨other', -, rfl⟩ := List.mem_map.mp hmem
        rcases List.mem_cons.mp hother with rfl | hrun
        · rfl
        · exact foldSeparator_of_mem other'.2 c hrun
    rw [List.map_congr_left hkeep, List.map_id]
  rw [← hfold, foldSeparator_text, dotted_segments]

theorem pad_ne_nil (release : List ℕ) : pad release ≠ [] := by
  obtain ⟨init, last, -, hpad⟩ := exists_pad_eq release
  rw [hpad]
  simp

def keyEpoch (epoch : ℕ) : Option Digits := if epoch = 0 then none else some (ofNat epoch)

@[simp] theorem digitsValue_keyEpoch (epoch : ℕ) : digitsValue (keyEpoch epoch) = epoch := by
  unfold keyEpoch
  split_ifs with hzero
  · exact hzero.symm
  · exact value_ofNat epoch

/-- A key as a spelling. -/
def keySpelling (sp : Spelling) : Spelling where
  hasV := false
  epoch := keyEpoch (digitsValue sp.epoch)
  first := ofNat ((pad sp.version.release).head (pad_ne_nil _))
  others := (pad sp.version.release).tail.map ofNat
  pre := none
  post := none
  dev := sp.dev.map fun m => { numbered m with before := some .dot, between := none }
  loc := sp.loc.map dotted
  unambiguous := fun _ h => absurd h (by simp)

theorem keySpelling_components (sp : Spelling) :
    (keySpelling sp).components = (pad sp.version.release).map ofNat := by
  change ofNat ((pad sp.version.release).head _) :: (pad sp.version.release).tail.map ofNat = _
  rw [← List.map_cons, List.cons_head_tail]

theorem keySpelling_version {sp : Spelling} (hpre : sp.pre = none) (hpost : sp.post = none) :
    (keySpelling sp).version = sp.version := by
  apply Version.ext
  · exact digitsValue_keyEpoch _
  · change Pep440.trim ((keySpelling sp).components.map Digits.value) = sp.version.release
    have hvalues : ((pad sp.version.release).map ofNat).map Digits.value =
        pad sp.version.release := by
      rw [List.map_map, show Digits.value ∘ ofNat = id from funext value_ofNat, List.map_id]
    rw [keySpelling_components, hvalues, trim_pad, trim_of_getLast? sp.version.trimmed]
  · change none = sp.version.pre
    exact ((version_pre_eq_none_iff sp).mpr hpre).symm
  · change none = sp.version.post
    exact ((version_post_eq_none_iff sp).mpr hpost).symm
  · change (sp.dev.map _).map _ = sp.dev.map _
    rw [Option.map_map]
    congr 1
    funext m
    exact value_ofNat _
  · rw [version_loc, version_loc]
    congr 1
    unfold localRuns keySpelling
    rcases sp.loc with _ | l
    · rfl
    · exact congrArg (List.map LocalSegment.run) (dotted_segments l)

theorem keySpelling_text {sp : Spelling} (hpre : sp.pre = none) (hpost : sp.post = none) :
    (keySpelling sp).text = keyOf sp := by
  have hepoch : (keySpelling sp).epochText = epochKey (digitsValue sp.epoch) := by
    unfold Spelling.epochText keySpelling epochKey keyEpoch
    by_cases hzero : digitsValue sp.epoch = 0
    · simp only [if_pos hzero]
    · simp only [if_neg hzero, run_ofNat]
  have hrelease : (keySpelling sp).releaseText = releaseKey sp.version.release := by
    unfold Spelling.releaseText releaseKey
    rw [keySpelling_components, List.map_map]
    rfl
  have hsuffix : (keySpelling sp).suffixText = suffixRuns (suffixRunsOf sp) := by
    rw [suffixRunsOf_plainRelease hpre hpost]
    change [] ++ [] ++ markerText (sp.dev.map _) = devKey (sp.dev.map _)
    rcases sp.dev with _ | m
    · rfl
    · have hword : m.word = ['d', 'e', 'v'] := List.mem_singleton.mp m.listed
      change ['.'] ++ m.word ++ [] ++ decimal (digitsValue m.number) = _
      rw [hword]
      rfl
  have hloc : (keySpelling sp).localText = localKey (localRuns sp) := by
    unfold Spelling.localText localRuns keySpelling
    rcases sp.loc with _ | l
    · rfl
    · exact congrArg ('+' :: ·) (dotted_text l)
  unfold Spelling.text keyOf
  rw [hepoch, hrelease, hsuffix, hloc]
  simp only [List.append_assoc]
  rfl

/-- Such a key is its own key. -/
theorem normalizePep440_keyOf {sp : Spelling} (hd : Distinct sp.version) :
    normalizePep440 (keyOf sp) = keyOf sp := by
  have hpre := (version_pre_eq_none_iff sp).mp hd.pre
  have hpost := (version_post_eq_none_iff sp).mp hd.post
  have hversion := keySpelling_version hpre hpost
  calc normalizePep440 (keyOf sp) = normalizePep440 (keySpelling sp).text := by
        rw [keySpelling_text hpre hpost]
    _ = keyOf (keySpelling sp) := normalizePep440_eq (reads_text (keySpelling sp))
    _ = keyOf sp := (keyOf_eq_of_version_eq hd hversion.symm).symm

end Canonical

section Collisions

/-- The word of a run in the key; its number follows. -/
theorem suffixWord_eq_append (word : Text) :
    ∃ token, ∀ num, suffixWord word num = token ++ num := by
  unfold suffixWord
  split_ifs
  · exact ⟨['a'], fun num => rfl⟩
  · exact ⟨['b'], fun num => rfl⟩
  · exact ⟨['r', 'c'], fun num => rfl⟩
  · exact ⟨['.', 'p', 'o', 's', 't'], fun num => rfl⟩
  · exact ⟨['.', 'd', 'e', 'v'], fun num => rfl⟩
  · exact ⟨word, fun num => rfl⟩

theorem length_number_le {digits : Text} (hne : digits ≠ []) :
    (number digits).length ≤ digits.length := by
  have hpos := List.length_pos_iff.mpr hne
  have hstrip := length_stripZeros_le digits
  unfold number
  by_cases hnil : stripZeros digits = []
  · simp only [if_pos hnil]
    exact hpos
  · simpa only [if_neg hnil] using hstrip

/-- A number behind a word, with more digits behind it or a post release. -/
theorem suffixRuns_numbered {word digits rest : Text}
    (hword : ∀ c ∈ word, c.isDigit = false) (hdigits : ∀ c ∈ digits, c.isDigit = true)
    (hne : digits ≠ []) (hrest : Stops Char.isDigit rest) :
    suffixRuns (word ++ (digits ++ rest)) =
      suffixWord word (number digits) ++ suffixRuns rest := by
  have hstop : Stops (fun c => !c.isDigit) (digits ++ rest) := by
    obtain ⟨c, cs, rfl⟩ := List.exists_cons_of_ne_nil hne
    refine stops_cons ?_
    rw [hdigits c List.mem_cons_self]
    rfl
  exact suffixRuns_run hword hdigits (List.append_ne_nil_of_right_ne_nil word hne) hstop hrest

def postMarker (n : ℕ) : Marker postWords :=
  ⟨some .dot, ['p', 'o', 's', 't'], by decide, none, some (ofNat n)⟩

/-- A post release behind the spelled suffix, in words. -/
def withPost (sp : Spelling) (n : ℕ) : Spelling :=
  { sp with
    pre := sp.pre.map numbered
    post := some (.explicit (postMarker n))
    unambiguous := fun _ _ _ _ number h => by simp at h }

/-- A post release behind the spelled suffix, as a number behind a dash. -/
def withImplicitPost (sp : Spelling) (n : ℕ) : Spelling :=
  { sp with
    pre := sp.pre.map numbered
    post := some (.implicit (ofNat n))
    unambiguous := by
      intro m hm _ hnumber
      obtain ⟨m', -, rfl⟩ := Option.map_eq_some_iff.mp hm
      simp [numbered] at hnumber }

theorem numbered_version (pre : Option (Marker preWords)) :
    (pre.map numbered).map (fun m => (preLabel m.word, digitsValue m.number)) =
      pre.map fun m => (preLabel m.word, digitsValue m.number) := by
  rw [Option.map_map]
  congr 1
  funext m
  change (preLabel m.word, (ofNat (digitsValue m.number)).value) = _
  rw [value_ofNat]

theorem withPost_version {sp : Spelling} {n : ℕ} (h : sp.version.post = some n) :
    (withPost sp n).version = sp.version := by
  refine Version.ext rfl rfl (numbered_version sp.pre) ?_ rfl rfl
  rw [h]
  exact congrArg some (value_ofNat n)

theorem withImplicitPost_version {sp : Spelling} {n : ℕ} (h : sp.version.post = some n) :
    (withImplicitPost sp n).version = sp.version := by
  refine Version.ext rfl rfl (numbered_version sp.pre) ?_ rfl rfl
  rw [h]
  exact congrArg some (value_ofNat n)

theorem decimal_digits (n : ℕ) : ∀ c ∈ decimal n, c.isDigit = true :=
  fun _ h => isDigit_of_mem_decimal h

theorem number_decimal (n : ℕ) : number (decimal n) = decimal n := by
  rw [number_eq_decimal (decimal_digits n), value_decimal]

theorem not_isDigit_of_post : ∀ c ∈ ['p', 'o', 's', 't'], c.isDigit = false := by
  intro c hc
  simp only [List.mem_cons, List.not_mem_nil, or_false] at hc
  rcases hc with rfl | rfl | rfl | rfl <;> rfl

theorem suffixRuns_post (n : ℕ) {rest : Text} (hrest : Stops Char.isDigit rest) :
    suffixRuns (['p', 'o', 's', 't'] ++ (decimal n ++ rest)) =
      ['.', 'p', 'o', 's', 't'] ++ (decimal n ++ suffixRuns rest) := by
  rw [suffixRuns_numbered not_isDigit_of_post (decimal_digits n) (decimal_ne_nil n) hrest,
    number_decimal]
  rfl

theorem suffixRuns_digits (n : ℕ) (dev : Option (Marker devWords)) :
    suffixRuns (decimal n ++ markerRuns dev) = decimal n ++ suffixRuns (markerRuns dev) := by
  have himplicit := suffixRuns_implicit (ofNat n) dev
  rw [value_ofNat, run_ofNat] at himplicit
  rw [himplicit, suffixRuns_dev]

theorem suffixRunsOf_withPost (sp : Spelling) (n : ℕ) :
    suffixRunsOf (withPost sp n) = markerRuns (sp.pre.map numbered) ++
      (['p', 'o', 's', 't'] ++ (decimal n ++ markerRuns sp.dev)) := by
  change markerRuns (sp.pre.map numbered) ++ (['p', 'o', 's', 't'] ++ decimal n) ++
    markerRuns sp.dev = _
  simp only [List.append_assoc]

theorem suffixRunsOf_withImplicitPost (sp : Spelling) (n : ℕ) :
    suffixRunsOf (withImplicitPost sp n) =
      markerRuns (sp.pre.map numbered) ++ (decimal n ++ markerRuns sp.dev) := by
  change markerRuns (sp.pre.map numbered) ++ decimal n ++ markerRuns sp.dev = _
  rw [List.append_assoc]

/-- The two spellings of a post release have two keys. -/
theorem keyOf_withPost_ne (sp : Spelling) (n : ℕ) :
    keyOf (withPost sp n) ≠ keyOf (withImplicitPost sp n) := by
  intro h
  have hmiddle : middleOf (withPost sp n) = middleOf (withImplicitPost sp n) := (keyOf_inj h).2.1
  have hruns : suffixRuns (markerRuns (sp.pre.map numbered) ++
        (['p', 'o', 's', 't'] ++ (decimal n ++ markerRuns sp.dev))) =
      suffixRuns (markerRuns (sp.pre.map numbered) ++ (decimal n ++ markerRuns sp.dev)) := by
    rw [← suffixRunsOf_withPost, ← suffixRunsOf_withImplicitPost]
    have hkeys : releaseKey sp.version.release ++ suffixRuns (suffixRunsOf (withPost sp n)) =
        releaseKey sp.version.release ++ suffixRuns (suffixRunsOf (withImplicitPost sp n)) :=
      hmiddle
    exact List.append_cancel_left hkeys
  have hdev := stops_markerRuns devWords_lower sp.dev
  have hposts : Stops Char.isDigit (['p', 'o', 's', 't'] ++ (decimal n ++ markerRuns sp.dev)) :=
    stops_cons (by decide)
  rcases hpre : sp.pre with _ | m
  · rw [hpre, Option.map_none, markerRuns, List.nil_append, List.nil_append, suffixRuns_post n hdev,
      suffixRuns_digits] at hruns
    have hlength := congrArg List.length hruns
    simp only [List.length_append, List.length_cons, List.length_nil] at hlength
    omega
  · obtain ⟨token, htoken⟩ := suffixWord_eq_append m.word
    have hword := not_isDigit_of_word m preWords_lower
    have hjoin : ∀ c ∈ decimal (digitsValue m.number) ++ decimal n, c.isDigit = true := by
      intro c hc
      exact (List.mem_append.mp hc).elim (decimal_digits _ c) (decimal_digits _ c)
    have hjoinNe : decimal (digitsValue m.number) ++ decimal n ≠ [] :=
      List.append_ne_nil_of_left_ne_nil (decimal_ne_nil _) _
    have hmarker : markerRuns (some (numbered m)) = m.word ++ decimal (digitsValue m.number) := rfl
    have hregroup : m.word ++ decimal (digitsValue m.number) ++ (decimal n ++ markerRuns sp.dev) =
        m.word ++ ((decimal (digitsValue m.number) ++ decimal n) ++ markerRuns sp.dev) := by
      simp only [List.append_assoc]
    rw [hpre, Option.map_some, hmarker, hregroup, List.append_assoc,
      suffixRuns_numbered hword (decimal_digits _) (decimal_ne_nil _) hposts,
      suffixRuns_post n hdev, suffixRuns_numbered hword hjoin hjoinNe hdev, htoken, htoken,
      number_decimal] at hruns
    have hlength := congrArg List.length hruns
    have hle := length_number_le hjoinNe
    simp only [List.length_append, List.length_cons, List.length_nil] at hlength hle
    omega

/-- A pre-release that spells its number as a post release. -/
def mergedPre (sp : Spelling) (m : Marker preWords) : Spelling :=
  { sp with
    pre := some { m with between := some .dash, number := none }
    post := some (.implicit (ofNat (digitsValue m.number)))
    unambiguous := by
      intro m' hm' hbetween
      obtain rfl := Option.some.inj hm'
      exact absurd hbetween (by simp) }

def numberedPre (sp : Spelling) (m : Marker preWords) : Spelling :=
  { sp with
    pre := some (numbered m)
    unambiguous := by
      intro m' hm' _ hnumber
      obtain rfl := Option.some.inj hm'
      exact absurd hnumber (by simp [numbered]) }

theorem keyOf_mergedPre {sp : Spelling} {m : Marker preWords} (hpost : sp.post = none) :
    keyOf (mergedPre sp m) = keyOf (numberedPre sp m) := by
  have hruns : suffixRunsOf (mergedPre sp m) = suffixRunsOf (numberedPre sp m) := by
    unfold suffixRunsOf mergedPre numberedPre
    simp only [hpost, markerRuns, postRuns, numbered, digitsText, List.append_nil,
      List.append_assoc]
  unfold keyOf
  rw [hruns]
  rfl

theorem numberedPre_version {sp : Spelling} {m : Marker preWords} (hpre : sp.pre = some m) :
    (numberedPre sp m).version = sp.version := by
  refine Version.ext rfl rfl ?_ rfl rfl rfl
  calc (numberedPre sp m).version.pre =
        (sp.pre.map numbered).map fun m => (preLabel m.word, digitsValue m.number) := by
        rw [hpre]
        rfl
    _ = sp.version.pre := numbered_version sp.pre

/-- A release without its last digit, which is spelled as a post release. -/
def mergedRelease (sp : Spelling) (init : List ℕ) (last : ℕ) : Spelling :=
  { sp with
    first := ofNat ((init ++ [last / 10]).head (by simp))
    others := (init ++ [last / 10]).tail.map ofNat
    pre := none
    post := some (.implicit (ofNat (last % 10)))
    unambiguous := fun _ h => absurd h (by simp) }

theorem mergedRelease_release {sp : Spelling} {init : List ℕ} {last : ℕ} (hlast : 10 ≤ last) :
    (mergedRelease sp init last).version.release = init ++ [last / 10] := by
  have hcomponents : (mergedRelease sp init last).components.map Digits.value =
      init ++ [last / 10] := by
    change ((ofNat ((init ++ [last / 10]).head _)) ::
      (init ++ [last / 10]).tail.map ofNat).map Digits.value = _
    rw [← List.map_cons, List.cons_head_tail, List.map_map,
      show Digits.value ∘ ofNat = id from funext value_ofNat, List.map_id]
  change Pep440.trim ((mergedRelease sp init last).components.map Digits.value) = _
  rw [hcomponents]
  exact trim_append_of_ne (by omega)

theorem keyOf_mergedRelease {sp : Spelling} {init : List ℕ} {last : ℕ} (hpre : sp.pre = none)
    (hpost : sp.post = none) (hinit : init ≠ []) (hpad : pad sp.version.release = init ++ [last])
    (hlast : 10 ≤ last) : keyOf (mergedRelease sp init last) = keyOf sp := by
  have hpad' : pad (init ++ [last / 10]) = init ++ [last / 10] := by
    match init, hinit with
    | [m], _ => rfl
    | m :: n :: rest, _ => rfl
  have hdigits : decimal (last / 10) ++ decimal (last % 10) = decimal last := by
    rw [decimal_append (by omega) (Nat.mod_lt last (by decide)), Nat.div_add_mod]
  have hruns : suffixRuns (suffixRunsOf (mergedRelease sp init last)) =
      decimal (last % 10) ++ suffixRuns (markerRuns sp.dev) := suffixRuns_digits (last % 10) sp.dev
  have hplain : suffixRuns (suffixRunsOf sp) = suffixRuns (markerRuns sp.dev) := by
    unfold suffixRunsOf
    rw [hpre, hpost]
    rfl
  unfold keyOf
  rw [hruns, hplain, mergedRelease_release hlast, releaseKey_eq hinit hpad',
    releaseKey_eq hinit hpad, ← hdigits]
  simp only [List.append_assoc, List.cons_append]
  rfl

/-- A number with one more leading zero. -/
def zeroed (segment : LocalSegment) : LocalSegment :=
  if segment.run.all Char.isDigit then
    ⟨'0' :: segment.run, by simp, by
      intro c hc
      rcases List.mem_cons.mp hc with rfl | hrun
      · decide
      · exact segment.alphanumeric c hrun⟩
  else segment

theorem zeroed_part (segment : LocalSegment) : (zeroed segment).part = segment.part := by
  unfold zeroed
  split_ifs with hall
  · have hall' : ('0' :: segment.run).all Char.isDigit = true := by
      rw [List.all_cons, hall]
      rfl
    unfold LocalSegment.part
    rw [if_pos hall', if_pos hall, value_zero_cons]
  · rfl

def withZeros (sp : Spelling) : Spelling :=
  { sp with
    loc := sp.loc.map fun l =>
      ⟨zeroed l.first, l.others.map fun other => (other.1, zeroed other.2)⟩ }

theorem withZeros_version (sp : Spelling) : (withZeros sp).version = sp.version := by
  refine Version.ext rfl rfl rfl rfl rfl ?_
  unfold Spelling.version withZeros
  rcases sp.loc with _ | l
  · rfl
  · simp only [Option.map_some, LocalSpelling.segments, List.map_cons, List.map_map, zeroed_part]
    congr 1
    exact List.map_congr_left fun other _ => zeroed_part other.2

def zeroRun (run : Text) : Text := if run.all Char.isDigit then '0' :: run else run

theorem zeroed_run (segment : LocalSegment) : (zeroed segment).run = zeroRun segment.run := by
  unfold zeroed zeroRun
  split_ifs
  · rfl
  · rfl

theorem localRuns_withZeros (sp : Spelling) :
    localRuns (withZeros sp) = (localRuns sp).map zeroRun := by
  unfold localRuns withZeros
  rcases sp.loc with _ | l
  · rfl
  · simp only [Option.map_some, LocalSpelling.segments, List.map_cons, List.map_map, zeroed_run]
    congr 1
    exact List.map_congr_left fun other _ => zeroed_run other.2

/-- Leading zeros of a local number make another key. -/
theorem noNumbers_of_withZeros {sp : Spelling} (h : keyOf sp = keyOf (withZeros sp)) :
    ∀ n, LocalPart.number n ∉ sp.version.loc := by
  have hruns := localKey_inj (keyOf_inj h).2.2
  rw [localRuns_withZeros] at hruns
  intro n hn
  rw [version_loc] at hn
  obtain ⟨run, hmem, hpart⟩ := List.mem_map.mp hn
  have hall : run.all Char.isDigit = true := by
    unfold runPart at hpart
    split_ifs at hpart with hall
    exact hall
  have hsame : run = zeroRun run := by
    have hmap : (localRuns sp).map id = (localRuns sp).map zeroRun := by
      rw [List.map_id]
      exact hruns
    exact List.map_inj_left.mp hmap run hmem
  rw [zeroRun, if_pos hall] at hsame
  have hlength := congrArg List.length hsame
  rw [List.length_cons] at hlength
  omega

end Collisions

section Exactness

/-- A text is compared exactly with all others when its key is its version's alone and all
its version's: just where no number of its key can be the join of two and none is spelled
in two ways. -/
theorem comparison_key_exact_iff (text : Text) (sp : Spelling) (h : Reads text sp) :
    ((∀ other sp', Reads other sp' →
        (normalizePep440 text = normalizePep440 other ↔ sp.version = sp'.version)) ∧
      normalizePep440 (normalizePep440 text) = normalizePep440 text) ↔
    Distinct sp.version := by
  constructor
  · rintro ⟨hexact, -⟩
    have hkeys : ∀ sp' : Spelling, keyOf sp = keyOf sp' ↔ sp.version = sp'.version := by
      intro sp'
      have hother := hexact sp'.text sp' (reads_text sp')
      rwa [normalizePep440_eq h, normalizePep440_eq (reads_text sp')] at hother
    have hpost : sp.version.post = none := by
      rw [Option.eq_none_iff_forall_ne_some]
      intro n hn
      apply keyOf_withPost_ne sp n
      exact ((hkeys _).mpr (withPost_version hn).symm).symm.trans
        ((hkeys _).mpr (withImplicitPost_version hn).symm)
    have hspPost := (version_post_eq_none_iff sp).mp hpost
    have hpre : sp.version.pre = none := by
      rw [version_pre_eq_none_iff, Option.eq_none_iff_forall_ne_some]
      intro m hm
      have hsame : keyOf sp = keyOf (mergedPre sp m) :=
        ((hkeys _).mpr (numberedPre_version hm).symm).trans (keyOf_mergedPre hspPost).symm
      have hversion := congrArg Version.post ((hkeys _).mp hsame)
      rw [hpost] at hversion
      exact Option.some_ne_none _ hversion.symm
    have hspPre := (version_pre_eq_none_iff sp).mp hpre
    refine ⟨hpre, hpost, ?_, ?_⟩
    · intro last hlast
      by_contra hge
      obtain ⟨init, last', hinit, hpad⟩ := exists_pad_eq sp.version.release
      rw [hpad, List.getLast?_concat, Option.some.injEq] at hlast
      subst hlast
      have hmerged := keyOf_mergedRelease hspPre hspPost hinit hpad (Nat.le_of_not_lt hge)
      have hversion := congrArg Version.post ((hkeys _).mp hmerged.symm)
      rw [hpost] at hversion
      exact Option.some_ne_none _ hversion.symm
    · exact noNumbers_of_withZeros ((hkeys _).mpr (withZeros_version sp).symm)
  · intro hd
    rw [normalizePep440_eq h]
    refine ⟨?_, normalizePep440_keyOf hd⟩
    intro other sp' hother
    rw [normalizePep440_eq hother]
    exact ⟨version_eq_of_keyOf_eq hd, keyOf_eq_of_version_eq hd⟩

/-- ` V2.0.DEV1`. -/
def developmentRelease : Spelling where
  hasV := true
  epoch := none
  first := ofNat 2
  others := [ofNat 0]
  pre := none
  post := none
  dev := some ⟨some .dot, ['d', 'e', 'v'], List.mem_singleton.mpr rfl, none, some (ofNat 1)⟩
  loc := none
  unambiguous := fun _ h => absurd h (by simp)

theorem comparison_key_exact_development :
    (∀ other sp', Reads other sp' →
        (normalizePep440 " V2.0.DEV1".toList = normalizePep440 other ↔
          developmentRelease.version = sp'.version)) ∧
      normalizePep440 (normalizePep440 " V2.0.DEV1".toList) =
        normalizePep440 " V2.0.DEV1".toList := by
  have hreads : Reads " V2.0.DEV1".toList developmentRelease :=
    ⟨[' '], "V2.0.DEV1".toList, [], rfl, List.all_eq_true.mp rfl, List.all_eq_true.mp rfl,
      by decide⟩
  refine (comparison_key_exact_iff _ _ hreads).mpr ⟨rfl, rfl, ?_, ?_⟩
  · intro last hlast
    obtain rfl : 0 = last := Option.some.inj hlast
    decide
  · exact fun n => List.not_mem_nil

/-- `1.0`. -/
def finalRelease : Spelling where
  hasV := false
  epoch := none
  first := ofNat 1
  others := [ofNat 0]
  pre := none
  post := none
  dev := none
  loc := none
  unambiguous := fun _ h => absurd h (by simp)

/-- `1.01`. -/
def leadingZero : Spelling :=
  { finalRelease with others := [⟨['0', '1'], by decide, List.all_eq_true.mp rfl⟩] }

/-- One post release in its two spellings: a block of the one leaves the other listed. -/
theorem comparison_key_misses_implicit_post :
    Reads "1.0-1".toList (withImplicitPost finalRelease 1) ∧
      Reads "1.0.post1".toList (withPost finalRelease 1) ∧
      (withImplicitPost finalRelease 1).version = (withPost finalRelease 1).version ∧
      normalizePep440 "1.0-1".toList = "1.01".toList ∧
      normalizePep440 "1.0.post1".toList = "1.0.post1".toList ∧
      normalizePep440 (normalizePep440 "1.0-1".toList) = "1.1".toList := by
  have himplicit : Reads "1.0-1".toList (withImplicitPost finalRelease 1) :=
    reads_text (withImplicitPost finalRelease 1)
  have hexplicit : Reads "1.0.post1".toList (withPost finalRelease 1) :=
    reads_text (withPost finalRelease 1)
  have hnone : suffixRuns (markerRuns (none : Option (Marker devWords))) = [] := suffixRuns_nil
  have hruns : suffixRuns (suffixRunsOf (withImplicitPost finalRelease 1)) = decimal 1 := by
    have hdigits := suffixRuns_digits 1 none
    rw [hnone, List.append_nil] at hdigits
    exact hdigits
  have hruns' : suffixRuns (suffixRunsOf (withPost finalRelease 1)) = ".post1".toList := by
    have hpost := suffixRuns_post 1 (stops_markerRuns devWords_lower none)
    rw [hnone, List.append_nil] at hpost
    exact hpost
  have hkey : normalizePep440 "1.0-1".toList = "1.01".toList := by
    rw [normalizePep440_eq himplicit, keyOf, hruns]
    decide
  refine ⟨himplicit, hexplicit, ?_, hkey, ?_, ?_⟩
  · rw [withImplicitPost, withPost]
    rfl
  · rw [normalizePep440_eq hexplicit, keyOf, hruns']
    decide
  · have hzero : Reads "1.01".toList leadingZero := reads_text leadingZero
    have hempty : suffixRuns (suffixRunsOf leadingZero) = [] := suffixRuns_nil
    rw [hkey, normalizePep440_eq hzero, keyOf, hempty]
    decide

end Exactness

end BatleHub.ExactKeys
