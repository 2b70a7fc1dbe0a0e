import BatleHub.Lib.Texts
import Mathlib.Data.List.Basic

/-!
The order of version strings (`services/version_order.rs`). A version is read by the semver
library, its numeric core padded to three components or cut after three; the components
beyond the third are compared where semver sees no difference.
-/
namespace BatleHub.NewestFirst

open Lib.Texts

section Sequences

def compareZeros : List ℕ → Ordering
  | [] => .eq
  | y :: ys => (compare 0 y).then (compareZeros ys)

/-- The first difference of two sequences, the shorter one padded with zeros. -/
def compareCores : List ℕ → List ℕ → Ordering
  | [], ys => compareZeros ys
  | x :: xs, ys => (compare x (ys.headD 0)).then (compareCores xs ys.tail)

/-- `Ord` of `Vec`: the first difference, and a beginning comes before the whole. -/
def compareVecs : List ℕ → List ℕ → Ordering
  | [], [] => .eq
  | [], _ :: _ => .lt
  | _ :: _, [] => .gt
  | x :: xs, y :: ys => (compare x y).then (compareVecs xs ys)

theorem compareZeros_cases (ys : List ℕ) : compareZeros ys = .eq ∨ compareZeros ys = .lt := by
  induction ys with
  | nil => exact .inl rfl
  | cons y ys ih =>
    rw [compareZeros]
    cases y with
    | zero => exact ih
    | succ y =>
      right
      rw [Nat.compare_eq_lt.mpr (Nat.succ_pos y)]
      rfl

theorem compareCores_nil (xs : List ℕ) : compareCores xs [] = .eq ∨ compareCores xs [] = .gt := by
  induction xs with
  | nil => exact .inl rfl
  | cons x xs ih =>
    rw [compareCores]
    cases x with
    | zero => exact ih
    | succ x =>
      right
      rw [List.headD_nil, Nat.compare_eq_gt.mpr (Nat.succ_pos x)]
      rfl

/-- Where padding shows a difference, the unpadded sequences have the same one. -/
theorem compareVecs_of_ne {xs ys : List ℕ} (h : compareCores xs ys ≠ .eq) :
    compareVecs xs ys = compareCores xs ys := by
  induction xs generalizing ys with
  | nil =>
    cases ys with
    | nil => exact absurd rfl h
    | cons y ys => exact ((compareZeros_cases (y :: ys)).resolve_left h).symm
  | cons x xs ih =>
    cases ys with
    | nil => exact ((compareCores_nil (x :: xs)).resolve_left h).symm
    | cons y ys =>
      rw [compareVecs, compareCores, List.headD_cons, List.tail_cons]
      rw [compareCores, List.headD_cons, List.tail_cons] at h
      cases hxy : compare x y with
      | eq =>
        rw [hxy] at h
        exact ih h
      | lt => rfl
      | gt => rfl

theorem compareCores_step (xs ys : List ℕ) : compareCores xs ys =
    (compare (xs.headD 0) (ys.headD 0)).then (compareCores xs.tail ys.tail) := by
  cases xs with
  | nil =>
    cases ys with
    | nil => rfl
    | cons y ys => rfl
  | cons x xs => rfl

theorem headD_take_succ (n : ℕ) (xs : List ℕ) : (xs.take (n + 1)).headD 0 = xs.headD 0 := by
  cases xs with
  | nil => rfl
  | cons x xs => rfl

theorem tail_take_succ (n : ℕ) (xs : List ℕ) : (xs.take (n + 1)).tail = xs.tail.take n := by
  cases xs with
  | nil => simp
  | cons x xs => rfl

theorem compareCores_take_succ (n : ℕ) (xs ys : List ℕ) :
    compareCores (xs.take (n + 1)) (ys.take (n + 1)) =
      (compare (xs.headD 0) (ys.headD 0)).then
        (compareCores (xs.tail.take n) (ys.tail.take n)) := by
  rw [compareCores_step, headD_take_succ, headD_take_succ, tail_take_succ, tail_take_succ]

/-- The first three components, the missing ones zero. -/
theorem compareCores_take_three (xs ys : List ℕ) :
    compareCores (xs.take 3) (ys.take 3) =
      (compare (xs.headD 0) (ys.headD 0)).then
        ((compare (xs.tail.headD 0) (ys.tail.headD 0)).then
          (compare (xs.tail.tail.headD 0) (ys.tail.tail.headD 0))) := by
  rw [compareCores_take_succ, compareCores_take_succ, compareCores_take_succ]
  exact congrArg _ (congrArg _ (Ordering.then_eq ..))

theorem then_of_ne {a b : Ordering} (h : a ≠ .eq) : a.then b = a := by
  cases a with
  | eq => exact absurd rfl h
  | lt => rfl
  | gt => rfl

/-- Where two sequences first differ, the shorter one padded with zeros. -/
structure FirstDiffers (xs ys : List ℕ) (i : ℕ) : Prop where
  same : ∀ j < i, xs.getD j 0 = ys.getD j 0
  differs : xs.getD i 0 ≠ ys.getD i 0

theorem getD_zero (xs : List ℕ) : xs.getD 0 0 = xs.headD 0 := by
  cases xs with
  | nil => rfl
  | cons x xs => rfl

theorem getD_succ (xs : List ℕ) (i : ℕ) : xs.getD (i + 1) 0 = xs.tail.getD i 0 := by
  cases xs with
  | nil => rfl
  | cons x xs => rfl

theorem getD_take {xs : List ℕ} {i n : ℕ} (h : i < n) : (xs.take n).getD i 0 = xs.getD i 0 := by
  rw [List.getD_eq_getElem?_getD, List.getD_eq_getElem?_getD, List.getElem?_take_of_lt h]

theorem getD_drop (xs : List ℕ) (n i : ℕ) : (xs.drop n).getD i 0 = xs.getD (n + i) 0 := by
  rw [List.getD_eq_getElem?_getD, List.getD_eq_getElem?_getD, List.getElem?_drop]

namespace FirstDiffers

theorem tail {xs ys : List ℕ} {i : ℕ} (h : FirstDiffers xs ys (i + 1)) :
    FirstDiffers xs.tail ys.tail i where
  same := by
    intro j hj
    rw [← getD_succ, ← getD_succ]
    exact h.same (j + 1) (Nat.succ_lt_succ hj)
  differs := by
    rw [← getD_succ, ← getD_succ]
    exact h.differs

theorem symm {xs ys : List ℕ} {i : ℕ} (h : FirstDiffers xs ys i) : FirstDiffers ys xs i where
  same := fun j hj => (h.same j hj).symm
  differs := h.differs.symm

theorem compare_head {xs ys : List ℕ} {i : ℕ} (h : FirstDiffers xs ys (i + 1)) :
    compare (xs.headD 0) (ys.headD 0) = .eq := by
  rw [← getD_zero, ← getD_zero]
  exact Nat.compare_eq_eq.mpr (h.same 0 (Nat.succ_pos i))

theorem compareCores_eq {xs ys : List ℕ} {i : ℕ} (h : FirstDiffers xs ys i) :
    compareCores xs ys = compare (xs.getD i 0) (ys.getD i 0) := by
  induction i generalizing xs ys with
  | zero =>
    have hhead := h.differs
    rw [getD_zero, getD_zero] at hhead ⊢
    rw [compareCores_step]
    exact then_of_ne fun heq => hhead (Nat.compare_eq_eq.mp heq)
  | succ i ih =>
    rw [compareCores_step, h.compare_head, getD_succ, getD_succ]
    exact ih h.tail

theorem compareCores_take_of_le {xs ys : List ℕ} {i n : ℕ} (h : FirstDiffers xs ys i)
    (hn : n ≤ i) : compareCores (xs.take n) (ys.take n) = .eq := by
  induction n generalizing xs ys i with
  | zero => rfl
  | succ n ih =>
    obtain ⟨i, rfl⟩ := Nat.exists_eq_succ_of_ne_zero (Nat.ne_zero_of_lt hn)
    rw [compareCores_take_succ, h.compare_head]
    exact ih h.tail (Nat.le_of_succ_le_succ hn)

theorem take {xs ys : List ℕ} {i n : ℕ} (h : FirstDiffers xs ys i) (hi : i < n) :
    FirstDiffers (xs.take n) (ys.take n) i where
  same := by
    intro j hj
    rw [getD_take (hj.trans hi), getD_take (hj.trans hi)]
    exact h.same j hj
  differs := by
    rw [getD_take hi, getD_take hi]
    exact h.differs

theorem drop {xs ys : List ℕ} {i n : ℕ} (h : FirstDiffers xs ys i) (hn : n ≤ i) :
    FirstDiffers (xs.drop n) (ys.drop n) (i - n) where
  same := by
    intro j hj
    rw [getD_drop, getD_drop]
    exact h.same (n + j) (by omega)
  differs := by
    rw [getD_drop, getD_drop, Nat.add_sub_cancel' hn]
    exact h.differs

theorem compare_ne {xs ys : List ℕ} {i : ℕ} (h : FirstDiffers xs ys i) :
    compare (xs.getD i 0) (ys.getD i 0) ≠ .eq := fun heq =>
  h.differs (Nat.compare_eq_eq.mp heq)

end FirstDiffers

end Sequences

section Semver

/-- `semver::Version`. -/
structure Version (Pre Build : Type*) where
  major : ℕ
  minor : ℕ
  patch : ℕ
  pre : Pre
  build : Build
deriving DecidableEq

/-- The semver library: how it reads a version, and the order of the two parts of a version
that are no numbers. -/
structure Semver (Pre Build : Type*) where
  parse : String → Option (Version Pre Build)
  comparePre : Pre → Pre → Ordering
  compareBuild : Build → Build → Ordering

def IsNumber (digits : List Char) : Prop := digits ≠ [] ∧ ∀ c ∈ digits, c.isDigit = true

def valueOf (digits : List Char) : ℕ := digits.foldl (fun n c => n * 10 + (c.toNat - 48)) 0

def startsSuffix (c : Char) : Bool := c == '-' || c == '+'

/-- Nothing, or a pre-release or build metadata behind its sign. -/
def IsSuffix (suffix : List Char) : Prop := ∀ c ∈ suffix.head?, startsSuffix c = true

variable {Pre Build : Type*} (lib : Semver Pre Build)

/-- What the library promises: a version has three numbers and a suffix. -/
structure Semver.Lawful : Prop where
  shape : ∀ text v, lib.parse text = some v → ∃ a b c suffix, IsNumber a ∧ IsNumber b ∧
    IsNumber c ∧ IsSuffix suffix ∧ text.toList = ['.'].intercalate [a, b, c] ++ suffix ∧
      v.major = valueOf a ∧ v.minor = valueOf b ∧ v.patch = valueOf c

/-- The derived `Ord`, from the first field to the last. -/
def compareVersions (v w : Version Pre Build) : Ordering :=
  (compare v.major w.major).then ((compare v.minor w.minor).then ((compare v.patch w.patch).then
    ((lib.comparePre v.pre w.pre).then (lib.compareBuild v.build w.build))))

/-- The numeric core of a version text, up to the first sign of a suffix, and the suffix. -/
def splitCore (text : List Char) : List Char × List Char :=
  (text.takeWhile fun c => !startsSuffix c, text.dropWhile fun c => !startsSuffix c)

def parseU64 (digits : List Char) : Option ℕ :=
  if valueOf digits < 2 ^ 64 then some (valueOf digits) else none

/-- Three components, of which the missing ones are zero. -/
def padded (parts : List (List Char)) : List Char :=
  ['.'].intercalate (parts.take 3 ++ List.replicate (3 - parts.length) ['0'])

def parse (raw : String) : Option (Version Pre Build × List ℕ) :=
  let v := (stripPrefix raw "v").getD raw
  match lib.parse v with
  | some parsed => some (parsed, [])
  | none =>
    let (core, suffix) := splitCore v.toList
    let parts := core.splitOn '.'
    if parts.any fun p => p.isEmpty || !p.all Char.isDigit then none
    else
      ((parts.drop 3).mapM parseU64).bind fun extra =>
        (lib.parse (String.ofList (padded parts ++ suffix))).map fun parsed => (parsed, extra)

def newestFirst (a b : String) : Ordering :=
  match parse lib a, parse lib b with
  | some (v, extra), some (w, extra') =>
    (compareVersions lib w v).then (compareVecs extra' extra)
  | some _, none => .lt
  | none, some _ => .gt
  | none, none => compare b a

end Semver

section Texts

/-- A version text: numbers that fit, behind an optional `v` and before an optional suffix. -/
structure VersionText where
  hasV : Bool
  parts : List (List Char)
  suffix : List Char
  nonempty : parts ≠ []
  numbers : ∀ p ∈ parts, IsNumber p
  fits : ∀ p ∈ parts, valueOf p < 2 ^ 64
  isSuffix : IsSuffix suffix

namespace VersionText

def body (x : VersionText) : List Char := ['.'].intercalate x.parts ++ x.suffix

def text (x : VersionText) : String := (if x.hasV then "v" else "") ++ String.ofList x.body

def core (x : VersionText) : List ℕ := x.parts.map valueOf

/-- What the semver library is given to read. -/
def paddedText (x : VersionText) : String := String.ofList (padded x.parts ++ x.suffix)

end VersionText

theorem isDigit_not_startsSuffix {c : Char} (h : c.isDigit = true) : startsSuffix c = false := by
  unfold startsSuffix
  rw [Bool.or_eq_false_iff, beq_eq_false_iff_ne, beq_eq_false_iff_ne]
  constructor
  · rintro rfl
    cases h
  · rintro rfl
    cases h

theorem dot_notMem {p : List Char} (h : IsNumber p) : '.' ∉ p := by
  intro hdot
  cases h.2 '.' hdot

theorem not_startsSuffix_of_mem {parts : List (List Char)} (h : ∀ p ∈ parts, IsNumber p) :
    ∀ c ∈ ['.'].intercalate parts, startsSuffix c = false := by
  induction parts with
  | nil => intro c hc; cases hc
  | cons p rest ih =>
    have hp := h p List.mem_cons_self
    cases rest with
    | nil =>
      intro c hc
      rw [List.intercalate_singleton] at hc
      exact isDigit_not_startsSuffix (hp.2 c hc)
    | cons q rest =>
      intro c hc
      rw [List.intercalate_cons_cons, List.mem_append, List.mem_append] at hc
      rcases hc with (hc | hc) | hc
      · exact isDigit_not_startsSuffix (hp.2 c hc)
      · rw [List.mem_singleton.mp hc]
        rfl
      · exact ih (fun q' hq' => h q' (List.mem_cons_of_mem p hq')) c hc

theorem splitCore_append {core suffix : List Char} (hcore : ∀ c ∈ core, startsSuffix c = false)
    (hsuffix : IsSuffix suffix) : splitCore (core ++ suffix) = (core, suffix) := by
  have hplain : ∀ c ∈ core, (!startsSuffix c) = true := by
    intro c hc
    rw [hcore c hc]
    rfl
  unfold splitCore
  rw [List.takeWhile_append_of_pos hplain, List.dropWhile_append_of_pos hplain]
  cases suffix with
  | nil => simp
  | cons c rest =>
    have hc : startsSuffix c = true := hsuffix c rfl
    simp [hc]

theorem splitOn_parts {parts : List (List Char)} (h : ∀ p ∈ parts, IsNumber p)
    (hne : parts ≠ []) : (['.'].intercalate parts).splitOn '.' = parts :=
  List.splitOn_intercalate '.' (fun p hp => dot_notMem (h p hp)) hne

theorem mapM_parseU64 {parts : List (List Char)} (h : ∀ p ∈ parts, valueOf p < 2 ^ 64) :
    parts.mapM parseU64 = some (parts.map valueOf) := by
  induction parts with
  | nil => rfl
  | cons p rest ih =>
    rw [List.mapM_cons, ih fun q hq => h q (List.mem_cons_of_mem p hq)]
    unfold parseU64
    rw [if_pos (h p List.mem_cons_self)]
    rfl

theorem stripPrefix_text (x : VersionText) :
    (stripPrefix x.text "v").getD x.text = String.ofList x.body := by
  unfold VersionText.text
  cases x.hasV with
  | true =>
    rw [if_pos rfl, stripPrefix_append]
    rfl
  | false =>
    rw [if_neg Bool.false_ne_true, String.empty_append]
    cases hstrip : stripPrefix (String.ofList x.body) "v" with
    | none => rfl
    | some rest =>
      exfalso
      have hbody := congrArg String.toList ((stripPrefix_eq_some_iff _ _ _).mp hstrip)
      rw [String.toList_ofList, String.toList_append] at hbody
      obtain ⟨p, others, hparts⟩ := List.exists_cons_of_ne_nil x.nonempty
      obtain ⟨hne, hdigits⟩ := x.numbers p (hparts ▸ List.mem_cons_self)
      obtain ⟨d, digits, rfl⟩ := List.exists_cons_of_ne_nil hne
      have hfirst : x.body.head? = some d := by
        unfold VersionText.body
        rw [hparts]
        cases others with
        | nil => rfl
        | cons q others => rfl
      rw [hbody] at hfirst
      obtain rfl : 'v' = d := Option.some.inj hfirst
      cases hdigits 'v' List.mem_cons_self

variable {Pre Build : Type*} {lib : Semver Pre Build}

/-- The library reads a version text's numbers: the first three components, padded. -/
structure ReadsCore (x : VersionText) (v : Version Pre Build) : Prop where
  major : v.major = x.core.headD 0
  minor : v.minor = x.core.tail.headD 0
  patch : v.patch = x.core.tail.tail.headD 0

theorem parts_inj {parts parts' : List (List Char)} {suffix suffix' : List Char}
    (hnumbers : ∀ p ∈ parts, IsNumber p) (hne : parts ≠ []) (hsuffix : IsSuffix suffix)
    (hnumbers' : ∀ p ∈ parts', IsNumber p) (hne' : parts' ≠ []) (hsuffix' : IsSuffix suffix')
    (h : ['.'].intercalate parts ++ suffix = ['.'].intercalate parts' ++ suffix') :
    parts = parts' ∧ suffix = suffix' := by
  have hsplit := splitCore_append (not_startsSuffix_of_mem hnumbers) hsuffix
  rw [h, splitCore_append (not_startsSuffix_of_mem hnumbers') hsuffix'] at hsplit
  obtain ⟨hcore, hrest⟩ := Prod.mk.inj hsplit
  refine ⟨?_, hrest.symm⟩
  rw [← splitOn_parts hnumbers hne, ← hcore, splitOn_parts hnumbers' hne']

/-- The three numbers that are given to the library. -/
def firstThree (parts : List (List Char)) : List (List Char) :=
  [parts.headD ['0'], parts.tail.headD ['0'], parts.tail.tail.headD ['0']]

theorem padded_eq {parts : List (List Char)} (hne : parts ≠ []) :
    padded parts = ['.'].intercalate (firstThree parts) := by
  match parts, hne with
  | [_], _ => rfl
  | [_, _], _ => rfl
  | _ :: _ :: _ :: rest, _ =>
    have hpad : 3 - (rest.length + 1 + 1 + 1) = 0 := by omega
    unfold padded
    rw [List.length_cons, List.length_cons, List.length_cons, hpad]
    rfl

theorem isNumber_zero : IsNumber ['0'] :=
  ⟨List.cons_ne_nil _ _, fun c hc => by rw [List.mem_singleton.mp hc]; rfl⟩

theorem isNumber_headD {parts : List (List Char)} (h : ∀ p ∈ parts, IsNumber p) :
    IsNumber (parts.headD ['0']) := by
  cases parts with
  | nil => exact isNumber_zero
  | cons p rest => exact h p List.mem_cons_self

theorem numbers_three {a b c : List Char} (ha : IsNumber a) (hb : IsNumber b) (hc : IsNumber c) :
    ∀ p ∈ [a, b, c], IsNumber p := by
  intro p hp
  rw [List.mem_cons, List.mem_cons, List.mem_singleton] at hp
  rcases hp with rfl | rfl | rfl
  · exact ha
  · exact hb
  · exact hc

theorem firstThree_numbers {parts : List (List Char)} (h : ∀ p ∈ parts, IsNumber p) :
    ∀ p ∈ firstThree parts, IsNumber p := by
  have htail : ∀ p ∈ parts.tail, IsNumber p := fun p hp => h p (List.mem_of_mem_tail hp)
  have htail' : ∀ p ∈ parts.tail.tail, IsNumber p := fun p hp => htail p (List.mem_of_mem_tail hp)
  exact numbers_three (isNumber_headD h) (isNumber_headD htail) (isNumber_headD htail')

theorem valueOf_headD (parts : List (List Char)) :
    valueOf (parts.headD ['0']) = (parts.map valueOf).headD 0 := by
  cases parts with
  | nil => rfl
  | cons p rest => rfl

theorem readsCore (hlib : lib.Lawful) {x : VersionText} {v : Version Pre Build}
    (h : lib.parse x.paddedText = some v) : ReadsCore x v := by
  obtain ⟨a, b, c, suffix, ha, hb, hc, hsuffix, htext, hmajor, hminor, hpatch⟩ :=
    hlib.shape _ v h
  unfold VersionText.paddedText at htext
  rw [String.toList_ofList, padded_eq x.nonempty] at htext
  obtain ⟨hparts, -⟩ := parts_inj (firstThree_numbers x.numbers) (List.cons_ne_nil _ _)
    x.isSuffix (numbers_three ha hb hc) (List.cons_ne_nil _ _) hsuffix htext
  unfold firstThree at hparts
  obtain ⟨hfirst, hrest⟩ := List.cons.inj hparts
  obtain ⟨hsecond, hlast⟩ := List.cons.inj hrest
  obtain ⟨hthird, -⟩ := List.cons.inj hlast
  constructor
  · rw [hmajor, ← hfirst, valueOf_headD]
    rfl
  · rw [hminor, ← hsecond, valueOf_headD, List.map_tail]
    rfl
  · rw [hpatch, ← hthird, valueOf_headD, List.map_tail, List.map_tail]
    rfl

/-- What the library reads unpadded has three components already. -/
theorem paddedText_of_body (hlib : lib.Lawful) {x : VersionText} {w : Version Pre Build}
    (h : lib.parse (String.ofList x.body) = some w) :
    x.paddedText = String.ofList x.body ∧ x.core.drop 3 = [] := by
  obtain ⟨a, b, c, suffix, ha, hb, hc, hsuffix, htext, -⟩ := hlib.shape _ w h
  rw [String.toList_ofList] at htext
  obtain ⟨hparts, -⟩ := parts_inj x.numbers x.nonempty x.isSuffix
    (numbers_three ha hb hc) (List.cons_ne_nil _ _) hsuffix htext
  unfold VersionText.paddedText VersionText.body VersionText.core
  rw [hparts]
  exact ⟨rfl, rfl⟩

theorem parse_text (hlib : lib.Lawful) {x : VersionText} {v : Version Pre Build}
    (h : lib.parse x.paddedText = some v) : parse lib x.text = some (v, x.core.drop 3) := by
  unfold parse
  dsimp only
  rw [stripPrefix_text]
  cases hbody : lib.parse (String.ofList x.body) with
  | some w =>
    obtain ⟨hpadded, hextra⟩ := paddedText_of_body hlib hbody
    rw [hpadded, hbody] at h
    obtain rfl : w = v := Option.some.inj h
    rw [hextra]
  | none =>
    have hplain : x.parts.any (fun p => p.isEmpty || !p.all Char.isDigit) = false := by
      rw [List.any_eq_false]
      intro p hp
      obtain ⟨hne, hdigits⟩ := x.numbers p hp
      rw [Bool.or_eq_true, not_or, List.isEmpty_iff, Bool.not_eq_true', Bool.not_eq_false,
        List.all_eq_true]
      exact ⟨hne, hdigits⟩
    have hfits : ∀ p ∈ x.parts.drop 3, valueOf p < 2 ^ 64 := fun p hp =>
      x.fits p (List.mem_of_mem_drop hp)
    have hcore : splitCore x.body = (['.'].intercalate x.parts, x.suffix) :=
      splitCore_append (not_startsSuffix_of_mem x.numbers) x.isSuffix
    have hparts : (['.'].intercalate x.parts).splitOn '.' = x.parts :=
      splitOn_parts x.numbers x.nonempty
    have hread : lib.parse (String.ofList (padded x.parts ++ x.suffix)) = some v := h
    dsimp only
    rw [String.toList_ofList, hcore]
    dsimp only
    rw [hparts, hplain, if_neg Bool.false_ne_true, mapM_parseU64 hfits, hread, List.map_drop]
    rfl

end Texts

section Order
variable {Pre Build : Type*}

/-- The semver order of the suffixes: the pre-release, then the build metadata. -/
def compareSuffixes (lib : Semver Pre Build) (v w : Version Pre Build) : Ordering :=
  (lib.comparePre v.pre w.pre).then (lib.compareBuild v.build w.build)

variable {lib : Semver Pre Build} {x y : VersionText} {v w : Version Pre Build}

theorem compareVersions_of_reads (hv : ReadsCore x v) (hw : ReadsCore y w) :
    compareVersions lib v w =
      (compareCores (x.core.take 3) (y.core.take 3)).then (compareSuffixes lib v w) := by
  rw [compareCores_take_three, Ordering.then_assoc, Ordering.then_assoc]
  unfold compareVersions compareSuffixes
  rw [hv.major, hv.minor, hv.patch, hw.major, hw.minor, hw.patch]

/-- The first three components, then the suffixes, then the further components. -/
theorem newestFirst_texts (hlib : lib.Lawful) (hv : lib.parse x.paddedText = some v)
    (hw : lib.parse y.paddedText = some w) : newestFirst lib x.text y.text =
      (compareCores (y.core.take 3) (x.core.take 3)).then
        ((compareSuffixes lib w v).then (compareVecs (y.core.drop 3) (x.core.drop 3))) := by
  unfold newestFirst
  rw [parse_text hlib hv, parse_text hlib hw]
  dsimp only
  rw [compareVersions_of_reads (readsCore hlib hw) (readsCore hlib hv), Ordering.then_assoc]

theorem newestFirst_of_lt_three (hlib : lib.Lawful) (hv : lib.parse x.paddedText = some v)
    (hw : lib.parse y.paddedText = some w) {i : ℕ} (hi : FirstDiffers y.core x.core i)
    (hlt : i < 3) :
    newestFirst lib x.text y.text = compare (y.core.getD i 0) (x.core.getD i 0) := by
  have htake := (hi.take hlt).compareCores_eq
  rw [getD_take hlt, getD_take hlt] at htake
  rw [newestFirst_texts hlib hv hw, htake]
  exact then_of_ne hi.compare_ne

theorem newestFirst_of_three_le (hlib : lib.Lawful) (hv : lib.parse x.paddedText = some v)
    (hw : lib.parse y.paddedText = some w) {i : ℕ} (hi : FirstDiffers y.core x.core i)
    (hle : 3 ≤ i) : newestFirst lib x.text y.text =
      (compareSuffixes lib w v).then (compare (y.core.getD i 0) (x.core.getD i 0)) := by
  have hdrop := hi.drop hle
  have hcores := hdrop.compareCores_eq
  rw [getD_drop, getD_drop, Nat.add_sub_cancel' hle] at hcores
  have hvecs : compareVecs (y.core.drop 3) (x.core.drop 3) =
      compare (y.core.getD i 0) (x.core.getD i 0) := by
    rw [← hcores]
    apply compareVecs_of_ne
    rw [hcores]
    exact hi.compare_ne
  rw [newestFirst_texts hlib hv hw, hi.compareCores_take_of_le hle, hvecs]
  rfl

end Order

section Results

/-- Of the semver grammar, the versions whose pre-release is a word of letters. -/
def isPlainNumber (digits : List Char) : Bool :=
  !digits.isEmpty && digits.all Char.isDigit && (digits == ['0'] || digits.head? != some '0') &&
    decide (valueOf digits < 2 ^ 64)

def isWordSuffix : List Char → Bool
  | [] => true
  | c :: word => c == '-' && !word.isEmpty && word.all Char.isAlpha

def sampleRead (text : String) : Option (Version String Unit) :=
  let (core, suffix) := splitCore text.toList
  match core.splitOn '.' with
  | [a, b, c] =>
    if isPlainNumber a && isPlainNumber b && isPlainNumber c && isWordSuffix suffix then
      some ⟨valueOf a, valueOf b, valueOf c, String.ofList suffix.tail, ()⟩
    else none
  | _ => none

/-- The release is above all its pre-releases. -/
def sampleComparePre (p q : String) : Ordering :=
  (compare p.isEmpty q.isEmpty).then (compare p q)

def sampleSemver : Semver String Unit := ⟨sampleRead, sampleComparePre, fun _ _ => .eq⟩

theorem isNumber_of_isPlainNumber {digits : List Char} (h : isPlainNumber digits = true) :
    IsNumber digits := by
  unfold isPlainNumber at h
  rw [Bool.and_eq_true, Bool.and_eq_true, Bool.and_eq_true, Bool.not_eq_true',
    List.isEmpty_eq_false_iff, List.all_eq_true] at h
  exact h.1.1

theorem isSuffix_of_isWordSuffix {suffix : List Char} (h : isWordSuffix suffix = true) :
    IsSuffix suffix := by
  cases suffix with
  | nil =>
    intro c hc
    cases hc
  | cons d word =>
    unfold isWordSuffix at h
    rw [Bool.and_eq_true, Bool.and_eq_true, beq_iff_eq] at h
    intro c hc
    obtain rfl : d = c := Option.some.inj hc
    rw [h.1.1]
    rfl

theorem sampleSemver_lawful : sampleSemver.Lawful where
  shape := by
    intro text v h
    have hread : sampleRead text = some v := h
    unfold sampleRead at hread
    dsimp only at hread
    split at hread
    · rename_i core a b c hparts
      split at hread
      · rename_i hplain
        rw [Bool.and_eq_true, Bool.and_eq_true, Bool.and_eq_true] at hplain
        obtain ⟨⟨⟨ha, hb⟩, hc⟩, hsuffix⟩ := hplain
        obtain rfl := Option.some.inj hread
        refine ⟨a, b, c, (splitCore text.toList).2, isNumber_of_isPlainNumber ha,
          isNumber_of_isPlainNumber hb, isNumber_of_isPlainNumber hc,
          isSuffix_of_isWordSuffix hsuffix, ?_, rfl, rfl, rfl⟩
        rw [← hparts, List.intercalate_splitOn]
        exact List.takeWhile_append_dropWhile.symm
      · cases hread
    · cases hread

def numberText (hasV : Bool) (parts : List (List Char)) (suffix : List Char)
    (h : parts ≠ [] ∧ (∀ p ∈ parts, isPlainNumber p = true) ∧ isWordSuffix suffix = true) :
    VersionText where
  hasV := hasV
  parts := parts
  suffix := suffix
  nonempty := h.1
  numbers := fun p hp => isNumber_of_isPlainNumber (h.2.1 p hp)
  fits := by
    intro p hp
    have hplain := h.2.1 p hp
    unfold isPlainNumber at hplain
    exact of_decide_eq_true (Bool.and_eq_true_iff.mp hplain).2
  isSuffix := isSuffix_of_isWordSuffix h.2.2

def laterBuildAlpha : VersionText :=
  numberText false [['1'], ['0'], ['0'], ['2']] "-alpha".toList (by decide)

def laterBuild : VersionText :=
  numberText true [['1'], ['0'], ['0'], ['2']] [] (by decide)

def earlierBuild : VersionText :=
  numberText false [['1'], ['0'], ['0'], ['1']] [] (by decide)

/-- A difference among the first three components decides. One behind them decides where the
suffixes do not: the semver order is asked first. -/
theorem core_decides_before_suffix {Pre Build : Type*} {lib : Semver Pre Build}
    (hlib : lib.Lawful) (x y : VersionText) (v w : Version Pre Build)
    (hv : lib.parse x.paddedText = some v) (hw : lib.parse y.paddedText = some w) (i : ℕ)
    (hi : FirstDiffers x.core y.core i) :
    (i < 3 ∨ compareSuffixes lib w v = .eq →
      newestFirst lib x.text y.text = compare (y.core.getD i 0) (x.core.getD i 0)) ∧
    (3 ≤ i → compareSuffixes lib w v ≠ .eq →
      newestFirst lib x.text y.text = compareSuffixes lib w v) := by
  constructor
  · intro hcase
    by_cases hlt : i < 3
    · exact newestFirst_of_lt_three hlib hv hw hi.symm hlt
    · rw [newestFirst_of_three_le hlib hv hw hi.symm (Nat.le_of_not_lt hlt),
        hcase.resolve_left hlt]
      rfl
  · intro hle hsuffix
    rw [newestFirst_of_three_le hlib hv hw hi.symm hle]
    exact then_of_ne hsuffix

theorem core_decides_before_suffix_sample :
    newestFirst sampleSemver laterBuildAlpha.text earlierBuild.text = .gt ∧
      newestFirst sampleSemver laterBuild.text earlierBuild.text = .lt :=
  ⟨(core_decides_before_suffix sampleSemver_lawful laterBuildAlpha earlierBuild
      ⟨1, 0, 0, "alpha", ()⟩ ⟨1, 0, 0, "", ()⟩ (by decide) (by decide) 3
      ⟨by decide, by decide⟩).2 (by decide) (by decide),
    (core_decides_before_suffix sampleSemver_lawful laterBuild earlierBuild
      ⟨1, 0, 0, "", ()⟩ ⟨1, 0, 0, "", ()⟩ (by decide) (by decide) 3
      ⟨by decide, by decide⟩).1 (.inr (by decide))⟩

/-- A pre-release is older than a release whose fourth component is smaller. -/
theorem a_suffix_hides_the_fourth_component : sampleSemver.Lawful ∧
    ¬ ∀ (x y : VersionText) (v w : Version String Unit),
      sampleSemver.parse x.paddedText = some v → sampleSemver.parse y.paddedText = some w →
      ∀ i, FirstDiffers x.core y.core i →
        newestFirst sampleSemver x.text y.text = compare (y.core.getD i 0) (x.core.getD i 0) := by
  refine ⟨sampleSemver_lawful, fun h => ?_⟩
  have hcore := h laterBuildAlpha earlierBuild ⟨1, 0, 0, "alpha", ()⟩ ⟨1, 0, 0, "", ()⟩
    (by decide) (by decide) 3 ⟨by decide, by decide⟩
  revert hcore
  decide

end Results

end BatleHub.NewestFirst
