import BatleHub.Lib.Escapes
import BatleHub.StorageKeys

/-!
What the path checks say about every decoding (`local_registry/mod`). The check decodes
all escapes of a text at once, reads the bytes as characters and looks again. Whoever uses
the text may decode single escapes, in another order, and never reads characters. Both
arrive at one text up to the runs of bytes that are no ASCII, and no decoding removes a
bad segment.
-/
namespace BatleHub.PathDecodings

open FilesystemStorage
open Lib
open StorageRouter (backslash)

section Bytes

def slash : UInt8 := 47

def dot : UInt8 := 46

def backslashByte : UInt8 := 92

/-- The byte of an escape, from its two digits. -/
def decodeByte (high low : UInt8) : Option UInt8 :=
  match Hex.valueOf (Char.ofNat high.toNat), Hex.valueOf (Char.ofNat low.toNat) with
  | some hi, some lo => some (UInt8.ofNat (hi * 16 + lo))
  | _, _ => none

/-- Escapes of a text are decoded, one at a time and in any order. -/
def Decodes : List UInt8 → List UInt8 → Prop := Escapes.Decodes percent decodeByte

/-- A text of a kind that names what it seems to name. -/
structure SafeText (kind : String) (bytes : List UInt8) : Prop where
  traversal : [dot, dot] ∉ bytes.splitOn slash
  current : [dot] ∉ bytes.splitOn slash
  inner : [] ∉ (bytes.splitOn slash).dropLast
  last : kind ≠ "path" → [] ∉ bytes.splitOn slash
  illegal : (0 : UInt8) ∉ bytes ∧ backslashByte ∉ bytes
  version : kind = "version" → slash ∉ bytes

/-- The bytes the checks look for. -/
def Special (b : UInt8) : Prop := b ∈ [0, dot, slash, backslashByte]

theorem mem_dropLast {α : Type*} {xs ys : List α} {a : α} (h : ys ≠ []) :
    a ∈ (xs ++ a :: ys).dropLast := by
  rw [List.dropLast_append_of_ne_nil (List.cons_ne_nil a ys), List.dropLast_cons_of_ne_nil h]
  simp

/-- A map that keeps the special bytes removes nothing bad. -/
theorem SafeText.of_keeps {f : List UInt8 → List UInt8} (hf : Segments.Keeps Special f)
    {kind : String} {bytes : List UInt8} (h : SafeText kind (f bytes)) : SafeText kind bytes := by
  have hslash : Special slash := by simp [Special]
  have hdot : Special dot := by simp [Special]
  have hsegment : ∀ segment : List UInt8, (∀ b ∈ segment, Special b) →
      segment ∈ bytes.splitOn slash → segment ∈ (f bytes).splitOn slash := by
    intro segment hspecial hmem
    obtain ⟨xs, ys, hsplit⟩ := List.append_of_mem hmem
    obtain ⟨xs', ys', hsplit', -⟩ := hf.splitOn_eq hslash hspecial hsplit
    rw [hsplit']
    simp
  have hmem : ∀ b, Special b → b ∈ bytes → b ∈ f bytes := by
    intro b hb hmem
    obtain ⟨xs, ys, rfl⟩ := List.append_of_mem hmem
    rw [hf.append_cons b hb]
    simp
  refine ⟨fun hbad => h.traversal (hsegment _ (by simp [hdot]) hbad),
    fun hbad => h.current (hsegment _ (by simp [hdot]) hbad), ?_,
    fun hkind hbad => h.last hkind (hsegment _ (by simp) hbad),
    ⟨fun hbad => h.illegal.1 (hmem _ (by simp [Special]) hbad),
      fun hbad => h.illegal.2 (hmem _ (by simp [Special]) hbad)⟩,
    fun hkind hbad => h.version hkind (hmem _ hslash hbad)⟩
  intro hbad
  apply h.inner
  have hlast := List.dropLast_concat_getLast (List.splitOn_ne_nil slash bytes)
  obtain ⟨xs, ys, hsplit⟩ := List.append_of_mem hbad
  rw [hsplit, List.append_assoc, List.cons_append] at hlast
  obtain ⟨xs', ys', hsplit', hne⟩ := hf.splitOn_eq hslash (by simp) hlast.symm
  rw [hsplit']
  exact mem_dropLast (hne (by simp))

end Bytes

section Digits

theorem toNat_ofNat {n : ℕ} (h : n.isValidChar) : (Char.ofNat n).toNat = n := by
  unfold Char.ofNat
  rw [dif_pos h]
  rfl

theorem valueOf_eq_none {b : UInt8} (h : 128 ≤ b.toNat) :
    Hex.valueOf (Char.ofNat b.toNat) = none := by
  have hlt := b.toNat_lt
  have htoNat : (Char.ofNat b.toNat).toNat = b.toNat := toNat_ofNat (Or.inl (by omega))
  unfold Hex.valueOf
  rw [htoNat, if_neg (by omega), if_neg (by omega), if_neg (by omega)]

/-- A byte that is no ASCII. -/
def isForeign (b : UInt8) : Bool := decide (128 ≤ b.toNat)

theorem decodeByte_digits {high low c : UInt8} (h : decodeByte high low = some c) :
    isForeign high = false ∧ isForeign low = false := by
  unfold decodeByte at h
  constructor
  · rw [isForeign, decide_eq_false_iff_not]
    intro hhigh
    rw [valueOf_eq_none hhigh] at h
    exact absurd h (by simp)
  · rw [isForeign, decide_eq_false_iff_not]
    intro hlow
    rw [valueOf_eq_none hlow] at h
    exact absurd h (by simp)

theorem decodeByte_high {high : UInt8} (h : Hex.valueOf (Char.ofNat high.toNat) = none)
    (low : UInt8) : decodeByte high low = none := by
  rw [decodeByte, h]

theorem decodeByte_low {low : UInt8} (h : Hex.valueOf (Char.ofNat low.toNat) = none)
    (high : UInt8) : decodeByte high low = none := by
  rw [decodeByte, h]
  cases Hex.valueOf (Char.ofNat high.toNat) <;> rfl

theorem decodeByte_ne_percent {high low c : UInt8} (h : decodeByte high low = some c) :
    high ≠ percent ∧ low ≠ percent := by
  have hpercent : Hex.valueOf (Char.ofNat percent.toNat) = none := by decide
  constructor
  · rintro rfl
    rw [decodeByte_high hpercent] at h
    exact absurd h (by simp)
  · rintro rfl
    rw [decodeByte_low hpercent] at h
    exact absurd h (by simp)

theorem special_solid {b : UInt8} (h : Special b) : Escapes.Solid percent decodeByte b := by
  have hne : b ≠ percent ∧ Hex.valueOf (Char.ofNat b.toNat) = none := by
    simp only [Special, List.mem_cons, List.not_mem_nil, or_false] at h
    rcases h with rfl | rfl | rfl | rfl <;> decide
  exact ⟨hne.1, decodeByte_high hne.2, decodeByte_low hne.2⟩

theorem special_not_foreign {b : UInt8} (h : Special b) : isForeign b = false := by
  simp only [Special, List.mem_cons, List.not_mem_nil, or_false] at h
  rcases h with rfl | rfl | rfl | rfl <;> decide

/-- All decodings of a text. -/
def full (bytes : List UInt8) : List UInt8 := Escapes.full percent decodeByte bytes

/-- A text with one byte for each run of bytes that are no ASCII. -/
def shape (bytes : List UInt8) : List UInt8 := Escapes.collapse isForeign 128 bytes

theorem keeps_full : Segments.Keeps Special full :=
  ⟨rfl, fun _ hb x y => Escapes.full_append_solid (special_solid hb) x y⟩

theorem keeps_shape : Segments.Keeps Special shape :=
  ⟨rfl, fun _ hb x y => Escapes.collapse_append_of_not (by decide) (special_not_foreign hb) x y⟩

/-- What is safe when everything is decoded was safe at every step. -/
theorem safeText_of_decodes {kind : String} {x y : List UInt8} (h : Decodes x y)
    (hsafe : SafeText kind (shape (full x))) : SafeText kind y := by
  have hfull : full x = full y :=
    Escapes.full_of_decodes (fun _ _ _ hdec => decodeByte_ne_percent hdec) h
  rw [hfull] at hsafe
  exact SafeText.of_keeps keeps_full (SafeText.of_keeps keeps_shape hsafe)

end Digits

section Rounds

theorem full_cons (b : UInt8) (l : List UInt8) :
    full (b :: l) = Escapes.push percent decodeByte b (full l) := rfl

/-- What the match of one round decides. -/
theorem percentDecodeBytes_cons (b c d : UInt8) (rest : List UInt8) :
    (b = percent ∧ ∃ e, decodeByte c d = some e ∧
      percentDecodeBytes (b :: c :: d :: rest) = (e :: (percentDecodeBytes rest).1, true)) ∨
    ((b = percent → decodeByte c d = none) ∧
      percentDecodeBytes (b :: c :: d :: rest) =
        (b :: (percentDecodeBytes (c :: d :: rest)).1,
          (percentDecodeBytes (c :: d :: rest)).2)) := by
  rw [percentDecodeBytes]
  by_cases hb : b = percent
  · rw [if_pos hb]
    rcases hc : Hex.valueOf (Char.ofNat c.toNat) with _ | hi
    · exact Or.inr ⟨fun _ => decodeByte_high hc d, rfl⟩
    · rcases hd : Hex.valueOf (Char.ofNat d.toNat) with _ | lo
      · exact Or.inr ⟨fun _ => decodeByte_low hd c, rfl⟩
      · exact Or.inl ⟨hb, UInt8.ofNat (hi * 16 + lo), by rw [decodeByte, hc, hd], rfl⟩
  · rw [if_neg hb]
    exact Or.inr ⟨fun heq => absurd heq hb, rfl⟩

/-- A round decodes towards the text with everything decoded. -/
theorem full_percentDecodeBytes (l : List UInt8) : full (percentDecodeBytes l).1 = full l := by
  match l with
  | [] => rfl
  | [_] => rfl
  | [_, _] => rfl
  | b :: c :: d :: rest =>
    rcases percentDecodeBytes_cons b c d rest with ⟨hb, e, he, hround⟩ | ⟨-, hround⟩
    · obtain ⟨hc, hd⟩ := decodeByte_ne_percent he
      rw [hround, full_cons, full_percentDecodeBytes rest, full_cons, full_cons, full_cons,
        Escapes.push_of_ne hd, Escapes.push_of_ne hc, hb, Escapes.push_escape he]
    · rw [hround, full_cons, full_percentDecodeBytes (c :: d :: rest), full_cons b]
termination_by l.length

/-- Where a round decodes nothing, everything is decoded. -/
theorem full_eq_self {l : List UInt8} (h : (percentDecodeBytes l).2 = false) : full l = l := by
  match l with
  | [] => rfl
  | [_] => rfl
  | [_, _] => rfl
  | b :: c :: d :: rest =>
    rcases percentDecodeBytes_cons b c d rest with ⟨-, e, -, hround⟩ | ⟨hnone, hround⟩
    · rw [hround] at h
      exact absurd h (by simp)
    · rw [hround] at h
      rw [full_cons, full_eq_self h]
      by_cases hb : b = percent
      · exact Escapes.push_of_none (hnone hb) rest
      · exact Escapes.push_of_ne hb _
termination_by l.length

end Rounds

section Characters

/-- The bytes of characters. -/
def encoded (chars : List Char) : List UInt8 := chars.flatMap String.utf8EncodeChar

theorem utf8_eq_encoded (s : String) : Framing.utf8 s = encoded s.toList :=
  Framing.utf8_eq_flatMap s

theorem isForeign_ofNat {n : ℕ} (hlow : 128 ≤ n) (hhigh : n < 256) :
    isForeign (UInt8.ofNat n) = true := by
  rw [isForeign, decide_eq_true_eq, UInt8.toNat_ofNat_of_lt' hhigh]
  exact hlow

theorem utf8EncodeChar_foreign {c : Char} (h : 128 ≤ c.toNat) :
    String.utf8EncodeChar c ≠ [] ∧ ∀ b ∈ String.utf8EncodeChar c, isForeign b = true := by
  have hle : ¬ c.val.toNat ≤ 127 := Nat.not_le.mpr h
  refine ⟨String.utf8EncodeChar_ne_nil, ?_⟩
  unfold String.utf8EncodeChar
  simp only [if_neg hle]
  intro b hb
  split_ifs at hb
  all_goals
    simp only [List.mem_cons, List.not_mem_nil, or_false] at hb
    rcases hb with rfl | rfl | rfl | rfl <;> exact isForeign_ofNat (by omega) (by omega)

/-- The shape of a text, from its characters. -/
def shapeOf (chars : List Char) : List UInt8 := shape (encoded chars)

theorem shape_append_foreign {x : List UInt8} (hx : ∀ b ∈ x, isForeign b = true) (hne : x ≠ [])
    (y : List UInt8) : shape (x ++ y) = Escapes.absorb isForeign 128 128 (shape y) := by
  induction x with
  | nil => exact absurd rfl hne
  | cons b x ih =>
    have hb := hx b List.mem_cons_self
    have hstand : isForeign 128 = true := by decide
    rw [List.cons_append, shape, Escapes.collapse_cons]
    by_cases hnil : x = []
    · subst hnil
      exact Escapes.absorb_congr hb hstand _
    · have htail := ih (fun d hd => hx d (List.mem_cons_of_mem b hd)) hnil
      rw [shape] at htail
      rw [htail]
      exact Escapes.absorb_eq_self hb (Escapes.head?_absorb hstand _)

theorem shapeOf_ascii {c : Char} (h : c.toNat < 128) (chars : List Char) :
    shapeOf (c :: chars) = UInt8.ofNat c.toNat :: shapeOf chars := by
  have hnot : isForeign (UInt8.ofNat c.toNat) = false := by
    rw [isForeign, decide_eq_false_iff_not, UInt8.toNat_ofNat_of_lt' (Nat.lt_trans h (by decide))]
    omega
  unfold shapeOf encoded
  rw [List.flatMap_cons, Framing.utf8EncodeChar_ascii h, List.singleton_append, shape,
    Escapes.collapse_cons, Escapes.absorb_of_not hnot]
  rfl

theorem shapeOf_foreign {c : Char} (h : 128 ≤ c.toNat) (chars : List Char) :
    shapeOf (c :: chars) = Escapes.absorb isForeign 128 128 (shapeOf chars) := by
  obtain ⟨hne, hforeign⟩ := utf8EncodeChar_foreign h
  unfold shapeOf encoded
  rw [List.flatMap_cons, shape_append_foreign hforeign hne]

end Characters

section Lossy

theorem lossyChars_eq_drop (taken : ℕ) (l : List UInt8) :
    lossyChars taken l = lossyChars 0 (l.drop taken) := by
  induction l generalizing taken with
  | nil => rw [List.drop_nil, lossyChars, lossyChars]
  | cons b l ih =>
    cases taken with
    | zero => rfl
    | succ taken => rw [lossyChars, ih, List.drop_succ_cons]

/-- A lead byte, how many bytes follow the second one, and what the second may be. -/
theorem sequenceOf_spec {b low high : UInt8} {more : ℕ}
    (h : sequenceOf b = some (low, high, more)) :
    128 ≤ low.toNat ∧
      ((more = 0 ∧ 194 ≤ b.toNat ∧ b.toNat ≤ 223 ∧ high.toNat ≤ 191) ∨
        (more = 1 ∧ 224 ≤ b.toNat ∧ b.toNat ≤ 239 ∧ high.toNat ≤ 191 ∧
          (b.toNat = 224 → 160 ≤ low.toNat) ∧ (b.toNat = 237 → high.toNat ≤ 159)) ∨
        (more = 2 ∧ 240 ≤ b.toNat ∧ b.toNat ≤ 244 ∧ high.toNat ≤ 191 ∧
          (b.toNat = 240 → 144 ≤ low.toNat) ∧ (b.toNat = 244 → high.toNat ≤ 143))) := by
  unfold sequenceOf at h
  simp only [UInt8.le_iff_toNat_le, ← UInt8.toNat_inj] at h
  split_ifs at h
  all_goals
    simp only [Option.some.injEq, Prod.mk.injEq] at h
    obtain ⟨rfl, rfl, rfl⟩ := h
    simp_all
  all_goals omega

theorem lossyChar_ascii {b : UInt8} (h : b.toNat < 128) (following : List UInt8) :
    lossyChar b following = (Char.ofNat b.toNat, 0) := by
  have hlt : b < 128 := UInt8.lt_iff_toNat_lt.mpr h
  unfold lossyChar
  rw [if_pos hlt]

theorem isForeign_of_isContinuation {b : UInt8} (h : isContinuation b = true) :
    isForeign b = true := by
  rw [isContinuation, decide_eq_true_eq] at h
  rw [isForeign, decide_eq_true_eq]
  exact UInt8.le_iff_toNat_le.mp h.1

/-- A well-formed sequence is a character above ASCII. -/
theorem sequence_value {b low high second : UInt8} {more : ℕ} {tail : List UInt8}
    (hspec : sequenceOf b = some (low, high, more)) (hlow : low ≤ second) (hhigh : second ≤ high)
    (htail : tail.length = more) :
    128 ≤ (Char.ofNat ((second :: tail).foldl (fun n c => n * 64 + c.toNat % 64)
      (b.toNat % 2 ^ (5 - more)))).toNat := by
  have hlow' := UInt8.le_iff_toNat_le.mp hlow
  have hhigh' := UInt8.le_iff_toNat_le.mp hhigh
  have hcases := (sequenceOf_spec hspec).2
  have hfirst := (sequenceOf_spec hspec).1
  have hvalue : ∀ n : ℕ, 128 ≤ n → n.isValidChar → 128 ≤ (Char.ofNat n).toNat := by
    intro n hn hvalid
    rw [toNat_ofNat hvalid]
    exact hn
  subst htail
  rcases hcases with ⟨hmore, hb⟩ | ⟨hmore, hb⟩ | ⟨hmore, hb⟩
  · obtain rfl := List.length_eq_zero_iff.mp hmore
    simp only [List.length_nil, List.foldl_cons, List.foldl_nil]
    apply hvalue
    · omega
    · exact Or.inl (by omega)
  · obtain ⟨t, rfl⟩ := List.length_eq_one_iff.mp hmore
    simp only [List.length_singleton, List.foldl_cons, List.foldl_nil]
    apply hvalue
    · omega
    · unfold Nat.isValidChar
      omega
  · obtain ⟨t, u, rfl⟩ := List.length_eq_two.mp hmore
    simp only [List.length_cons, List.length_nil, List.foldl_cons, List.foldl_nil]
    apply hvalue
    · omega
    · unfold Nat.isValidChar
      omega

/-- A character that starts outside ASCII takes no ASCII byte and is none itself. -/
theorem lossyChar_foreign {b : UInt8} (h : 128 ≤ b.toNat) (following : List UInt8) :
    128 ≤ (lossyChar b following).1.toNat ∧
      ∀ d ∈ following.take (lossyChar b following).2, isForeign d = true := by
  have hnot : ¬ b < 128 := fun hlt => absurd (UInt8.lt_iff_toNat_lt.mp hlt) (Nat.not_lt.mpr h)
  have hreplaced : 128 ≤ replacementChar.toNat ∧
      ∀ d ∈ following.take 0, isForeign d = true := by
    refine ⟨by decide, ?_⟩
    rw [List.take_zero]
    exact fun d hd => absurd hd List.not_mem_nil
  unfold lossyChar
  rw [if_neg hnot]
  rcases hspec : sequenceOf b with _ | ⟨low, high, more⟩
  · exact hreplaced
  · cases following with
    | nil => exact hreplaced
    | cons second rest =>
      by_cases hrange : low ≤ second ∧ second ≤ high
      · have hsecond : isForeign second = true := by
          rw [isForeign, decide_eq_true_eq]
          exact (sequenceOf_spec hspec).1.trans (UInt8.le_iff_toNat_le.mp hrange.1)
        have hprefix : (rest.take more).takeWhile isContinuation <+: rest :=
          (List.takeWhile_prefix _).trans (List.take_prefix _ _)
        have htaken : ∀ d ∈ (second :: rest).take
            (((rest.take more).takeWhile isContinuation).length + 1), isForeign d = true := by
          rw [List.take_succ_cons, ← List.prefix_iff_eq_take.mp hprefix]
          intro d hd
          rcases List.mem_cons.mp hd with rfl | htail
          · exact hsecond
          · exact isForeign_of_isContinuation (List.mem_takeWhile_imp htail)
        simp only [if_pos hrange]
        by_cases hlength : ((rest.take more).takeWhile isContinuation).length = more
        · simp only [if_pos hlength]
          rw [hlength] at htaken
          exact ⟨sequence_value hspec hrange.1 hrange.2 hlength, htaken⟩
        · simp only [if_neg hlength]
          exact ⟨by decide, htaken⟩
      · simp only [if_neg hrange]
        exact hreplaced

/-- Reading bytes as characters keeps their shape. -/
theorem shapeOf_lossyChars (bytes : List UInt8) : shapeOf (lossyChars 0 bytes) = shape bytes := by
  match bytes with
  | [] => rw [lossyChars]; rfl
  | b :: rest =>
    have hrec := shapeOf_lossyChars (rest.drop (lossyChar b rest).2)
    rw [lossyChars]
    simp only
    rw [lossyChars_eq_drop]
    by_cases hb : b.toNat < 128
    · have hchar := lossyChar_ascii hb rest
      rw [hchar] at hrec ⊢
      have hvalue : (Char.ofNat b.toNat).toNat = b.toNat := toNat_ofNat (Or.inl (by omega))
      have hnot : isForeign b = false := by
        rw [isForeign, decide_eq_false_iff_not]
        omega
      have hshape : shape (b :: rest) = b :: shape rest := by
        rw [shape, Escapes.collapse_cons, Escapes.absorb_of_not hnot]
        rfl
      rw [shapeOf_ascii (by rw [hvalue]; exact hb), hrec, hvalue, UInt8.ofNat_toNat, hshape,
        List.drop_zero]
    · obtain ⟨hchar, htaken⟩ := lossyChar_foreign (Nat.le_of_not_lt hb) rest
      have hforeign : ∀ d ∈ b :: rest.take (lossyChar b rest).2, isForeign d = true := by
        intro d hd
        rcases List.mem_cons.mp hd with rfl | htail
        · rw [isForeign, decide_eq_true_eq]
          exact Nat.le_of_not_lt hb
        · exact htaken d htail
      have hsplit : b :: rest =
          (b :: rest.take (lossyChar b rest).2) ++ rest.drop (lossyChar b rest).2 := by
        rw [List.cons_append, List.take_append_drop]
      rw [shapeOf_foreign hchar, hrec, ← shape_append_foreign hforeign (List.cons_ne_nil _ _),
        ← hsplit]
termination_by bytes.length
decreasing_by
  rw [List.length_drop, List.length_cons]
  omega

end Lossy

section Segments

/-- An ASCII byte of a text stands for a character of it. -/
theorem ofNat_mem_of_mem_encoded {chars : List Char} {b : UInt8} (hb : b.toNat < 128)
    (h : b ∈ encoded chars) : Char.ofNat b.toNat ∈ chars := by
  obtain ⟨c, hc, hmem⟩ := List.mem_flatMap.mp h
  by_cases hascii : c.toNat < 128
  · rw [Framing.utf8EncodeChar_ascii hascii, List.mem_singleton] at hmem
    rw [hmem, UInt8.toNat_ofNat_of_lt' (Nat.lt_trans hascii (by decide)), Char.ofNat_toNat]
    exact hc
  · have hforeign := (utf8EncodeChar_foreign (Nat.le_of_not_lt hascii)).2 b hmem
    rw [isForeign, decide_eq_true_eq] at hforeign
    omega

theorem mem_of_mem_shape {bytes : List UInt8} {b : UInt8} (hb : isForeign b = false)
    (h : b ∈ shape bytes) : b ∈ bytes := by
  induction bytes with
  | nil => exact absurd h List.not_mem_nil
  | cons d bytes ih =>
    rw [shape, Escapes.collapse_cons] at h
    rcases hd : isForeign d with _ | _
    · rw [Escapes.absorb_of_not hd] at h
      rcases List.mem_cons.mp h with rfl | hmem
      · exact List.mem_cons_self
      · exact List.mem_cons_of_mem d (ih hmem)
    · have hne : b ≠ 128 := by
        rintro rfl
        exact absurd hb (by decide)
      rw [Escapes.absorb, if_pos hd] at h
      split_ifs at h
      · exact List.mem_cons_of_mem d (ih h)
      · rcases List.mem_cons.mp h with heq | hmem
        · exact absurd heq hne
        · exact List.mem_cons_of_mem d (ih hmem)

theorem shapeOf_append_slash (x y : List Char) :
    shapeOf (x ++ '/' :: y) = shapeOf x ++ slash :: shapeOf y := by
  have hencoded : encoded (x ++ '/' :: y) = encoded x ++ slash :: encoded y := by
    have hslash : String.utf8EncodeChar '/' = [slash] := by decide
    unfold encoded
    rw [List.flatMap_append, List.flatMap_cons, hslash, List.singleton_append]
  unfold shapeOf
  rw [hencoded]
  exact keeps_shape.append_cons slash (by simp [Special]) _ _

theorem shapeOf_intercalate (parts : List (List Char)) :
    shapeOf (['/'].intercalate parts) = [slash].intercalate (parts.map shapeOf) := by
  induction parts with
  | nil => rfl
  | cons part parts ih =>
    by_cases hnil : parts = []
    · subst hnil
      simp
    · have hcons : ['/'].intercalate (part :: parts) =
          part ++ '/' :: ['/'].intercalate parts := by
        rw [List.intercalate_cons_of_ne_nil hnil]
        simp
      rw [hcons, shapeOf_append_slash, ih, List.map_cons,
        List.intercalate_cons_of_ne_nil (by simpa using hnil)]
      simp

theorem splitOn_shapeOf (chars : List Char) :
    (shapeOf chars).splitOn slash = (chars.splitOn '/').map shapeOf := by
  have hnot : ∀ part ∈ (chars.splitOn '/').map shapeOf, slash ∉ part := by
    intro part hpart hmem
    obtain ⟨segment, hsegment, rfl⟩ := List.mem_map.mp hpart
    have hchar := ofNat_mem_of_mem_encoded (by decide) (mem_of_mem_shape (by decide) hmem)
    exact (Segments.of_mem_splitOn hsegment).1 hchar
  calc (shapeOf chars).splitOn slash
      = (shapeOf (['/'].intercalate (chars.splitOn '/'))).splitOn slash := by
        rw [List.intercalate_splitOn]
    _ = ([slash].intercalate ((chars.splitOn '/').map shapeOf)).splitOn slash := by
        rw [shapeOf_intercalate]
    _ = (chars.splitOn '/').map shapeOf :=
        List.splitOn_intercalate slash hnot
          (by simp [List.splitOn_ne_nil])

/-- A text whose shape starts with an ASCII byte starts with its character. -/
theorem exists_cons_of_shapeOf {chars : List Char} {b : UInt8} {rest : List UInt8}
    (hb : isForeign b = false) (h : shapeOf chars = b :: rest) :
    ∃ chars', chars = Char.ofNat b.toNat :: chars' ∧ shapeOf chars' = rest := by
  cases chars with
  | nil => exact absurd h (by simp [shapeOf, encoded, shape])
  | cons c chars =>
    by_cases hc : c.toNat < 128
    · rw [shapeOf_ascii hc, List.cons.injEq] at h
      refine ⟨chars, ?_, h.2⟩
      rw [← h.1, UInt8.toNat_ofNat_of_lt' (Nat.lt_trans hc (by decide)), Char.ofNat_toNat]
    · rw [shapeOf_foreign (Nat.le_of_not_lt hc)] at h
      have hhead : (Escapes.absorb isForeign 128 128 (shapeOf chars)).head? = some 128 :=
        Escapes.head?_absorb (by decide) _
      rw [h, List.head?_cons, Option.some.injEq] at hhead
      rw [hhead] at hb
      exact absurd hb (by decide)

theorem shapeOf_eq_nil {chars : List Char} (h : shapeOf chars = []) : chars = [] := by
  by_contra hne
  obtain ⟨c, rest, rfl⟩ := List.exists_cons_of_ne_nil hne
  have hencoded : encoded (c :: rest) ≠ [] :=
    List.append_ne_nil_of_left_ne_nil String.utf8EncodeChar_ne_nil _
  exact Escapes.collapse_ne_nil hencoded h

theorem dot_char : Char.ofNat dot.toNat = '.' := by decide

/-- What one round of the check accepts is safe. -/
theorem safeText_shapeOf {kind value : String} {chars : List Char} (hne : chars ≠ [])
    (h : rejectTraversal kind value chars = .ok ()) : SafeText kind (shapeOf chars) := by
  unfold rejectTraversal at h
  dsimp only at h
  split_ifs at h with hillegal hdots hsegments hversion
  rw [not_or] at hillegal
  rw [not_or, not_or] at hsegments
  obtain ⟨hinner, hlast, hcurrent⟩ := hsegments
  have hascii : ∀ b : UInt8, b.toNat < 128 → b ∈ shapeOf chars → Char.ofNat b.toNat ∈ chars := by
    intro b hb hmem
    refine ofNat_mem_of_mem_encoded hb (mem_of_mem_shape ?_ hmem)
    rw [isForeign, decide_eq_false_iff_not]
    omega
  refine ⟨?_, ?_, ?_, ?_, ⟨fun hmem => hillegal.1 (hascii 0 (by decide) hmem),
    fun hmem => hillegal.2 (hascii backslashByte (by decide) hmem)⟩,
    fun hkind hmem => hversion ⟨hkind, hascii slash (by decide) hmem⟩⟩
  · rw [splitOn_shapeOf]
    intro hmem
    obtain ⟨segment, hsegment, hshape⟩ := List.mem_map.mp hmem
    obtain ⟨rest, rfl, hrest⟩ := exists_cons_of_shapeOf (by decide) hshape
    obtain ⟨rest', rfl, hrest'⟩ := exists_cons_of_shapeOf (by decide) hrest
    rw [shapeOf_eq_nil hrest', dot_char] at hsegment
    exact hdots hsegment
  · rw [splitOn_shapeOf]
    intro hmem
    obtain ⟨segment, hsegment, hshape⟩ := List.mem_map.mp hmem
    obtain ⟨rest, rfl, hrest⟩ := exists_cons_of_shapeOf (by decide) hshape
    rw [shapeOf_eq_nil hrest, dot_char] at hsegment
    exact hcurrent hsegment
  · rw [splitOn_shapeOf, ← List.map_dropLast]
    intro hmem
    obtain ⟨segment, hsegment, hshape⟩ := List.mem_map.mp hmem
    rw [shapeOf_eq_nil hshape] at hsegment
    exact hinner hsegment
  · intro hkind
    rw [splitOn_shapeOf]
    intro hmem
    obtain ⟨segment, hsegment, hshape⟩ := List.mem_map.mp hmem
    rw [shapeOf_eq_nil hshape] at hsegment
    have hconcat := List.dropLast_concat_getLast (List.splitOn_ne_nil '/' chars)
    rw [← hconcat, List.mem_append, List.mem_singleton] at hsegment
    rcases hsegment with hin | heq
    · exact hinner hin
    · refine hlast ⟨?_, ?_, hkind⟩
      · by_contra hlen
        have hpos := List.length_pos_iff.mpr (List.splitOn_ne_nil '/' chars)
        obtain ⟨part, hpart⟩ :=
          List.length_eq_one_iff.mp (show (chars.splitOn '/').length = 1 by omega)
        simp only [hpart, List.getLast_singleton] at heq
        have hjoin : ['/'].intercalate (chars.splitOn '/') = chars := List.intercalate_splitOn '/'
        apply hne
        rw [← hjoin, hpart, ← heq, List.intercalate_singleton]
      · rw [List.getLast?_eq_some_getLast (List.splitOn_ne_nil '/' chars), ← heq]

end Segments

section Check

theorem full_of_notMem {bytes : List UInt8} (h : percent ∉ bytes) : full bytes = bytes := by
  induction bytes with
  | nil => rfl
  | cons b bytes ih =>
    rw [List.mem_cons, not_or] at h
    rw [full_cons, ih h.2, Escapes.push_of_ne (Ne.symm h.1)]

/-- A round leads to a text of the same shape when everything is decoded; where there is
none, everything is. -/
theorem percentDecodeRound_spec (current : String) :
    match percentDecodeRound current with
    | some next => shape (full (Framing.utf8 next)) = shape (full (Framing.utf8 current))
    | none => full (Framing.utf8 current) = Framing.utf8 current := by
  unfold percentDecodeRound
  by_cases hpercent : current.toList.contains '%' = true
  · rw [if_pos hpercent]
    rcases hdecoded : (percentDecodeBytes (Framing.utf8 current)).2 with _ | _
    · simp only [hdecoded, Bool.false_eq_true, if_false]
      exact full_eq_self hdecoded
    · simp only [hdecoded, if_true]
      have hshape : shape (Framing.utf8
            (fromUtf8Lossy (percentDecodeBytes (Framing.utf8 current)).1)) =
          shape (percentDecodeBytes (Framing.utf8 current)).1 := by
        rw [utf8_eq_encoded, fromUtf8Lossy, String.toList_ofList]
        exact shapeOf_lossyChars _
      rw [← full_percentDecodeBytes (Framing.utf8 current)]
      exact Escapes.collapse_full_congr (by decide)
        (fun _ _ _ hdec => decodeByte_digits hdec) (by decide) hshape
  · rw [if_neg hpercent]
    refine full_of_notMem fun hmem => hpercent ?_
    rw [utf8_eq_encoded] at hmem
    exact List.contains_iff_mem.mpr (ofNat_mem_of_mem_encoded (by decide) hmem)

/-- The rounds end at a text that was looked at, with everything decoded. -/
theorem checkDecodedRounds_spec {kind value : String} {rounds : ℕ} {current : String}
    (h : checkDecodedRounds kind value rounds current = .ok ()) :
    ∃ final : String, full (Framing.utf8 final) = Framing.utf8 final ∧
      shape (Framing.utf8 final) = shape (full (Framing.utf8 current)) ∧
      rejectTraversal kind value final.toList = .ok () := by
  induction rounds generalizing current with
  | zero => exact absurd h (by simp [checkDecodedRounds])
  | succ rounds ih =>
    rw [checkDecodedRounds] at h
    rcases hreject : rejectTraversal kind value current.toList with e | ⟨⟩
    · rw [hreject] at h
      exact absurd h (by simp [bind, Except.bind])
    · rw [hreject] at h
      have hspec := percentDecodeRound_spec current
      rcases hround : percentDecodeRound current with _ | next
      · rw [hround] at hspec
        refine ⟨current, hspec, ?_, hreject⟩
        rw [show full (Framing.utf8 current) = Framing.utf8 current from hspec]
      · rw [hround] at h hspec
        obtain ⟨final, hfull, hshape, hfinal⟩ := ih h
        exact ⟨final, hfull, hshape.trans hspec, hfinal⟩

/-- A value that the check accepts is safe in every form that decoding its escapes gives it,
whichever are decoded and in whatever order. -/
theorem accepted_values_decode_safely (kind value : String)
    (h : validatePathSafe kind value = .ok ()) (decoded : List UInt8)
    (hdecoded : Decodes (Framing.utf8 value) decoded) : SafeText kind decoded := by
  unfold validatePathSafe at h
  split_ifs at h with hempty hslash
  obtain ⟨final, -, hshape, hfinal⟩ := checkDecodedRounds_spec h
  have hvalue : Framing.utf8 value ≠ [] := by
    intro hnil
    exact hempty (Framing.utf8_injective hnil)
  have hnonempty : final.toList ≠ [] := by
    intro hnil
    apply Escapes.collapse_ne_nil (Escapes.full_ne_nil hvalue)
    calc shape (full (Framing.utf8 value)) = shape (Framing.utf8 final) := hshape.symm
      _ = shape (encoded final.toList) := by rw [utf8_eq_encoded]
      _ = [] := by rw [hnil]; rfl
  have hsafe := safeText_shapeOf hnonempty hfinal
  rw [shapeOf, ← utf8_eq_encoded, hshape] at hsafe
  exact safeText_of_decodes hdecoded hsafe

/-- An escape that only appears when another one is decoded. -/
theorem twice_encoded_version_decodes_safely : SafeText "version" (Framing.utf8 "1.0-1") := by
  have hfirst : Escapes.DecodesOne percent decodeByte (Framing.utf8 "1.0%252d1")
      (Framing.utf8 "1.0%2d1") :=
    ⟨Framing.utf8 "1.0", 50, 53, 37, Framing.utf8 "2d1", by decide, by decide, by decide⟩
  have hsecond : Escapes.DecodesOne percent decodeByte (Framing.utf8 "1.0%2d1")
      (Framing.utf8 "1.0-1") :=
    ⟨Framing.utf8 "1.0", 50, 100, 45, Framing.utf8 "1", by decide, by decide, by decide⟩
  exact accepted_values_decode_safely "version" "1.0%252d1" (by decide +kernel) _
    ((Relation.ReflTransGen.single hfirst).tail hsecond)

end Check

end BatleHub.PathDecodings
