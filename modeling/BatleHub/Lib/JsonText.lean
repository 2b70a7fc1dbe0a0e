import Mathlib.Data.List.Nodup
import Mathlib.Data.Nat.Notation
import Mathlib.Tactic.IntervalCases

/-!
The text of JSON values, written without white space. A string is quoted with its
quotation marks, backslashes and control characters escaped. A value text can be told from
what follows it by reading up to the first comma or closing brace that stands outside
strings and nested objects, so the members of an object are determined by its text.
-/
namespace BatleHub.Lib.JsonText

def quoteMark : Char := Char.ofNat 34

def backslash : Char := Char.ofNat 92

def hexDigit (n : ℕ) : Char := Char.ofNat (if n < 10 then 48 + n else 87 + n)

/-- One character inside a JSON string. -/
def escapeChar (c : Char) : List Char :=
  if c = quoteMark then [backslash, quoteMark]
  else if c = backslash then [backslash, backslash]
  else if c.toNat = 8 then [backslash, 'b']
  else if c.toNat = 9 then [backslash, 't']
  else if c.toNat = 10 then [backslash, 'n']
  else if c.toNat = 12 then [backslash, 'f']
  else if c.toNat = 13 then [backslash, 'r']
  else if c.toNat < 32 then
    [backslash, 'u', '0', '0', hexDigit (c.toNat / 16), hexDigit (c.toNat % 16)]
  else [c]

def quote (s : List Char) : List Char := quoteMark :: (s.flatMap escapeChar ++ [quoteMark])

/-- What `escapeChar` can be: the character itself, or a backslash and a letter of its own. -/
theorem escapeChar_cases (c : Char) :
    (c ≠ quoteMark ∧ c ≠ backslash ∧ 32 ≤ c.toNat ∧ escapeChar c = [c]) ∨
      (c.toNat = 34 ∧ escapeChar c = [backslash, quoteMark]) ∨
      (c.toNat = 92 ∧ escapeChar c = [backslash, backslash]) ∨
      c.toNat < 32 := by
  by_cases hq : c = quoteMark
  · subst hq
    exact .inr (.inl ⟨rfl, rfl⟩)
  · by_cases hb : c = backslash
    · subst hb
      exact .inr (.inr (.inl ⟨rfl, rfl⟩))
    · by_cases hctl : c.toNat < 32
      · exact .inr (.inr (.inr hctl))
      · refine .inl ⟨hq, hb, by omega, ?_⟩
        unfold escapeChar
        rw [if_neg hq, if_neg hb, if_neg (by omega), if_neg (by omega), if_neg (by omega),
          if_neg (by omega), if_neg (by omega), if_neg hctl]

theorem exists_control {c : Char} (h : c.toNat < 32) : ∃ n < 32, c = Char.ofNat n :=
  ⟨c.toNat, h, (Char.ofNat_toNat c).symm⟩

section Unescape

def hexValue (c : Char) : ℕ := if c.toNat < 58 then c.toNat - 48 else c.toNat - 87

/-- The character a letter after a backslash stands for. -/
def escapedLetter (c : Char) : Char :=
  if c = 'b' then Char.ofNat 8
  else if c = 't' then Char.ofNat 9
  else if c = 'n' then Char.ofNat 10
  else if c = 'f' then Char.ofNat 12
  else if c = 'r' then Char.ofNat 13
  else c

/-- Read one character of a JSON string back. -/
def unescapeHead : List Char → Option (Char × List Char)
  | [] => none
  | c :: rest =>
    if c = backslash then
      match rest with
      | 'u' :: _ :: _ :: a :: b :: rest => some (Char.ofNat (16 * hexValue a + hexValue b), rest)
      | x :: rest => some (escapedLetter x, rest)
      | [] => none
    else some (c, rest)

theorem unescapeHead_escapeChar (c : Char) (rest : List Char) :
    unescapeHead (escapeChar c ++ rest) = some (c, rest) := by
  rcases escapeChar_cases c with ⟨-, hb, -, heq⟩ | ⟨hc, heq⟩ | ⟨hc, heq⟩ | hctl
  · rw [heq]
    exact if_neg hb
  · have hquote : c = quoteMark := by
      rw [← Char.ofNat_toNat c, hc]
      rfl
    rw [heq, hquote]
    rfl
  · have hslash : c = backslash := by
      rw [← Char.ofNat_toNat c, hc]
      rfl
    rw [heq, hslash]
    rfl
  · obtain ⟨n, hn, rfl⟩ := exists_control hctl
    interval_cases n <;> rfl

theorem escapeChar_append_inj {c d : Char} {x y : List Char}
    (h : escapeChar c ++ x = escapeChar d ++ y) : c = d ∧ x = y := by
  have hread := congrArg unescapeHead h
  rw [unescapeHead_escapeChar, unescapeHead_escapeChar] at hread
  exact Prod.mk.inj (Option.some.inj hread)

/-- No escaped character begins with the closing quotation mark. -/
theorem escapeChar_append_ne (c : Char) (x y : List Char) : escapeChar c ++ x ≠ quoteMark :: y := by
  rcases escapeChar_cases c with ⟨hq, -, -, heq⟩ | ⟨-, heq⟩ | ⟨-, heq⟩ | hctl
  · rw [heq]
    intro h
    exact hq (List.cons.inj h).1
  · rw [heq]
    intro h
    exact absurd (List.cons.inj h).1 (by decide)
  · rw [heq]
    intro h
    exact absurd (List.cons.inj h).1 (by decide)
  · obtain ⟨n, hn, rfl⟩ := exists_control hctl
    intro h
    interval_cases n <;> exact absurd (List.cons.inj h).1 (by decide)

theorem flatMap_escapeChar_inj {s t x y : List Char}
    (h : s.flatMap escapeChar ++ quoteMark :: x = t.flatMap escapeChar ++ quoteMark :: y) :
    s = t ∧ x = y := by
  induction s generalizing t with
  | nil =>
    cases t with
    | nil => exact ⟨rfl, (List.cons.inj h).2⟩
    | cons d t =>
      rw [List.flatMap_cons, List.append_assoc] at h
      exact absurd h.symm (escapeChar_append_ne d _ x)
  | cons c s ih =>
    cases t with
    | nil =>
      rw [List.flatMap_cons, List.append_assoc] at h
      exact absurd h (escapeChar_append_ne c _ y)
    | cons d t =>
      rw [List.flatMap_cons, List.flatMap_cons, List.append_assoc, List.append_assoc] at h
      obtain ⟨rfl, hrest⟩ := escapeChar_append_inj h
      obtain ⟨rfl, hxy⟩ := ih hrest
      exact ⟨rfl, hxy⟩

/-- A quoted string is read back from the text that follows it. -/
theorem quote_append_inj {s t x y : List Char} (h : quote s ++ x = quote t ++ y) :
    s = t ∧ x = y := by
  unfold quote at h
  simp only [List.cons_append, List.append_assoc, List.nil_append] at h
  exact flatMap_escapeChar_inj (List.cons.inj h).2

theorem quote_injective : Function.Injective quote := by
  intro s t h
  have happend : quote s ++ [] = quote t ++ [] := by rw [h]
  exact (quote_append_inj happend).1

end Unescape

/-- Control characters do not appear in a quoted string. -/
theorem newline_notMem_quote (s : List Char) : Char.ofNat 10 ∉ quote s := by
  unfold quote
  simp only [List.mem_cons, List.mem_append, List.mem_flatMap, List.not_mem_nil, or_false]
  intro hmem
  rcases hmem with hq | ⟨c, -, hc⟩ | hq
  · exact absurd hq (by decide)
  · rcases escapeChar_cases c with ⟨-, -, hle, heq⟩ | ⟨-, heq⟩ | ⟨-, heq⟩ | hctl
    · rw [heq, List.mem_singleton] at hc
      rw [← hc] at hle
      exact absurd hle (by decide)
    · rw [heq] at hc
      exact absurd hc (by decide)
    · rw [heq] at hc
      exact absurd hc (by decide)
    · obtain ⟨n, hn, rfl⟩ := exists_control hctl
      interval_cases n <;> exact absurd hc (by decide)
  · exact absurd hq (by decide)

section Cutting

inductive Mode where
  | plain
  | inString
  | escaped
  deriving DecidableEq, Repr

/-- Where a reader of a value stands: the objects open around it, and its mode. -/
abbrev Reader := ℕ × Mode

/-- Take one character, or stop before a comma or brace that ends the value. -/
def advance : Reader → Char → Option Reader
  | (depth, .escaped), _ => some (depth, .inString)
  | (depth, .inString), c =>
    if c = backslash then some (depth, .escaped)
    else if c = quoteMark then some (depth, .plain)
    else some (depth, .inString)
  | (depth, .plain), c =>
    if c = quoteMark then some (depth, .inString)
    else if c = '{' then some (depth + 1, .plain)
    else if c = '}' then
      match depth with
      | 0 => none
      | outer + 1 => some (outer, .plain)
    else if c = ',' ∧ depth = 0 then none
    else some (depth, .plain)

/-- The text up to where the reader stops, and the rest. -/
def cut : Reader → List Char → List Char × List Char
  | _, [] => ([], [])
  | r, c :: cs =>
    match advance r c with
    | none => ([], c :: cs)
    | some r' => (c :: (cut r' cs).1, (cut r' cs).2)

/-- The reader after a text, if it takes all of it. -/
def walk : Reader → List Char → Option Reader
  | r, [] => some r
  | r, c :: cs =>
    match advance r c with
    | none => none
    | some r' => walk r' cs

theorem walk_append {r r' : Reader} {t : List Char} (h : walk r t = some r') (u : List Char) :
    walk r (t ++ u) = walk r' u := by
  induction t generalizing r with
  | nil =>
    obtain rfl := Option.some.inj h
    rfl
  | cons c t ih =>
    simp only [walk, List.cons_append] at h ⊢
    cases hstep : advance r c with
    | none => simp [hstep] at h
    | some next =>
      simp only [hstep] at h ⊢
      exact ih h

theorem cut_append {r r' : Reader} {t : List Char} (h : walk r t = some r') (u : List Char) :
    cut r (t ++ u) = (t ++ (cut r' u).1, (cut r' u).2) := by
  induction t generalizing r with
  | nil =>
    obtain rfl := Option.some.inj h
    rfl
  | cons c t ih =>
    simp only [walk] at h
    simp only [List.cons_append, cut]
    cases hstep : advance r c with
    | none => simp [hstep] at h
    | some next =>
      simp only [hstep] at h ⊢
      rw [ih h]

/-- The reader comes back to where it was, at any depth. -/
def Neutral (t : List Char) : Prop := ∀ depth, walk (depth, .plain) t = some (depth, .plain)

/-- The same inside an object, where commas do not end the value. -/
def Inner (t : List Char) : Prop :=
  ∀ depth, walk (depth + 1, .plain) t = some (depth + 1, .plain)

theorem Neutral.inner {t : List Char} (h : Neutral t) : Inner t := fun depth => h (depth + 1)

theorem Neutral.append {t u : List Char} (ht : Neutral t) (hu : Neutral u) : Neutral (t ++ u) := by
  intro depth
  rw [walk_append (ht depth)]
  exact hu depth

theorem Inner.append {t u : List Char} (ht : Inner t) (hu : Inner u) : Inner (t ++ u) := by
  intro depth
  rw [walk_append (ht depth)]
  exact hu depth

/-- Characters that mean nothing to the reader. -/
def Ordinary (c : Char) : Prop := c ≠ quoteMark ∧ c ≠ '{' ∧ c ≠ '}' ∧ c ≠ ','

theorem neutral_of_ordinary {t : List Char} (h : ∀ c ∈ t, Ordinary c) : Neutral t := by
  intro depth
  induction t with
  | nil => rfl
  | cons c t ih =>
    obtain ⟨hquote, hopen, hclose, hcomma⟩ := h c List.mem_cons_self
    have hstep : advance (depth, .plain) c = some (depth, .plain) := by
      simp only [advance]
      rw [if_neg hquote, if_neg hopen, if_neg hclose, if_neg (fun hc => hcomma hc.1)]
    simp only [walk, hstep]
    exact ih (fun d hd => h d (List.mem_cons_of_mem c hd))

theorem walk_escapeChar (depth : ℕ) (c : Char) :
    walk (depth, .inString) (escapeChar c) = some (depth, .inString) := by
  rcases escapeChar_cases c with ⟨hq, hb, -, heq⟩ | ⟨-, heq⟩ | ⟨-, heq⟩ | hctl
  · rw [heq]
    simp only [walk, advance]
    rw [if_neg hb, if_neg hq]
  · rw [heq]
    rfl
  · rw [heq]
    rfl
  · obtain ⟨n, hn, rfl⟩ := exists_control hctl
    interval_cases n <;> rfl

theorem walk_flatMap_escapeChar (depth : ℕ) (s : List Char) :
    walk (depth, .inString) (s.flatMap escapeChar) = some (depth, .inString) := by
  induction s with
  | nil => rfl
  | cons c s ih =>
    rw [List.flatMap_cons, walk_append (walk_escapeChar depth c)]
    exact ih

theorem neutral_quote (s : List Char) : Neutral (quote s) := by
  intro depth
  have hopen : advance (depth, .plain) quoteMark = some (depth, .inString) := by
    simp [advance]
  unfold quote
  simp only [walk, hopen]
  rw [walk_append (walk_flatMap_escapeChar depth s)]
  rfl

/-- An object is a value once its inside is read. -/
theorem neutral_braces {t : List Char} (h : Inner t) : Neutral ('{' :: (t ++ ['}'])) := by
  intro depth
  have hopen : advance (depth, .plain) '{' = some (depth + 1, .plain) := rfl
  simp only [walk, hopen]
  rw [walk_append (h depth)]
  rfl

/-- A value text ends where the reader stops. -/
theorem cut_neutral {t : List Char} (h : Neutral t) (x : List Char) :
    cut (0, .plain) (t ++ ',' :: x) = (t, ',' :: x) ∧
      cut (0, .plain) (t ++ '}' :: x) = (t, '}' :: x) := by
  constructor
  · rw [cut_append (h 0)]
    have hstop : cut (0, .plain) (',' :: x) = ([], ',' :: x) := rfl
    rw [hstop, List.append_nil]
  · rw [cut_append (h 0)]
    have hstop : cut (0, .plain) ('}' :: x) = ([], '}' :: x) := rfl
    rw [hstop, List.append_nil]

end Cutting

section Objects

/-- A key and the text of its value. -/
abbrev Member := List Char × List Char

def Member.text (m : Member) : List Char := quote m.1 ++ ':' :: m.2

/-- The members with commas between them, up to the closing brace. -/
def memberTexts : List Member → List Char
  | [] => ['}']
  | [m] => m.text ++ ['}']
  | m :: rest => m.text ++ ',' :: memberTexts rest

theorem memberTexts_cons (m n : Member) (rest : List Member) :
    memberTexts (m :: n :: rest) = m.text ++ ',' :: memberTexts (n :: rest) := rfl

theorem memberTexts_singleton (m : Member) : memberTexts [m] = m.text ++ ['}'] := rfl

def objectText (members : List Member) : List Char := '{' :: memberTexts members

theorem member_text_inj {m n : Member} (h : m.text = n.text) : m = n := by
  unfold Member.text at h
  obtain ⟨hkey, hvalue⟩ := quote_append_inj h
  exact Prod.ext hkey (List.cons.inj hvalue).2

theorem neutral_member {m : Member} (h : Neutral m.2) : Neutral m.text := by
  unfold Member.text
  refine (neutral_quote m.1).append ?_
  have hcolon : Neutral [':'] := neutral_of_ordinary (by simp [Ordinary, quoteMark])
  exact hcolon.append h

theorem member_text_ne_brace (m : Member) (x y : List Char) : m.text ++ x ≠ '}' :: y := by
  intro h
  exact absurd (List.cons.inj h).1 (by decide)

theorem inner_memberTexts {members : List Member} (h : ∀ m ∈ members, Neutral m.2) :
    ∃ t, Inner t ∧ memberTexts members = t ++ ['}'] := by
  induction members with
  | nil => exact ⟨[], fun _ => rfl, rfl⟩
  | cons m rest ih =>
    have hm : Inner m.text := (neutral_member (h m List.mem_cons_self)).inner
    cases rest with
    | nil => exact ⟨m.text, hm, rfl⟩
    | cons n rest =>
      obtain ⟨t, ht, heq⟩ := ih (fun x hx => h x (List.mem_cons_of_mem m hx))
      have hcomma : Inner [','] := fun depth => rfl
      refine ⟨m.text ++ ([','] ++ t), hm.append (hcomma.append ht), ?_⟩
      rw [memberTexts_cons, heq]
      simp

theorem neutral_objectText {members : List Member} (h : ∀ m ∈ members, Neutral m.2) :
    Neutral (objectText members) := by
  obtain ⟨t, ht, heq⟩ := inner_memberTexts h
  unfold objectText
  rw [heq]
  exact neutral_braces ht

/-- The first member is what the reader cuts off. -/
theorem cut_memberTexts (m : Member) (rest : List Member) (h : Neutral m.2) :
    (cut (0, .plain) (memberTexts (m :: rest))).1 = m.text := by
  cases rest with
  | nil =>
    have hcut := (cut_neutral (neutral_member h) []).2
    rw [memberTexts_singleton, hcut]
  | cons n rest =>
    have hcut := (cut_neutral (neutral_member h) (memberTexts (n :: rest))).1
    rw [memberTexts_cons, hcut]

theorem memberTexts_injective {members others : List Member}
    (hmembers : ∀ m ∈ members, Neutral m.2) (hothers : ∀ m ∈ others, Neutral m.2)
    (h : memberTexts members = memberTexts others) : members = others := by
  induction members generalizing others with
  | nil =>
    cases others with
    | nil => rfl
    | cons n rest =>
      cases rest with
      | nil => exact absurd h.symm (member_text_ne_brace n _ [])
      | cons k rest => exact absurd h.symm (member_text_ne_brace n _ [])
  | cons m members ih =>
    cases others with
    | nil =>
      cases members with
      | nil => exact absurd h (member_text_ne_brace m _ [])
      | cons k members => exact absurd h (member_text_ne_brace m _ [])
    | cons n others =>
      have hm := hmembers m List.mem_cons_self
      have hn := hothers n List.mem_cons_self
      have hfirst : m.text = n.text := by
        rw [← cut_memberTexts m members hm, h, cut_memberTexts n others hn]
      obtain rfl := member_text_inj hfirst
      have hmembers' : ∀ x ∈ members, Neutral x.2 := fun x hx =>
        hmembers x (List.mem_cons_of_mem m hx)
      have hothers' : ∀ x ∈ others, Neutral x.2 := fun x hx =>
        hothers x (List.mem_cons_of_mem m hx)
      cases members with
      | nil =>
        cases others with
        | nil => rfl
        | cons k others =>
          rw [memberTexts_singleton, memberTexts_cons] at h
          exact absurd (List.cons.inj (List.append_cancel_left h)).1 (by decide)
      | cons j members =>
        cases others with
        | nil =>
          rw [memberTexts_singleton, memberTexts_cons] at h
          exact absurd (List.cons.inj (List.append_cancel_left h)).1 (by decide)
        | cons k others =>
          rw [memberTexts_cons, memberTexts_cons] at h
          rw [ih hmembers' hothers' (List.cons.inj (List.append_cancel_left h)).2]

theorem objectText_injective {members others : List Member}
    (hmembers : ∀ m ∈ members, Neutral m.2) (hothers : ∀ m ∈ others, Neutral m.2)
    (h : objectText members = objectText others) : members = others :=
  memberTexts_injective hmembers hothers (List.cons.inj h).2

theorem newline_notMem_memberTexts {members : List Member}
    (h : ∀ m ∈ members, Char.ofNat 10 ∉ m.2) : Char.ofNat 10 ∉ memberTexts members := by
  have htext : ∀ m ∈ members, Char.ofNat 10 ∉ m.text := by
    intro m hm hmem
    unfold Member.text at hmem
    rcases List.mem_append.mp hmem with hkey | hvalue
    · exact newline_notMem_quote m.1 hkey
    · rcases List.mem_cons.mp hvalue with hcolon | hvalue
      · exact absurd hcolon (by decide)
      · exact h m hm hvalue
  induction members with
  | nil => decide
  | cons m rest ih =>
    have hm := htext m List.mem_cons_self
    have hrest := ih (fun x hx => h x (List.mem_cons_of_mem m hx))
      (fun x hx => htext x (List.mem_cons_of_mem m hx))
    cases rest with
    | nil =>
      rw [memberTexts_singleton]
      intro hmem
      rcases List.mem_append.mp hmem with hleft | hbrace
      · exact hm hleft
      · exact absurd hbrace (by decide)
    | cons n rest =>
      rw [memberTexts_cons]
      intro hmem
      rcases List.mem_append.mp hmem with hleft | hright
      · exact hm hleft
      · rcases List.mem_cons.mp hright with hcomma | hright
        · exact absurd hcomma (by decide)
        · exact hrest hright

theorem newline_notMem_objectText {members : List Member}
    (h : ∀ m ∈ members, Char.ofNat 10 ∉ m.2) : Char.ofNat 10 ∉ objectText members := by
  unfold objectText
  intro hmem
  rcases List.mem_cons.mp hmem with hbrace | hrest
  · exact absurd hbrace (by decide)
  · exact newline_notMem_memberTexts h hrest

/-- The text of a value: the reader can cut it off, and it is on one line. -/
structure ValueText (t : List Char) : Prop where
  neutral : Neutral t
  oneLine : Char.ofNat 10 ∉ t

theorem valueText_quote (s : List Char) : ValueText (quote s) :=
  ⟨neutral_quote s, newline_notMem_quote s⟩

theorem valueText_objectText {members : List Member} (h : ∀ m ∈ members, ValueText m.2) :
    ValueText (objectText members) :=
  ⟨neutral_objectText fun m hm => (h m hm).neutral,
    newline_notMem_objectText fun m hm => (h m hm).oneLine⟩

end Objects

section Optional
variable {κ τ : Type*}

/-- The fields of a record that are written, of those that may be left out. -/
def present (fields : List (κ × Option τ)) : List (κ × τ) :=
  fields.filterMap fun f => f.2.map fun v => (f.1, v)

theorem mem_present {fields : List (κ × Option τ)} {key : κ} {v : τ} :
    (key, v) ∈ present fields ↔ (key, some v) ∈ fields := by
  unfold present
  simp only [List.mem_filterMap, Option.map_eq_some_iff]
  constructor
  · intro hex
    obtain ⟨f, hf, w, hw, heq⟩ := hex
    obtain ⟨rfl, rfl⟩ := Prod.mk.inj heq
    rw [← hw]
    exact hf
  · intro hmem
    exact ⟨(key, some v), hmem, v, rfl, rfl⟩

/-- Over one list of distinct keys, what is written determines what was left out. -/
theorem fields_eq_of_perm {a b : List (κ × Option τ)}
    (hkeys : a.map Prod.fst = b.map Prod.fst) (hnodup : (a.map Prod.fst).Nodup)
    (h : (present a).Perm (present b)) : a = b := by
  have hlen : a.length = b.length := by
    have hmap := congrArg List.length hkeys
    rwa [List.length_map, List.length_map] at hmap
  have hkey : ∀ i (ha : i < a.length) (hb : i < b.length), (a[i]).1 = (b[i]).1 := by
    intro i ha hb
    have hget := congrArg (fun l => l[i]?) hkeys
    simpa [ha, hb] using hget
  -- a key has one value on each side
  have hunique : ∀ {fields : List (κ × Option τ)}, (fields.map Prod.fst).Nodup →
      ∀ {x y : κ × Option τ}, x ∈ fields → y ∈ fields → x.1 = y.1 → x = y := by
    intro fields hfields x y hx hy hxy
    exact List.inj_on_of_nodup_map hfields hx hy hxy
  refine List.ext_getElem hlen ?_
  intro i ha hb
  refine Prod.ext (hkey i ha hb) ?_
  ext v
  constructor
  · intro hv
    have hmem : ((b[i]).1, some v) ∈ a := by
      rw [← hkey i ha hb, ← hv]
      exact List.getElem_mem ha
    have hother := mem_present.mp (h.mem_iff.mp (mem_present.mpr hmem))
    have heq := hunique (hkeys ▸ hnodup) hother (List.getElem_mem hb) rfl
    rw [← heq]
  · intro hv
    have hmem : ((a[i]).1, some v) ∈ b := by
      rw [hkey i ha hb, ← hv]
      exact List.getElem_mem hb
    have hother := mem_present.mp (h.mem_iff.mpr (mem_present.mpr hmem))
    have heq := hunique hnodup hother (List.getElem_mem ha) rfl
    rw [← heq]

end Optional

end BatleHub.Lib.JsonText
