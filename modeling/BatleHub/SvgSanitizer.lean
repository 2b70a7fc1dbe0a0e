import BatleHub.Lib.Cuts
import Mathlib.Data.List.DropRight
import Mathlib.Data.List.Nodup

/-!
The allow-list over SVG. The reader's events go one by one through a walk that writes a new
document from the elements and attributes it knows; a disallowed element goes with all that
is in it, and text stays only where it is content. The reader and the writer are parameters:
a document comes as its events and leaves as what is written.
-/
namespace BatleHub.SvgSanitizer

open Lib

abbrev Text := List Char

/-- Membership among texts is decided by comparing them. -/
local instance texts_lawful : LawfulBEq (List Char) := inferInstance

/-- `ALLOWED_ELEMENTS`. -/
def allowedElements : List Text :=
  ["svg", "g", "defs", "title", "desc", "symbol", "path", "rect", "circle", "ellipse", "line",
    "polyline", "polygon", "text", "tspan", "linearGradient", "radialGradient", "stop",
    "clipPath", "mask", "pattern", "marker"].map String.toList

/-- `ALLOWED_ATTRIBUTES`. -/
def allowedAttributes : List Text :=
  ["x", "y", "x1", "y1", "x2", "y2", "cx", "cy", "r", "rx", "ry", "width", "height", "d",
    "points", "dx", "dy", "transform", "viewBox", "preserveAspectRatio", "offset",
    "gradientUnits", "gradientTransform", "spreadMethod", "patternUnits", "markerWidth",
    "markerHeight", "refX", "refY", "orient", "clipPathUnits", "maskUnits", "textLength",
    "lengthAdjust",
    "fill", "fill-opacity", "fill-rule", "stroke", "stroke-width", "stroke-opacity",
    "stroke-linecap", "stroke-linejoin", "stroke-dasharray", "stroke-dashoffset",
    "stroke-miterlimit", "opacity", "color", "stop-color", "stop-opacity", "clip-path", "mask",
    "shape-rendering",
    "font-family", "font-size", "font-weight", "font-style", "letter-spacing", "word-spacing",
    "text-anchor", "dominant-baseline", "alignment-baseline",
    "id", "version", "xmlns", "role", "aria-label"].map String.toList

section Characters

/-- The characters that XML forbids outright. -/
def isForbidden (c : Char) : Bool :=
  c.toNat ≤ 8 || c.toNat == 11 || c.toNat == 12 || (14 ≤ c.toNat && c.toNat ≤ 31)

def stripForbiddenChars (text : Text) : Text := text.filter fun c => !isForbidden c

def normalizeAttributeValue (raw : Text) : Text :=
  (stripForbiddenChars raw).map fun c => if ['\t', '\n', '\r'].contains c then ' ' else c

/-- The name without its namespace, by `rfind(':')`. -/
def localName (qname : Text) : Text := qname.rtakeWhile fun c => decide (c ≠ ':')

/-- `u32::from_str_radix`: an optional plus sign and digits, of a value that fits. -/
def parseU32 (radix : ℕ) (value : Char → Option ℕ) (text : Text) : Option ℕ :=
  let digits := match text with
    | '+' :: rest => rest
    | _ => text
  if digits = [] then none
  else
    match digits.mapM value with
    | none => none
    | some ds =>
      let n := ds.foldl (fun n d => n * radix + d) 0
      if n < 2 ^ 32 then some n else none

def decimalValue (c : Char) : Option ℕ := if c.isDigit then some (c.toNat - 48) else none

def hexValue (c : Char) : Option ℕ :=
  if c.isDigit then some (c.toNat - 48)
  else if 'a' ≤ c ∧ c ≤ 'f' then some (c.toNat - 87)
  else if 'A' ≤ c ∧ c ≤ 'F' then some (c.toNat - 55)
  else none

/-- `char::from_u32`. -/
def charOf (code : ℕ) : Option Char :=
  if code.isValidChar then some (Char.ofNat code) else none

/-- The five references that XML predefines. -/
def predefined : List (Text × Char) :=
  [("lt".toList, '<'), ("gt".toList, '>'), ("amp".toList, '&'), ("apos".toList, '\''),
    ("quot".toList, '"')]

/-- What a reference stands for: one of the predefined ones or a numeric one. -/
def resolveReference (name : Text) : Option Text :=
  match predefined.lookup name with
  | some c => some [c]
  | none =>
    match name with
    | '#' :: digits =>
      let code := match digits with
        | 'x' :: hex | 'X' :: hex => parseU32 16 hexValue hex
        | _ => parseU32 10 decimalValue digits
      ((code.bind charOf).map fun c => stripForbiddenChars [c]).filter fun t => decide (t ≠ [])
    | _ => none

end Characters

section Values

/-- The value as it is looked at: lower case, without white space. -/
def compact (value : Text) : Text :=
  (value.map Char.toLower).filter fun c => !Texts.isWhiteSpace c

def contains (text pat : Text) : Bool := (Cuts.beforeFirst pat text).isSome

/-- A reference into the document itself, quoted or not. -/
def isLocalTarget (target : Text) : Bool :=
  (target.dropWhile fun c => decide (c = '\'') || decide (c = '"')).head? == some '#'

/-- Refuses a value that reaches outside the document. -/
def safeValue (value : Text) : Bool :=
  let text := compact value
  !(contains text "javascript:".toList || contains text "vbscript:".toList ||
      contains text "data:".toList) &&
    (Cuts.splitText "url(".toList text).tail.all isLocalTarget

end Values

section Elements

/-- An attribute of an element as the reader gives it, with its normalised value or nothing
where that does not decode. -/
structure Attribute where
  key : Text
  value : Option Text
  deriving DecidableEq, Repr

/-- `(local name, value, was prefixed)`. -/
structure Kept where
  name : Text
  value : Text
  prefixed : Bool
  deriving DecidableEq, Repr

/-- The first spelling stays, unless it was prefixed and the new one is not. -/
def keep : List Kept → Kept → List Kept
  | [], k => [k]
  | o :: rest, k =>
    if o.name = k.name then (if o.prefixed && !k.prefixed then k :: rest else o :: rest)
    else o :: keep rest k

/-- What an attribute comes to, if it may stay. -/
def candidate (a : Attribute) : Option Kept :=
  let name := localName a.key
  if name ∈ allowedAttributes then
    -- checked as it will be written, not as it came
    let value := normalizeAttributeValue (a.value.getD [])
    if safeValue value then some ⟨name, value, a.key.contains ':'⟩ else none
  else none

def keepCandidate (kept : List Kept) (a : Attribute) : List Kept :=
  match candidate a with
  | some k => keep kept k
  | none => kept

def keptAttributes (attributes : List Attribute) : List Kept := attributes.foldl keepCandidate []

def cleanElement (attributes : List Attribute) : List (Text × Text) :=
  (keptAttributes attributes).map fun k => (k.name, k.value)

end Elements

section Walk

inductive Event where
  | start (qname : Text) (attributes : List Attribute)
  | empty (qname : Text) (attributes : List Attribute)
  | close (qname : Text)
  | text (content : Text)
  | generalRef (name : Text)
  /-- CDATA, a comment, a processing instruction or the doctype. -/
  | other
  deriving DecidableEq, Repr

inductive Written where
  | start (name : Text) (attributes : List (Text × Text))
  | empty (name : Text) (attributes : List (Text × Text))
  | close (name : Text)
  | text (content : Text)
  deriving DecidableEq, Repr

inductive SvgRejected where
  | malformed (error : String)
  | notSvg
  deriving DecidableEq, Repr

structure SvgWalk where
  written : List Written
  /-- How deep the walk is inside a disallowed element. -/
  skipping : ℕ
  /-- `open`, the innermost element first. -/
  opened : List Text
  sawRoot : Bool
  deriving DecidableEq, Repr

def SvgWalk.new : SvgWalk := ⟨[], 0, [], false⟩

def isAllowedElement (name : Text) : Bool := decide (name ∈ allowedElements)

def holdsText (name : Text) : Bool :=
  ["text", "tspan", "title", "desc"].any fun n => decide (n.toList = name)

def SvgWalk.holdsTextNow (w : SvgWalk) : Bool :=
  decide (w.skipping = 0) && w.opened.head?.any holdsText

def SvgWalk.write (w : SvgWalk) (item : Written) : SvgWalk :=
  { w with written := w.written ++ [item] }

def SvgWalk.start (w : SvgWalk) (qname : Text) (attributes : List Attribute) : SvgWalk :=
  let name := localName qname
  if 0 < w.skipping ∨ isAllowedElement name = false then { w with skipping := w.skipping + 1 }
  else
    { w.write (.start name (cleanElement attributes)) with
      opened := name :: w.opened
      sawRoot := w.sawRoot || decide (name = "svg".toList) }

def SvgWalk.empty (w : SvgWalk) (qname : Text) (attributes : List Attribute) : SvgWalk :=
  let name := localName qname
  if 0 < w.skipping ∨ isAllowedElement name = false then w
  else
    { w.write (.empty name (cleanElement attributes)) with
      sawRoot := w.sawRoot || decide (name = "svg".toList) }

def SvgWalk.close (w : SvgWalk) (qname : Text) : SvgWalk :=
  if 0 < w.skipping then { w with skipping := w.skipping - 1 }
  else
    let name := localName qname
    match w.opened with
    | [] => w
    | top :: rest => if top = name then { w.write (.close name) with opened := rest } else w

def SvgWalk.text (w : SvgWalk) (content : Text) : SvgWalk :=
  if w.holdsTextNow then w.write (.text (stripForbiddenChars content)) else w

def SvgWalk.generalRef (w : SvgWalk) (name : Text) : SvgWalk :=
  if w.holdsTextNow then
    match resolveReference name with
    | some resolved => w.write (.text resolved)
    | none => w
  else w

def SvgWalk.take (w : SvgWalk) : Event → SvgWalk
  | .start qname attributes => w.start qname attributes
  | .empty qname attributes => w.empty qname attributes
  | .close qname => w.close qname
  | .text content => w.text content
  | .generalRef name => w.generalRef name
  | .other => w

def SvgWalk.finish (w : SvgWalk) : Except SvgRejected (List Written) :=
  if w.sawRoot then .ok w.written else .error .notSvg

def walk (events : List Event) : SvgWalk := events.foldl SvgWalk.take .new

/-- The reader and the writer, of a document as bytes of any kind. -/
structure XmlLib (β : Type*) where
  read : β → Except String (List Event)
  write : List Written → β

def sanitizeSvg {β : Type*} (xml : XmlLib β) (svg : β) : Except SvgRejected β :=
  match xml.read svg with
  | .error e => .error (.malformed e)
  | .ok events => (walk events).finish.map xml.write

end Walk

section Values

theorem contains_iff (text pat : Text) : contains text pat = true ↔ pat <:+: text := by
  unfold contains
  constructor
  · intro h
    obtain ⟨before, hbefore⟩ := Option.isSome_iff_exists.mp h
    obtain ⟨rest, hrest⟩ := (Cuts.firstAt_of_beforeFirst hbefore).occurs
    exact ⟨before, rest, hrest⟩
  · intro h
    obtain ⟨before, rest, hrest⟩ := h
    have hoccurs : before ++ pat <+: text := ⟨rest, hrest⟩
    obtain ⟨found, hfound⟩ := Cuts.exists_beforeFirst hoccurs
    rw [hfound]
    rfl

/-- Every reference of the value is into the document itself, and none of the schemes that run
or carry something occurs in it. -/
structure PointsInside (value : Text) : Prop where
  javascript : ¬ "javascript:".toList <:+: compact value
  vbscript : ¬ "vbscript:".toList <:+: compact value
  data : ¬ "data:".toList <:+: compact value
  url : ∀ before target, compact value = before ++ "url(".toList ++ target →
    isLocalTarget target = true

/-- What ends a target before its `#` is the next reference, which is no `#` either. -/
theorem isLocalTarget_append (target rest : Text) :
    isLocalTarget (target ++ 'u' :: rest) = isLocalTarget target := by
  unfold isLocalTarget
  induction target with
  | nil => simp
  | cons c target ih =>
    rw [List.cons_append, List.dropWhile_cons, List.dropWhile_cons]
    split
    · exact ih
    · rfl

theorem isLocalTarget_piece {text piece : Text}
    (h : Cuts.beforeFirst "url(".toList text = some piece) :
    isLocalTarget piece = true ↔ isLocalTarget text = true := by
  obtain ⟨rest, rfl⟩ := (Cuts.firstAt_of_beforeFirst h).occurs
  have hpat : "url(".toList = 'u' :: "rl(".toList := rfl
  rw [List.append_assoc, hpat, List.cons_append, isLocalTarget_append]

theorem safeValue_iff (value : Text) : safeValue value = true ↔ PointsInside value := by
  have hurl : (Cuts.splitText "url(".toList (compact value)).tail.all isLocalTarget = true ↔
      ∀ before target, compact value = before ++ "url(".toList ++ target →
        isLocalTarget target = true := by
    rw [List.all_eq_true]
    exact Cuts.forall_tail_splitFuel_iff (by decide) (by decide)
      (fun target => isLocalTarget target = true) (fun _ _ h => isLocalTarget_piece h) _ _
      (Nat.le_refl _)
  unfold safeValue
  dsimp only
  rw [Bool.and_eq_true, hurl, Bool.not_eq_true', Bool.or_eq_false_iff, Bool.or_eq_false_iff,
    ← Bool.not_eq_true, ← Bool.not_eq_true, ← Bool.not_eq_true, contains_iff, contains_iff,
    contains_iff]
  constructor
  · intro h
    exact ⟨h.1.1.1, h.1.1.2, h.1.2, h.2⟩
  · intro h
    exact ⟨⟨⟨h.javascript, h.vbscript⟩, h.data⟩, h.url⟩

end Values

section Attributes

theorem stripForbiddenChars_eq_self_iff (t : Text) :
    stripForbiddenChars t = t ↔ ∀ c ∈ t, isForbidden c = false := by
  unfold stripForbiddenChars
  rw [List.filter_eq_self]
  simp

theorem isForbidden_of_mem_strip {t : Text} {c : Char} (h : c ∈ stripForbiddenChars t) :
    isForbidden c = false := by
  simpa using (List.mem_filter.mp h).2

theorem stripForbiddenChars_strip (t : Text) :
    stripForbiddenChars (stripForbiddenChars t) = stripForbiddenChars t :=
  (stripForbiddenChars_eq_self_iff _).mpr fun _ => isForbidden_of_mem_strip

theorem normalizeAttributeValue_eq_self_iff (v : Text) :
    normalizeAttributeValue v = v ↔
      ∀ c ∈ v, isForbidden c = false ∧ ['\t', '\n', '\r'].contains c = false := by
  constructor
  · intro h c hc
    rw [← h] at hc
    obtain ⟨d, hd, hcd⟩ := List.mem_map.mp hc
    split at hcd
    · subst hcd
      exact ⟨by decide, by decide⟩
    · rename_i hplain
      subst hcd
      exact ⟨isForbidden_of_mem_strip hd, by simpa using hplain⟩
  · intro h
    have hstrip : stripForbiddenChars v = v :=
      (stripForbiddenChars_eq_self_iff v).mpr fun c hc => (h c hc).1
    unfold normalizeAttributeValue
    rw [hstrip]
    conv_rhs => rw [← List.map_id v]
    refine List.map_congr_left fun c hc => ?_
    rw [(h c hc).2]
    rfl

/-- What is written is what was checked: normalising it again changes nothing. -/
theorem normalizeAttributeValue_normalize (raw : Text) :
    normalizeAttributeValue (normalizeAttributeValue raw) = normalizeAttributeValue raw := by
  rw [normalizeAttributeValue_eq_self_iff]
  intro c hc
  obtain ⟨d, hd, hcd⟩ := List.mem_map.mp hc
  split at hcd
  · subst hcd
    exact ⟨by decide, by decide⟩
  · rename_i hplain
    subst hcd
    exact ⟨isForbidden_of_mem_strip hd, by simpa using hplain⟩

theorem map_name_keep (kept : List Kept) (k : Kept) :
    (keep kept k).map (·.name) =
      if k.name ∈ kept.map (·.name) then kept.map (·.name)
      else kept.map (·.name) ++ [k.name] := by
  induction kept with
  | nil => simp [keep]
  | cons o rest ih =>
    unfold keep
    by_cases hname : o.name = k.name
    · rw [if_pos hname]
      split <;> simp [hname]
    · rw [if_neg hname, List.map_cons, ih, List.map_cons]
      by_cases hrest : k.name ∈ rest.map (·.name)
      · rw [if_pos hrest, if_pos (List.mem_cons_of_mem _ hrest)]
      · have hfresh : k.name ∉ o.name :: rest.map (·.name) := by
          simp [hrest, Ne.symm hname]
        rw [if_neg hrest, if_neg hfresh, List.cons_append]

theorem mem_keep {kept : List Kept} {k x : Kept} (h : x ∈ keep kept k) : x ∈ kept ∨ x = k := by
  induction kept with
  | nil => exact .inr (by simpa [keep] using h)
  | cons o rest ih =>
    unfold keep at h
    split at h
    · split at h
      · rcases List.mem_cons.mp h with rfl | hrest
        · exact .inr rfl
        · exact .inl (List.mem_cons_of_mem o hrest)
      · exact .inl h
    · rcases List.mem_cons.mp h with rfl | hrest
      · exact .inl List.mem_cons_self
      · rcases ih hrest with hold | hnew
        · exact .inl (List.mem_cons_of_mem o hold)
        · exact .inr hnew

/-- Known names, each once, with values that are normal and point inside. -/
structure CleanAttributes (attributes : List (Text × Text)) : Prop where
  nodup : (attributes.map (·.1)).Nodup
  known : ∀ p ∈ attributes, p.1 ∈ allowedAttributes
  normal : ∀ p ∈ attributes, normalizeAttributeValue p.2 = p.2
  inside : ∀ p ∈ attributes, PointsInside p.2

/-- The same of what an element has kept so far. -/
structure CleanKept (kept : List Kept) : Prop where
  nodup : (kept.map (·.name)).Nodup
  known : ∀ k ∈ kept, k.name ∈ allowedAttributes
  normal : ∀ k ∈ kept, normalizeAttributeValue k.value = k.value
  inside : ∀ k ∈ kept, PointsInside k.value

theorem candidate_eq_some {a : Attribute} {k : Kept} (h : candidate a = some k) :
    k.name ∈ allowedAttributes ∧ normalizeAttributeValue k.value = k.value ∧
      PointsInside k.value := by
  unfold candidate at h
  dsimp only at h
  split_ifs at h with hknown hsafe
  obtain rfl := Option.some.inj h
  exact ⟨hknown, normalizeAttributeValue_normalize _, (safeValue_iff _).mp hsafe⟩

theorem cleanKept_keep {kept : List Kept} (h : CleanKept kept) {a : Attribute} {k : Kept}
    (hk : candidate a = some k) : CleanKept (keep kept k) := by
  obtain ⟨hknown, hnormal, hinside⟩ := candidate_eq_some hk
  refine ⟨?_, ?_, ?_, ?_⟩
  · rw [map_name_keep]
    split
    · exact h.nodup
    · rename_i hfresh
      rw [← List.concat_eq_append]
      exact h.nodup.concat hfresh
  · intro x hx
    rcases mem_keep hx with hold | rfl
    · exact h.known x hold
    · exact hknown
  · intro x hx
    rcases mem_keep hx with hold | rfl
    · exact h.normal x hold
    · exact hnormal
  · intro x hx
    rcases mem_keep hx with hold | rfl
    · exact h.inside x hold
    · exact hinside

theorem cleanKept_keptAttributes (attributes : List Attribute) :
    CleanKept (keptAttributes attributes) := by
  unfold keptAttributes
  refine List.foldlRecOn attributes _ (motive := CleanKept) ?_ ?_
  · exact ⟨List.nodup_nil, by simp, by simp, by simp⟩
  · intro kept hkept a _
    unfold keepCandidate
    split
    · rename_i k hk
      exact cleanKept_keep hkept hk
    · exact hkept

theorem cleanAttributes_cleanElement (attributes : List Attribute) :
    CleanAttributes (cleanElement attributes) := by
  have h := cleanKept_keptAttributes attributes
  unfold cleanElement
  refine ⟨?_, ?_, ?_, ?_⟩
  · rw [List.map_map]
    exact h.nodup
  · intro p hp
    obtain ⟨k, hk, rfl⟩ := List.mem_map.mp hp
    exact h.known k hk
  · intro p hp
    obtain ⟨k, hk, rfl⟩ := List.mem_map.mp hp
    exact h.normal k hk
  · intro p hp
    obtain ⟨k, hk, rfl⟩ := List.mem_map.mp hp
    exact h.inside k hk

end Attributes

section Clean

def Written.Clean : Written → Prop
  | .start name attributes | .empty name attributes =>
    name ∈ allowedElements ∧ CleanAttributes attributes
  | .close _ => True
  | .text content => stripForbiddenChars content = content

def Written.isRoot : Written → Bool
  | .start name _ | .empty name _ => decide (name = "svg".toList)
  | _ => false

/-- The elements that are open behind what is written, the innermost first: every end matches
the start it closes, and text stands in an element that holds it. -/
def nest : List Text → List Written → Option (List Text)
  | opened, [] => some opened
  | opened, .start name _ :: rest => nest (name :: opened) rest
  | opened, .empty _ _ :: rest => nest opened rest
  | [], .close _ :: _ => none
  | top :: opened, .close name :: rest => if top = name then nest opened rest else none
  | opened, .text _ :: rest => if opened.head?.any holdsText then nest opened rest else none

theorem nest_append (opened : List Text) (before after : List Written) :
    nest opened (before ++ after) = (nest opened before).bind fun o => nest o after := by
  induction before generalizing opened with
  | nil => rfl
  | cons item before ih =>
    cases item with
    | start name attributes => exact ih (name :: opened)
    | empty name attributes => exact ih opened
    | close name =>
      cases opened with
      | nil => rfl
      | cons top opened =>
        simp only [List.cons_append, nest]
        split
        · exact ih opened
        · rfl
    | text content =>
      simp only [List.cons_append, nest]
      split
      · exact ih opened
      · rfl

/-- What is written is clean and nested, and the walk knows what is open and whether the root
was among it. -/
structure Sound (w : SvgWalk) : Prop where
  clean : ∀ item ∈ w.written, item.Clean
  nested : nest [] w.written = some w.opened
  root : w.sawRoot = w.written.any Written.isRoot

theorem Sound.new : Sound .new := ⟨by simp [SvgWalk.new], rfl, rfl⟩

theorem sound_write {w : SvgWalk} (h : Sound w) {item : Written} (opened : List Text)
    (sawRoot : Bool) (hclean : item.Clean) (hnest : nest w.opened [item] = some opened)
    (hroot : sawRoot = (w.sawRoot || item.isRoot)) :
    Sound { w.write item with opened := opened, sawRoot := sawRoot } := by
  refine ⟨?_, ?_, ?_⟩
  · intro i hi
    rcases List.mem_append.mp hi with hold | hnew
    · exact h.clean i hold
    · obtain rfl := List.mem_singleton.mp hnew
      exact hclean
  · simp only [SvgWalk.write]
    rw [nest_append, h.nested]
    exact hnest
  · rw [hroot, h.root]
    simp [SvgWalk.write]

theorem sound_of_eq {w w' : SvgWalk} (h : Sound w) (hwritten : w'.written = w.written)
    (hopened : w'.opened = w.opened) (hroot : w'.sawRoot = w.sawRoot) : Sound w' := by
  refine ⟨?_, ?_, ?_⟩
  · rw [hwritten]
    exact h.clean
  · rw [hwritten, hopened]
    exact h.nested
  · rw [hroot, hwritten]
    exact h.root

theorem stripForbiddenChars_resolve {name resolved : Text}
    (h : resolveReference name = some resolved) : stripForbiddenChars resolved = resolved := by
  unfold resolveReference at h
  split at h
  · rename_i c hc
    obtain rfl := Option.some.inj h
    have hall : ∀ p ∈ predefined, isForbidden p.2 = false := by decide
    obtain ⟨before, after, hsplit, -⟩ := List.lookup_eq_some_iff.mp hc
    rw [stripForbiddenChars_eq_self_iff]
    intro d hd
    obtain rfl := List.mem_singleton.mp hd
    exact hall (name, d) (by rw [hsplit]; simp)
  · split at h
    · obtain ⟨hsome, -⟩ := Option.filter_eq_some_iff.mp h
      obtain ⟨c, -, rfl⟩ := Option.map_eq_some_iff.mp hsome
      exact stripForbiddenChars_strip [c]
    · cases h

theorem sound_text {w : SvgWalk} (h : Sound w) {content : Text}
    (hclean : stripForbiddenChars content = content) (hholds : w.holdsTextNow = true) :
    Sound (w.write (.text content)) := by
  have hhead : w.opened.head?.any holdsText = true := by
    unfold SvgWalk.holdsTextNow at hholds
    rw [Bool.and_eq_true] at hholds
    exact hholds.2
  exact sound_write h w.opened w.sawRoot hclean
    (by simp [nest, hhead]) (by simp [Written.isRoot])

theorem sound_take {w : SvgWalk} (h : Sound w) (e : Event) : Sound (w.take e) := by
  cases e with
  | start qname attributes =>
    simp only [SvgWalk.take, SvgWalk.start]
    split
    · exact sound_of_eq h rfl rfl rfl
    · rename_i hallowed
      have hname : localName qname ∈ allowedElements := by
        simpa [isAllowedElement] using (not_or.mp hallowed).2
      exact sound_write h _ _ ⟨hname, cleanAttributes_cleanElement attributes⟩ rfl rfl
  | empty qname attributes =>
    simp only [SvgWalk.take, SvgWalk.empty]
    split
    · exact h
    · rename_i hallowed
      have hname : localName qname ∈ allowedElements := by
        simpa [isAllowedElement] using (not_or.mp hallowed).2
      exact sound_write h w.opened _ ⟨hname, cleanAttributes_cleanElement attributes⟩
        rfl rfl
  | close qname =>
    simp only [SvgWalk.take, SvgWalk.close]
    split
    · exact sound_of_eq h rfl rfl rfl
    · split
      · exact h
      · rename_i top rest hopened
        split
        · rename_i hname
          refine sound_write h rest w.sawRoot trivial ?_ (by simp [Written.isRoot])
          rw [hopened, nest, if_pos hname]
          rfl
        · exact h
  | text content =>
    simp only [SvgWalk.take, SvgWalk.text]
    split
    · rename_i hholds
      exact sound_text h (stripForbiddenChars_strip content) hholds
    · exact h
  | generalRef name =>
    simp only [SvgWalk.take, SvgWalk.generalRef]
    split
    · rename_i hholds
      split
      · rename_i resolved hresolved
        exact sound_text h (stripForbiddenChars_resolve hresolved) hholds
      · exact h
    · exact h
  | other => exact h

theorem sound_walk (events : List Event) : Sound (walk events) :=
  List.foldlRecOn events SvgWalk.take (motive := Sound) .new fun _ h e _ => sound_take h e

end Clean

section Subtrees

/-- How many elements are open behind the events, from `n` that were; nothing where one ends
that did not start. -/
def depth : ℕ → List Event → Option ℕ
  | n, [] => some n
  | n, .start _ _ :: rest => depth (n + 1) rest
  | 0, .close _ :: _ => none
  | n + 1, .close _ :: rest => depth n rest
  | n, _ :: rest => depth n rest

/-- Inside a disallowed element nothing is written, and the walk counts its way out. -/
theorem take_skipping {w : SvgWalk} {k n m : ℕ} (hskip : w.skipping = n + k) (hk : 0 < k)
    {inner : List Event} (h : depth n inner = some m) :
    inner.foldl SvgWalk.take w = { w with skipping := m + k } := by
  induction inner generalizing w n with
  | nil =>
    obtain rfl := Option.some.inj h
    rw [List.foldl_nil, ← hskip]
  | cons e inner ih =>
    have hpos : 0 < w.skipping := by omega
    rw [List.foldl_cons]
    cases e with
    | start qname attributes =>
      have hstep : w.take (.start qname attributes) = { w with skipping := n + 1 + k } := by
        simp only [SvgWalk.take, SvgWalk.start, if_pos (Or.inl hpos : _ ∨ _)]
        congr 1
        omega
      rw [hstep, ih rfl h]
    | close qname =>
      cases n with
      | zero => cases h
      | succ n =>
        have hstep : w.take (.close qname) = { w with skipping := n + k } := by
          simp only [SvgWalk.take, SvgWalk.close, if_pos hpos]
          congr 1
          omega
        rw [hstep, ih rfl h]
    | empty qname attributes =>
      have hstep : w.take (.empty qname attributes) = w := by
        simp only [SvgWalk.take, SvgWalk.empty, if_pos (Or.inl hpos : _ ∨ _)]
      rw [hstep, ih hskip h]
    | text content =>
      have hstep : w.take (.text content) = w := by
        simp [SvgWalk.take, SvgWalk.text, SvgWalk.holdsTextNow, Nat.pos_iff_ne_zero.mp hpos]
      rw [hstep, ih hskip h]
    | generalRef name =>
      have hstep : w.take (.generalRef name) = w := by
        simp [SvgWalk.take, SvgWalk.generalRef, SvgWalk.holdsTextNow,
          Nat.pos_iff_ne_zero.mp hpos]
      rw [hstep, ih hskip h]
    | other => exact ih hskip h

theorem take_subtree (w : SvgWalk) {qname : Text} (attributes : List Attribute) (qname' : Text)
    {inner : List Event} (hname : isAllowedElement (localName qname) = false)
    (hinner : depth 0 inner = some 0) :
    (Event.start qname attributes :: (inner ++ [Event.close qname'])).foldl SvgWalk.take w =
      w := by
  rw [List.foldl_cons, List.foldl_append]
  have hstep : w.take (.start qname attributes) = { w with skipping := w.skipping + 1 } := by
    simp only [SvgWalk.take, SvgWalk.start, if_pos (Or.inr hname : _ ∨ _)]
  rw [hstep, take_skipping (k := w.skipping + 1) (n := 0) (by simp) (Nat.succ_pos _) hinner]
  simp [SvgWalk.take, SvgWalk.close]

end Subtrees

end BatleHub.SvgSanitizer
