import BatleHub.SvgSanitizer

/-!
What the sanitiser says of its own documents, and the main results. A document that it wrote
is read back in pieces, since the reader gives a reference as an event of its own; the walk
over the pieces writes the same document, so that sanitising is a fixed point.
-/
namespace BatleHub.SvgSanitizer

section ReadingBack

/-- The characters that the writer escapes, by the reference it writes. -/
def referenceTo (c : Char) : Option Text := (predefined.find? fun p => p.2 = c).map (·.1)

def needsReference (c : Char) : Bool := (referenceTo c).isSome

/-- A text between its escaped characters, and each of these alone. -/
def pieces : Text → List Text
  | [] => []
  | c :: rest =>
    match pieces rest with
    | (d :: run) :: more =>
      if needsReference c || needsReference d then [c] :: (d :: run) :: more
      else (c :: d :: run) :: more
    | more => [c] :: more

def pieceEvent (piece : Text) : Event :=
  match piece with
  | [c] => match referenceTo c with
    | some name => .generalRef name
    | none => .text [c]
  | _ => .text piece

/-- What the reader makes of what the writer wrote: elements with the values as they were before
escaping, and a text in pieces. -/
def readBack : Written → List Event
  | .start name attributes => [.start name (attributes.map fun p => ⟨p.1, some p.2⟩)]
  | .empty name attributes => [.empty name (attributes.map fun p => ⟨p.1, some p.2⟩)]
  | .close name => [.close name]
  | .text content => (pieces content).map pieceEvent

def reread (items : List Written) : List Event := items.flatMap readBack

/-- Texts that follow each other are one text of the document, and an empty one is none. -/
def push : Written → List Written → List Written
  | .text [], rest => rest
  | .text content, .text more :: rest => .text (content ++ more) :: rest
  | item, rest => item :: rest

def merge (items : List Written) : List Written := items.foldr push []

def expand : Written → List Written
  | .text content => (pieces content).map .text
  | item => [item]

theorem flatten_pieces (t : Text) : (pieces t).flatten = t := by
  induction t with
  | nil => rfl
  | cons c rest ih =>
    unfold pieces
    split
    · rename_i d run more hrest
      rw [hrest] at ih
      split
      · rw [List.flatten_cons, ih]
        rfl
      · rw [← ih]
        rfl
    · rw [List.flatten_cons, ih]
      rfl

theorem push_text (content : Text) (items : List Written) (hne : content ≠ []) :
    push (.text content) items = match items with
      | .text more :: rest => .text (content ++ more) :: rest
      | _ => .text content :: items := by
  cases content with
  | nil => exact absurd rfl hne
  | cons c content =>
    cases items with
    | nil => rfl
    | cons item rest => cases item <;> rfl

theorem push_text_append (s t : Text) (items : List Written) :
    push (.text s) (push (.text t) items) = push (.text (s ++ t)) items := by
  by_cases hs : s = []
  · subst hs
    rfl
  · by_cases ht : t = []
    · subst ht
      rw [List.append_nil]
      rfl
    · rw [push_text t items ht, push_text (s ++ t) items (by simp [hs])]
      split
      · rw [push_text _ _ hs]
        simp
      · rw [push_text _ _ hs]

theorem foldr_push_texts (ts : List Text) (items : List Written) :
    (ts.map Written.text).foldr push items = push (.text ts.flatten) items := by
  induction ts with
  | nil => rfl
  | cons t ts ih =>
    rw [List.map_cons, List.foldr_cons, ih, push_text_append]
    rfl

/-- A document whose texts come in pieces is the same document. -/
theorem merge_flatMap_expand (items : List Written) :
    merge (items.flatMap expand) = merge items := by
  unfold merge
  induction items with
  | nil => rfl
  | cons item items ih =>
    rw [List.flatMap_cons, List.foldr_append, ih, List.foldr_cons]
    cases item with
    | text content =>
      unfold expand
      rw [foldr_push_texts, flatten_pieces]
    | _ => rfl

theorem merge_push (item : Written) (items : List Written) (h : merge items = items) :
    merge (push item items) = push item items := by
  unfold merge at h ⊢
  cases item with
  | text content =>
    by_cases hne : content = []
    · subst hne
      exact h
    · rw [push_text content items hne]
      split
      · rename_i more rest
        have hrest : push (.text more) (rest.foldr push []) = .text more :: rest := h
        rw [List.foldr_cons, ← push_text_append, hrest]
        exact push_text content _ hne
      · rename_i hother
        rw [List.foldr_cons, h, push_text content items hne]
        split
        · rename_i more rest
          exact absurd rfl (hother more rest)
        · rfl
  | _ =>
    change push _ (items.foldr push []) = _
    rw [h]

theorem merge_merge (items : List Written) : merge (merge items) = merge items := by
  induction items with
  | nil => rfl
  | cons item items ih => exact merge_push item (merge items) ih

theorem mem_of_mem_pieces {t piece : Text} (h : piece ∈ pieces t) {c : Char} (hc : c ∈ piece) :
    c ∈ t := by
  rw [← flatten_pieces t]
  exact List.mem_flatten.mpr ⟨piece, h, hc⟩

theorem resolveReference_of_referenceTo {c : Char} {name : Text} (h : referenceTo c = some name) :
    resolveReference name = some [c] := by
  obtain ⟨p, hfound, rfl⟩ := Option.map_eq_some_iff.mp h
  have hall : ∀ p ∈ predefined, resolveReference p.1 = some [p.2] := by decide +kernel
  have hchar : p.2 = c := by simpa using List.find?_some hfound
  rw [hall p (List.mem_of_find?_eq_some hfound), hchar]

theorem take_pieceEvent {w : SvgWalk} (hholds : w.holdsTextNow = true) {piece : Text}
    (hclean : stripForbiddenChars piece = piece) :
    w.take (pieceEvent piece) = w.write (.text piece) := by
  have htext : w.take (.text piece) = w.write (.text piece) := by
    simp [SvgWalk.take, SvgWalk.text, hholds, hclean]
  unfold pieceEvent
  split
  · split
    · rename_i name hname
      simp [SvgWalk.take, SvgWalk.generalRef, hholds, resolveReference_of_referenceTo hname]
    · exact htext
  · exact htext

theorem take_pieces {w : SvgWalk} (hholds : w.holdsTextNow = true) (ts : List Text)
    (hclean : ∀ t ∈ ts, stripForbiddenChars t = t) :
    (ts.map pieceEvent).foldl SvgWalk.take w =
      { w with written := w.written ++ ts.map .text } := by
  induction ts generalizing w with
  | nil => simp
  | cons t ts ih =>
    have hnext : (w.write (.text t)).holdsTextNow = true := hholds
    rw [List.map_cons, List.foldl_cons, take_pieceEvent hholds (hclean t List.mem_cons_self),
      ih hnext fun t' ht' => hclean t' (List.mem_cons_of_mem t ht')]
    simp [SvgWalk.write]

theorem keep_fresh {kept : List Kept} {k : Kept} (h : k.name ∉ kept.map (·.name)) :
    keep kept k = kept ++ [k] := by
  induction kept with
  | nil => rfl
  | cons o rest ih =>
    rw [List.map_cons, List.mem_cons, not_or] at h
    rw [keep, if_neg (Ne.symm h.1), ih h.2]
    rfl

theorem localName_of_notMem {name : Text} (h : ':' ∉ name) : localName name = name := by
  unfold localName
  rw [List.rtakeWhile_eq_self_iff]
  intro c hc
  rw [decide_eq_true_eq]
  rintro rfl
  exact h hc

theorem colon_notMem_of_elements {name : Text} (h : name ∈ allowedElements) : ':' ∉ name := by
  have hall : (allowedElements.all fun n => !n.contains ':') = true := by decide +kernel
  simpa using List.all_eq_true.mp hall name h

theorem colon_notMem_of_attributes {name : Text} (h : name ∈ allowedAttributes) :
    ':' ∉ name := by
  have hall : (allowedAttributes.all fun n => !n.contains ':') = true := by decide +kernel
  simpa using List.all_eq_true.mp hall name h

/-- A clean attribute that is read back is kept as it is. -/
theorem candidate_back {name value : Text} (hname : name ∈ allowedAttributes)
    (hnormal : normalizeAttributeValue value = value) (hinside : PointsInside value) :
    candidate ⟨name, some value⟩ = some ⟨name, value, false⟩ := by
  have hcolon := colon_notMem_of_attributes hname
  have hplain : name.contains ':' = false := by simpa using hcolon
  unfold candidate
  dsimp only
  rw [localName_of_notMem hcolon, if_pos hname, Option.getD_some, hnormal,
    if_pos ((safeValue_iff value).mpr hinside), hplain]

theorem cleanElement_back {attributes : List (Text × Text)} (h : CleanAttributes attributes) :
    cleanElement (attributes.map fun p => ⟨p.1, some p.2⟩) = attributes := by
  have hfold : ∀ kept : List Kept, (kept.map (·.name) ++ attributes.map (·.1)).Nodup →
      (attributes.map fun p => (⟨p.1, some p.2⟩ : Attribute)).foldl keepCandidate kept =
        kept ++ attributes.map fun p => ⟨p.1, p.2, false⟩ := by
    obtain ⟨-, hknown, hnormal, hinside⟩ := h
    induction attributes with
    | nil => simp
    | cons p attributes ih =>
      intro kept hnodup
      have hfresh : p.1 ∉ kept.map (·.name) := fun hmem =>
        (List.nodup_append.mp hnodup).2.2 p.1 hmem p.1 (by simp) rfl
      rw [List.map_cons, List.foldl_cons, keepCandidate,
        candidate_back (hknown p List.mem_cons_self) (hnormal p List.mem_cons_self)
          (hinside p List.mem_cons_self)]
      dsimp only
      rw [keep_fresh hfresh, ih (fun q hq => hknown q (List.mem_cons_of_mem p hq))
        (fun q hq => hnormal q (List.mem_cons_of_mem p hq))
        (fun q hq => hinside q (List.mem_cons_of_mem p hq))]
      · simp
      · simpa using hnodup
  unfold cleanElement keptAttributes
  rw [hfold [] (by simpa using h.nodup), List.nil_append, List.map_map]
  exact List.map_id' attributes

/-- The walk over a clean document that was read back writes it again, its texts in pieces. -/
theorem take_reread {items : List Written} {opened opened' : List Text} {w : SvgWalk}
    (hnest : nest opened items = some opened') (hclean : ∀ item ∈ items, item.Clean)
    (hopened : ∀ name ∈ opened, name ∈ allowedElements) (hw : w.opened = opened)
    (hskip : w.skipping = 0) :
    (reread items).foldl SvgWalk.take w =
      { w with
        written := w.written ++ items.flatMap expand
        opened := opened'
        sawRoot := w.sawRoot || items.any Written.isRoot } := by
  have hlocal : ∀ name ∈ allowedElements,
      localName name = name ∧ isAllowedElement name = true := fun name hname =>
    ⟨localName_of_notMem (colon_notMem_of_elements hname), decide_eq_true hname⟩
  induction items generalizing opened w with
  | nil =>
    obtain rfl := Option.some.inj hnest
    simp [reread, ← hw]
  | cons item items ih =>
    have hrest : ∀ i ∈ items, i.Clean := fun i hi => hclean i (List.mem_cons_of_mem item hi)
    have hitem := hclean item List.mem_cons_self
    have hread : (reread (item :: items)).foldl SvgWalk.take w =
        (reread items).foldl SvgWalk.take ((readBack item).foldl SvgWalk.take w) := by
      rw [reread, List.flatMap_cons, List.foldl_append]
      rfl
    rw [hread]
    cases item with
    | start name attributes =>
      obtain ⟨hname, hattributes⟩ := hitem
      obtain ⟨hsame, hallowed⟩ := hlocal name hname
      have hstep : (readBack (.start name attributes)).foldl SvgWalk.take w =
          { w.write (.start name attributes) with
            opened := name :: w.opened
            sawRoot := w.sawRoot || decide (name = "svg".toList) } := by
        simp [readBack, SvgWalk.take, SvgWalk.start, hsame, hallowed, hskip,
          cleanElement_back hattributes]
      rw [hstep]
      refine Eq.trans (ih hnest hrest (List.forall_mem_cons.mpr ⟨hname, hopened⟩) ?_ ?_) ?_
      · exact congrArg _ hw
      · exact hskip
      · simp [SvgWalk.write, expand, Written.isRoot, Bool.or_assoc]
    | empty name attributes =>
      obtain ⟨hname, hattributes⟩ := hitem
      obtain ⟨hsame, hallowed⟩ := hlocal name hname
      have hstep : (readBack (.empty name attributes)).foldl SvgWalk.take w =
          { w.write (.empty name attributes) with
            sawRoot := w.sawRoot || decide (name = "svg".toList) } := by
        simp [readBack, SvgWalk.take, SvgWalk.empty, hsame, hallowed, hskip,
          cleanElement_back hattributes]
      rw [hstep]
      refine Eq.trans (ih hnest hrest hopened ?_ ?_) ?_
      · exact hw
      · exact hskip
      · simp [SvgWalk.write, expand, Written.isRoot, Bool.or_assoc]
    | close name =>
      cases opened with
      | nil => cases hnest
      | cons top opened =>
        rw [nest] at hnest
        split at hnest
        · rename_i htop
          subst htop
          have hstep : (readBack (.close top)).foldl SvgWalk.take w =
              { w.write (.close top) with opened := opened } := by
            simp [readBack, SvgWalk.take, SvgWalk.close, hskip, hw,
              (hlocal top (hopened top List.mem_cons_self)).1]
          rw [hstep]
          refine Eq.trans (ih hnest hrest (fun n hn => hopened n (List.mem_cons_of_mem top hn))
            ?_ ?_) ?_
          · rfl
          · exact hskip
          · simp [SvgWalk.write, expand, Written.isRoot]
        · cases hnest
    | text content =>
      rw [nest] at hnest
      split at hnest
      · rename_i hholds
        have hnow : w.holdsTextNow = true := by simp [SvgWalk.holdsTextNow, hskip, hw, hholds]
        have hpieces : ∀ t ∈ pieces content, stripForbiddenChars t = t := by
          intro t ht
          rw [stripForbiddenChars_eq_self_iff]
          intro c hc
          exact (stripForbiddenChars_eq_self_iff content).mp hitem c (mem_of_mem_pieces ht hc)
        have hstep : (readBack (.text content)).foldl SvgWalk.take w =
            { w with written := w.written ++ (pieces content).map .text } :=
          take_pieces hnow (pieces content) hpieces
        rw [hstep]
        refine Eq.trans (ih hnest hrest hopened ?_ ?_) ?_
        · exact hw
        · exact hskip
        · simp [expand, Written.isRoot]
      · cases hnest

end ReadingBack

section Merging

theorem stripForbiddenChars_append {s t : Text} (hs : stripForbiddenChars s = s)
    (ht : stripForbiddenChars t = t) : stripForbiddenChars (s ++ t) = s ++ t := by
  unfold stripForbiddenChars at hs ht ⊢
  rw [List.filter_append, hs, ht]

theorem clean_push {item : Written} {items : List Written} (hitem : item.Clean)
    (hclean : ∀ i ∈ items, i.Clean) : ∀ i ∈ push item items, i.Clean := by
  have hcons : ∀ i ∈ item :: items, i.Clean := List.forall_mem_cons.mpr ⟨hitem, hclean⟩
  cases item with
  | text content =>
    by_cases hne : content = []
    · subst hne
      exact hclean
    · rw [push_text content items hne]
      split
      · rename_i more rest
        have hmore : stripForbiddenChars more = more := hclean (.text more) List.mem_cons_self
        refine List.forall_mem_cons.mpr ⟨stripForbiddenChars_append hitem hmore, ?_⟩
        exact fun i hi => hclean i (List.mem_cons_of_mem _ hi)
      · exact hcons
  | _ => exact hcons

theorem clean_merge {items : List Written} (h : ∀ i ∈ items, i.Clean) :
    ∀ i ∈ merge items, i.Clean := by
  induction items with
  | nil => exact h
  | cons item items ih =>
    exact clean_push (h item List.mem_cons_self)
      (ih fun i hi => h i (List.mem_cons_of_mem item hi))

theorem nest_push {item : Written} {items : List Written} {opened opened' : List Text}
    (h : nest opened (item :: items) = some opened') :
    nest opened (push item items) = some opened' := by
  cases item with
  | text content =>
    by_cases hne : content = []
    · subst hne
      rw [nest] at h
      split at h
      · exact h
      · cases h
    · rw [push_text content items hne]
      split
      · rename_i more rest
        rw [nest] at h
        split at h
        · exact h
        · cases h
      · exact h
  | _ => exact h

/-- Merging goes on behind what is nested already. -/
theorem nest_cons_congr {item : Written} {items items' : List Written}
    (h : ∀ opened opened', nest opened items = some opened' →
      nest opened items' = some opened') {opened opened' : List Text}
    (hnest : nest opened (item :: items) = some opened') :
    nest opened (item :: items') = some opened' := by
  cases item with
  | start name attributes => exact h _ _ hnest
  | empty name attributes => exact h _ _ hnest
  | close name =>
    cases opened with
    | nil => cases hnest
    | cons top opened =>
      rw [nest] at hnest ⊢
      split at hnest
      · rename_i htop
        rw [if_pos htop]
        exact h _ _ hnest
      · cases hnest
  | text content =>
    rw [nest] at hnest ⊢
    split at hnest
    · rename_i hholds
      rw [if_pos hholds]
      exact h _ _ hnest
    · cases hnest

theorem nest_merge (items : List Written) : ∀ opened opened',
    nest opened items = some opened' → nest opened (merge items) = some opened' := by
  induction items with
  | nil => exact fun _ _ h => h
  | cons item items ih => exact fun _ _ h => nest_push (nest_cons_congr ih h)

theorem any_isRoot_push (item : Written) (items : List Written) :
    (push item items).any Written.isRoot = (item :: items).any Written.isRoot := by
  cases item with
  | text content =>
    by_cases hne : content = []
    · subst hne
      rfl
    · rw [push_text content items hne]
      split <;> rfl
  | _ => rfl

theorem any_isRoot_merge (items : List Written) :
    (merge items).any Written.isRoot = items.any Written.isRoot := by
  induction items with
  | nil => rfl
  | cons item items ih =>
    have hpush := any_isRoot_push item (merge items)
    rw [List.any_cons, ih, ← List.any_cons] at hpush
    exact hpush

/-- The walk over its own document writes that document and leaves the same elements open. -/
theorem walk_reread {w : SvgWalk} (h : Sound w) :
    merge (walk (reread (merge w.written))).written = merge w.written ∧
      (walk (reread (merge w.written))).sawRoot = w.sawRoot := by
  have hwalk := take_reread (w := .new) (nest_merge _ _ _ h.nested) (clean_merge h.clean)
    (by simp) rfl rfl
  constructor
  · rw [walk, hwalk]
    simp only [SvgWalk.new, List.nil_append]
    rw [merge_flatMap_expand, merge_merge]
  · rw [walk, hwalk]
    simp only [SvgWalk.new, Bool.false_or]
    rw [any_isRoot_merge, h.root]

theorem sanitizeSvg_eq_ok_iff {β : Type*} (xml : XmlLib β) {svg out : β} :
    sanitizeSvg xml svg = .ok out ↔
      ∃ events, xml.read svg = .ok events ∧ (walk events).sawRoot = true ∧
        xml.write (walk events).written = out := by
  unfold sanitizeSvg SvgWalk.finish
  cases xml.read svg with
  | error e => simp
  | ok events =>
    by_cases hroot : (walk events).sawRoot = true
    · simp [hroot, Except.map]
    · simp [hroot, Except.map]

end Merging

section Sample

def escapeText (t : Text) : Text :=
  t.flatMap fun c => match referenceTo c with
    | some name => '&' :: name ++ [';']
    | none => [c]

def renderAttribute (p : Text × Text) : Text :=
  ' ' :: p.1 ++ '=' :: '"' :: escapeText p.2 ++ ['"']

def render : Written → Text
  | .start name attributes => '<' :: name ++ attributes.flatMap renderAttribute ++ ['>']
  | .empty name attributes => '<' :: name ++ attributes.flatMap renderAttribute ++ ['/', '>']
  | .close name => '<' :: '/' :: name ++ ['>']
  | .text content => escapeText content

theorem flatMap_render_push (item : Written) (items : List Written) :
    (push item items).flatMap render = (item :: items).flatMap render := by
  cases item with
  | text content =>
    by_cases hne : content = []
    · subst hne
      rfl
    · rw [push_text content items hne]
      split
      · simp [render, escapeText]
      · rfl
  | _ => rfl

theorem flatMap_render_merge (items : List Written) :
    (merge items).flatMap render = items.flatMap render := by
  induction items with
  | nil => rfl
  | cons item items ih =>
    have hpush := flatMap_render_push item (merge items)
    rw [List.flatMap_cons, ih, ← List.flatMap_cons] at hpush
    exact hpush

def sampleEvents : List Event :=
  [.start "svg".toList [], .start "svg:script".toList [], .text "alert(1)".toList,
    .close "svg:script".toList,
    .start "title".toList [⟨"inkscape:x".toList, some "2".toList⟩, ⟨"x".toList, some "1".toList⟩,
      ⟨"y".toList, some "url(#g) url(http://x)".toList⟩],
    .text "a ".toList, .generalRef "lt".toList, .generalRef "#32".toList, .text "b".toList,
    .close "title".toList, .close "svg".toList]

def sampleSvg : String :=
  "<svg><svg:script>alert(1)</svg:script><title inkscape:x='2' x='1' " ++
    "y='url(#g) url(http://x)'>a &lt;&#32;b</title></svg>"

def sampleWritten : List Written :=
  [.start "svg".toList [], .start "title".toList [("x".toList, "1".toList)],
    .text "a ".toList, .text ['<'], .text [' '], .text ['b'], .close "title".toList,
    .close "svg".toList]

def sampleOut : String := "<svg><title x=\"1\">a &lt; b</title></svg>"

def sampleBack : List Event :=
  [.start "svg".toList [], .start "title".toList [⟨"x".toList, some "1".toList⟩],
    .text "a ".toList, .generalRef "lt".toList, .text " b".toList, .close "title".toList,
    .close "svg".toList]

/-- A reader that knows the two documents, and the writer. -/
def sampleXml : XmlLib String where
  read s :=
    if s = sampleSvg then .ok sampleEvents
    else if s = sampleOut then .ok sampleBack
    else .error "not read"
  write items := String.ofList (items.flatMap render)

theorem read_sampleSvg : sampleXml.read sampleSvg = .ok sampleEvents := by simp [sampleXml]

theorem read_sampleOut : sampleXml.read sampleOut = .ok sampleBack := by
  have hne : sampleOut ≠ sampleSvg := by decide
  simp [sampleXml, hne]

theorem walk_sampleEvents : walk sampleEvents = ⟨sampleWritten, 0, [], true⟩ := by
  decide +kernel

theorem write_sampleWritten : sampleXml.write sampleWritten = sampleOut := by decide +kernel

theorem sample_sanitized : sanitizeSvg sampleXml sampleSvg = .ok sampleOut := by
  rw [sanitizeSvg_eq_ok_iff]
  refine ⟨sampleEvents, read_sampleSvg, ?_, ?_⟩
  · rw [walk_sampleEvents]
  · rw [walk_sampleEvents]
    exact write_sampleWritten

end Sample

section Main

variable {β : Type*} (xml : XmlLib β)

/-- Whatever the document was, what is served is written from known elements with known
attributes, each once, whose values are as XML reads them and refer to nothing outside; every
end closes the element it names, text stands only where it is content, and there is a root. -/
theorem sanitized_is_clean {svg out : β} (h : sanitizeSvg xml svg = .ok out) :
    ∃ items, out = xml.write items ∧ (∀ item ∈ items, item.Clean) ∧ (nest [] items).isSome ∧
      items.any Written.isRoot = true := by
  obtain ⟨events, -, hroot, rfl⟩ := (sanitizeSvg_eq_ok_iff xml).mp h
  have hsound := sound_walk events
  refine ⟨(walk events).written, rfl, hsound.clean, by rw [hsound.nested]; rfl, ?_⟩
  rw [← hsound.root, hroot]

theorem sample_is_clean :
    ∃ items, sampleOut = sampleXml.write items ∧ (∀ item ∈ items, item.Clean) ∧
      (nest [] items).isSome ∧ items.any Written.isRoot = true :=
  sanitized_is_clean sampleXml sample_sanitized

/-- Sanitising is a fixed point, if the reader finds in a written document what was written,
and texts that follow each other are written as one. -/
theorem sanitized_twice_is_sanitized {svg out : β} {events : List Event}
    (hread : xml.read svg = .ok events)
    (hmerge : ∀ items items', merge items = merge items' → xml.write items = xml.write items')
    (hback : xml.read (xml.write (walk events).written) =
      .ok (reread (merge (walk events).written)))
    (h : sanitizeSvg xml svg = .ok out) : sanitizeSvg xml out = .ok out := by
  obtain ⟨events', hread', hroot, rfl⟩ := (sanitizeSvg_eq_ok_iff xml).mp h
  obtain rfl := Except.ok.inj (hread.symm.trans hread')
  obtain ⟨hsame, hsaw⟩ := walk_reread (sound_walk events)
  exact (sanitizeSvg_eq_ok_iff xml).mpr ⟨_, hback, hsaw.trans hroot, hmerge _ _ hsame⟩

theorem sample_twice : sanitizeSvg sampleXml sampleOut = .ok sampleOut := by
  refine sanitized_twice_is_sanitized sampleXml read_sampleSvg ?_ ?_ sample_sanitized
  · intro items items' h
    exact congrArg String.ofList (by rw [← flatMap_render_merge items, h, flatMap_render_merge])
  · have hback : reread (merge sampleWritten) = sampleBack := by decide +kernel
    rw [walk_sampleEvents]
    dsimp only
    rw [write_sampleWritten, hback]
    exact read_sampleOut

/-- A disallowed element leaves no trace: with all that is in it, however it is nested, the
document is sanitised to what it is without. -/
theorem disallowed_subtree_is_dropped {qname : Text} {inner : List Event}
    (hname : isAllowedElement (localName qname) = false) (hinner : depth 0 inner = some 0)
    (attributes : List Attribute) (qname' : Text) (before after : List Event) :
    (walk (before ++ .start qname attributes :: (inner ++ .close qname' :: after))).finish =
      (walk (before ++ after)).finish := by
  have hsplit : before ++ Event.start qname attributes :: (inner ++ .close qname' :: after) =
      before ++ (Event.start qname attributes :: (inner ++ [.close qname'])) ++ after := by simp
  unfold walk
  rw [hsplit, List.foldl_append, List.foldl_append, List.foldl_append,
    take_subtree _ attributes qname' hname hinner]

/-- A script with an element of its own in it, between two allowed ones. -/
theorem sample_subtree_is_dropped :
    (walk [.start "svg".toList [], .start "svg:script".toList [], .start "g".toList [],
        .text "alert(1)".toList, .close "g".toList, .close "script".toList,
        .close "svg".toList]).finish =
      (walk [.start "svg".toList [], .close "svg".toList]).finish :=
  disallowed_subtree_is_dropped
    (show isAllowedElement (localName "svg:script".toList) = false by decide)
    (show depth 0 [.start "g".toList [], .text "alert(1)".toList, .close "g".toList] = some 0 by
      decide)
    [] "script".toList [.start "svg".toList []] [.close "svg".toList]

end Main

end BatleHub.SvgSanitizer
