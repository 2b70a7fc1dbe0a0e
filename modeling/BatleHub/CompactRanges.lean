import BatleHub.Lib.Base64
import BatleHub.Lib.Hex
import BatleHub.Lib.HeaderValues

/-!
Conditional and partial answers for the documents of the compact index. A client keeps its
copy of a document with the tag that came with it, and asks for what lies behind the copy.
The tag is the hash of the whole document, so that the server can tell whether the copy is
a beginning of the document as it stands now, and sends the tail only where it is.
-/
namespace BatleHub.CompactRanges

open Lib Lib.HeaderValues

abbrev Text := List Char
abbrev Bytes := List UInt8

section Resolving

/-- What a range means for a document of a given length; a part ends with the byte `stop`. -/
inductive Resolved where
  | full
  | part (start stop : ℕ)
  | unsatisfiable
  deriving DecidableEq, Repr

/-- `str::parse::<usize>`. -/
def parseUsize (text : Text) : Option ℕ := parseUnsigned (2 ^ 64) text

/-- `-S`, the last `S` bytes. -/
def resolveSuffix (last : Text) (len : ℕ) : Resolved :=
  match parseUsize last with
  | none => .full
  | some suffix =>
    if suffix = 0 ∨ len = 0 then .unsatisfiable else .part (len - suffix) (len - 1)

/-- The last byte that is asked for. One past the end is clamped, not rejected. -/
def lastByte (last : Text) (len : ℕ) : Option ℕ :=
  if last = [] then some (len - 1) else (parseUsize last).map fun stop => min stop (len - 1)

def resolveFrom (first last : Text) (len : ℕ) : Resolved :=
  match parseUsize first with
  | none => .full
  | some start =>
    if len ≤ start then .unsatisfiable
    else
      match lastByte last len with
      | none => .full
      | some stop => if stop < start then .unsatisfiable else .part start stop

/-- One range of bytes; everything else is answered in full. -/
def resolve (range : Text) (len : ℕ) : Resolved :=
  match (trim range).dropPrefix? "bytes=".toList with
  | none => .full
  | some spec =>
    if ',' ∈ trim spec then .full
    else
      match Texts.splitAtFirst '-' (trim spec) with
      | none => .full
      | some (first, last) =>
        if trim first = [] then resolveSuffix (trim last) len
        else resolveFrom (trim first) (trim last) len

theorem resolveSuffix_part {last : Text} {len start stop : ℕ}
    (h : resolveSuffix last len = .part start stop) : start ≤ stop ∧ stop + 1 = len := by
  unfold resolveSuffix at h
  split at h
  · cases h
  · split at h
    · cases h
    · injection h with hstart hstop
      omega

theorem lastByte_lt {last : Text} {len stop : ℕ} (hlen : 0 < len)
    (h : lastByte last len = some stop) : stop < len := by
  unfold lastByte at h
  split at h
  · injection h
    omega
  · rw [Option.map_eq_some_iff] at h
    obtain ⟨found, -, hmin⟩ := h
    omega

theorem resolveFrom_part {first last : Text} {len start stop : ℕ}
    (h : resolveFrom first last len = .part start stop) : start ≤ stop ∧ stop < len := by
  unfold resolveFrom at h
  split at h
  · cases h
  · split at h
    · cases h
    · rename_i hstart
      split at h
      · cases h
      · rename_i found hlast
        have hlt := lastByte_lt (by omega) hlast
        split at h
        · cases h
        · injection h with hfirst hstop
          omega

/-- A part is never empty and lies within the document. -/
theorem resolve_part {range : Text} {len start stop : ℕ}
    (h : resolve range len = .part start stop) : start ≤ stop ∧ stop < len := by
  unfold resolve at h
  split at h
  · cases h
  · split at h
    · cases h
    · split at h
      · cases h
      · split at h
        · have hsuffix := resolveSuffix_part h
          omega
        · exact resolveFrom_part h

/-- The range of a client that asks for all from a byte on. -/
def rangeFrom (start : ℕ) : Text := "bytes=".toList ++ (Decimals.decimal start ++ ['-'])

theorem resolve_rangeFrom (start len : ℕ) :
    resolve (rangeFrom start) len =
      if start < 2 ^ 64 then
        if len ≤ start then .unsatisfiable else .part start (len - 1)
      else .full := by
  have hdigit : ∀ c ∈ Decimals.decimal start, Texts.isWhiteSpace c = false := fun c hc =>
    isWhiteSpace_of_isDigit (Decimals.isDigit_of_mem_decimal hc)
  have hspec : ∀ c ∈ Decimals.decimal start ++ ['-'], Texts.isWhiteSpace c = false := by
    intro c hc
    rcases List.mem_append.mp hc with hc | hc
    · exact hdigit c hc
    · rw [List.mem_singleton.mp hc]
      decide
  have hunit : ("bytes=".toList.all fun c => !Texts.isWhiteSpace c) = true := by decide
  have hall : ∀ c ∈ rangeFrom start, Texts.isWhiteSpace c = false := by
    intro c hc
    rcases List.mem_append.mp hc with hc | hc
    · simpa using List.all_eq_true.mp hunit c hc
    · exact hspec c hc
  have hlead : (rangeFrom start).dropPrefix? "bytes=".toList =
      some (Decimals.decimal start ++ ['-']) :=
    List.dropPrefix?_append_of_beq _ (by decide)
  have hcomma : ',' ∉ Decimals.decimal start ++ ['-'] := by
    intro hc
    rcases List.mem_append.mp hc with hc | hc
    · exact absurd (Decimals.isDigit_of_mem_decimal hc) (by decide)
    · exact absurd (List.mem_singleton.mp hc) (by decide)
  have hsplit : Texts.splitAtFirst '-' (Decimals.decimal start ++ ['-']) =
      some (Decimals.decimal start, []) := by
    refine (Texts.splitAtFirst_eq_some_iff _ _ _ _).mpr ⟨rfl, fun hc => ?_⟩
    exact absurd (Decimals.isDigit_of_mem_decimal hc) (by decide)
  unfold resolve
  rw [trim_eq_self hall, hlead]
  dsimp only
  rw [trim_eq_self hspec, if_neg hcomma, hsplit]
  dsimp only
  rw [trim_eq_self hdigit, if_neg (Decimals.decimal_ne_nil start)]
  unfold resolveFrom parseUsize
  rw [parseUnsigned_decimal]
  by_cases hfits : start < 2 ^ 64
  · rw [if_pos hfits, if_pos hfits]
    dsimp only
    by_cases hpast : len ≤ start
    · rw [if_pos hpast, if_pos hpast]
    · have hlast : lastByte (trim []) len = some (len - 1) := rfl
      rw [if_neg hpast, if_neg hpast, hlast]
      dsimp only
      rw [if_neg (by omega)]
  · rw [if_neg hfits, if_neg hfits]

end Resolving

section Answers

/-- The two headers that are read, where they are visible text. -/
structure Request where
  noneMatch : Option Text
  range : Option Text

structure Response where
  status : ℕ
  contentType : Option String := none
  contentRange : Option Text := none
  etag : Text
  acceptRanges : String := "bytes"
  reprDigest : Option Text := none
  body : Bytes := []
  deriving DecidableEq

/-- Base64 with the standard alphabet and padding. -/
def standardBase64 (bytes : Bytes) : Text :=
  ((Base64.encode bytes).map fun c => if c = '-' then '+' else if c = '_' then '/' else c) ++
    List.replicate ((3 - bytes.length % 3) % 3) '='

def trimWeak : Text → Text
  | 'W' :: '/' :: rest => trimWeak rest
  | text => text

/-- An entity tag without its quotes and its mark of weakness. -/
def tagValue (raw : Text) : Text := trimWhere (fun c => decide (c = '"')) (trimWeak (trim raw))

def noneMatchHits (headerValue etagHex : Text) : Bool :=
  (headerValue.splitOn ',').any fun candidate =>
    decide (trim candidate = ['*']) || decide (tagValue (trim candidate) = etagHex)

def compactContentType : String := "text/plain; charset=utf-8"

def contentRange (start stop len : ℕ) : Text :=
  "bytes ".toList ++ Decimals.decimal start ++ '-' :: Decimals.decimal stop ++
    '/' :: Decimals.decimal len

variable (sha256 : Bytes → Bytes)

def etagHex (bytes : Bytes) : Text := Hex.encode (sha256 bytes)

def reprDigest (bytes : Bytes) : Text :=
  "sha-256=:".toList ++ standardBase64 (sha256 bytes) ++ [':']

/-- A tag of a beginning that reaches `start`, or one byte further for a client that asks
from the last byte of its copy on. -/
def holdsOurPrefix (bytes : Bytes) (start : ℕ) (clientTag : Text) : Bool :=
  ([start, start + 1].filter fun n => decide (n ≤ bytes.length)).any fun n =>
    decide (etagHex sha256 (bytes.take n) = clientTag)

def full (bytes : Bytes) (etag : Text) : Response where
  status := 200
  contentType := some compactContentType
  etag := etag
  reprDigest := some (reprDigest sha256 bytes)
  body := bytes

def partialContent (bytes : Bytes) (start stop : ℕ) (etag : Text) : Response where
  status := 206
  contentType := some compactContentType
  contentRange := some (contentRange start stop bytes.length)
  etag := etag
  reprDigest := some (reprDigest sha256 bytes)
  body := (bytes.take (stop + 1)).drop start

def resolved (req : Request) (len : ℕ) : Resolved :=
  req.range.elim .full fun raw => resolve raw len

def compactResponse (req : Request) (bytes : Bytes) : Response :=
  let hex := etagHex sha256 bytes
  let etag := quoted hex
  if req.noneMatch.any fun value => noneMatchHits value hex then { status := 304, etag := etag }
  else
    match resolved req bytes.length with
    | .unsatisfiable =>
      { status := 416, etag := etag,
        contentRange := some ("bytes */".toList ++ Decimals.decimal bytes.length) }
    | .part start stop =>
      -- the tail of a document only behind a copy of what comes before it
      if stop + 1 = bytes.length ∧ 0 < start ∧
          req.noneMatch.any fun value => !holdsOurPrefix sha256 bytes start (tagValue value) then
        full sha256 bytes etag
      else partialContent sha256 bytes start stop etag
    | .full => full sha256 bytes etag

end Answers

section Tags

variable {sha256 : Bytes → Bytes}

theorem hex_ordinary (bytes : Bytes) :
    ∀ c ∈ Hex.encode bytes, Texts.isWhiteSpace c = false ∧ c ≠ '"' ∧ c ≠ ',' :=
  Hex.forall_mem_encode (by decide) bytes

theorem mem_quoted {bytes : Bytes} {c : Char} (h : c ∈ quoted (Hex.encode bytes)) :
    Texts.isWhiteSpace c = false ∧ c ≠ ',' := by
  rcases List.mem_cons.mp h with rfl | h
  · decide
  · rcases List.mem_append.mp h with h | h
    · exact ⟨(hex_ordinary bytes c h).1, (hex_ordinary bytes c h).2.2⟩
    · rw [List.mem_singleton.mp h]
      decide

theorem trim_quoted (bytes : Bytes) :
    trim (quoted (Hex.encode bytes)) = quoted (Hex.encode bytes) :=
  trim_eq_self fun _ hc => (mem_quoted hc).1

/-- What is served as a tag is read as that tag. -/
theorem tagValue_quoted (bytes : Bytes) :
    tagValue (quoted (Hex.encode bytes)) = Hex.encode bytes := by
  rw [tagValue, trim_quoted]
  exact trimWhere_quoted fun hmem => (hex_ordinary bytes _ hmem).2.1 rfl

theorem etagHex_inj {a b : Bytes} (h : etagHex sha256 a = etagHex sha256 b) :
    sha256 a = sha256 b := by
  have hdecode := congrArg Hex.decode h
  rw [etagHex, etagHex, Hex.decode_encode, Hex.decode_encode] at hdecode
  exact Option.some.inj hdecode

/-- A tag that is sent back names the document that it was served with. -/
theorem noneMatchHits_quoted (held document : Bytes) :
    noneMatchHits (quoted (etagHex sha256 held)) (etagHex sha256 document) =
      decide (etagHex sha256 held = etagHex sha256 document) := by
  have hcomma : ',' ∉ quoted (etagHex sha256 held) := fun hmem => (mem_quoted hmem).2 rfl
  have hstar : quoted (etagHex sha256 held) ≠ ['*'] := by
    intro heq
    injection heq with hc
    exact absurd hc (by decide)
  rw [noneMatchHits, List.splitOn_eq_singleton hcomma, List.any_cons, List.any_nil]
  unfold etagHex at hstar ⊢
  rw [trim_quoted, tagValue_quoted, decide_eq_false hstar, Bool.false_or, Bool.or_false]

theorem holdsOurPrefix_iff {bytes : Bytes} {start : ℕ} (hstart : start < bytes.length)
    (tag : Text) :
    holdsOurPrefix sha256 bytes start tag = true ↔
      etagHex sha256 (bytes.take start) = tag ∨ etagHex sha256 (bytes.take (start + 1)) = tag := by
  have hboth : ([start, start + 1].filter fun n => decide (n ≤ bytes.length)) =
      [start, start + 1] := by
    rw [List.filter_eq_self]
    intro n hn
    simp only [List.mem_cons, List.not_mem_nil, or_false] at hn
    exact decide_eq_true (by omega)
  rw [holdsOurPrefix, hboth]
  simp

end Tags

section Copies

variable (sha256 : Bytes → Bytes)

/-- What a client keeps of a document: its bytes and the tag they came with. -/
structure Copy where
  bytes : Bytes
  tag : Text
  deriving DecidableEq

def wholeCopy (document : Bytes) : Copy := ⟨document, etagHex sha256 document⟩

/-- Where a client starts that asks for what it lacks, or with `overlap` from the last byte
of its copy on, so that the answer is never empty. -/
def Copy.start (copy : Copy) (overlap : Bool) : ℕ :=
  if overlap then copy.bytes.length - 1 else copy.bytes.length

def Copy.request (copy : Copy) (overlap : Bool) : Request :=
  ⟨some (quoted copy.tag), some (rangeFrom (copy.start overlap))⟩

/-- The copy after an answer; without a part to append, the document is asked for in full. -/
def Copy.update (copy : Copy) (overlap : Bool) (document : Bytes) : Copy :=
  let answer := compactResponse sha256 (copy.request overlap) document
  if answer.status = 304 then copy
  else if answer.status = 200 then ⟨answer.body, tagValue answer.etag⟩
  else if answer.status = 206 then
    ⟨copy.bytes.take (copy.start overlap) ++ answer.body, tagValue answer.etag⟩
  else
    let again := compactResponse sha256 ⟨none, none⟩ document
    ⟨again.body, tagValue again.etag⟩

/-- No two different texts among the beginnings of the documents have one hash. -/
def NoCollision (documents : List Bytes) : Prop :=
  ∀ held ∈ documents, ∀ document ∈ documents, ∀ n,
    sha256 held = sha256 (document.take n) → held = document.take n

end Copies

section Sample

/-- SHA-256 on the three texts of the samples. -/
def sampleHash (bytes : Bytes) : Bytes :=
  if bytes = [] then
    [227, 176, 196, 66, 152, 252, 28, 20, 154, 251, 244, 200, 153, 111, 185, 36, 39, 174, 65,
      228, 100, 155, 147, 76, 164, 149, 153, 27, 120, 82, 184, 85]
  else if bytes = [97] then
    [202, 151, 129, 18, 202, 27, 189, 202, 250, 194, 49, 179, 154, 35, 220, 77, 167, 134, 239,
      248, 20, 124, 78, 114, 185, 128, 119, 133, 175, 238, 72, 187]
  else
    [251, 142, 32, 252, 46, 76, 63, 36, 140, 96, 195, 155, 214, 82, 243, 193, 52, 114, 152,
      187, 151, 123, 139, 77, 89, 3, 184, 80, 85, 98, 6, 3]

theorem noCollision_sample : NoCollision sampleHash [[97], [97, 98]] := by
  have hinj : ∀ a ∈ [[], [97], [97, 98]], ∀ b ∈ [[], [97], [97, 98]],
      sampleHash a = sampleHash b → a = b := by decide
  have htake : ∀ document ∈ [[97], [97, 98]], ∀ n, document.take n ∈
      ([[], [97], [97, 98]] : List Bytes) := by
    intro document hmem n
    simp only [List.mem_cons, List.not_mem_nil, or_false] at hmem
    rcases hmem with rfl | rfl <;> rcases n with _ | _ | n <;> simp
  intro held hheld document hdocument n heq
  have hself := htake held hheld held.length
  rw [List.take_length] at hself
  exact hinj held hself _ (htake document hdocument n) heq

end Sample

section Main

variable {sha256 : Bytes → Bytes}

/-- A tail that the server sends completes the copy. -/
theorem spliced {held document : Bytes} {start : ℕ} (hstart : start < document.length)
    (hcollide : NoCollision sha256 [held, document])
    (hholds : 0 < start → holdsOurPrefix sha256 document start (etagHex sha256 held) = true) :
    held.take start ++ document.drop start = document := by
  have hsame : held.take start = document.take start := by
    by_cases hpos : 0 < start
    · have hcut : ∀ n, etagHex sha256 (document.take n) = etagHex sha256 held →
          held = document.take n := fun n heq =>
        hcollide held (by simp) document (by simp) n (etagHex_inj heq).symm
      rcases (holdsOurPrefix_iff hstart _).mp (hholds hpos) with heq | heq
      · rw [hcut start heq, List.take_take, Nat.min_self]
      · rw [hcut (start + 1) heq, List.take_take, Nat.min_eq_left (Nat.le_succ start)]
    · have hzero : start = 0 := by omega
      rw [hzero, List.take_zero, List.take_zero]
  rw [hsame, List.take_append_drop]

theorem eq_of_etagHex {held document : Bytes} (hcollide : NoCollision sha256 [held, document])
    (h : etagHex sha256 held = etagHex sha256 document) : held = document := by
  have heq := hcollide held (by simp) document (by simp) document.length
    (by rw [List.take_length]; exact etagHex_inj h)
  rwa [List.take_length] at heq

/-- The answers to a client that sends the tag of what it holds. -/
theorem compactResponse_held (held document : Bytes) (range : Text) :
    compactResponse sha256 ⟨some (quoted (etagHex sha256 held)), some range⟩ document =
      if etagHex sha256 held = etagHex sha256 document then
        { status := 304, etag := quoted (etagHex sha256 document) }
      else
        match resolve range document.length with
        | .unsatisfiable =>
          { status := 416, etag := quoted (etagHex sha256 document),
            contentRange := some ("bytes */".toList ++ Decimals.decimal document.length) }
        | .part start stop =>
          if stop + 1 = document.length ∧ 0 < start ∧
              holdsOurPrefix sha256 document start (etagHex sha256 held) = false then
            full sha256 document (quoted (etagHex sha256 document))
          else partialContent sha256 document start stop (quoted (etagHex sha256 document))
        | .full => full sha256 document (quoted (etagHex sha256 document)) := by
  have htag : tagValue (quoted (etagHex sha256 held)) = etagHex sha256 held := tagValue_quoted _
  unfold compactResponse resolved
  simp only [Option.any_some, Option.elim_some, noneMatchHits_quoted, htag, decide_eq_true_eq,
    Bool.not_eq_true']

theorem update_wholeCopy {held document : Bytes} (overlap : Bool)
    (hcollide : NoCollision sha256 [held, document]) :
    (wholeCopy sha256 held).update sha256 overlap document = wholeCopy sha256 document := by
  have htag : tagValue (quoted (etagHex sha256 document)) = etagHex sha256 document :=
    tagValue_quoted _
  have hanswer : compactResponse sha256 ((wholeCopy sha256 held).request overlap) document =
      compactResponse sha256 ⟨some (quoted (etagHex sha256 held)),
        some (rangeFrom ((wholeCopy sha256 held).start overlap))⟩ document := rfl
  unfold Copy.update
  rw [hanswer, compactResponse_held, resolve_rangeFrom]
  generalize (wholeCopy sha256 held).start overlap = start
  by_cases hcurrent : etagHex sha256 held = etagHex sha256 document
  · rw [if_pos hcurrent]
    dsimp only
    rw [if_pos rfl, eq_of_etagHex hcollide hcurrent]
  · rw [if_neg hcurrent]
    by_cases hfits : start < 2 ^ 64
    · rw [if_pos hfits]
      by_cases hpast : document.length ≤ start
      · -- nothing to send: the document is asked for again, in full
        rw [if_pos hpast]
        simp [compactResponse, resolved, full, htag, wholeCopy]
      · rw [if_neg hpast]
        dsimp only
        split
        · simp [full, htag, wholeCopy]
        · rename_i hguard
          have hholds : 0 < start →
              holdsOurPrefix sha256 document start (etagHex sha256 held) = true := by
            intro hpos
            by_contra hnot
            exact hguard ⟨by omega, hpos, by simpa using hnot⟩
          have hlast : document.length - 1 + 1 = document.length := by omega
          have hspliced := spliced (by omega) hcollide hholds
          simp only [partialContent, htag, wholeCopy, hlast, List.take_length]
          simp [hspliced]
    · rw [if_neg hfits]
      simp [full, htag, wholeCopy]

theorem NoCollision.mono {fewer documents : List Bytes} (h : NoCollision sha256 documents)
    (hsub : ∀ document ∈ fewer, document ∈ documents) : NoCollision sha256 fewer :=
  fun held hheld document hdocument => h held (hsub held hheld) document (hsub document hdocument)

/-- However the document changes between the updates, also where its middle changes or it gets
shorter, each update leaves the client with the document as it is at that time. -/
theorem updates_follow_the_document (first : Bytes) (updates : List (Bool × Bytes))
    (hcollide : NoCollision sha256 (first :: updates.map Prod.snd)) :
    updates.foldl (fun copy update => copy.update sha256 update.1 update.2)
        (wholeCopy sha256 first) =
      wholeCopy sha256 ((updates.map Prod.snd).getLastD first) := by
  induction updates generalizing first with
  | nil => rfl
  | cons update updates ih =>
    have hpair : NoCollision sha256 [first, update.2] := hcollide.mono (by simp)
    have hrest : NoCollision sha256 (update.2 :: updates.map Prod.snd) :=
      hcollide.mono fun document hmem => List.mem_cons_of_mem first hmem
    rw [List.foldl_cons, update_wholeCopy update.1 hpair, ih update.2 hrest, List.map_cons,
      List.getLastD_cons]

/-- The copy gets its tail, then the document starts anew. -/
theorem updated_twice :
    [(false, [97, 98]), (true, [97])].foldl
        (fun copy update => copy.update sampleHash update.1 update.2) (wholeCopy sampleHash [97]) =
      wholeCopy sampleHash [97] :=
  updates_follow_the_document [97] [(false, [97, 98]), (true, [97])]
    (noCollision_sample.mono (by simp))

/-- What a client is sent as a part of a document, whatever range it asks for, is that part and
is never empty; a tail is sent only to a client whose copy it completes. -/
theorem parts_fit_the_copy {held document : Bytes} {range : Text} {answer : Response}
    (hcollide : NoCollision sha256 [held, document])
    (hanswer : compactResponse sha256 ⟨some (quoted (etagHex sha256 held)), some range⟩ document =
      answer) (hpart : answer.status = 206) :
    ∃ start stop, start ≤ stop ∧ stop < document.length ∧
      answer.body = (document.take (stop + 1)).drop start ∧
      answer.contentRange = some (contentRange start stop document.length) ∧
      answer.reprDigest = some (reprDigest sha256 document) ∧
      (stop + 1 = document.length → held.take start ++ answer.body = document) := by
  rw [compactResponse_held] at hanswer
  subst hanswer
  split at hpart
  · cases hpart
  · rename_i hnew
    rw [if_neg hnew]
    split at hpart
    · cases hpart
    · rename_i start stop hresolve
      obtain ⟨hle, hlt⟩ := resolve_part hresolve
      split at hpart
      · cases hpart
      · rename_i hguard
        rw [if_neg hguard]
        refine ⟨start, stop, hle, hlt, rfl, rfl, rfl, fun hend => ?_⟩
        have hholds : 0 < start →
            holdsOurPrefix sha256 document start (etagHex sha256 held) = true := by
          intro hpos
          by_contra hnot
          exact hguard ⟨hend, hpos, by simpa using hnot⟩
        have hspliced := spliced (by omega) hcollide hholds
        rwa [partialContent, hend, List.take_length]
    · cases hpart

/-- A client that holds the first byte asks for what it lacks. -/
theorem second_byte_is_sent :
    ∃ start stop, start ≤ stop ∧ stop < 2 ∧
      ([98] : Bytes) = (([97, 98] : Bytes).take (stop + 1)).drop start ∧
      some (contentRange 1 1 2) = some (contentRange start stop 2) ∧
      some (reprDigest sampleHash [97, 98]) = some (reprDigest sampleHash [97, 98]) ∧
      (stop + 1 = 2 → ([97] : Bytes).take start ++ [98] = [97, 98]) := by
  have hanswer : compactResponse sampleHash
      ⟨some (quoted (etagHex sampleHash [97])), some "bytes=1-".toList⟩ [97, 98] =
      partialContent sampleHash [97, 98] 1 1 (quoted (etagHex sampleHash [97, 98])) := by
    decide
  exact parts_fit_the_copy noCollision_sample hanswer rfl

end Main

end BatleHub.CompactRanges
