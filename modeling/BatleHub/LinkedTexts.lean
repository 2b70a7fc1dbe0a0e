import BatleHub.GuardedFetches
import BatleHub.Integrity
import BatleHub.Lib.CodeWords
import BatleHub.Lib.Cuts
import BatleHub.Lib.JsonBytes
import BatleHub.StorageKeys

/-!
Documents that a package only links to (`fetch_linked_text` of `registry/http_client.rs`). The
URL has to be on the registry's own origin or on a host that its protocol names, and so has
the one that answers. The body is read to a cap in bytes, and a character that the cap broke
is dropped, so that a long text is a shorter one and not none.
-/
namespace BatleHub.LinkedTexts

open Lib GuardedFetches
open FilesystemStorage (sequenceOf isContinuation)

abbrev Bytes := List UInt8

section Characters

/-- How many bytes follow `b` in its character, or the length of the sequence that is none;
`none` when the input ends within it. -/
def utf8Head (b : UInt8) (following : List UInt8) : Except (Option ℕ) ℕ :=
  if b < 128 then .ok 0
  else
    match sequenceOf b, following with
    | none, _ => .error (some 1)
    | some _, [] => .error none
    | some (low, high, more), second :: rest =>
      if low ≤ second ∧ second ≤ high then
        let tail := (rest.take more).takeWhile isContinuation
        if tail.length = more then .ok (more + 1)
        else if tail.length = (rest.take more).length then .error none
        else .error (some (tail.length + 2))
      else .error (some 1)

theorem sequenceOf_ofNat {n : ℕ} (hn : n < 256) :
    sequenceOf (UInt8.ofNat n) =
      if 194 ≤ n ∧ n ≤ 223 then some (128, 191, 0)
      else if n = 224 then some (160, 191, 1)
      else if n = 237 then some (128, 159, 1)
      else if 225 ≤ n ∧ n ≤ 239 then some (128, 191, 1)
      else if n = 240 then some (144, 191, 2)
      else if 241 ≤ n ∧ n ≤ 243 then some (128, 191, 2)
      else if n = 244 then some (128, 143, 2)
      else none := by
  have htoNat : (UInt8.ofNat n).toNat = n := UInt8.toNat_ofNat_of_lt' hn
  unfold sequenceOf
  simp only [UInt8.le_iff_toNat_le, ← UInt8.toNat_inj, htoNat]
  rfl

theorem ofNat_le_ofNat {n m : ℕ} (h : n ≤ m) (hm : m < 256) :
    UInt8.ofNat n ≤ UInt8.ofNat m := by
  rwa [UInt8.le_iff_toNat_le, UInt8.toNat_ofNat_of_lt' hm,
    UInt8.toNat_ofNat_of_lt' (Nat.lt_of_le_of_lt h hm)]

theorem isContinuation_ofNat {n : ℕ} (h : 128 ≤ n) (h' : n ≤ 191) :
    isContinuation (UInt8.ofNat n) = true :=
  decide_eq_true ⟨ofNat_le_ofNat h (by omega), ofNat_le_ofNat h' (by decide)⟩

theorem not_ofNat_lt {n : ℕ} (h : 128 ≤ n) (h' : n < 256) : ¬ UInt8.ofNat n < 128 := by
  rw [UInt8.lt_iff_toNat_lt, UInt8.toNat_ofNat_of_lt' h']
  exact Nat.not_lt.mpr h

/-- A character is one byte, or a byte that says what may follow it and just that. -/
theorem utf8EncodeChar_shape (c : Char) :
    (∃ b, String.utf8EncodeChar c = [b] ∧ b < 128) ∨
      ∃ b second rest low high, String.utf8EncodeChar c = b :: second :: rest ∧ ¬ b < 128 ∧
        sequenceOf b = some (low, high, rest.length) ∧ low ≤ second ∧ second ≤ high ∧
        ∀ x ∈ rest, isContinuation x = true := by
  have hvalid : c.val.toNat < 0xd800 ∨ 0xdfff < c.val.toNat ∧ c.val.toNat < 0x110000 := c.valid
  unfold String.utf8EncodeChar
  generalize c.val.toNat = v at hvalid
  dsimp only
  split_ifs with h₁ h₂ h₃
  · refine .inl ⟨_, rfl, ?_⟩
    rw [UInt8.lt_iff_toNat_lt, UInt8.toNat_ofNat_of_lt' (Nat.lt_of_le_of_lt h₁ (by decide))]
    exact Nat.lt_succ_of_le h₁
  · refine .inr ⟨_, _, _, UInt8.ofNat 128, UInt8.ofNat 191, rfl,
      not_ofNat_lt (by omega) (by omega), ?_, ofNat_le_ofNat (by omega) (by omega),
      ofNat_le_ofNat (by omega) (by omega), ?_⟩
    · rw [sequenceOf_ofNat (by omega), if_pos (by omega)]
      rfl
    · intro x hx
      cases hx
  · have hrest : ∀ x ∈ [UInt8.ofNat (v % 64 + 128)], isContinuation x = true := by
      intro x hx
      obtain rfl := List.mem_singleton.mp hx
      exact isContinuation_ofNat (by omega) (by omega)
    have hbig := not_ofNat_lt (n := v / 4096 % 16 + 224) (by omega) (by omega)
    -- The leads 224 and 237 narrow their second byte, to leave out short forms and surrogates.
    by_cases hshort : v / 4096 % 16 = 0
    · refine .inr ⟨_, _, _, UInt8.ofNat 160, UInt8.ofNat 191, rfl, hbig, ?_,
        ofNat_le_ofNat (by omega) (by omega), ofNat_le_ofNat (by omega) (by omega), hrest⟩
      rw [sequenceOf_ofNat (by omega), if_neg (by omega), if_pos (by omega)]
      rfl
    · by_cases hsurrogate : v / 4096 % 16 = 13
      · refine .inr ⟨_, _, _, UInt8.ofNat 128, UInt8.ofNat 159, rfl, hbig, ?_,
          ofNat_le_ofNat (by omega) (by omega), ofNat_le_ofNat (by omega) (by omega), hrest⟩
        rw [sequenceOf_ofNat (by omega), if_neg (by omega), if_neg (by omega),
          if_pos (by omega)]
        rfl
      · refine .inr ⟨_, _, _, UInt8.ofNat 128, UInt8.ofNat 191, rfl, hbig, ?_,
          ofNat_le_ofNat (by omega) (by omega), ofNat_le_ofNat (by omega) (by omega), hrest⟩
        rw [sequenceOf_ofNat (by omega), if_neg (by omega), if_neg (by omega),
          if_neg (by omega), if_pos (by omega)]
        rfl
  · have hrest : ∀ x ∈ [UInt8.ofNat (v / 64 % 64 + 128), UInt8.ofNat (v % 64 + 128)],
        isContinuation x = true := by
      intro x hx
      obtain rfl | hx := List.mem_cons.mp hx
      · exact isContinuation_ofNat (by omega) (by omega)
      · obtain rfl := List.mem_singleton.mp hx
        exact isContinuation_ofNat (by omega) (by omega)
    have hbig := not_ofNat_lt (n := v / 262144 % 8 + 240) (by omega) (by omega)
    -- The leads 240 and 244 leave out short forms and what lies past the last character.
    by_cases hshort : v / 262144 % 8 = 0
    · refine .inr ⟨_, _, _, UInt8.ofNat 144, UInt8.ofNat 191, rfl, hbig, ?_,
        ofNat_le_ofNat (by omega) (by omega), ofNat_le_ofNat (by omega) (by omega), hrest⟩
      rw [sequenceOf_ofNat (by omega), if_neg (by omega), if_neg (by omega), if_neg (by omega),
        if_neg (by omega), if_pos (by omega)]
      rfl
    · by_cases hpast : v / 262144 % 8 = 4
      · refine .inr ⟨_, _, _, UInt8.ofNat 128, UInt8.ofNat 143, rfl, hbig, ?_,
          ofNat_le_ofNat (by omega) (by omega), ofNat_le_ofNat (by omega) (by omega), hrest⟩
        rw [sequenceOf_ofNat (by omega), if_neg (by omega), if_neg (by omega),
          if_neg (by omega), if_neg (by omega), if_neg (by omega), if_neg (by omega),
          if_pos (by omega)]
        rfl
      · refine .inr ⟨_, _, _, UInt8.ofNat 128, UInt8.ofNat 191, rfl, hbig, ?_,
          ofNat_le_ofNat (by omega) (by omega), ofNat_le_ofNat (by omega) (by omega), hrest⟩
        rw [sequenceOf_ofNat (by omega), if_neg (by omega), if_neg (by omega),
          if_neg (by omega), if_neg (by omega), if_neg (by omega), if_pos (by omega)]
        rfl

theorem takeWhile_isContinuation {l : List UInt8} (h : ∀ x ∈ l, isContinuation x = true) :
    l.takeWhile isContinuation = l := List.takeWhile_eq_self_iff.mpr h

/-- The bytes of a character tell where it ends, and when the input ends within it. -/
theorem telling_utf8 : CodeWords.Telling String.utf8EncodeChar utf8Head where
  whole := by
    intro c
    obtain ⟨b, hbytes, hb⟩ | ⟨b, second, rest, low, high, hbytes, hb, hlead, hlow, hhigh, hrest⟩ :=
      utf8EncodeChar_shape c
    · refine ⟨b, [], hbytes, fun following => ?_⟩
      unfold utf8Head
      exact if_pos hb
    · refine ⟨b, second :: rest, hbytes, fun following => ?_⟩
      unfold utf8Head
      rw [if_neg hb, hlead, List.cons_append]
      dsimp only
      rw [if_pos ⟨hlow, hhigh⟩, List.take_left, takeWhile_isContinuation hrest, if_pos rfl]
      rfl
  unfinished := by
    intro c b tail hbytes k hk
    obtain ⟨b', hbytes', -⟩ |
        ⟨b', second, rest, low, high, hbytes', hb, hlead, hlow, hhigh, hrest⟩ :=
      utf8EncodeChar_shape c
    · rw [hbytes] at hbytes'
      cases hbytes'
      cases hk
    · rw [hbytes] at hbytes'
      cases hbytes'
      unfold utf8Head
      rw [if_neg hb, hlead]
      cases k with
      | zero => rfl
      | succ k =>
        have hshort : k < rest.length := Nat.lt_of_succ_lt_succ hk
        have hall : ∀ x ∈ rest.take k, isContinuation x = true := fun x hx =>
          hrest x (List.mem_of_mem_take hx)
        rw [List.take_succ_cons]
        dsimp only
        rw [if_pos ⟨hlow, hhigh⟩, List.take_of_length_le (by rw [List.length_take]; omega),
          takeWhile_isContinuation hall,
          if_neg (by rw [List.length_take]; omega), if_pos rfl]

end Characters

section Reading

/-- The chunks of a body, the first of which may not come. -/
abbrev Body := List (Except String Bytes)

/-- The body up to the cap, on top of what has been read. -/
def readBody (maxBytes : ℕ) (body : Bytes) : Body → Except CoreError Bytes
  | [] => .ok body
  | .error e :: _ => .error (.registry ("reading readme: " ++ e))
  | .ok chunk :: rest =>
    if maxBytes - body.length = 0 then .ok body
    else if maxBytes ≤ (body ++ chunk.take (maxBytes - body.length)).length then
      .ok (body ++ chunk.take (maxBytes - body.length))
    else readBody maxBytes (body ++ chunk.take (maxBytes - body.length)) rest

/-- The text of a body, without a character that the cap broke. Other bytes than UTF-8 are no
text. -/
def decodeBody (maxBytes : ℕ) (body : Bytes) : Option String :=
  JsonBytes.decodeUtf8 (if maxBytes ≤ body.length then CodeWords.trim utf8Head body else body)

def readText (maxBytes : ℕ) (body : Body) : Except CoreError (Option String) :=
  (readBody maxBytes [] body).map (decodeBody maxBytes)

/-- What is read is the first bytes of the chunks that came, however they are cut. -/
theorem readBody_eq_take {maxBytes : ℕ} {chunks : List Bytes} {body : Bytes}
    (h : body.length ≤ maxBytes) :
    readBody maxBytes body (chunks.map .ok) = .ok ((body ++ chunks.flatten).take maxBytes) := by
  induction chunks generalizing body with
  | nil =>
    rw [List.map_nil, readBody, List.flatten_nil, List.append_nil, List.take_of_length_le h]
  | cons chunk chunks ih =>
    rw [List.map_cons, readBody, List.flatten_cons, List.take_append, List.take_of_length_le h]
    split_ifs with hfull hcap
    · rw [hfull, List.take_zero, List.append_nil]
    · rw [List.length_append, List.length_take] at hcap
      have hlong : maxBytes - body.length ≤ chunk.length := by omega
      rw [List.take_append_of_le_length hlong]
    · rw [List.length_append, List.length_take] at hcap
      have hshort : chunk.length ≤ maxBytes - body.length := by omega
      have hroom : (body ++ chunk).length ≤ maxBytes := by
        rw [List.length_append]
        omega
      rw [List.take_of_length_le hshort, ih hroom, List.append_assoc, List.take_append,
        List.take_of_length_le h]

theorem utf8_ofList (chars : List Char) :
    Framing.utf8 (String.ofList chars) = chars.flatMap String.utf8EncodeChar := by
  rw [Framing.utf8_eq_flatMap, String.toList_ofList]

/-- Of a text, the characters that fit the cap are kept, whether it is cut or not. -/
theorem decodeBody_take (maxBytes : ℕ) (text : String) :
    decodeBody maxBytes ((Framing.utf8 text).take maxBytes) =
      some (String.ofList (CodeWords.fitting String.utf8EncodeChar maxBytes text.toList)) := by
  unfold decodeBody
  rw [← JsonBytes.decodeUtf8_utf8, utf8_ofList]
  congr 1
  split_ifs with hcut
  · rw [Framing.utf8_eq_flatMap, telling_utf8.trim_take]
  · have hall : (Framing.utf8 text).length ≤ maxBytes := by
      rw [List.length_take] at hcut
      omega
    rw [List.take_of_length_le hall]
    rw [Framing.utf8_eq_flatMap] at hall ⊢
    obtain ⟨hrun, -, hlongest⟩ :=
      CodeWords.fitting_longest String.utf8EncodeChar maxBytes text.toList
    rw [hrun.eq_of_length_le (hlongest _ (List.prefix_refl _) hall).length_le]

/-- A text comes back as its longest beginning of whole characters that fits the cap, whatever
chunks it comes in. -/
theorem linked_text_is_the_longest_beginning {text : String} {chunks : List Bytes}
    (h : chunks.flatten = Framing.utf8 text) (maxBytes : ℕ) :
    ∃ kept, readText maxBytes (chunks.map .ok) = .ok (some kept) ∧
      kept.toList <+: text.toList ∧ (Framing.utf8 kept).length ≤ maxBytes ∧
      ∀ p : String, p.toList <+: text.toList → (Framing.utf8 p).length ≤ maxBytes →
        p.toList <+: kept.toList := by
  obtain ⟨hrun, hfits, hlongest⟩ :=
    CodeWords.fitting_longest String.utf8EncodeChar maxBytes text.toList
  refine ⟨String.ofList (CodeWords.fitting String.utf8EncodeChar maxBytes text.toList),
    ?_, ?_, ?_, ?_⟩
  · rw [readText, readBody_eq_take (Nat.zero_le _), List.nil_append, h, ← decodeBody_take]
    rfl
  · rwa [String.toList_ofList]
  · rwa [utf8_ofList]
  · intro p hp hlen
    rw [String.toList_ofList]
    rw [Framing.utf8_eq_flatMap] at hlen
    exact hlongest p.toList hp hlen

/-- The cap breaks the second character, of three bytes. -/
theorem broken_character_is_dropped :
    ∃ kept, readText 3 ([[97, 226], [130, 172]].map .ok) = .ok (some kept) ∧
      kept.toList <+: "a€".toList ∧ (Framing.utf8 kept).length ≤ 3 ∧
      ∀ p : String, p.toList <+: "a€".toList → (Framing.utf8 p).length ≤ 3 →
        p.toList <+: kept.toList :=
  linked_text_is_the_longest_beginning (by decide +kernel) 3

/-- What was read came before the chunk that did not. -/
theorem readBody_eq_ok {maxBytes : ℕ} {chunks : Body} {read body : Bytes}
    (hread : read.length ≤ maxBytes) (h : readBody maxBytes read chunks = .ok body) :
    ∃ (arrived : List Bytes) (rest : Body), chunks = arrived.map .ok ++ rest ∧
      body = (read ++ arrived.flatten).take maxBytes := by
  induction chunks generalizing read with
  | nil =>
    cases h
    exact ⟨[], [], rfl, by rw [List.flatten_nil, List.append_nil, List.take_of_length_le hread]⟩
  | cons chunk chunks ih =>
    cases chunk with
    | error e => cases h
    | ok chunk =>
      rw [readBody] at h
      split_ifs at h with hfull hcap
      · cases h
        refine ⟨[], _, rfl, ?_⟩
        rw [List.flatten_nil, List.append_nil, List.take_of_length_le hread]
      · cases h
        refine ⟨[chunk], chunks, rfl, ?_⟩
        rw [List.flatten_singleton, List.take_append, List.take_of_length_le hread]
      · rw [List.length_append, List.length_take] at hcap
        have hshort : chunk.length ≤ maxBytes - read.length := by omega
        rw [List.take_of_length_le hshort] at h
        have hroom : (read ++ chunk).length ≤ maxBytes := by
          rw [List.length_append]
          omega
        obtain ⟨arrived, rest, hchunks, hbody⟩ := ih hroom h
        refine ⟨chunk :: arrived, rest, ?_, ?_⟩
        · rw [hchunks, List.map_cons, List.cons_append]
        · rw [hbody, List.flatten_cons, List.append_assoc]

theorem utf8_of_decode {bytes : Bytes} {text : String}
    (h : JsonBytes.decodeUtf8 bytes = some text) : Framing.utf8 text = bytes := by
  unfold JsonBytes.decodeUtf8 String.fromUTF8? at h
  split at h
  · cases h
    rfl
  · cases h

/-- A text is the beginning of what arrived of the body, within the cap. -/
theorem readText_eq_some {maxBytes : ℕ} {body : Body} {text : String}
    (h : readText maxBytes body = .ok (some text)) :
    (Framing.utf8 text).length ≤ maxBytes ∧
      ∃ (arrived : List Bytes) (rest : Body), body = arrived.map .ok ++ rest ∧
        Framing.utf8 text <+: arrived.flatten := by
  unfold readText at h
  cases hread : readBody maxBytes [] body with
  | error e =>
    rw [hread] at h
    cases h
  | ok bytes =>
    rw [hread] at h
    obtain ⟨arrived, rest, hbody, rfl⟩ := readBody_eq_ok (Nat.zero_le _) hread
    rw [List.nil_append] at h
    have hdecode : decodeBody maxBytes (arrived.flatten.take maxBytes) = some text :=
      Except.ok.inj h
    have hbytes := utf8_of_decode hdecode
    have hlead : Framing.utf8 text <+: arrived.flatten.take maxBytes := by
      rw [hbytes]
      split_ifs
      · exact CodeWords.trim_prefix _ _
      · exact List.prefix_refl _
    refine ⟨?_, arrived, rest, hbody, hlead.trans (List.take_prefix _ _)⟩
    exact hlead.length_le.trans (by rw [List.length_take]; exact Nat.min_le_left _ _)

end Reading

section Fetching
variable {U : Type} (urls : UrlLibrary U) (net : Network U Body)

/-- The host is the suffix or lies below it. -/
def hostUnder (host suffix : String) : Bool :=
  Integrity.toAsciiLowercase host == Integrity.toAsciiLowercase suffix ||
    Cuts.endsWith (Integrity.toAsciiLowercase host) ("." ++ Integrity.toAsciiLowercase suffix)

def linkedOrigin (parsed base : U) (extraHostSuffixes : List String) : Bool :=
  sameOrigin urls parsed base ||
    (urls.scheme parsed == "https" &&
      match urls.hostStr parsed with
      | some host => extraHostSuffixes.any (hostUnder host)
      | none => false)

def ensureLinkedOrigin (url baseUrl : String) (extraHostSuffixes : List String) :
    Except CoreError Unit :=
  match urls.parse url with
  | .error e => .error (.registry ("invalid upstream URL '" ++ url ++ "': " ++ e))
  | .ok parsed =>
    match urls.parse baseUrl with
    | .error e => .error (.registry ("invalid base URL '" ++ baseUrl ++ "': " ++ e))
    | .ok base =>
      if linkedOrigin urls parsed base extraHostSuffixes then .ok ()
      else
        .error (.registry ("refusing to fetch cross-origin upstream URL '" ++ url ++
          "' (expected origin of '" ++ baseUrl ++ "')"))

/-- The document behind an answer that is not redirected any more. -/
def readAnswer (statusText : ℕ → String) (resp : Response Body) (maxBytes : ℕ) :
    Except CoreError (Option String) :=
  if resp.status = 404 then .ok none
  else if 200 ≤ resp.status ∧ resp.status < 300 then readText maxBytes resp.body
  else .error (.registry ("readme returned " ++ statusText resp.status ++ " from upstream"))

/-- `fetch_linked_text`, and all that happens in it. -/
def fetchLinkedText (statusText : ℕ → String) (clients : Clients)
    (basicAuth : Option (String × String)) (url baseUrl : String)
    (extraHostSuffixes : List String) (maxBytes : ℕ) :
    Except CoreError (Option String) × List (Event U Body) :=
  match ensureLinkedOrigin urls url baseUrl extraHostSuffixes with
  | .error e => (.error e, [])
  | .ok () =>
    match urls.parse url with
    | .error e => (.error (.registry ("invalid readme URL '" ++ url ++ "': " ++ e)), [])
    | .ok parsed =>
      let run := fetchTrusting urls net clients basicAuth [baseUrl] parsed
      match run.1 with
      | .error e => (.error e, run.2)
      | .ok (answered, resp) =>
        match ensureLinkedOrigin urls (urls.asStr answered) baseUrl extraHostSuffixes with
        | .error e => (.error e, run.2)
        | .ok () => (readAnswer statusText resp maxBytes, run.2)

variable {urls net}

/-- The text is a URL of the base's origin, or an `https` one of a host under a suffix. -/
def Linked (urls : UrlLibrary U) (url baseUrl : String) (extraHostSuffixes : List String) : Prop :=
  ∃ parsed base, urls.parse url = .ok parsed ∧ urls.parse baseUrl = .ok base ∧
    (sameOrigin urls parsed base = true ∨
      urls.scheme parsed = "https" ∧ ∃ host suffix, urls.hostStr parsed = some host ∧
        suffix ∈ extraHostSuffixes ∧
        (Integrity.toAsciiLowercase host = Integrity.toAsciiLowercase suffix ∨
          ∃ sub, Integrity.toAsciiLowercase host =
            sub ++ "." ++ Integrity.toAsciiLowercase suffix))

theorem hostUnder_iff (host suffix : String) :
    hostUnder host suffix = true ↔
      Integrity.toAsciiLowercase host = Integrity.toAsciiLowercase suffix ∨
        ∃ sub, Integrity.toAsciiLowercase host =
          sub ++ "." ++ Integrity.toAsciiLowercase suffix := by
  unfold hostUnder
  rw [Bool.or_eq_true, beq_iff_eq, Cuts.endsWith_iff]
  simp only [String.append_assoc]

theorem ensureLinkedOrigin_eq_ok_iff {url baseUrl : String} {extraHostSuffixes : List String} :
    ensureLinkedOrigin urls url baseUrl extraHostSuffixes = .ok () ↔
      Linked urls url baseUrl extraHostSuffixes := by
  unfold ensureLinkedOrigin Linked
  cases hparsed : urls.parse url with
  | error e => simp
  | ok parsed =>
    cases hbase : urls.parse baseUrl with
    | error e => simp
    | ok base =>
      dsimp only
      have hlinked : linkedOrigin urls parsed base extraHostSuffixes = true ↔
          (sameOrigin urls parsed base = true ∨
            urls.scheme parsed = "https" ∧ ∃ host suffix, urls.hostStr parsed = some host ∧
              suffix ∈ extraHostSuffixes ∧
              (Integrity.toAsciiLowercase host = Integrity.toAsciiLowercase suffix ∨
                ∃ sub, Integrity.toAsciiLowercase host =
                  sub ++ "." ++ Integrity.toAsciiLowercase suffix)) := by
        unfold linkedOrigin
        rw [Bool.or_eq_true, Bool.and_eq_true, beq_iff_eq]
        cases hhost : urls.hostStr parsed with
        | none => simp
        | some host => simp [List.any_eq_true, hostUnder_iff]
      by_cases h : linkedOrigin urls parsed base extraHostSuffixes = true
      · rw [if_pos h]
        exact iff_of_true rfl ⟨parsed, base, rfl, rfl, hlinked.mp h⟩
      · rw [if_neg h]
        refine iff_of_false (fun hok => by cases hok) ?_
        intro ⟨parsed', base', hp, hb, hcases⟩
        cases hp
        cases hb
        exact h (hlinked.mpr hcases)

/-- The URL asked for and the one that answered are linked, every request on the way was
guarded, and the text is the beginning of what arrived, within the cap. -/
structure Sourced (urls : UrlLibrary U) (clients : Clients) (url baseUrl : String)
    (extraHostSuffixes : List String) (maxBytes : ℕ) (text : String)
    (events : List (Event U Body)) : Prop where
  asked : Linked urls url baseUrl extraHostSuffixes
  guarded : AllGuarded urls clients (basesOf urls [baseUrl]) [] events
  fits : (Framing.utf8 text).length ≤ maxBytes
  answered : ∃ r resp, (sentOf events).getLast? = some (r, .ok resp) ∧
    Linked urls (urls.asStr r.url) baseUrl extraHostSuffixes ∧
    (200 ≤ resp.status ∧ resp.status < 300) ∧
    ∃ (arrived : List Bytes) (rest : Body), resp.body = arrived.map .ok ++ rest ∧
      Framing.utf8 text <+: arrived.flatten

theorem readAnswer_eq_some {statusText : ℕ → String} {resp : Response Body} {maxBytes : ℕ}
    {text : String} (h : readAnswer statusText resp maxBytes = .ok (some text)) :
    (200 ≤ resp.status ∧ resp.status < 300) ∧
      readText maxBytes resp.body = .ok (some text) := by
  unfold readAnswer at h
  split_ifs at h with hmissing hsuccess
  · cases h
  · exact ⟨hsuccess, h⟩

/-- A linked text comes from the registry's origin, or from a host that its protocol names. -/
theorem linked_text_comes_from_the_origin (env : Environment) (opts : UpstreamHttpOptions)
    (statusText : ℕ → String) (basicAuth : Option (String × String)) {url baseUrl : String}
    {extraHostSuffixes : List String} {maxBytes : ℕ} {text : String}
    {events : List (Event U Body)}
    (h : fetchLinkedText urls net statusText (noRedirectClientPair env opts) basicAuth url baseUrl
      extraHostSuffixes maxBytes = (.ok (some text), events)) :
    Sourced urls (noRedirectClientPair env opts) url baseUrl extraHostSuffixes maxBytes text
        events ∧
      ((noRedirectClientPair env opts).plain.publicOnly = true ↔ Mounts env opts .registry) := by
  refine ⟨?_, mounts_iff env opts .registry⟩
  unfold fetchLinkedText at h
  cases hasked : ensureLinkedOrigin urls url baseUrl extraHostSuffixes with
  | error e =>
    rw [hasked] at h
    cases h
  | ok _ =>
    rw [hasked] at h
    dsimp only at h
    cases hparsed : urls.parse url with
    | error e =>
      rw [hparsed] at h
      cases h
    | ok parsed =>
      rw [hparsed] at h
      dsimp only at h
      have hall : AllGuarded urls (noRedirectClientPair env opts) (basesOf urls [baseUrl]) []
          (followHops urls net (noRedirectClientPair env opts) basicAuth (basesOf urls [baseUrl])
            (MAX_REDIRECTS + 1) [] parsed).2 :=
        allGuarded_followHops _ basicAuth _ _ [] parsed
      have hwalk : Follows urls (MAX_REDIRECTS + 1) parsed
          (sentOf (followHops urls net (noRedirectClientPair env opts) basicAuth
            (basesOf urls [baseUrl]) (MAX_REDIRECTS + 1) [] parsed).2)
          (followHops urls net (noRedirectClientPair env opts) basicAuth
            (basesOf urls [baseUrl]) (MAX_REDIRECTS + 1) [] parsed).1 :=
        follows_followHops _ basicAuth _ _ [] parsed
      unfold fetchTrusting at h
      cases hrun : followHops urls net (noRedirectClientPair env opts) basicAuth
          (basesOf urls [baseUrl]) (MAX_REDIRECTS + 1) [] parsed with
      | mk result sent =>
        rw [hrun] at h hall hwalk
        dsimp only at h hall hwalk
        cases result with
        | error e => cases h
        | ok pair =>
          obtain ⟨answered, resp⟩ := pair
          dsimp only at h
          cases hlinked : ensureLinkedOrigin urls (urls.asStr answered) baseUrl
              extraHostSuffixes with
          | error e =>
            rw [hlinked] at h
            cases h
          | ok _ =>
            rw [hlinked] at h
            obtain ⟨hread, rfl⟩ := Prod.mk.inj h
            obtain ⟨hsuccess, htext⟩ := readAnswer_eq_some hread
            obtain ⟨hfits, harrived⟩ := readText_eq_some htext
            obtain ⟨-, r, hlast, rfl⟩ := hwalk.answered answered resp rfl
            exact ⟨ensureLinkedOrigin_eq_ok_iff.mp hasked, hall, hfits, r, resp, hlast,
              ensureLinkedOrigin_eq_ok_iff.mp hlinked, hsuccess, harrived⟩

end Fetching

section Sample

def sampleSite : UrlLibrary String := { sampleUrls with scheme := fun _ => "https" }

/-- The marketplace redirects to the host of its assets. -/
def sampleAssets : Network String Body where
  lookupHost := fun _ _ _ => .ok [.v4 93 184 216 34]
  send := fun _ r =>
    if r.url = "market.example" then .ok ⟨302, some "eu.assets.example", []⟩
    else .ok ⟨200, none, [.ok [104], .ok [105, 33]]⟩

/-- The pair of a registry with a token. -/
def samplePair : Clients := noRedirectClientPair sampleEnvironment sampleOptions

/-- Two bytes of three, from a host below the suffix. -/
theorem readme_from_the_assets :
    Sourced sampleSite samplePair "market.example" "market.example" ["Assets.example"] 2 "hi"
      [.requested ⟨samplePair.credentialed, "market.example", none, "*/*"⟩
          (.ok ⟨302, some "eu.assets.example", []⟩),
        .lookedUp "eu.assets.example" 80 (.ok [.v4 93 184 216 34]),
        .requested ⟨samplePair.plain, "eu.assets.example", none, "*/*"⟩
          (.ok ⟨200, none, [.ok [104], .ok [105, 33]]⟩)] ∧
      samplePair.plain.publicOnly = true := by
  have hrun : fetchLinkedText sampleSite sampleAssets (fun _ => "")
      (noRedirectClientPair sampleEnvironment sampleOptions) none "market.example"
      "market.example" ["Assets.example"] 2 = (.ok (some "hi"),
      [.requested ⟨samplePair.credentialed, "market.example", none, "*/*"⟩
          (.ok ⟨302, some "eu.assets.example", []⟩),
        .lookedUp "eu.assets.example" 80 (.ok [.v4 93 184 216 34]),
        .requested ⟨samplePair.plain, "eu.assets.example", none, "*/*"⟩
          (.ok ⟨200, none, [.ok [104], .ok [105, 33]]⟩)]) := by
    rfl
  obtain ⟨hsourced, -⟩ := linked_text_comes_from_the_origin sampleEnvironment sampleOptions
    (fun _ => "") none hrun
  exact ⟨hsourced, rfl⟩

end Sample

end BatleHub.LinkedTexts
