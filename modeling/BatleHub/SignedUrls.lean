import BatleHub.Lib.Base64
import BatleHub.Lib.Framing
import BatleHub.Lib.JsonText
import BatleHub.Lib.Netstrings
import BatleHub.LocalPackages

/-!
Signed, expiring download URLs of one coordinate (`services/signed_url.rs`). The MAC
covers the coordinate of the request and the identity and expiry of the payload, each
field after its byte length. HMAC-SHA256 and the JSON reader belong to libraries and are
parameters; the JSON writer's output for the payload and the base64 text are written out.
-/
namespace BatleHub.SignedUrls

open Lib LocalPackages

abbrev Bytes := List UInt8

def TOKEN_VERSION : UInt8 := 1

def DOMAIN : String := "bh-signed-url:v1"

def CLOCK_SKEW_SECS : Int64 := 60

def MAX_TTL_SECONDS : ℕ := 3600

/-- The five path components a signature is bound to. -/
structure Coordinate where
  method : String
  registry : String
  package : String
  version : String
  artifact : String
  deriving DecidableEq, Repr

structure Payload where
  v : UInt8
  reg : String
  pkg : String
  ver : String
  art : String
  sub : Option String
  role : String
  grp : List String
  exp : Int64
  deriving DecidableEq

section Time

/-- The first and the last second of the years a `DateTime<Utc>` holds. -/
def minTimestamp : ℤ := -8334601228800

def maxTimestamp : ℤ := 8210266876799

/-- A `DateTime<Utc>`: nanoseconds since the epoch, within those years. -/
structure UtcTime where
  nanos : DateTime
  after : minTimestamp ≤ nanos / 10 ^ 9
  before : nanos / 10 ^ 9 ≤ maxTimestamp
  deriving DecidableEq

/-- Whole seconds since the epoch, rounded down. -/
def UtcTime.timestamp (t : UtcTime) : Int64 := Int64.ofInt (t.nanos / 10 ^ 9)

/-- `DateTime::from_timestamp(secs, 0)`. -/
def fromTimestamp (secs : Int64) : Option UtcTime :=
  if h : minTimestamp ≤ secs.toInt ∧ secs.toInt ≤ maxTimestamp then
    some ⟨secs.toInt * 10 ^ 9, by rw [Int.mul_ediv_cancel _ (by decide)]; exact h.1,
      by rw [Int.mul_ediv_cancel _ (by decide)]; exact h.2⟩
  else none

theorem UtcTime.toInt_timestamp (t : UtcTime) : t.timestamp.toInt = t.nanos / 10 ^ 9 := by
  have hafter := t.after
  have hbefore := t.before
  simp only [minTimestamp, maxTimestamp] at hafter hbefore
  exact Int64.toInt_ofInt_of_le (by omega) (by omega)

end Time

inductive SignedUrlError where
  | malformed (message : String)
  | unsupportedVersion (version : UInt8)
  | coordinateMismatch (mintedFor presentedAt : String)
  | expired (expiredAt now : UtcTime)
  | badSignature
  deriving DecidableEq

/-- The library functions behind the service. -/
structure Env where
  hmac : Bytes → Bytes → Bytes
  fromJson : Bytes → Option Payload

/-- The fields are private and `new` is the one constructor, so the lifetime is clamped. -/
structure SignedUrlService where
  secret : Bytes
  previousSecrets : List Bytes
  ttlSeconds : ℕ
  positive : 1 ≤ ttlSeconds
  bounded : ttlSeconds ≤ MAX_TTL_SECONDS

def SignedUrlService.new (secret : Bytes) (previousSecrets : List Bytes) (ttlSeconds : ℕ) :
    SignedUrlService where
  secret := secret
  previousSecrets := previousSecrets
  ttlSeconds := max 1 (min ttlSeconds MAX_TTL_SECONDS)
  positive := by omega
  bounded := by simp only [MAX_TTL_SECONDS]; omega

/-- The secrets a token is verified against, the current one first. -/
def SignedUrlService.secrets (svc : SignedUrlService) : List Bytes :=
  svc.secret :: svc.previousSecrets

section Canonical

/-- The string the MAC covers. -/
def canonical (coord : Coordinate) (sub : Option String) (role : String) (groups : List String)
    (exp : Int64) : String :=
  let out := DOMAIN ++ "\n"
  let out := [coord.method, coord.registry, coord.package, coord.version,
    coord.artifact].foldl Netstrings.pushField out
  let out :=
    match sub with
    | some value => Netstrings.pushField (Netstrings.pushField out "1") value
    | none => Netstrings.pushField (Netstrings.pushField out "0") ""
  let out := Netstrings.pushField out role
  let out := Netstrings.pushField out (toString groups.length)
  let out := groups.foldl Netstrings.pushField out
  Netstrings.pushField out (toString exp.toInt)

/-- The two fields of the subject. -/
def subjectFields : Option String → List String
  | some value => ["1", value]
  | none => ["0", ""]

/-- The fields of the canonical string, in their order. -/
def canonicalFields (coord : Coordinate) (sub : Option String) (role : String)
    (groups : List String) (exp : Int64) : List String :=
  [coord.method, coord.registry, coord.package, coord.version, coord.artifact] ++
    subjectFields sub ++ [role, toString groups.length] ++ groups ++ [toString exp.toInt]

theorem canonical_eq (coord : Coordinate) (sub : Option String) (role : String)
    (groups : List String) (exp : Int64) :
    canonical coord sub role groups exp =
      (canonicalFields coord sub role groups exp).foldl Netstrings.pushField (DOMAIN ++ "\n") := by
  cases sub with
  | none => simp [canonical, canonicalFields, subjectFields]
  | some value => simp [canonical, canonicalFields, subjectFields]

theorem subjectFields_append_inj {sub sub' : Option String} {x y : List String}
    (h : subjectFields sub ++ x = subjectFields sub' ++ y) : sub = sub' ∧ x = y := by
  cases sub with
  | none =>
    cases sub' with
    | none => exact ⟨rfl, by simpa [subjectFields] using h⟩
    | some value => simp [subjectFields] at h
  | some value =>
    cases sub' with
    | none => simp [subjectFields] at h
    | some value' =>
      simp only [subjectFields, List.cons_append, List.nil_append, List.cons.injEq, true_and] at h
      exact ⟨congrArg some h.1, h.2⟩

/-- Exactly one tuple produces a canonical string. -/
theorem canonical_inj {coord coord' : Coordinate} {sub sub' : Option String} {role role' : String}
    {groups groups' : List String} {exp exp' : Int64}
    (h : canonical coord sub role groups exp = canonical coord' sub' role' groups' exp') :
    coord = coord' ∧ sub = sub' ∧ role = role' ∧ groups = groups' ∧ exp = exp' := by
  rw [canonical_eq, canonical_eq] at h
  have hfields := Netstrings.foldl_pushField_injective h
  simp only [canonicalFields, List.append_assoc, List.cons_append, List.nil_append,
    List.cons.injEq] at hfields
  obtain ⟨hmethod, hregistry, hpackage, hversion, hartifact, hrest⟩ := hfields
  obtain ⟨hsub, hrest⟩ := subjectFields_append_inj hrest
  simp only [List.cons.injEq] at hrest
  obtain ⟨hrole, -, hrest⟩ := hrest
  obtain ⟨hgroups, hexp⟩ := List.append_inj' hrest (by simp)
  have hint := Joins.intText_injective (List.cons.inj hexp).1
  refine ⟨?_, hsub, hrole, hgroups, Int64.toInt_inj.mp hint⟩
  cases coord
  cases coord'
  simp_all

end Canonical

section PayloadText

/-- A field of the object, up to its value. -/
def key (name : String) : List Char := JsonText.quote name.toList ++ [':']

/-- The elements with commas between them, up to the closing bracket. -/
def elementTexts : List String → List Char
  | [] => [']']
  | [s] => JsonText.quote s.toList ++ [']']
  | s :: t :: rest => JsonText.quote s.toList ++ ',' :: elementTexts (t :: rest)

/-- `skip_serializing_if = "Option::is_none"`. -/
def subText : Option String → List Char
  | none => []
  | some s => key "sub" ++ JsonText.quote s.toList ++ [',']

/-- `skip_serializing_if = "Vec::is_empty"`. -/
def grpText : List String → List Char
  | [] => []
  | s :: rest => key "grp" ++ '[' :: elementTexts (s :: rest) ++ [',']

def Payload.text (p : Payload) : List Char :=
  '{' :: (key "v" ++ (toString p.v.toNat).toList ++ ',' ::
    (key "reg" ++ JsonText.quote p.reg.toList ++ ',' ::
    (key "pkg" ++ JsonText.quote p.pkg.toList ++ ',' ::
    (key "ver" ++ JsonText.quote p.ver.toList ++ ',' ::
    (key "art" ++ JsonText.quote p.art.toList ++ ',' ::
    (subText p.sub ++
    (key "role" ++ JsonText.quote p.role.toList ++ ',' ::
    (grpText p.grp ++
    (key "exp" ++ (toString p.exp.toInt).toList ++ ['}'])))))))))

/-- `serde_json::to_vec`. -/
def Payload.toJson (p : Payload) : Bytes := Framing.utf8 (String.ofList p.text)

theorem quoted_append_inj {s t : String} {x y : List Char}
    (h : JsonText.quote s.toList ++ x = JsonText.quote t.toList ++ y) : s = t ∧ x = y := by
  obtain ⟨htext, hrest⟩ := JsonText.quote_append_inj h
  exact ⟨String.toList_inj.mp htext, hrest⟩

theorem key_append_inj {a b : String} {x y : List Char} (h : key a ++ x = key b ++ y) :
    a = b ∧ x = y := by
  simp only [key, List.append_assoc, List.cons_append, List.nil_append] at h
  obtain ⟨hname, hrest⟩ := quoted_append_inj h
  exact ⟨hname, (List.cons.inj hrest).2⟩

theorem elementTexts_append_inj {s t : String} {l m : List String} {x y : List Char}
    (h : elementTexts (s :: l) ++ x = elementTexts (t :: m) ++ y) : s :: l = t :: m ∧ x = y := by
  induction l generalizing s t m with
  | nil =>
    cases m with
    | nil =>
      simp only [elementTexts, List.append_assoc, List.cons_append, List.nil_append] at h
      obtain ⟨rfl, hrest⟩ := quoted_append_inj h
      exact ⟨rfl, (List.cons.inj hrest).2⟩
    | cons u m =>
      simp only [elementTexts, List.append_assoc, List.cons_append, List.nil_append] at h
      have hends := (List.cons.inj (quoted_append_inj h).2).1
      exact absurd hends (by decide)
  | cons r l ih =>
    cases m with
    | nil =>
      simp only [elementTexts, List.append_assoc, List.cons_append, List.nil_append] at h
      have hends := (List.cons.inj (quoted_append_inj h).2).1
      exact absurd hends (by decide)
    | cons u m =>
      simp only [elementTexts, List.append_assoc, List.cons_append] at h
      obtain ⟨rfl, hrest⟩ := quoted_append_inj h
      obtain ⟨hlist, hrest⟩ := ih (List.cons.inj hrest).2
      exact ⟨congrArg (s :: ·) hlist, hrest⟩

/-- The next key tells whether the subject was left out. -/
theorem subText_append_inj {a b : Option String} {x y : List Char}
    (h : subText a ++ (key "role" ++ x) = subText b ++ (key "role" ++ y)) : a = b ∧ x = y := by
  cases a with
  | none =>
    cases b with
    | none => exact ⟨rfl, (key_append_inj h).2⟩
    | some t =>
      simp only [subText, List.nil_append, List.append_assoc] at h
      exact absurd (key_append_inj h).1 (by decide)
  | some s =>
    cases b with
    | none =>
      simp only [subText, List.nil_append, List.append_assoc] at h
      exact absurd (key_append_inj h).1 (by decide)
    | some t =>
      simp only [subText, List.append_assoc, List.cons_append, List.nil_append] at h
      obtain ⟨rfl, hrest⟩ := quoted_append_inj (key_append_inj h).2
      exact ⟨rfl, (key_append_inj (List.cons.inj hrest).2).2⟩

theorem grpText_append_inj {l m : List String} {x y : List Char}
    (h : grpText l ++ (key "exp" ++ x) = grpText m ++ (key "exp" ++ y)) : l = m ∧ x = y := by
  cases l with
  | nil =>
    cases m with
    | nil => exact ⟨rfl, (key_append_inj h).2⟩
    | cons t m =>
      simp only [grpText, List.nil_append, List.append_assoc] at h
      exact absurd (key_append_inj h).1 (by decide)
  | cons s l =>
    cases m with
    | nil =>
      simp only [grpText, List.nil_append, List.append_assoc] at h
      exact absurd (key_append_inj h).1 (by decide)
    | cons t m =>
      simp only [grpText, List.append_assoc, List.cons_append, List.nil_append] at h
      obtain ⟨hlist, hrest⟩ :=
        elementTexts_append_inj (List.cons.inj (key_append_inj h).2).2
      exact ⟨hlist, (key_append_inj (List.cons.inj hrest).2).2⟩

theorem quotedField_inj {name s t : String} {x y : List Char}
    (h : key name ++ JsonText.quote s.toList ++ ',' :: x =
      key name ++ JsonText.quote t.toList ++ ',' :: y) : s = t ∧ x = y := by
  rw [List.append_assoc, List.append_assoc] at h
  obtain ⟨hvalue, hrest⟩ := quoted_append_inj (key_append_inj h).2
  exact ⟨hvalue, (List.cons.inj hrest).2⟩

/-- One payload is written as a given text. -/
theorem Payload.text_injective {p q : Payload} (h : p.text = q.text) : p = q := by
  have h := (List.cons.inj h).2
  have hcomma : ∀ n : ℕ, ',' ∉ (toString n).toList := by
    intro n hmem
    have hdigit := Joins.isDigit_of_mem_toString hmem
    simp at hdigit
  rw [List.append_assoc (key "v"), List.append_assoc (key "v")] at h
  obtain ⟨hv, h⟩ := Joins.field_inj (hcomma _) (hcomma _) (key_append_inj h).2
  obtain ⟨hreg, h⟩ := quotedField_inj h
  obtain ⟨hpkg, h⟩ := quotedField_inj h
  obtain ⟨hver, h⟩ := quotedField_inj h
  obtain ⟨hart, h⟩ := quotedField_inj h
  rw [List.append_assoc (key "role"), List.append_assoc (key "role")] at h
  obtain ⟨hsub, h⟩ := subText_append_inj h
  obtain ⟨hrole, h⟩ := quoted_append_inj h
  have h := (List.cons.inj h).2
  rw [List.append_assoc (key "exp"), List.append_assoc (key "exp")] at h
  obtain ⟨hgrp, h⟩ := grpText_append_inj h
  have hexp := Joins.intText_injective (String.toList_inj.mp (List.append_cancel_right h))
  have hversion := Joins.toString_injective (String.toList_inj.mp hv)
  cases p
  cases q
  simp only [Payload.mk.injEq]
  exact ⟨UInt8.toNat_inj.mp hversion, hreg, hpkg, hver, hart, hsub, hrole, hgrp,
    Int64.toInt_inj.mp hexp⟩

theorem Payload.toJson_injective {p q : Payload} (h : p.toJson = q.toJson) : p = q :=
  Payload.text_injective (String.ofList_inj.mp (Framing.utf8_injective h))

end PayloadText

section Minting
variable (env : Env)

/-- Per-registry key: `HMAC(secret, "registry:" || name)`. -/
def subkey (secret : Bytes) (registry : String) : Bytes :=
  env.hmac secret (Framing.utf8 "registry:" ++ Framing.utf8 registry)

def mac (secret : Bytes) (coord : Coordinate) (sub : Option String) (role : String)
    (groups : List String) (exp : Int64) : Bytes :=
  env.hmac (subkey env secret coord.registry)
    (Framing.utf8 (canonical coord sub role groups exp))

/-- `URL_SAFE_NO_PAD.encode`. -/
def encode64 (bytes : Bytes) : String := String.ofList (Base64.encode bytes)

def decode64 (s : String) : Option Bytes := Base64.decode s.toList

def mintExp (svc : SignedUrlService) (now : UtcTime) : Int64 :=
  now.timestamp + Int64.ofNat svc.ttlSeconds

def mintPayload (svc : SignedUrlService) (coord : Coordinate) (identity : Identity)
    (now : UtcTime) : Payload where
  v := TOKEN_VERSION
  reg := coord.registry
  pkg := coord.package
  ver := coord.version
  art := coord.artifact
  sub := identity.userId
  role := identity.role.toString
  grp := identity.groups
  exp := mintExp svc now

def mintAt (svc : SignedUrlService) (coord : Coordinate) (identity : Identity) (now : UtcTime) :
    String :=
  let exp := mintExp svc now
  let role := identity.role.toString
  let tag := mac env svc.secret coord identity.userId role identity.groups exp
  toString TOKEN_VERSION.toNat ++ "." ++ encode64 (mintPayload svc coord identity now).toJson ++
    "." ++ encode64 tag

end Minting

section Verifying
variable (env : Env)

/-- `str::parse::<u8>`: an optional plus sign, then digits, of a value that fits. -/
def parseU8 (s : String) : Option UInt8 :=
  let digits :=
    match s.toList with
    | '+' :: rest => rest
    | chars => chars
  if digits.isEmpty || digits.any (fun c => !c.isDigit) then none
  else
    let n := digits.foldl (fun acc c => acc * 10 + (c.toNat - 48)) 0
    if n < 256 then some (UInt8.ofNat n) else none

def parseRole (s : String) : Option Role :=
  if s = "anonymous" then some .anonymous
  else if s = "user" then some .user
  else if s = "admin" then some .admin
  else none

/-- `token.splitn(3, '.')`, where it has three parts. -/
def splitn3 (token : String) : Option (String × String × String) := do
  let (version, rest) ← Texts.splitOnce token '.'
  let (payload, tag) ← Texts.splitOnce rest '.'
  some (version, payload, tag)

/-- The first half of `verify_at`: the payload and the presented MAC of a token. -/
def readToken (token : String) : Except SignedUrlError (Payload × Bytes) :=
  match splitn3 token with
  | none => .error (.malformed "expected three dot-separated segments")
  | some (version, payload64, mac64) =>
    match parseU8 version with
    | none => .error (.malformed "version prefix is not a number")
    | some version =>
      if version ≠ TOKEN_VERSION then .error (.unsupportedVersion version)
      else
        match decode64 payload64 with
        | none => .error (.malformed "payload is not base64url")
        | some payloadBytes =>
          match env.fromJson payloadBytes with
          | none => .error (.malformed "payload is not valid JSON")
          | some payload =>
            if payload.v ≠ TOKEN_VERSION then .error (.unsupportedVersion payload.v)
            else
              match decode64 mac64 with
              | none => .error (.malformed "signature is not base64url")
              | some presentedMac => .ok (payload, presentedMac)

def Payload.mintedFor (p : Payload) : String :=
  p.reg ++ "/" ++ p.pkg ++ "/" ++ p.ver ++ "/" ++ p.art

def Coordinate.presentedAt (c : Coordinate) : String :=
  c.registry ++ "/" ++ c.package ++ "/" ++ c.version ++ "/" ++ c.artifact

/-- What a MAC is recomputed over: the coordinate of the request, the rest of the payload. -/
def presentedMessage (coord : Coordinate) (p : Payload) : Bytes :=
  Framing.utf8 (canonical coord p.sub p.role p.grp p.exp)

def verifyAt (svc : SignedUrlService) (token : String) (coord : Coordinate) (now : UtcTime) :
    Except SignedUrlError Identity :=
  match readToken env token with
  | .error e => .error e
  | .ok (payload, presentedMac) =>
    if payload.mintedFor ≠ coord.presentedAt then
      .error (.coordinateMismatch payload.mintedFor coord.presentedAt)
    else
      let verified := svc.secrets.any fun secret =>
        env.hmac (subkey env secret coord.registry) (presentedMessage coord payload) == presentedMac
      if !verified then .error .badSignature
      else if payload.exp + CLOCK_SKEW_SECS < now.timestamp then
        .error (.expired ((fromTimestamp payload.exp).getD now) now)
      else
        match parseRole payload.role with
        | none =>
          .error (.malformed ("payload carries unknown role '" ++ payload.role ++ "'"))
        | some role => .ok ⟨payload.sub, role, some "signed-url", payload.grp⟩

end Verifying

end BatleHub.SignedUrls
