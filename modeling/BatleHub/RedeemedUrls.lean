import BatleHub.SignedUrls

/-!
What a signed URL opens. An accepted token was minted: its MAC verifies, so some mint
computed it over the same canonical string, which one tuple alone produces. A minted
token is read back as it was written and accepted until it expires.
-/
namespace BatleHub.SignedUrls

open Lib

/-- One call of `mint_at`. -/
structure Mint where
  svc : SignedUrlService
  coord : Coordinate
  identity : Identity
  now : UtcTime

namespace Mint

def token (env : Env) (m : Mint) : String := mintAt env m.svc m.coord m.identity m.now

/-- The second after which the token is expired. -/
def expiry (m : Mint) : ℤ := m.now.nanos / 10 ^ 9 + m.svc.ttlSeconds

/-- The key and the message its MAC is computed of. -/
def key (env : Env) (m : Mint) : Bytes := subkey env m.svc.secret m.coord.registry

def message (m : Mint) : Bytes :=
  Framing.utf8 (canonical m.coord m.identity.userId m.identity.role.toString m.identity.groups
    (mintExp m.svc m.now))

end Mint

/-- The tag is not forged: it verifies for the message under the key only if a mint has
computed the MAC of that message under that key. -/
def Unforged (env : Env) (minted : Set Mint) (key message tag : Bytes) : Prop :=
  env.hmac key message = tag → ∃ m ∈ minted, m.key env = key ∧ m.message = message

/-- No configured secret's key has a forged tag in the token, presented at the coordinate. -/
def TokenUnforged (env : Env) (svc : SignedUrlService) (minted : Set Mint) (token : String)
    (coord : Coordinate) : Prop :=
  ∀ payload tag, readToken env token = .ok (payload, tag) → ∀ secret ∈ svc.secrets,
    Unforged env minted (subkey env secret coord.registry) (presentedMessage coord payload) tag

section Expiry

theorem toInt_mintExp (m : Mint) : (mintExp m.svc m.now).toInt = m.expiry := by
  have hafter := m.now.after
  have hbefore := m.now.before
  have httl := m.svc.bounded
  simp only [minTimestamp, maxTimestamp, MAX_TTL_SECONDS] at hafter hbefore httl
  have httl' : (Int64.ofNat m.svc.ttlSeconds).toInt = m.svc.ttlSeconds := by
    apply Int64.toInt_ofNat_of_lt
    omega
  unfold mintExp Mint.expiry
  rw [Int64.toInt_add, UtcTime.toInt_timestamp, httl']
  apply Int.bmod_eq_of_le
  · omega
  · omega

/-- The comparison of the source, as one of seconds. -/
theorem not_expired_iff (m : Mint) (now : UtcTime) :
    ¬ mintExp m.svc m.now + CLOCK_SKEW_SECS < now.timestamp ↔
      now.nanos / 10 ^ 9 ≤ m.expiry + 60 := by
  have hafter := m.now.after
  have hbefore := m.now.before
  have httl := m.svc.bounded
  simp only [minTimestamp, maxTimestamp, MAX_TTL_SECONDS] at hafter hbefore httl
  have hexp : m.expiry = m.now.nanos / 10 ^ 9 + m.svc.ttlSeconds := rfl
  have hskew : (mintExp m.svc m.now + CLOCK_SKEW_SECS).toInt = m.expiry + 60 := by
    have hsixty : CLOCK_SKEW_SECS.toInt = 60 := by decide
    rw [Int64.toInt_add, toInt_mintExp, hsixty]
    apply Int.bmod_eq_of_le
    · omega
    · omega
  rw [Int64.lt_iff_toInt_lt, hskew, UtcTime.toInt_timestamp]
  omega

end Expiry

section Reading
variable {env : Env}

theorem decode64_encode64 (bytes : Bytes) : decode64 (encode64 bytes) = some bytes := by
  simp [decode64, encode64, Base64.decode_encode]

theorem dot_notMem_encode64 (bytes : Bytes) : '.' ∉ (encode64 bytes).toList := by
  simpa [encode64] using Base64.dot_notMem_encode bytes

theorem parseRole_toString (role : Role) : parseRole role.toString = some role := by
  cases role <;> decide

theorem splitn3_token (version payload tag : String) (hversion : '.' ∉ version.toList)
    (hpayload : '.' ∉ payload.toList) :
    splitn3 (version ++ "." ++ payload ++ "." ++ tag) = some (version, payload, tag) := by
  have hfirst : Texts.splitOnce (version ++ "." ++ payload ++ "." ++ tag) '.' =
      some (version, payload ++ "." ++ tag) := by
    refine (Texts.splitOnce_eq_some_iff _ _ _ _).mpr ⟨?_, hversion⟩
    apply String.toList_inj.mp
    simp
  have hsecond : Texts.splitOnce (payload ++ "." ++ tag) '.' = some (payload, tag) :=
    (Texts.splitOnce_eq_some_iff _ _ _ _).mpr ⟨rfl, hpayload⟩
  simp [splitn3, hfirst, hsecond]

/-- A minted token is read back. -/
theorem readToken_mint (hround : ∀ p : Payload, env.fromJson p.toJson = some p) (m : Mint) :
    readToken env (m.token env) =
      .ok (mintPayload m.svc m.coord m.identity m.now, env.hmac (m.key env) m.message) := by
  have hparts : splitn3 (m.token env) = some (toString TOKEN_VERSION.toNat,
      encode64 (mintPayload m.svc m.coord m.identity m.now).toJson,
      encode64 (env.hmac (m.key env) m.message)) := by
    apply splitn3_token
    · decide
    · exact dot_notMem_encode64 _
  have hversion : parseU8 (toString TOKEN_VERSION.toNat) = some TOKEN_VERSION := by decide
  have hv : (mintPayload m.svc m.coord m.identity m.now).v = TOKEN_VERSION := rfl
  simp only [readToken, hparts, hversion, decode64_encode64, hround, hv, ne_eq, not_true_eq_false,
    if_false]

end Reading

section Accepting
variable {env : Env} {svc : SignedUrlService} {token : String} {coord : Coordinate} {now : UtcTime}
  {identity : Identity}

/-- Everything an accepted token has passed. -/
theorem verifyAt_eq_ok (h : verifyAt env svc token coord now = .ok identity) :
    ∃ payload tag, readToken env token = .ok (payload, tag) ∧
      (∃ secret ∈ svc.secrets,
        env.hmac (subkey env secret coord.registry) (presentedMessage coord payload) = tag) ∧
      ¬ payload.exp + CLOCK_SKEW_SECS < now.timestamp ∧
      parseRole payload.role = some identity.role ∧
      identity.userId = payload.sub ∧ identity.groups = payload.grp := by
  unfold verifyAt at h
  split at h
  · cases h
  · rename_i payload tag hread
    refine ⟨payload, tag, hread, ?_⟩
    split at h
    · cases h
    · dsimp only at h
      split at h
      · cases h
      · rename_i hverified
        simp only [Bool.not_eq_true', Bool.not_eq_false, List.any_eq_true, beq_iff_eq]
          at hverified
        refine ⟨hverified, ?_⟩
        split at h
        · cases h
        · rename_i hexp
          refine ⟨hexp, ?_⟩
          split at h
          · cases h
          · rename_i role hrole
            obtain rfl := Except.ok.inj h
            exact ⟨hrole, rfl, rfl⟩

/-- Where the MAC was computed by a mint, it was for this coordinate, identity and expiry. -/
theorem mint_of_message {m : Mint} {payload : Payload}
    (h : m.message = presentedMessage coord payload) :
    m.coord = coord ∧ m.identity.userId = payload.sub ∧
      m.identity.role.toString = payload.role ∧ m.identity.groups = payload.grp ∧
      mintExp m.svc m.now = payload.exp :=
  canonical_inj (Framing.utf8_injective h)

theorem minted_of_accepted {minted : Set Mint} (hunforged : TokenUnforged env svc minted token coord)
    (h : verifyAt env svc token coord now = .ok identity) :
    ∃ m ∈ minted, m.coord = coord ∧ m.identity.userId = identity.userId ∧
      m.identity.role = identity.role ∧ m.identity.groups = identity.groups ∧
      now.nanos / 10 ^ 9 ≤ m.expiry + 60 := by
  obtain ⟨payload, tag, hread, ⟨secret, hsecret, hmac⟩, hexp, hrole, huser, hgroups⟩ :=
    verifyAt_eq_ok h
  obtain ⟨m, hm, -, hmessage⟩ := hunforged payload tag hread secret hsecret hmac
  obtain ⟨hcoord, hsub, hrole', hgrp, hexp'⟩ := mint_of_message hmessage
  refine ⟨m, hm, hcoord, hsub.trans huser.symm, ?_, hgrp.trans hgroups.symm, ?_⟩
  · have hsame := parseRole_toString m.identity.role
    rw [hrole', hrole] at hsame
    exact (Option.some.inj hsame).symm
  · rw [← hexp'] at hexp
    exact (not_expired_iff m now).mp hexp

theorem accepted_of_minted (hround : ∀ p : Payload, env.fromJson p.toJson = some p) {m : Mint}
    (hsecret : m.svc.secret ∈ svc.secrets) (hnow : now.nanos / 10 ^ 9 ≤ m.expiry + 60) :
    verifyAt env svc (m.token env) m.coord now =
      .ok ⟨m.identity.userId, m.identity.role, some "signed-url", m.identity.groups⟩ := by
  have hplace : (mintPayload m.svc m.coord m.identity m.now).mintedFor = m.coord.presentedAt := rfl
  have hverified : (svc.secrets.any fun secret =>
      env.hmac (subkey env secret m.coord.registry)
        (presentedMessage m.coord (mintPayload m.svc m.coord m.identity m.now)) ==
          env.hmac (m.key env) m.message) = true := by
    rw [List.any_eq_true]
    exact ⟨m.svc.secret, hsecret, beq_iff_eq.mpr rfl⟩
  have hexp : ¬ (mintPayload m.svc m.coord m.identity m.now).exp + CLOCK_SKEW_SECS <
      now.timestamp := (not_expired_iff m now).mpr hnow
  have hrole : parseRole (mintPayload m.svc m.coord m.identity m.now).role =
      some m.identity.role := parseRole_toString m.identity.role
  simp only [verifyAt, readToken_mint hround, hplace, ne_eq, not_true_eq_false, if_false,
    hverified, Bool.not_true, Bool.false_eq_true, if_neg hexp, hrole]
  rfl

end Accepting

/-- A signed URL opens exactly what it was minted for. -/
theorem signed_url_opens_what_it_was_minted_for (env : Env)
    (hround : ∀ p : Payload, env.fromJson p.toJson = some p) :
    (∀ (coord coord' : Coordinate) (sub sub' : Option String) (role role' : String)
      (groups groups' : List String) (exp exp' : Int64),
      canonical coord sub role groups exp = canonical coord' sub' role' groups' exp' →
      coord = coord' ∧ sub = sub' ∧ role = role' ∧ groups = groups' ∧ exp = exp') ∧
    (∀ (svc : SignedUrlService) (minted : Set Mint) (token : String) (coord : Coordinate)
      (now : UtcTime) (identity : Identity),
      (∀ m ∈ minted, m.svc.secret ∈ svc.secrets) → TokenUnforged env svc minted token coord →
      verifyAt env svc token coord now = .ok identity →
      ∃ m ∈ minted, m.coord = coord ∧ m.identity.userId = identity.userId ∧
        m.identity.role = identity.role ∧ m.identity.groups = identity.groups ∧
        now.nanos / 10 ^ 9 ≤ m.expiry + 60) ∧
    (∀ (svc : SignedUrlService) (m : Mint) (now : UtcTime), m.svc.secret ∈ svc.secrets →
      now.nanos / 10 ^ 9 ≤ m.expiry + 60 →
      verifyAt env svc (m.token env) m.coord now =
        .ok ⟨m.identity.userId, m.identity.role, some "signed-url", m.identity.groups⟩) := by
  refine ⟨?_, ?_, ?_⟩
  · intro coord coord' sub sub' role role' groups groups' exp exp' h
    exact canonical_inj h
  · intro svc minted token coord now identity _ hunforged h
    exact minted_of_accepted hunforged h
  · intro svc m now hsecret hnow
    exact accepted_of_minted hround hsecret hnow

section Sample

def sampleSecret : Bytes := Framing.utf8 "0123456789abcdef0123456789abcdef"

/-- `HMAC(sampleSecret, "registry:tf")`. -/
def sampleKey : Bytes := [170, 83, 20, 87, 88, 115, 64, 24, 57, 199, 185, 108, 22, 84, 164, 32,
  31, 98, 73, 199, 105, 145, 82, 68, 131, 73, 68, 115, 47, 185, 62, 30]

/-- `HMAC(sampleKey, canonical)` of the sample mint. -/
def sampleTag : Bytes := [142, 89, 216, 55, 120, 211, 76, 62, 96, 105, 187, 171, 193, 119, 141, 13,
  27, 184, 211, 38, 212, 204, 236, 155, 101, 40, 214, 221, 102, 188, 202, 40]

def sampleCoord : Coordinate := ⟨"GET", "tf", "random", "5.40.0", "linux_amd64"⟩

def sampleMint : Mint where
  svc := SignedUrlService.new sampleSecret [] 300
  coord := sampleCoord
  identity := ⟨some "alice", .user, some "oidc", ["dev"]⟩
  now := ⟨1700000000 * 10 ^ 9, by decide, by decide⟩

/-- HMAC-SHA256 where the sample uses it, and a JSON reader of what the writer writes. -/
noncomputable def sampleEnv : Env where
  hmac key message :=
    if key = sampleSecret ∧ message = Framing.utf8 "registry:tf" then sampleKey
    else if key = sampleKey ∧ message = sampleMint.message then sampleTag
    else []
  fromJson bytes :=
    open Classical in
    if h : ∃ p : Payload, p.toJson = bytes then some h.choose else none

theorem sampleEnv_fromJson (p : Payload) : sampleEnv.fromJson p.toJson = some p := by
  have hex : ∃ q : Payload, q.toJson = p.toJson := ⟨p, rfl⟩
  have hread : sampleEnv.fromJson p.toJson = some hex.choose := dif_pos hex
  rw [hread, Payload.toJson_injective hex.choose_spec]

theorem sample_unforged : TokenUnforged sampleEnv sampleMint.svc {sampleMint}
    (sampleMint.token sampleEnv) sampleCoord := by
  intro payload tag hread secret hsecret _
  rw [readToken_mint sampleEnv_fromJson] at hread
  obtain ⟨rfl, -⟩ := Prod.mk.inj (Except.ok.inj hread)
  have hsame : secret = sampleSecret := List.mem_singleton.mp hsecret
  subst hsame
  exact ⟨sampleMint, rfl, rfl, rfl⟩

theorem signed_url_sample_is_redeemed :
    verifyAt sampleEnv sampleMint.svc (sampleMint.token sampleEnv) sampleCoord sampleMint.now =
        .ok ⟨some "alice", .user, some "signed-url", ["dev"]⟩ ∧
      ∃ m ∈ ({sampleMint} : Set Mint), m.coord = sampleCoord ∧ m.identity.userId = some "alice" ∧
        m.identity.role = .user ∧ m.identity.groups = ["dev"] ∧
        sampleMint.now.nanos / 10 ^ 9 ≤ m.expiry + 60 := by
  obtain ⟨-, hsound, hcomplete⟩ :=
    signed_url_opens_what_it_was_minted_for sampleEnv sampleEnv_fromJson
  have hok := hcomplete sampleMint.svc sampleMint sampleMint.now List.mem_cons_self (by decide)
  refine ⟨hok, ?_⟩
  refine hsound sampleMint.svc {sampleMint} _ sampleCoord sampleMint.now _ ?_ sample_unforged hok
  intro m hm
  rw [Set.mem_singleton_iff.mp hm]
  exact List.mem_cons_self

end Sample

end BatleHub.SignedUrls
