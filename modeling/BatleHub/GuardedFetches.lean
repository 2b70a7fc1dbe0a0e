import BatleHub.Lib.Runs
import BatleHub.PublicAddresses
import BatleHub.Vocabulary

/-!
Fetches that follow redirects themselves (`registry/ssrf.rs`). Each hop is looked at before it
is dialled: on an origin that the operator trusts it takes the credentials along, anywhere
else it goes without them and only to a host whose addresses are all public. Most of the
clients look the host up again through a resolver that knows public addresses only. The URL
library is a parameter, and so is the network, whose answers may depend on all that went before.
-/
namespace BatleHub.GuardedFetches

open Lib Lib.IpTexts PublicAddresses

section Model
variable {U B : Type}

/-- What is asked of a URL. `redacted` writes it without its query and its user. -/
structure UrlLibrary (U : Type) where
  parse : String → Except String U
  join : U → String → Except String U
  scheme : U → String
  hostStr : U → Option String
  portOrKnownDefault : U → Option ℕ
  asStr : U → String
  redacted : U → String

/-- What is set on a client that follows no redirects itself: the operator's credentials among
its default headers, and `PublicOnlyResolver`. -/
structure HttpClient where
  authHeaders : Bool
  publicOnly : Bool
  deriving DecidableEq, Repr

/-- The two clients of a walk, of which the plain one never has credentials. -/
structure Clients where
  credentialed : HttpClient
  plain : HttpClient
  bare : plain.authHeaders = false

structure UpstreamHttpOptions where
  bearerToken : Option String
  customHeader : Option (String × String)
  proxyUrl : Option String

abbrev Environment := String → Option String

def PROXY_VARS : List String :=
  ["HTTP_PROXY", "HTTPS_PROXY", "ALL_PROXY", "http_proxy", "https_proxy", "all_proxy"]

def envProxy (env : Environment) : Bool :=
  PROXY_VARS.any fun v => (env v).any fun x => !x.isEmpty

section Building
variable (env : Environment) (opts : UpstreamHttpOptions)

/-- Skipped when an egress proxy is in play. -/
def publicOnlyDns (builder : HttpClient) : HttpClient :=
  if opts.proxyUrl.isSome || envProxy env then builder else { builder with publicOnly := true }

/-- A builder with no redirects. -/
def noRedirect : HttpClient := ⟨false, false⟩

theorem authHeaders_publicOnlyDns (builder : HttpClient) :
    (publicOnlyDns env opts builder).authHeaders = builder.authHeaders := by
  unfold publicOnlyDns
  split <;> rfl

/-- As far as the headers go. -/
def applyUpstreamOptions (builder : HttpClient) : HttpClient :=
  if opts.bearerToken.isSome || opts.customHeader.isSome then { builder with authHeaders := true }
  else builder

/-- The pair that Galaxy, Helm, Open VSX, SDKMAN and the marketplace build, and PyPI and the
forges by the same steps. -/
def noRedirectClientPair : Clients where
  credentialed := applyUpstreamOptions opts noRedirect
  plain := publicOnlyDns env opts noRedirect
  bare := authHeaders_publicOnlyDns env opts noRedirect

/-- `HttpReadmeImageFetcher` keeps the proxy of the options and nothing else, and fetches with
one client for both. -/
def readmeImageClients : Clients where
  credentialed := publicOnlyDns env ⟨none, none, opts.proxyUrl⟩ noRedirect
  plain := publicOnlyDns env ⟨none, none, opts.proxyUrl⟩ noRedirect
  bare := authHeaders_publicOnlyDns env _ noRedirect

/-- `stream_resolved` of Terraform builds one client with no options and no resolver. -/
def terraformClients : Clients := ⟨noRedirect, noRedirect, rfl⟩

/-- Who walks redirects. -/
inductive Caller where
  | registry
  | readmeImage
  | terraform
  deriving DecidableEq, Repr

def clientsOf : Caller → Clients
  | .registry => noRedirectClientPair env opts
  | .readmeImage => readmeImageClients env opts
  | .terraform => terraformClients

/-- Everybody but Terraform mounts the resolver, where no proxy is configured or in the
environment. -/
def Mounts (caller : Caller) : Prop :=
  caller ≠ .terraform ∧ opts.proxyUrl = none ∧ ∀ v ∈ PROXY_VARS, ∀ x, env v = some x → x = ""

theorem envProxy_eq_false_iff :
    envProxy env = false ↔ ∀ v ∈ PROXY_VARS, ∀ x, env v = some x → x = "" := by
  unfold envProxy
  rw [List.any_eq_false]
  refine forall₂_congr fun v _ => ?_
  cases env v with
  | none => simp
  | some x => simp

theorem publicOnly_publicOnlyDns :
    (publicOnlyDns env opts noRedirect).publicOnly = true ↔
      opts.proxyUrl = none ∧ ∀ v ∈ PROXY_VARS, ∀ x, env v = some x → x = "" := by
  rw [← envProxy_eq_false_iff]
  unfold publicOnlyDns noRedirect
  cases opts.proxyUrl <;> cases envProxy env <;> simp

theorem mounts_iff (caller : Caller) :
    (clientsOf env opts caller).plain.publicOnly = true ↔ Mounts env opts caller := by
  unfold Mounts
  cases caller with
  | registry =>
    rw [show (clientsOf env opts .registry).plain = publicOnlyDns env opts noRedirect from rfl,
      publicOnly_publicOnlyDns]
    simp
  | readmeImage =>
    rw [show (clientsOf env opts .readmeImage).plain =
        publicOnlyDns env ⟨none, none, opts.proxyUrl⟩ noRedirect from rfl,
      publicOnly_publicOnlyDns]
    simp
  | terraform => simp [clientsOf, terraformClients, noRedirect]

end Building

structure Request (U : Type) where
  client : HttpClient
  url : U
  basicAuth : Option (String × String)
  accept : String

/-- The location is there when the header is and reads as a text. -/
structure Response (B : Type) where
  status : ℕ
  location : Option String
  body : B

inductive Event (U B : Type) where
  | lookedUp (host : String) (port : ℕ) (found : Except String (List IpAddr))
  | requested (r : Request U) (answer : Except String (Response B))

/-- What name servers and hosts answer, after all that has happened so far. -/
structure Network (U B : Type) where
  lookupHost : List (Event U B) → String → ℕ → Except String (List IpAddr)
  send : List (Event U B) → Request U → Except String (Response B)

variable (urls : UrlLibrary U) (net : Network U B)

/-- True when `a` and `b` share scheme, host, and (explicit-or-default) port. -/
def sameOrigin (a b : U) : Bool :=
  urls.scheme a == urls.scheme b && urls.hostStr a == urls.hostStr b &&
    urls.portOrKnownDefault a == urls.portOrKnownDefault b

/-- An IPv6 literal without its brackets, any other host as it is. -/
def unbracketed (host : String) : String :=
  match host.toList with
  | '[' :: rest =>
    match rest.reverse with
    | ']' :: inner => String.ofList inner.reverse
    | _ => host
  | _ => host

def literalOf (host : String) : Option IpAddr := parseIp (unbracketed host)

def refusing (url : U) : String := "refusing to fetch upstream URL '" ++ urls.redacted url ++ "': "

def blockedError (url : U) : CoreError :=
  .registry (refusing urls url ++ "host resolves to a private, reserved, or " ++
    "link-local address (SSRF guard)")

/-- The answer of `ensure_public_url` and the lookup it made. -/
def ensurePublicUrl (past : List (Event U B)) (url : U) :
    Except CoreError Unit × List (Event U B) :=
  match urls.hostStr url with
  | none => (.error (.registry (refusing urls url ++ "no host")), [])
  | some host =>
    match literalOf host with
    | some ip => (if isBlockedIp ip then .error (blockedError urls url) else .ok (), [])
    | none =>
      let port := (urls.portOrKnownDefault url).getD 0
      match net.lookupHost past host port with
      | .error e =>
        (.error (.registry (refusing urls url ++ "DNS resolution failed: " ++ e)),
          [.lookedUp host port (.error e)])
      | .ok addrs =>
        (if addrs.any isBlockedIp then .error (blockedError urls url)
          else if addrs.isEmpty then
            .error (.registry (refusing urls url ++ "host did not resolve to any address"))
          else .ok (),
          [.lookedUp host port (.ok addrs)])

/-- `PublicOnlyResolver`, on what the second lookup finds. -/
def resolvePublic (host : String) (found : Except String (List IpAddr)) :
    Except String (List IpAddr) :=
  match found with
  | .error e => .error e
  | .ok addrs =>
    if (addrs.filter fun ip => !isBlockedIp ip).isEmpty then
      .error ("'" ++ host ++ "' resolves to no public address (SSRF guard)")
    else .ok (addrs.filter fun ip => !isBlockedIp ip)

/-- The addresses that a client may dial, on what the second lookup finds. A literal reaches no
resolver. -/
def dialled (client : HttpClient) (again : Except String (List IpAddr)) (url : U) :
    List IpAddr :=
  match urls.hostStr url with
  | none => []
  | some host =>
    match literalOf host with
    | some ip => [ip]
    | none =>
      match if client.publicOnly then resolvePublic host again else again with
      | .ok addrs => addrs
      | .error _ => []

def MAX_REDIRECTS : ℕ := 5

def isRedirection (status : ℕ) : Bool := 300 ≤ status && status < 400

section Hops
variable (clients : Clients) (basicAuth : Option (String × String)) (bases : List U)

/-- `same_origin_as_instance`. -/
def trusted (url : U) : Bool := bases.any (sameOrigin urls url)

def requestTo (url : U) : Request U :=
  if trusted urls bases url then ⟨clients.credentialed, url, basicAuth, "*/*"⟩
  else ⟨clients.plain, url, none, "*/*"⟩

/-- The guard of one hop. -/
def guardHop (past : List (Event U B)) (url : U) : Except CoreError Unit × List (Event U B) :=
  if trusted urls bases url then (.ok (), []) else ensurePublicUrl urls net past url

/-- The hops that are left, from `url` on, and all that happens in them. The response comes
with the URL that answered. -/
def followHops : (hops : ℕ) → (past : List (Event U B)) → U →
    Except CoreError (U × Response B) × List (Event U B)
  | 0, _, _ =>
    (.error (.registry ("too many redirects (>" ++ toString MAX_REDIRECTS ++
      ") fetching upstream artifact")), [])
  | hops + 1, past, url =>
    match guardHop urls net bases past url with
    | (.error e, check) => (.error e, check)
    | (.ok (), check) =>
      let request := requestTo urls clients basicAuth bases url
      match net.send (past ++ check) request with
      | .error e => (.error (.registry e), check ++ [.requested request (.error e)])
      | .ok resp =>
        let sent := check ++ [.requested request (.ok resp)]
        if isRedirection resp.status then
          match resp.location with
          | none =>
            (.error (.registry ("upstream returned a redirect with no valid Location header " ++
              "(from '" ++ urls.redacted url ++ "')")), sent)
          | some location =>
            match urls.join url location with
            | .error e =>
              (.error (.registry ("invalid redirect Location '" ++ location ++ "': " ++ e)), sent)
            | .ok next =>
              ((followHops hops (past ++ sent) next).1,
                sent ++ (followHops hops (past ++ sent) next).2)
        else (.ok (url, resp), sent)

end Hops

/-- The trusted origins that parse. -/
def basesOf (trustedOrigins : List String) : List U :=
  trustedOrigins.filterMap fun o => (urls.parse o).toOption

/-- `fetch_following_redirects_trusting`. -/
def fetchTrusting (clients : Clients) (basicAuth : Option (String × String))
    (trustedOrigins : List String) (start : U) :
    Except CoreError (U × Response B) × List (Event U B) :=
  followHops urls net clients basicAuth (basesOf urls trustedOrigins) (MAX_REDIRECTS + 1) [] start

/-- What one hop can do: it is refused, or it sends its request after a check that passed, and
then it ends or goes on where the answer leads. -/
theorem followHops_cases (clients : Clients) (basicAuth : Option (String × String))
    (bases : List U) (hops : ℕ) (past : List (Event U B)) (url : U) :
    (∃ e check, guardHop urls net bases past url = (.error e, check) ∧
      followHops urls net clients basicAuth bases (hops + 1) past url = (.error e, check)) ∨
    ∃ check answer, guardHop urls net bases past url = (.ok (), check) ∧
      ((∃ e, followHops urls net clients basicAuth bases (hops + 1) past url =
          (.error e, check ++ [.requested (requestTo urls clients basicAuth bases url) answer])) ∨
        (∃ resp, answer = .ok resp ∧ isRedirection resp.status = false ∧
          followHops urls net clients basicAuth bases (hops + 1) past url = (.ok (url, resp),
            check ++ [.requested (requestTo urls clients basicAuth bases url) answer])) ∨
        ∃ resp location next, answer = .ok resp ∧ isRedirection resp.status = true ∧
          resp.location = some location ∧ urls.join url location = .ok next ∧
          followHops urls net clients basicAuth bases (hops + 1) past url =
            ((followHops urls net clients basicAuth bases hops
                (past ++
                  (check ++ [.requested (requestTo urls clients basicAuth bases url) answer]))
                next).1,
              check ++ [.requested (requestTo urls clients basicAuth bases url) answer] ++
                (followHops urls net clients basicAuth bases hops
                  (past ++
                    (check ++ [.requested (requestTo urls clients basicAuth bases url) answer]))
                  next).2)) := by
  rw [followHops]
  cases hguard : guardHop urls net bases past url with
  | mk result check =>
    cases result with
    | error e => exact .inl ⟨e, check, rfl, rfl⟩
    | ok _ =>
      right
      dsimp only
      cases hsend : net.send (past ++ check) (requestTo urls clients basicAuth bases url) with
      | error e => exact ⟨check, .error e, rfl, .inl ⟨_, rfl⟩⟩
      | ok resp =>
        refine ⟨check, .ok resp, rfl, ?_⟩
        dsimp only
        cases hredirect : isRedirection resp.status with
        | false => exact .inr (.inl ⟨resp, rfl, hredirect, rfl⟩)
        | true =>
          cases hlocation : resp.location with
          | none => exact .inl ⟨_, rfl⟩
          | some location =>
            dsimp only
            cases hjoin : urls.join url location with
            | error e => exact .inl ⟨_, rfl⟩
            | ok next =>
              exact .inr (.inr ⟨resp, location, next, rfl, hredirect, hlocation, hjoin, rfl⟩)

section Checks

/-- The host is a public literal, or a name that was just looked up and is public altogether. -/
def PublicCheck (url : U) (check : List (Event U B)) : Prop :=
  ∃ host, urls.hostStr url = some host ∧
    ((∃ ip, literalOf host = some ip ∧ isBlockedIp ip = false ∧ check = []) ∨
      (literalOf host = none ∧ ∃ addrs, addrs ≠ [] ∧ (∀ ip ∈ addrs, isBlockedIp ip = false) ∧
        check = [.lookedUp host ((urls.portOrKnownDefault url).getD 0) (.ok addrs)]))

variable {urls net}

theorem publicCheck_of_ok {past check : List (Event U B)} {url : U}
    (h : ensurePublicUrl urls net past url = (.ok (), check)) :
    PublicCheck urls url check := by
  unfold ensurePublicUrl at h
  cases hhost : urls.hostStr url with
  | none =>
    rw [hhost] at h
    cases h
  | some host =>
    rw [hhost] at h
    dsimp only at h
    cases hliteral : literalOf host with
    | some ip =>
      rw [hliteral] at h
      dsimp only at h
      cases hblocked : isBlockedIp ip with
      | true =>
        rw [hblocked] at h
        cases h
      | false =>
        rw [hblocked] at h
        cases h
        exact ⟨host, hhost, .inl ⟨ip, hliteral, hblocked, rfl⟩⟩
    | none =>
      rw [hliteral] at h
      dsimp only at h
      cases hlookup : net.lookupHost past host ((urls.portOrKnownDefault url).getD 0) with
      | error e =>
        rw [hlookup] at h
        cases h
      | ok addrs =>
        rw [hlookup] at h
        dsimp only at h
        split_ifs at h with hany hempty
        · cases h
        · cases h
        · cases h
          refine ⟨host, hhost, .inr ⟨hliteral, addrs, ?_, ?_, rfl⟩⟩
          · intro hnil
            exact hempty (by rw [hnil]; rfl)
          · intro ip hip
            rw [Bool.not_eq_true, List.any_eq_false] at hany
            exact Bool.not_eq_true _ ▸ hany ip hip

/-- A check sends nothing. -/
theorem not_requested_of_mem_check {past : List (Event U B)} {url : U} {e : Event U B}
    (h : e ∈ (ensurePublicUrl urls net past url).2) :
    ∃ host port found, e = .lookedUp host port found := by
  unfold ensurePublicUrl at h
  split at h
  · cases h
  · split at h
    · cases h
    · dsimp only at h
      split at h
      · obtain rfl := List.mem_singleton.mp h
        exact ⟨_, _, _, rfl⟩
      · obtain rfl := List.mem_singleton.mp h
        exact ⟨_, _, _, rfl⟩

/-- With the resolver mounted, what is dialled is what was checked, whatever the second lookup
finds. -/
theorem PublicCheck.dialled_public {url : U} {check : List (Event U B)}
    (h : PublicCheck urls url check) {client : HttpClient} (hmounted : client.publicOnly = true)
    (again : Except String (List IpAddr)) :
    ∀ ip ∈ dialled urls client again url, isBlockedIp ip = false := by
  obtain ⟨host, hhost, ⟨ip, hliteral, hpublic, -⟩ | ⟨hliteral, -⟩⟩ := h
  · intro other hother
    unfold dialled at hother
    rw [hhost] at hother
    dsimp only at hother
    rw [hliteral] at hother
    obtain rfl := List.mem_singleton.mp hother
    exact hpublic
  · intro ip hip
    unfold dialled at hip
    rw [hhost] at hip
    dsimp only at hip
    rw [hliteral, if_pos hmounted] at hip
    dsimp only at hip
    unfold resolvePublic at hip
    cases again with
    | error e => cases hip
    | ok addrs =>
      dsimp only at hip
      split at hip
      · rename_i kept heq
        split at heq
        · cases heq
        · cases heq
          have hkept := (List.mem_filter.mp hip).2
          rwa [Bool.not_eq_true'] at hkept
      · cases hip

end Checks

section Requests
variable {urls net}

/-- A request on a trusted origin may carry the credentials. Any other goes without them, right
after a check of its own URL that passed, and is dialled at public addresses only where the
plain client has the resolver. -/
structure Guarded (urls : UrlLibrary U) (clients : Clients) (bases : List U)
    (past : List (Event U B)) (r : Request U) : Prop where
  anonymous : trusted urls bases r.url = false →
    r.client = clients.plain ∧ r.client.authHeaders = false ∧ r.basicAuth = none
  checked : trusted urls bases r.url = false →
    ∃ earlier check, past = earlier ++ check ∧ PublicCheck urls r.url check
  reached : trusted urls bases r.url = false → clients.plain.publicOnly = true →
    ∀ again, ∀ ip ∈ dialled urls r.client again r.url, isBlockedIp ip = false

/-- The events so far and one more. -/
def record (past : List (Event U B)) (e : Event U B) : List (Event U B) := past ++ [e]

theorem run_record (past events : List (Event U B)) :
    Runs.run record past events = past ++ events := by
  induction events generalizing past with
  | nil => exact (List.append_nil past).symm
  | cons e events ih =>
    calc
      Runs.run record past (e :: events) = Runs.run record (past ++ [e]) events := rfl
      _ = past ++ e :: events := by rw [ih, List.append_assoc, List.singleton_append]

/-- The requests among the events are guarded. -/
def GuardedEvent (urls : UrlLibrary U) (clients : Clients) (bases : List U)
    (past : List (Event U B)) : Event U B → Prop
  | .requested r _ => Guarded urls clients bases past r
  | .lookedUp _ _ _ => True

abbrev AllGuarded (urls : UrlLibrary U) (clients : Clients) (bases : List U)
    (past events : List (Event U B)) : Prop :=
  Runs.Guarded record (GuardedEvent urls clients bases) past events

theorem allGuarded_append {clients : Clients} {bases : List U}
    {past before after : List (Event U B)}
    (h : AllGuarded urls clients bases past before)
    (h' : AllGuarded urls clients bases (past ++ before) after) :
    AllGuarded urls clients bases past (before ++ after) := by
  refine (Runs.guarded_append _ past before after).mpr ⟨h, ?_⟩
  rwa [run_record]

theorem allGuarded_check {clients : Clients} {bases : List U} {past : List (Event U B)} {url : U}
    {events : List (Event U B)} (h : (guardHop urls net bases past url).2 = events) :
    AllGuarded urls clients bases past events := by
  have hlookups : ∀ e ∈ events, ∃ host port found, e = .lookedUp host port found := by
    intro e he
    rw [← h] at he
    unfold guardHop at he
    split at he
    · cases he
    · exact not_requested_of_mem_check he
  clear h
  induction events generalizing past with
  | nil => trivial
  | cons e events ih =>
    obtain ⟨host, port, found, rfl⟩ := hlookups e List.mem_cons_self
    exact ⟨trivial, ih fun e' he' => hlookups e' (List.mem_cons_of_mem _ he')⟩

theorem url_requestTo (urls : UrlLibrary U) (clients : Clients)
    (basicAuth : Option (String × String)) (bases : List U) (url : U) :
    (requestTo urls clients basicAuth bases url).url = url := by
  unfold requestTo
  split <;> rfl

theorem requestTo_of_off {clients : Clients} {basicAuth : Option (String × String)}
    {bases : List U} {url : U} (h : trusted urls bases url = false) :
    requestTo urls clients basicAuth bases url = ⟨clients.plain, url, none, "*/*"⟩ := by
  unfold requestTo
  rw [if_neg (by rw [h]; decide)]

/-- The request of a hop whose guard passed. -/
theorem guarded_requestTo {clients : Clients} {basicAuth : Option (String × String)}
    {bases : List U} {past check : List (Event U B)} {url : U}
    (h : guardHop urls net bases past url = (.ok (), check)) :
    Guarded urls clients bases (past ++ check) (requestTo urls clients basicAuth bases url) := by
  have hurl := url_requestTo urls clients basicAuth bases url
  have hpublic (hoff : trusted urls bases url = false) : PublicCheck urls url check := by
    unfold guardHop at h
    rw [if_neg (by rw [hoff]; decide)] at h
    exact publicCheck_of_ok h
  refine ⟨?_, ?_, ?_⟩
  · intro hoff
    rw [hurl] at hoff
    rw [requestTo_of_off hoff]
    exact ⟨rfl, clients.bare, rfl⟩
  · intro hoff
    rw [hurl] at hoff ⊢
    exact ⟨past, check, rfl, hpublic hoff⟩
  · intro hoff hmounted again
    rw [hurl] at hoff
    rw [requestTo_of_off hoff]
    exact (hpublic hoff).dialled_public hmounted again

theorem allGuarded_hop {clients : Clients} {basicAuth : Option (String × String)}
    {bases : List U} {past check : List (Event U B)} {url : U} (answer : Except String (Response B))
    (h : guardHop urls net bases past url = (.ok (), check)) :
    AllGuarded urls clients bases past
      (check ++ [.requested (requestTo urls clients basicAuth bases url) answer]) :=
  allGuarded_append (allGuarded_check (by rw [h])) ⟨guarded_requestTo h, trivial⟩

/-- Every hop is guarded, and so are all of them together. -/
theorem allGuarded_followHops (clients : Clients) (basicAuth : Option (String × String))
    (bases : List U) (hops : ℕ) (past : List (Event U B)) (url : U) :
    AllGuarded urls clients bases past
      (followHops urls net clients basicAuth bases hops past url).2 := by
  induction hops generalizing past url with
  | zero => trivial
  | succ hops ih =>
    obtain ⟨e, check, hguard, hrun⟩ | ⟨check, answer, hguard, hrun⟩ :=
      followHops_cases urls net clients basicAuth bases hops past url
    · rw [hrun]
      exact allGuarded_check (by rw [hguard])
    · have hhop : AllGuarded urls clients bases past
          (check ++ [.requested (requestTo urls clients basicAuth bases url) answer]) :=
        allGuarded_hop answer hguard
      obtain ⟨e, hrun⟩ | ⟨resp, -, -, hrun⟩ | ⟨resp, location, next, -, -, -, -, hrun⟩ := hrun
      · rw [hrun]
        exact hhop
      · rw [hrun]
        exact hhop
      · rw [hrun]
        exact allGuarded_append hhop (ih _ next)

/-- No credentials leave the trusted origins, and nothing off them is sent unchecked or, where
the caller mounts the resolver, dialled at an address that is not public. -/
theorem requests_are_guarded (env : Environment) (opts : UpstreamHttpOptions) (caller : Caller)
    (basicAuth : Option (String × String)) (trustedOrigins : List String) (start : U)
    {before after : List (Event U B)} {r : Request U} {answer : Except String (Response B)}
    (h : (fetchTrusting urls net (clientsOf env opts caller) basicAuth trustedOrigins start).2 =
      before ++ .requested r answer :: after) :
    Guarded urls (clientsOf env opts caller) (basesOf urls trustedOrigins) before r ∧
      ((clientsOf env opts caller).plain.publicOnly = true ↔ Mounts env opts caller) := by
  have hall : AllGuarded urls (clientsOf env opts caller) (basesOf urls trustedOrigins) []
      (fetchTrusting urls net (clientsOf env opts caller) basicAuth trustedOrigins start).2 :=
    allGuarded_followHops _ basicAuth _ _ [] start
  rw [h] at hall
  have hsplit := ((Runs.guarded_append _ [] before _).mp hall).2.1
  rw [run_record, List.nil_append] at hsplit
  exact ⟨hsplit, mounts_iff env opts caller⟩

end Requests

section Chain
variable {urls net}

/-- What was sent, and what came back. -/
def sentOf (events : List (Event U B)) : List (Request U × Except String (Response B)) :=
  events.filterMap fun
    | .requested r answer => some (r, answer)
    | .lookedUp _ _ _ => none

/-- The first answer redirects to where the second request goes. -/
def Leads (urls : UrlLibrary U) (p q : Request U × Except String (Response B)) : Prop :=
  ∃ resp location, p.2 = .ok resp ∧ isRedirection resp.status = true ∧
    resp.location = some location ∧ urls.join p.1.url location = .ok q.1.url

/-- The requests of a fetch follow the redirects from `start` on, at most `hops` times, and what
is returned is the last answer, which redirects nowhere. -/
structure Follows (urls : UrlLibrary U) (hops : ℕ) (start : U)
    (sent : List (Request U × Except String (Response B)))
    (result : Except CoreError (U × Response B)) : Prop where
  bounded : sent.length ≤ hops
  first : ∀ p ∈ sent.head?, p.1.url = start
  chain : sent.IsChain (Leads urls)
  answered : ∀ url resp, result = .ok (url, resp) → isRedirection resp.status = false ∧
    ∃ r, sent.getLast? = some (r, .ok resp) ∧ r.url = url

theorem sentOf_append (before after : List (Event U B)) :
    sentOf (before ++ after) = sentOf before ++ sentOf after := List.filterMap_append

theorem sentOf_check {bases : List U} {past check : List (Event U B)} {url : U}
    {result : Except CoreError Unit} (h : guardHop urls net bases past url = (result, check)) :
    sentOf check = [] := by
  rw [sentOf, List.filterMap_eq_nil_iff]
  intro e he
  have he' : e ∈ (guardHop urls net bases past url).2 := by rwa [h]
  unfold guardHop at he'
  split at he'
  · cases he'
  · obtain ⟨host, port, found, rfl⟩ := not_requested_of_mem_check he'
    rfl

/-- Nothing is sent, and nothing returned. -/
theorem Follows.refused (urls : UrlLibrary U) (hops : ℕ) (start : U) (e : CoreError) :
    Follows urls hops start ([] : List (Request U × Except String (Response B))) (.error e) := by
  refine ⟨Nat.zero_le _, ?_, .nil, ?_⟩
  · intro p hp
    cases hp
  · intro url resp h
    cases h

/-- The chain grows at its front. -/
theorem Follows.cons {hops : ℕ} {start next : U} {r : Request U} {resp : Response B}
    {location : String} {sent : List (Request U × Except String (Response B))}
    {result : Except CoreError (U × Response B)} (h : Follows urls hops next sent result)
    (hurl : r.url = start) (hredirect : isRedirection resp.status = true)
    (hlocation : resp.location = some location) (hjoin : urls.join start location = .ok next) :
    Follows urls (hops + 1) start ((r, .ok resp) :: sent) result := by
  refine ⟨Nat.succ_le_succ h.bounded, ?_, ?_, ?_⟩
  · intro p hp
    obtain rfl := Option.mem_some_iff.mp hp
    exact hurl
  · cases sent with
    | nil => exact .singleton _
    | cons q sent =>
      exact .cons_cons ⟨resp, location, rfl, hredirect, hlocation,
        by rw [hurl, hjoin, h.first q rfl]⟩ h.chain
  · intro url answer hresult
    obtain ⟨hfinal, r', hlast, hurl'⟩ := h.answered url answer hresult
    refine ⟨hfinal, r', ?_, hurl'⟩
    cases sent with
    | nil => cases hlast
    | cons p sent => rwa [List.getLast?_cons_cons]

theorem follows_followHops (clients : Clients) (basicAuth : Option (String × String))
    (bases : List U) (hops : ℕ) (past : List (Event U B)) (url : U) :
    Follows urls hops url (sentOf (followHops urls net clients basicAuth bases hops past url).2)
      (followHops urls net clients basicAuth bases hops past url).1 := by
  induction hops generalizing past url with
  | zero => exact .refused urls 0 url _
  | succ hops ih =>
    obtain ⟨e, check, hguard, hrun⟩ | ⟨check, answer, hguard, hrun⟩ :=
      followHops_cases urls net clients basicAuth bases hops past url
    · rw [hrun, sentOf_check hguard]
      exact .refused urls _ url e
    · have hsent : sentOf (check ++
            [.requested (requestTo urls clients basicAuth bases url) answer]) =
          [(requestTo urls clients basicAuth bases url, answer)] := by
        rw [sentOf_append, sentOf_check hguard]
        rfl
      have hurl := url_requestTo urls clients basicAuth bases url
      have hfirst : ∀ p ∈ [(requestTo urls clients basicAuth bases url, answer)].head?,
          p.1.url = url := by
        intro p hp
        obtain rfl := Option.mem_some_iff.mp hp
        exact hurl
      obtain ⟨e, hrun⟩ | ⟨resp, rfl, hfinal, hrun⟩ |
        ⟨resp, location, next, rfl, hredirect, hlocation, hjoin, hrun⟩ := hrun
      · rw [hrun, hsent]
        exact ⟨Nat.succ_le_succ (Nat.zero_le _), hfirst, .singleton _,
          fun url resp h => by cases h⟩
      · rw [hrun, hsent]
        refine ⟨Nat.succ_le_succ (Nat.zero_le _), hfirst, .singleton _, fun url' resp' h => ?_⟩
        cases h
        exact ⟨hfinal, _, rfl, hurl⟩
      · rw [hrun, sentOf_append, hsent, List.singleton_append]
        exact (ih _ next).cons hurl hredirect hlocation hjoin

/-- A fetch walks the chain of redirects and nothing else, for six requests at most. -/
theorem fetch_walks_the_redirects (urls : UrlLibrary U) (net : Network U B) (clients : Clients)
    (basicAuth : Option (String × String)) (trustedOrigins : List String) (start : U) :
    Follows urls (MAX_REDIRECTS + 1) start
      (sentOf (fetchTrusting urls net clients basicAuth trustedOrigins start).2)
      (fetchTrusting urls net clients basicAuth trustedOrigins start).1 :=
  follows_followHops clients basicAuth _ _ [] start

end Chain

end Model

section Sample

/-- URLs that are their hosts. -/
def sampleUrls : UrlLibrary String where
  parse := .ok
  join := fun _ location => .ok location
  scheme := fun _ => "http"
  hostStr := some
  portOrKnownDefault := fun _ => some 80
  asStr := id
  redacted := id

/-- The trusted forge redirects to a public host. -/
def sampleNetwork : Network String Unit where
  lookupHost := fun _ _ _ => .ok [.v4 93 184 216 34]
  send := fun _ r =>
    if r.url = "git.internal" then .ok ⟨302, some "cdn.example", ()⟩ else .ok ⟨200, none, ()⟩

def sampleOptions : UpstreamHttpOptions := ⟨some "token", none, none⟩

/-- No variable is set. -/
def sampleEnvironment : Environment := fun _ => none

def sampleClients : Clients := clientsOf sampleEnvironment sampleOptions .registry

/-- The second request is off the origin, and guarded. -/
theorem redirect_leaves_credentials_behind :
    (clientsOf sampleEnvironment sampleOptions .registry).credentialed.authHeaders = true ∧
    Guarded sampleUrls sampleClients (basesOf sampleUrls ["git.internal"])
      [.requested ⟨sampleClients.credentialed, "git.internal", some ("bot", "token"), "*/*"⟩
          (.ok ⟨302, some "cdn.example", ()⟩),
        .lookedUp "cdn.example" 80 (.ok [.v4 93 184 216 34])]
      ⟨sampleClients.plain, "cdn.example", none, "*/*"⟩ ∧
    Mounts sampleEnvironment sampleOptions .registry := by
  have hrun : (fetchTrusting sampleUrls sampleNetwork
      (clientsOf sampleEnvironment sampleOptions .registry) (some ("bot", "token"))
      ["git.internal"] "git.internal").2 =
      [.requested ⟨sampleClients.credentialed, "git.internal", some ("bot", "token"), "*/*"⟩
          (.ok ⟨302, some "cdn.example", ()⟩),
        .lookedUp "cdn.example" 80 (.ok [.v4 93 184 216 34])] ++
      .requested ⟨sampleClients.plain, "cdn.example", none, "*/*"⟩ (.ok ⟨200, none, ()⟩) :: [] :=
    rfl
  obtain ⟨hguarded, hmounts⟩ := requests_are_guarded sampleEnvironment sampleOptions .registry
    _ _ _ hrun
  exact ⟨rfl, hguarded, hmounts.mp rfl⟩

/-- Without the resolver, the second lookup of a checked name may lead anywhere. -/
example :
    dialled sampleUrls terraformClients.plain (.ok [.v4 169 254 169 254]) "cdn.example" =
        [.v4 169 254 169 254] ∧
      dialled sampleUrls sampleClients.plain (.ok [.v4 169 254 169 254]) "cdn.example" = [] :=
  ⟨rfl, rfl⟩

end Sample

end BatleHub.GuardedFetches
