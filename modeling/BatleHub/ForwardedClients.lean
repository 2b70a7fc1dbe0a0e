import BatleHub.Lib.HeaderValues
import BatleHub.Lib.IpTexts
import BatleHub.Lib.Segments

/-!
Whose request it is, behind reverse proxies. Each proxy appends the address it saw to
`X-Forwarded-For`, so the walk goes from the right and stops at the first address that is no
proxy of ours; what stands further left is what the client chose to send. A list of networks
is a parameter with its test for an address.
-/
namespace BatleHub.ForwardedClients

open Lib.HeaderValues Lib.IpTexts

abbrev Text := List Char

section Hops

/-- `:` and a number of sixteen bits, at the end of a text. -/
def readPort : Text → Bool
  | ':' :: digits =>
    match readNumber 10 digits.length true 65536 digits with
    | some (_, []) => true
    | _ => false
  | _ => false

/-- `%` and a number of 32 bits, if there is one. -/
def skipScope (input : Text) : Text :=
  match input with
  | '%' :: digits =>
    match readNumber 10 digits.length true (2 ^ 32) digits with
    | some (_, rest) => rest
    | none => input
  | _ => input

/-- The address of a `SocketAddr`. -/
def parseSocketIp (text : Text) : Option IpAddr :=
  match readIpv4 text with
  | some ((a, b, c, d), rest) => if readPort rest then some (.v4 a b c d) else none
  | none =>
    match text with
    | '[' :: inner =>
      match readIpv6 inner with
      | some (segments, rest) =>
        match skipScope rest with
        | ']' :: port => if readPort port then some (.v6 segments) else none
        | _ => none
      | none => none
    | _ => none

/-- An entry of the list: an address, or one with a port. -/
def parseForwardedHop (hop : Text) : Option IpAddr :=
  match parseIp (String.ofList hop) with
  | some ip => some ip
  | none => parseSocketIp hop

/-- A header line, or nothing where its bytes are no visible text. -/
abbrev Line := Option Text

/-- The entries of all lines, in order. -/
def hops (lines : List Line) : List Text :=
  (lines.filterMap id).flatMap fun value => value.splitOn ','

end Hops

section Policy

/-- The verdict on the peer of a request. -/
inductive PeerTrust where
  | legacyPermissive
  | trusted
  | untrusted
  deriving DecidableEq, Repr

def PeerTrust.honoursForwardedFor : PeerTrust → Bool
  | .trusted => true
  | _ => false

variable {Net : Type*} (contains : Net → IpAddr → Bool)

/-- One of the configured proxies; without a list there is none. -/
def isProxy (policy : Option (List Net)) (ip : IpAddr) : Bool :=
  policy.any fun networks => networks.any fun net => contains net ip

def verdictFor (policy : Option (List Net)) (peer : Option IpAddr) : PeerTrust :=
  match policy with
  | none => .legacyPermissive
  | some networks =>
    if peer.any fun ip => networks.any fun net => contains net ip then .trusted else .untrusted

structure Request where
  peer : Option IpAddr
  forwardedFor : List Line

/-- `MAX_FORWARDED_HOPS`. -/
def maxForwardedHops : ℕ := 64

/-- The ring keeps the right end of the list. -/
def pushHop (tail : List Text) (hop : Text) : List Text :=
  (if tail.length = maxForwardedHops then tail.drop 1 else tail) ++ [hop]

/-- The walk, over the entries from the right. -/
def walkBack (policy : Option (List Net)) : List Text → Option IpAddr
  | [] => none
  | hop :: rest =>
    match parseForwardedHop (trim hop) with
    -- an entry that does not parse ends the walk
    | none => none
    | some ip => if isProxy contains policy ip then walkBack policy rest else some ip

def forwardedClientIp (policy : Option (List Net)) (r : Request) : Option IpAddr :=
  walkBack contains policy ((hops r.forwardedFor).foldl pushHop []).reverse

def ipText : IpAddr → String
  | .v4 a b c d => ipv4Text a b c d
  | .v6 segments => ipv6Text segments

def peerText (peer : Option IpAddr) : String :=
  match peer with
  | some ip => ipText ip
  | none => "unknown"

def clientIp (policy : Option (List Net)) (r : Request) (trust : PeerTrust) : String :=
  match if trust.honoursForwardedFor then forwardedClientIp contains policy r else none with
  | some ip => ipText ip
  | none => peerText r.peer

end Policy

section Walk

variable {Net : Type*} {contains : Net → IpAddr → Bool} {policy : Option (List Net)}

/-- The ring holds the last entries. -/
theorem foldl_pushHop (entries : List Text) :
    entries.foldl pushHop [] = entries.drop (entries.length - maxForwardedHops) := by
  induction entries using List.reverseRecOn with
  | nil => rfl
  | append_singleton entries hop ih =>
    rw [List.foldl_append, ih, List.foldl_cons, List.foldl_nil, pushHop, List.length_append,
      List.length_singleton, List.length_drop]
    unfold maxForwardedHops
    by_cases hfull : 64 ≤ entries.length
    · rw [if_pos (by omega), List.drop_drop, List.drop_append_of_le_length (by omega)]
      congr 2
      omega
    · have hshort : entries.length - 64 = 0 := by omega
      have hshort' : entries.length + 1 - 64 = 0 := by omega
      rw [hshort, hshort', if_neg (by omega)]
      rfl

theorem forwardedClientIp_eq (r : Request) :
    forwardedClientIp contains policy r =
      walkBack contains policy ((hops r.forwardedFor).reverse.take maxForwardedHops) := by
  rw [forwardedClientIp, foldl_pushHop, List.take_reverse]

/-- A hop that reads as one of our proxies. -/
def Ours (contains : Net → IpAddr → Bool) (policy : Option (List Net)) (hop : Text) : Prop :=
  ∃ ip, parseForwardedHop (trim hop) = some ip ∧ isProxy contains policy ip = true

theorem walkBack_cons (hop : Text) (rest : List Text) :
    walkBack contains policy (hop :: rest) =
      match parseForwardedHop (trim hop) with
      | none => none
      | some ip =>
        if isProxy contains policy ip then walkBack contains policy rest else some ip := by
  rfl

theorem walkBack_append {ours : List Text} (h : ∀ hop ∈ ours, Ours contains policy hop)
    (rest : List Text) :
    walkBack contains policy (ours ++ rest) = walkBack contains policy rest := by
  induction ours with
  | nil => rfl
  | cons hop ours ih =>
    obtain ⟨ip, hread, hproxy⟩ := h hop List.mem_cons_self
    rw [List.cons_append, walkBack_cons, hread]
    dsimp only
    rw [if_pos hproxy]
    exact ih fun hop' hmem => h hop' (List.mem_cons_of_mem hop hmem)

theorem walkBack_eq_some_iff (entries : List Text) (ip : IpAddr) :
    walkBack contains policy entries = some ip ↔
      ∃ ours hop rest, entries = ours ++ hop :: rest ∧ (∀ h ∈ ours, Ours contains policy h) ∧
        parseForwardedHop (trim hop) = some ip ∧ isProxy contains policy ip = false := by
  constructor
  · intro h
    induction entries with
    | nil => cases h
    | cons hop rest ih =>
      rw [walkBack_cons] at h
      cases hread : parseForwardedHop (trim hop) with
      | none =>
        rw [hread] at h
        cases h
      | some found =>
        rw [hread] at h
        dsimp only at h
        split at h
        · rename_i hproxy
          obtain ⟨ours, last, rest', rfl, hours, hlast⟩ := ih h
          refine ⟨hop :: ours, last, rest', rfl, ?_, hlast⟩
          exact List.forall_mem_cons.mpr ⟨⟨found, hread, hproxy⟩, hours⟩
        · rename_i hproxy
          obtain rfl := Option.some.inj h
          exact ⟨[], hop, rest, rfl, by simp, hread, by simpa using hproxy⟩
  · intro h
    obtain ⟨ours, hop, rest, rfl, hours, hread, hproxy⟩ := h
    rw [walkBack_append hours, walkBack_cons, hread]
    simp [hproxy]

theorem forwardedClientIp_eq_some_iff (r : Request) (ip : IpAddr) :
    forwardedClientIp contains policy r = some ip ↔
      ∃ before hop after, hops r.forwardedFor = before ++ hop :: after ∧
        after.length < maxForwardedHops ∧ (∀ h ∈ after, Ours contains policy h) ∧
        parseForwardedHop (trim hop) = some ip ∧ isProxy contains policy ip = false := by
  rw [forwardedClientIp_eq, walkBack_eq_some_iff]
  constructor
  · intro hex
    obtain ⟨ours, hop, rest, hentries, hours, hread⟩ := hex
    have hall := List.take_append_drop maxForwardedHops (hops r.forwardedFor).reverse
    rw [hentries] at hall
    refine ⟨(rest ++ (hops r.forwardedFor).reverse.drop maxForwardedHops).reverse, hop,
      ours.reverse, ?_, ?_, ?_, hread⟩
    · have hback := (congrArg List.reverse hall).symm
      rw [List.reverse_reverse] at hback
      refine hback.trans ?_
      simp
    · have hlen := congrArg List.length hentries
      rw [List.length_take, List.length_append, List.length_cons] at hlen
      rw [List.length_reverse]
      omega
    · exact fun h hmem => hours h (List.mem_reverse.mp hmem)
  · intro hex
    obtain ⟨before, hop, after, hentries, hlen, hours, hread⟩ := hex
    refine ⟨after.reverse, hop, before.reverse.take (maxForwardedHops - after.length - 1), ?_,
      ?_, hread⟩
    · have hmore : maxForwardedHops - after.length =
          maxForwardedHops - after.length - 1 + 1 := by omega
      rw [hentries, List.reverse_append, List.reverse_cons, List.append_assoc,
        List.take_append, List.length_reverse, List.take_of_length_le (by simp; omega), hmore]
      rfl
    · exact fun h hmem => hours h (List.mem_reverse.mp hmem)

end Walk

section Chain

/-- A header list with one entry more, on a line of its own or at the end of the last one. -/
def appendHop (ownLine : Bool) (written : Text) : List Line → List Line
  | [] => [some written]
  | [last] =>
    if ownLine then [last, some written] else [last.map fun value => value ++ ',' :: ' ' :: written]
  | line :: rest => line :: appendHop ownLine written rest

/-- A proxy on the way, and how it wrote the address that it saw. -/
structure Leg where
  address : IpAddr
  ownLine : Bool
  written : Text

/-- The request as it leaves the last proxy: each has appended the peer it saw. -/
def relay : Request → List Leg → Request
  | r, [] => r
  | r, leg :: legs =>
    relay ⟨some leg.address, appendHop leg.ownLine leg.written r.forwardedFor⟩ legs

/-- What `HeaderValue::to_str` lets pass: a tab or a visible ASCII character. -/
def IsVisible (c : Char) : Prop := c.toNat = 9 ∨ 32 ≤ c.toNat ∧ c.toNat < 127

instance (c : Char) : Decidable (IsVisible c) := inferInstanceAs (Decidable (_ ∨ _ ∧ _))

/-- Each proxy writes the address it sees, in visible characters that are read as it. -/
def Honest : IpAddr → List Leg → Prop
  | _, [] => True
  | seen, leg :: legs =>
    ((∀ c ∈ leg.written, IsVisible c) ∧ ',' ∉ leg.written ∧
        parseForwardedHop (trim leg.written) = some seen) ∧
      Honest leg.address legs

instance decidableHonest : (seen : IpAddr) → (legs : List Leg) → Decidable (Honest seen legs)
  | _, [] => isTrue trivial
  | _, leg :: legs =>
    have := decidableHonest leg.address legs
    have : Decidable (∀ c ∈ leg.written, IsVisible c) := List.decidableBAll _ _
    inferInstanceAs (Decidable (_ ∧ _))

/-- The last line is text, so that what is appended to it can be read. -/
def EndsReadable (lines : List Line) : Prop := lines.getLast? ≠ some none

instance (lines : List Line) : Decidable (EndsReadable lines) := inferInstanceAs (Decidable (_ ≠ _))

theorem hops_cons (line : Line) (lines : List Line) :
    hops (line :: lines) = hops [line] ++ hops lines := by
  cases line <;> simp [hops]

theorem hops_appendHop {ownLine : Bool} {written : Text} {lines : List Line}
    (hcomma : ',' ∉ written) (hlast : ownLine = true ∨ EndsReadable lines) :
    (∃ hop, hops (appendHop ownLine written lines) = hops lines ++ [hop] ∧
        trim hop = trim written) ∧
      EndsReadable (appendHop ownLine written lines) := by
  have hsplit : written.splitOn ',' = [written] := List.splitOn_eq_singleton hcomma
  induction lines with
  | nil =>
    exact ⟨⟨written, by simp [hops, appendHop, hsplit], rfl⟩, by simp [EndsReadable, appendHop]⟩
  | cons line rest ih =>
    cases rest with
    | nil =>
      cases hown : ownLine with
      | true =>
        refine ⟨⟨written, ?_, rfl⟩, by simp [EndsReadable, appendHop]⟩
        cases line <;> simp [hops, appendHop, hsplit]
      | false =>
        cases line with
        | none => simp [hown, EndsReadable] at hlast
        | some value =>
          refine ⟨⟨' ' :: written, ?_, trim_blank_cons written⟩, by simp [EndsReadable, appendHop]⟩
          have hblank : (' ' :: written).splitOn ',' = [' ' :: written] :=
            List.splitOn_eq_singleton (by simp [hcomma])
          simp [hops, appendHop, List.splitOn_append_cons_self, hblank]
    | cons next rest =>
      have hlast' : ownLine = true ∨ EndsReadable (next :: rest) := by
        simpa [EndsReadable] using hlast
      obtain ⟨⟨hop, hhops, htrim⟩, hends⟩ := ih hlast'
      have hnext : appendHop ownLine written (line :: next :: rest) =
          line :: appendHop ownLine written (next :: rest) := rfl
      refine ⟨⟨hop, ?_, htrim⟩, ?_⟩
      · rw [hnext, hops_cons, hhops, hops_cons line (next :: rest), List.append_assoc]
      · rw [hnext]
        cases htail : appendHop ownLine written (next :: rest) with
        | nil =>
          rw [htail] at hhops
          simp [hops] at hhops
        | cons first more =>
          rw [htail] at hends
          simpa [EndsReadable] using hends

variable {Net : Type*} {contains : Net → IpAddr → Bool} {policy : Option (List Net)}

/-- Behind what the client sent stand the address that the first proxy saw and those of the
other proxies, however each of them wrote it. -/
theorem hops_relay (peer : Option IpAddr) {leg : Leg} {legs : List Leg} {seen : IpAddr}
    {lines : List Line} (hhonest : Honest seen (leg :: legs))
    (hours : ∀ l ∈ leg :: legs, isProxy contains policy l.address = true)
    (hlast : leg.ownLine = true ∨ EndsReadable lines) :
    ∃ hop after, hops (relay ⟨peer, lines⟩ (leg :: legs)).forwardedFor =
        hops lines ++ hop :: after ∧ parseForwardedHop (trim hop) = some seen ∧
      after.length = legs.length ∧ ∀ h ∈ after, Ours contains policy h := by
  obtain ⟨⟨-, hcomma, hread⟩, hrest⟩ := hhonest
  obtain ⟨⟨hop, hhops, htrim⟩, hends⟩ := hops_appendHop hcomma hlast
  induction legs generalizing leg peer seen lines hop with
  | nil => exact ⟨hop, [], by simp [relay, hhops], by rw [htrim, hread], rfl, by simp⟩
  | cons next legs ih =>
    obtain ⟨⟨-, hcomma', hread'⟩, hrest'⟩ := hrest
    have hnext : next.ownLine = true ∨ EndsReadable (appendHop leg.ownLine leg.written lines) :=
      .inr hends
    obtain ⟨⟨hop', hhops', htrim'⟩, hends'⟩ := hops_appendHop hcomma' hnext
    obtain ⟨hop'', after, heq, hfirst, hlen, hafter⟩ := ih (some leg.address)
      (fun l hl => hours l (List.mem_cons_of_mem leg hl)) hnext hrest' hcomma' hread' hends' hop'
      hhops' htrim'
    refine ⟨hop, hop'' :: after, ?_, by rw [htrim, hread], by simp [hlen], ?_⟩
    · rw [hhops] at heq
      rw [relay]
      simpa using heq
    · refine List.forall_mem_cons.mpr ⟨?_, hafter⟩
      exact ⟨leg.address, hfirst, hours leg List.mem_cons_self⟩

theorem peer_relay (r : Request) (leg : Leg) (legs : List Leg) :
    (relay r (leg :: legs)).peer =
      some ((leg :: legs).getLast (List.cons_ne_nil leg legs)).address := by
  induction legs generalizing r leg with
  | nil => rfl
  | cons next legs ih =>
    rw [relay, ih, List.getLast_cons (List.cons_ne_nil next legs)]

end Chain

section Main

variable {Net : Type*} (contains : Net → IpAddr → Bool) (policy : Option (List Net))

/-- The peer stands in one of the configured networks. -/
def PeerListed (peer : Option IpAddr) : Prop :=
  ∃ networks ip net, policy = some networks ∧ peer = some ip ∧ net ∈ networks ∧
    contains net ip = true

theorem verdictFor_eq_trusted_iff (peer : Option IpAddr) :
    verdictFor contains policy peer = .trusted ↔ PeerListed contains policy peer := by
  unfold verdictFor PeerListed
  cases policy with
  | none => simp
  | some networks => cases peer <;> simp

/-- The header counts only where the peer is one of the configured proxies, and then the
client is the address in the last 64 entries behind which every entry is one of our proxies
and which is none itself. -/
theorem clientIp_reads_from_the_right (r : Request) :
    (¬ PeerListed contains policy r.peer →
        clientIp contains policy r (verdictFor contains policy r.peer) = peerText r.peer) ∧
      (PeerListed contains policy r.peer →
        (∀ ip before hop after, hops r.forwardedFor = before ++ hop :: after →
          after.length < maxForwardedHops → (∀ h ∈ after, Ours contains policy h) →
          parseForwardedHop (trim hop) = some ip → isProxy contains policy ip = false →
          clientIp contains policy r (verdictFor contains policy r.peer) = ipText ip) ∧
        ((¬ ∃ ip before hop after, hops r.forwardedFor = before ++ hop :: after ∧
            after.length < maxForwardedHops ∧ (∀ h ∈ after, Ours contains policy h) ∧
            parseForwardedHop (trim hop) = some ip ∧ isProxy contains policy ip = false) →
          clientIp contains policy r (verdictFor contains policy r.peer) = peerText r.peer)) := by
  refine ⟨?_, fun hlisted => ?_⟩
  · intro hunlisted
    unfold clientIp
    cases hverdict : verdictFor contains policy r.peer with
    | trusted =>
      exact absurd ((verdictFor_eq_trusted_iff contains policy r.peer).mp hverdict) hunlisted
    | _ => rfl
  · rw [(verdictFor_eq_trusted_iff contains policy r.peer).mpr hlisted]
    refine ⟨?_, ?_⟩
    · intro ip before hop after hhops hlen hours hread hclient
      have hfound := (forwardedClientIp_eq_some_iff r ip).mpr
        ⟨before, hop, after, hhops, hlen, hours, hread, hclient⟩
      simp only [clientIp, PeerTrust.honoursForwardedFor, if_true, hfound]
    · intro hnone
      have hmissing : forwardedClientIp contains policy r = none := by
        cases hfound : forwardedClientIp contains policy r with
        | none => rfl
        | some ip => exact absurd ⟨ip, (forwardedClientIp_eq_some_iff r ip).mp hfound⟩ hnone
      simp only [clientIp, PeerTrust.honoursForwardedFor, if_true, hmissing]

/-- A peer that nobody listed is the client, whatever the header says. -/
theorem unlisted_peer_is_the_client :
    clientIp (fun net ip => decide (net = ip)) (some [.v4 10 0 0 1])
        ⟨some (.v4 203 0 113 7), [some "198.51.100.1".toList]⟩
        (verdictFor (fun net ip => decide (net = ip)) (some [.v4 10 0 0 1])
          (some (.v4 203 0 113 7))) = peerText (some (.v4 203 0 113 7)) := by
  refine (clientIp_reads_from_the_right (fun net ip => decide (net = ip)) (some [.v4 10 0 0 1])
    ⟨some (.v4 203 0 113 7), [some "198.51.100.1".toList]⟩).1 ?_
  rintro ⟨networks, ip, net, hnetworks, hpeer, hnet, hcontains⟩
  obtain rfl := Option.some.inj hnetworks
  obtain rfl := Option.some.inj hpeer
  obtain rfl := List.mem_singleton.mp hnet
  exact absurd hcontains (by decide)

/-- A client outside our networks is known by its own address, whatever it sends, through any
chain of at most 64 of our proxies. -/
theorem client_behind_proxies {client : IpAddr} {lines : List Line} {leg : Leg}
    {legs : List Leg} (hclient : isProxy contains policy client = false)
    (hours : ∀ l ∈ leg :: legs, isProxy contains policy l.address = true)
    (hhonest : Honest client (leg :: legs)) (hlen : legs.length < maxForwardedHops)
    (hlast : leg.ownLine = true ∨ EndsReadable lines) :
    clientIp contains policy (relay ⟨some client, lines⟩ (leg :: legs))
        (verdictFor contains policy (relay ⟨some client, lines⟩ (leg :: legs)).peer) =
      ipText client := by
  have htrusted : verdictFor contains policy (relay ⟨some client, lines⟩ (leg :: legs)).peer =
      .trusted := by
    rw [verdictFor_eq_trusted_iff, peer_relay]
    have hpeer := hours _ (List.getLast_mem (List.cons_ne_nil leg legs))
    unfold isProxy at hpeer
    cases policy with
    | none => cases hpeer
    | some networks =>
      obtain ⟨net, hnet, hcontains⟩ := List.any_eq_true.mp hpeer
      exact ⟨networks, _, net, rfl, rfl, hnet, hcontains⟩
  obtain ⟨hop, after, hhops, hread, hcount, hafter⟩ :=
    hops_relay (some client) hhonest hours hlast
  have hforwarded : forwardedClientIp contains policy
      (relay ⟨some client, lines⟩ (leg :: legs)) = some client := by
    rw [forwardedClientIp_eq_some_iff]
    exact ⟨_, hop, after, hhops, by omega, hafter, hread, hclient⟩
  unfold clientIp
  rw [htrusted]
  simp only [PeerTrust.honoursForwardedFor, if_true, hforwarded]

/-- The client names another address first; the second proxy writes a port with what it saw. -/
theorem spoofing_client_is_known :
    clientIp (fun net ip => decide (net = ip)) (some [.v4 10 0 0 1, .v4 10 0 0 2])
        (relay ⟨some (.v4 203 0 113 7), [some "198.51.100.1".toList]⟩
          [⟨.v4 10 0 0 1, false, "203.0.113.7".toList⟩,
            ⟨.v4 10 0 0 2, true, "10.0.0.1:443".toList⟩])
        (verdictFor (fun net ip => decide (net = ip)) (some [.v4 10 0 0 1, .v4 10 0 0 2])
          (some (.v4 10 0 0 2))) = "203.0.113.7" := by
  have hours : ∀ l ∈ [(⟨.v4 10 0 0 1, false, "203.0.113.7".toList⟩ : Leg),
      ⟨.v4 10 0 0 2, true, "10.0.0.1:443".toList⟩],
      isProxy (fun net ip => decide (net = ip)) (some [.v4 10 0 0 1, .v4 10 0 0 2]) l.address =
        true := by decide
  exact client_behind_proxies (fun net ip => decide (net = ip))
    (some [.v4 10 0 0 1, .v4 10 0 0 2]) (by decide) hours (by decide) (by decide) (by decide)

end Main

end BatleHub.ForwardedClients
