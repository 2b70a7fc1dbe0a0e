import BatleHub.Lib.PercentEncoding
import BatleHub.Lib.Texts
import BatleHub.Vocabulary

/-!
Git forge coordinates (`entities/forge.rs`) and the URL that the GitLab client asks for
(`gitlab/client.rs`). A read keyed by a commit is rewritten onto the commit it resolved
to. The GitLab spelling of a raw file carries the ref in the selector as well, where the
rewriting leaves it.
-/
namespace BatleHub.Forge

open Lib

/-- A full commit SHA. A text whose bytes are all hexadecimal digits has as many
characters as bytes. -/
def isCommitSha (s : String) : Bool :=
  decide (s.toList.length = 40) && s.toList.all fun c => (Hex.valueOf c).isSome

inductive ArchiveFormat where
  | tarGz
  | zip
  deriving DecidableEq, Repr

/-- The kind of thing a forge request names. -/
inductive ForgeKind where
  | listing
  | release (tag : String)
  | asset (tag selector : String)
  | archive (gitRef : String) (format : ArchiveFormat)
  | raw (gitRef path : String)
  deriving DecidableEq, Repr

/-- A forge request, read back from the coordinate that the handler built. -/
structure ForgeCoordinate where
  ownerRepo : String
  kind : ForgeKind
  deriving DecidableEq, Repr

namespace ForgeCoordinate

def kindOf (version : String) : Option String → Option ForgeKind
  | none => if version = "releases" then some .listing else some (.release version)
  | some a =>
    if Texts.startsWith a "pkgpath/" then none
    else if Texts.startsWith a "tarball/" then some (.archive version .tarGz)
    else if a = "zipball" then some (.archive version .zip)
    else
      match Texts.stripPrefix a "rawfile/" with
      | some rest => some (.raw version ((Texts.stripPrefix rest (version ++ "/")).getD rest))
      | none =>
        match Texts.stripPrefix a "raw/" with
        | some path => some (.raw version path)
        | none => some (.asset version a)

/-- Read the handler's conventions back. -/
def fromPackageId (pkg : PackageId) : Option ForgeCoordinate :=
  (kindOf pkg.version pkg.artifact).map (ForgeCoordinate.mk pkg.name)

/-- The resolved commit becomes the cache key. -/
def keyedByCommit (c : ForgeCoordinate) : Bool :=
  match c.kind with
  | .archive _ _ => true
  | .raw _ _ => true
  | _ => false

/-- The coordinate rewritten onto its resolved commit. -/
def rewriteOnto (c : ForgeCoordinate) (pkg : PackageId) (sha : String) : PackageId :=
  if c.keyedByCommit then
    { registry := pkg.registry
      name := pkg.name
      version := sha
      artifact :=
        match c.kind with
        | .archive _ .tarGz => some ("tarball/" ++ sha)
        | _ => pkg.artifact }
  else pkg

/-- The same request at another ref. -/
def withRef (c : ForgeCoordinate) (sha : String) : ForgeCoordinate :=
  match c.kind with
  | .archive _ format => ⟨c.ownerRepo, .archive sha format⟩
  | .raw _ path => ⟨c.ownerRepo, .raw sha path⟩
  | _ => c

/-- The path of a raw file. -/
def path? (c : ForgeCoordinate) : Option String :=
  match c.kind with
  | .raw _ path => some path
  | _ => none

end ForgeCoordinate

/-- The GitLab client, with the lookup of a release link and the check of an assembled
URL against the API base. -/
structure GitlabRegistryClient where
  root : String
  linkDownloadUrl : String → String → String → Except CoreError String
  ensureUrlUnderBase : String → String → Except CoreError Unit

namespace GitlabRegistryClient

variable (client : GitlabRegistryClient)

def apiBaseUrl : String := client.root ++ "/api/v4"

/-- The full project path, URL-encoded. -/
def projectSelector (project : String) : String := PercentEncoding.encode project

def rawFileUrl (project gitRef path : String) : String :=
  client.apiBaseUrl ++ "/projects/" ++ projectSelector project ++ "/repository/files/" ++
    PercentEncoding.encode path ++ "/raw?ref=" ++ PercentEncoding.encode gitRef

def passthroughUrl (relative : String) : Except CoreError String := do
  let url := client.root ++ "/" ++ relative
  client.ensureUrlUnderBase url client.apiBaseUrl
  .ok url

def sourceArchiveUrl (project tag format : String) : String :=
  client.apiBaseUrl ++ "/projects/" ++ projectSelector project ++ "/repository/archive." ++
    format ++ "?sha=" ++ PercentEncoding.encode tag

def releaseUrl (project tag : String) : String :=
  client.apiBaseUrl ++ "/projects/" ++ projectSelector project ++ "/releases/" ++
    PercentEncoding.encode tag

/-- The URL that `fetch_artifact` asks for. -/
def downloadUrl (pkg : PackageId) : Except CoreError String :=
  match pkg.artifact with
  | none => .ok (client.releaseUrl pkg.name pkg.version)
  | some artifact =>
    match Texts.stripPrefix artifact "source/" with
    | some format => .ok (client.sourceArchiveUrl pkg.name pkg.version format)
    | none =>
      match Texts.stripPrefix artifact "link/" with
      | some name => client.linkDownloadUrl pkg.name pkg.version name
      | none =>
        match Texts.stripPrefix artifact "rawfile/" with
        | some rest =>
          match Texts.splitOnce rest '/' with
          | some (gitRef, path) => .ok (client.rawFileUrl pkg.name gitRef path)
          | none => .error (.registry ("invalid rawfile selector: " ++ artifact))
        | none =>
          match Texts.stripPrefix artifact "pkgpath/" with
          | some rest => client.passthroughUrl rest
          | none => .error (.registry ("unsupported gitlab artifact selector: " ++ artifact))

/-- A raw-file URL names one ref and one path. -/
theorem rawFileUrl_injective {project gitRef gitRef' path path' : String}
    (h : client.rawFileUrl project gitRef path = client.rawFileUrl project gitRef' path') :
    gitRef = gitRef' ∧ path = path' := by
  unfold rawFileUrl at h
  simp only [String.append_assoc, String.append_right_inj] at h
  have hchars := congrArg String.toList h
  have hraw : "/raw?ref=".toList = '/' :: "raw?ref=".toList := rfl
  simp only [String.toList_append, hraw, List.cons_append] at hchars
  have hcut := congrArg (Texts.splitAtFirst '/') hchars
  have hfirst : ∀ p r : String, Texts.splitAtFirst '/' ((PercentEncoding.encode p).toList ++
      '/' :: ("raw?ref=".toList ++ (PercentEncoding.encode r).toList)) =
      some ((PercentEncoding.encode p).toList,
        "raw?ref=".toList ++ (PercentEncoding.encode r).toList) := by
    intro p r
    exact (Texts.splitAtFirst_eq_some_iff _ _ _ _).mpr
      ⟨rfl, PercentEncoding.slash_notMem_encode p⟩
  rw [hfirst, hfirst, Option.some.injEq, Prod.mk.injEq, List.append_cancel_left_eq] at hcut
  exact ⟨PercentEncoding.encode_injective (String.toList_inj.mp hcut.2),
    PercentEncoding.encode_injective (String.toList_inj.mp hcut.1)⟩

end GitlabRegistryClient

section Selectors

theorem append_ne_of_first {lead s : String} (rest : String) (h : ¬ lead.toList <+: s.toList) :
    lead ++ rest ≠ s := by
  rintro rfl
  rw [String.toList_append] at h
  exact h (List.prefix_append _ _)

namespace ForgeCoordinate
variable (version : String)

theorem kindOf_tarball (rest : String) :
    kindOf version (some ("tarball/" ++ rest)) = some (.archive version .tarGz) := by
  unfold kindOf
  dsimp only
  rw [Texts.startsWith_append_eq_false rest (by decide) (by decide), Texts.startsWith_append]
  rfl

theorem kindOf_zipball : kindOf version (some "zipball") = some (.archive version .zip) := rfl

theorem kindOf_rawfile (rest : String) :
    kindOf version (some ("rawfile/" ++ rest)) =
      some (.raw version ((Texts.stripPrefix rest (version ++ "/")).getD rest)) := by
  unfold kindOf
  dsimp only
  rw [Texts.startsWith_append_eq_false rest (by decide) (by decide),
    Texts.startsWith_append_eq_false rest (by decide) (by decide),
    if_neg (append_ne_of_first rest (by decide)), Texts.stripPrefix_append]
  rfl

theorem kindOf_raw (path : String) :
    kindOf version (some ("raw/" ++ path)) = some (.raw version path) := by
  unfold kindOf
  dsimp only
  rw [Texts.startsWith_append_eq_false path (by decide) (by decide),
    Texts.startsWith_append_eq_false path (by decide) (by decide),
    if_neg (append_ne_of_first path (by decide)),
    Texts.stripPrefix_append_eq_none path (by decide) (by decide), Texts.stripPrefix_append]
  rfl

/-- The four spellings of a read that is keyed by its commit. -/
inductive Spelling where
  | tarball (rest : String)
  | zipball
  | rawfile (rest : String)
  | raw (path : String)

def Spelling.artifact : Spelling → String
  | .tarball rest => "tarball/" ++ rest
  | .zipball => "zipball"
  | .rawfile rest => "rawfile/" ++ rest
  | .raw path => "raw/" ++ path

def Spelling.kind (version : String) : Spelling → ForgeKind
  | .tarball _ => .archive version .tarGz
  | .zipball => .archive version .zip
  | .rawfile rest => .raw version ((Texts.stripPrefix rest (version ++ "/")).getD rest)
  | .raw path => .raw version path

theorem kindOf_spelling (spelling : Spelling) :
    kindOf version (some spelling.artifact) = some (spelling.kind version) := by
  cases spelling with
  | tarball rest => exact kindOf_tarball version rest
  | zipball => exact kindOf_zipball version
  | rawfile rest => exact kindOf_rawfile version rest
  | raw path => exact kindOf_raw version path

/-- A keyed coordinate was written in one of the spellings. -/
theorem spelling_of_keyed {pkg : PackageId} {c : ForgeCoordinate} (hc : fromPackageId pkg = some c)
    (hkeyed : c.keyedByCommit = true) :
    ∃ spelling : Spelling, pkg.artifact = some spelling.artifact ∧
      c = ⟨pkg.name, spelling.kind pkg.version⟩ := by
  obtain ⟨kind, hkind, rfl⟩ := Option.map_eq_some_iff.mp hc
  cases hartifact : pkg.artifact with
  | none =>
    rw [hartifact, kindOf] at hkind
    split_ifs at hkind
    all_goals
      obtain rfl := Option.some.inj hkind
      cases hkeyed
  | some a =>
    rw [hartifact, kindOf] at hkind
    split_ifs at hkind with hpkg htar hzip
    · obtain ⟨rest, rfl⟩ := (Texts.startsWith_iff _ _).mp htar
      exact ⟨.tarball rest, rfl, by rw [← Option.some.inj hkind]; rfl⟩
    · exact ⟨.zipball, by rw [hzip]; rfl, by rw [← Option.some.inj hkind]; rfl⟩
    · cases hraw : Texts.stripPrefix a "rawfile/" with
      | some rest =>
        rw [hraw] at hkind
        refine ⟨.rawfile rest, ?_, by rw [← Option.some.inj hkind]; rfl⟩
        rw [(Texts.stripPrefix_eq_some_iff _ _ _).mp hraw]
        rfl
      | none =>
        rw [hraw] at hkind
        dsimp only at hkind
        cases hpath : Texts.stripPrefix a "raw/" with
        | some path =>
          rw [hpath] at hkind
          refine ⟨.raw path, ?_, by rw [← Option.some.inj hkind]; rfl⟩
          rw [(Texts.stripPrefix_eq_some_iff _ _ _).mp hpath]
          rfl
        | none =>
          rw [hpath] at hkind
          rw [← Option.some.inj hkind] at hkeyed
          cases hkeyed

end ForgeCoordinate

/-- A selector that the client does not know. -/
theorem GitlabRegistryClient.downloadUrl_unsupported (client : GitlabRegistryClient)
    (pkg : PackageId) {lead : String} (rest : String)
    (hartifact : pkg.artifact = some (lead ++ rest))
    (hleads : ∀ known ∈ ["source/", "link/", "rawfile/", "pkgpath/"],
      ¬ known.toList <+: lead.toList ∧ ¬ lead.toList <+: known.toList) :
    client.downloadUrl pkg =
      .error (.registry ("unsupported gitlab artifact selector: " ++ (lead ++ rest))) := by
  have hnone : ∀ known ∈ ["source/", "link/", "rawfile/", "pkgpath/"],
      Texts.stripPrefix (lead ++ rest) known = none := by
    intro known hknown
    exact Texts.stripPrefix_append_eq_none rest (hleads known hknown).1 (hleads known hknown).2
  unfold downloadUrl
  rw [hartifact]
  dsimp only
  rw [hnone "source/" (by decide), hnone "link/" (by decide), hnone "rawfile/" (by decide),
    hnone "pkgpath/" (by decide)]

theorem GitlabRegistryClient.downloadUrl_rawfile (client : GitlabRegistryClient) (pkg : PackageId)
    (rest : String) (hartifact : pkg.artifact = some ("rawfile/" ++ rest)) :
    client.downloadUrl pkg =
      match Texts.splitOnce rest '/' with
      | some (gitRef, path) => .ok (client.rawFileUrl pkg.name gitRef path)
      | none => .error (.registry ("invalid rawfile selector: " ++ ("rawfile/" ++ rest))) := by
  unfold downloadUrl
  rw [hartifact]
  dsimp only
  rw [Texts.stripPrefix_append_eq_none rest (by decide) (by decide),
    Texts.stripPrefix_append_eq_none rest (by decide) (by decide), Texts.stripPrefix_append]

end Selectors

section CommitReads
variable (client : GitlabRegistryClient)

/-- The rewritten coordinate reads back as the same request at the commit, and a URL that
the GitLab client makes of it names the commit and the path of the request. -/
structure ServesCommit (c : ForgeCoordinate) (pkg : PackageId) (sha : String) : Prop where
  coordinate : ForgeCoordinate.fromPackageId (c.rewriteOnto pkg sha) = some (c.withRef sha)
  url : ∀ url, client.downloadUrl (c.rewriteOnto pkg sha) = .ok url →
    ∃ path, c.path? = some path ∧ url = client.rawFileUrl pkg.name sha path

/-- A GitLab raw-file selector that has a path names the commit already, as its ref and
as the version. -/
def SelectorNames (pkg : PackageId) (sha : String) : Prop :=
  ∀ rest, pkg.artifact = some ("rawfile/" ++ rest) → '/' ∈ rest.toList →
    pkg.version = sha ∧ ∃ path, rest = sha ++ "/" ++ path

theorem slash_notMem_of_isCommitSha {sha : String} (h : isCommitSha sha = true) :
    '/' ∉ sha.toList := by
  intro hmem
  have hhex := List.all_eq_true.mp (Bool.and_eq_true_iff.mp h).2 '/' hmem
  exact absurd hhex (by decide)

theorem stripPrefix_eq_none_of_notMem {rest version : String} (h : '/' ∉ rest.toList) :
    Texts.stripPrefix rest (version ++ "/") = none := by
  cases hstrip : Texts.stripPrefix rest (version ++ "/") with
  | none => rfl
  | some path =>
    rw [(Texts.stripPrefix_eq_some_iff _ _ _).mp hstrip] at h
    simp at h

theorem splitOnce_eq_none_of_notMem {rest : String} (h : '/' ∉ rest.toList) :
    Texts.splitOnce rest '/' = none := by
  cases hsplit : Texts.splitOnce rest '/' with
  | none => rfl
  | some parts =>
    rw [((Texts.splitOnce_eq_some_iff _ _ parts.1 parts.2).mp hsplit).1] at h
    simp at h

theorem exists_splitOnce {rest : String} (h : '/' ∈ rest.toList) :
    ∃ gitRef path, Texts.splitOnce rest '/' = some (gitRef, path) ∧ rest = gitRef ++ "/" ++ path := by
  obtain ⟨before, after, hrest, hnot⟩ := List.eq_append_cons_of_mem h
  have hcut : rest = String.ofList before ++ "/" ++ String.ofList after := by
    apply String.toList_inj.mp
    simp [hrest]
  refine ⟨String.ofList before, String.ofList after, ?_, hcut⟩
  exact (Texts.splitOnce_eq_some_iff _ _ _ _).mpr ⟨hcut, by simpa using hnot⟩

/-- A rest that is cut into `sha` and the path it had under `version`: the two refs are
one. -/
theorem version_eq_of_path {rest version sha : String}
    (h : rest = sha ++ "/" ++ (Texts.stripPrefix rest (version ++ "/")).getD rest) :
    version = sha := by
  cases hstrip : Texts.stripPrefix rest (version ++ "/") with
  | none =>
    rw [hstrip, Option.getD_none] at h
    have hlength := congrArg (fun s => s.toList.length) h
    simp only [String.toList_append, List.length_append] at hlength
    have hslash : "/".toList.length = 1 := rfl
    omega
  | some path =>
    rw [hstrip, Option.getD_some] at h
    rw [(Texts.stripPrefix_eq_some_iff _ _ _).mp hstrip, String.append_assoc,
      String.append_assoc] at h
    exact String.append_left_inj _ |>.mp h

namespace ForgeCoordinate
variable (pkg : PackageId) (sha : String)

/-- A rewriting that leaves the selector alone. -/
theorem fromPackageId_rewrite_of_artifact (spelling : Spelling) {kind : ForgeKind}
    {artifact : Option String}
    (hartifact : artifact = some spelling.artifact) (hkind : spelling.kind sha = kind) :
    fromPackageId ⟨pkg.registry, pkg.name, sha, artifact⟩ = some ⟨pkg.name, kind⟩ := by
  unfold fromPackageId
  rw [hartifact]
  dsimp only
  rw [kindOf_spelling, hkind]
  rfl

end ForgeCoordinate

open ForgeCoordinate

/-- A read in a spelling that the GitLab client does not serve asks for no URL. -/
theorem servesCommit_of_unsupported {c : ForgeCoordinate} {pkg : PackageId} {sha : String}
    (lead rest : String)
    (hcoordinate : fromPackageId (c.rewriteOnto pkg sha) = some (c.withRef sha))
    (hartifact : (c.rewriteOnto pkg sha).artifact = some (lead ++ rest))
    (hleads : ∀ known ∈ ["source/", "link/", "rawfile/", "pkgpath/"],
      ¬ known.toList <+: lead.toList ∧ ¬ lead.toList <+: known.toList) :
    ServesCommit client c pkg sha := by
  refine ⟨hcoordinate, ?_⟩
  intro url hurl
  rw [client.downloadUrl_unsupported _ rest hartifact hleads] at hurl
  cases hurl

/-- A read keyed by a commit serves that commit exactly if a GitLab raw-file selector,
where that is its spelling, names the commit already. -/
theorem servesCommit_iff (pkg : PackageId) (c : ForgeCoordinate) (sha : String)
    (hc : fromPackageId pkg = some c) (hkeyed : c.keyedByCommit = true)
    (hsha : isCommitSha sha = true) :
    ServesCommit client c pkg sha ↔ SelectorNames pkg sha := by
  obtain ⟨spelling, hartifact, rfl⟩ := spelling_of_keyed hc hkeyed
  have hother : ∀ (lead rest : String), ¬ lead.toList <+: "rawfile/".toList →
      ¬ "rawfile/".toList <+: lead.toList → pkg.artifact = some (lead ++ rest) →
      SelectorNames pkg sha := by
    intro lead rest hlead hlead' hsame rest' hrest'
    rw [hsame, Option.some.injEq] at hrest'
    have hstrip := Texts.stripPrefix_append "rawfile/" rest'
    rw [← hrest', Texts.stripPrefix_append_eq_none rest hlead' hlead] at hstrip
    cases hstrip
  cases spelling with
  | tarball rest =>
    refine iff_of_true ?_ (hother "tarball/" rest (by decide) (by decide) hartifact)
    refine servesCommit_of_unsupported client "tarball/" sha ?_ rfl (by decide)
    exact fromPackageId_rewrite_of_artifact pkg sha (.tarball sha) rfl rfl
  | zipball =>
    refine iff_of_true ?_ (hother "zipball" "" (by decide) (by decide) hartifact)
    refine servesCommit_of_unsupported client "zipball" "" ?_ hartifact (by decide)
    exact fromPackageId_rewrite_of_artifact pkg sha .zipball hartifact rfl
  | raw path =>
    refine iff_of_true ?_ (hother "raw/" path (by decide) (by decide) hartifact)
    refine servesCommit_of_unsupported client "raw/" path ?_ hartifact (by decide)
    exact fromPackageId_rewrite_of_artifact pkg sha (.raw path) hartifact rfl
  | rawfile rest =>
    have hurl : client.downloadUrl ⟨pkg.registry, pkg.name, sha, pkg.artifact⟩ = _ :=
      client.downloadUrl_rawfile _ rest hartifact
    constructor
    · intro hserves rest' hrest' hslash
      rw [hartifact, Option.some.injEq, Spelling.artifact, String.append_right_inj] at hrest'
      subst hrest'
      obtain ⟨gitRef, path, hsplit, hrest⟩ := exists_splitOnce hslash
      rw [hsplit] at hurl
      obtain ⟨path', hpath', hnames⟩ := hserves.url _ hurl
      obtain ⟨rfl, rfl⟩ := client.rawFileUrl_injective hnames
      rw [path?, Spelling.kind, Option.some.injEq] at hpath'
      rw [← hpath'] at hrest
      exact ⟨version_eq_of_path hrest, _, hrest⟩
    · intro hnames
      by_cases hslash : '/' ∈ rest.toList
      · obtain ⟨hversion, path, hrest⟩ := hnames rest hartifact hslash
        refine ⟨?_, ?_⟩
        · refine fromPackageId_rewrite_of_artifact pkg sha (.rawfile rest) hartifact ?_
          rw [Spelling.kind, hversion]
        · intro url hsome
          have hsplit : Texts.splitOnce rest '/' = some (sha, path) :=
            (Texts.splitOnce_eq_some_iff _ _ _ _).mpr ⟨hrest, slash_notMem_of_isCommitSha hsha⟩
          rw [hsplit] at hurl
          refine ⟨path, ?_, Except.ok.inj (hsome.symm.trans hurl)⟩
          rw [path?, Spelling.kind, hversion, hrest, Texts.stripPrefix_append, Option.getD_some]
      · refine ⟨?_, ?_⟩
        · refine fromPackageId_rewrite_of_artifact pkg sha (.rawfile rest) hartifact ?_
          show ForgeKind.raw sha _ = ForgeKind.raw sha _
          rw [stripPrefix_eq_none_of_notMem hslash, stripPrefix_eq_none_of_notMem hslash]
        · intro url hsome
          rw [splitOnce_eq_none_of_notMem hslash] at hurl
          rw [show ForgeCoordinate.rewriteOnto _ pkg sha =
            ⟨pkg.registry, pkg.name, sha, pkg.artifact⟩ from rfl, hurl] at hsome
          cases hsome

end CommitReads

section Samples

/-- A client whose lookups find nothing. -/
def sampleClient : GitlabRegistryClient :=
  ⟨"https://gitlab.example", fun _ _ _ => .error (.notFound ""), fun _ _ => .ok ()⟩

def sampleSha : String := "45437bc7eeeb3359bbfddd1742f79de7652fd3e2"

def sampleTarball : PackageId := ⟨"gl", "acme/tool", "release/1.x", some "tarball/release/1.x"⟩

def sampleRaw : PackageId := ⟨"gl", "acme/tool", "main", some "rawfile/main/ci/setup.sh"⟩

theorem servesCommit_tarball :
    ServesCommit sampleClient ⟨"acme/tool", .archive "release/1.x" .tarGz⟩ sampleTarball
      sampleSha := by
  refine (servesCommit_iff sampleClient sampleTarball _ sampleSha (by decide) rfl
    (by decide)).mpr ?_
  intro rest hrest
  have hstrip := Texts.stripPrefix_append "rawfile/" rest
  have hnone : Texts.stripPrefix "tarball/release/1.x" "rawfile/" = none := by decide
  rw [← Option.some.inj hrest, hnone] at hstrip
  cases hstrip

/-- The selector still says `main`: the path is read with the ref in it, and the URL asks
for what `main` is now. -/
theorem raw_read_asks_for_the_branch :
    let c : ForgeCoordinate := ⟨"acme/tool", .raw "main" "ci/setup.sh"⟩
    ForgeCoordinate.fromPackageId sampleRaw = some c ∧ c.keyedByCommit = true ∧ isCommitSha sampleSha = true ∧
      ForgeCoordinate.fromPackageId (c.rewriteOnto sampleRaw sampleSha) =
        some ⟨"acme/tool", .raw sampleSha "main/ci/setup.sh"⟩ ∧
      sampleClient.downloadUrl (c.rewriteOnto sampleRaw sampleSha) =
        .ok (sampleClient.rawFileUrl "acme/tool" "main" "ci/setup.sh") ∧
      ¬ ServesCommit sampleClient c sampleRaw sampleSha := by
  refine ⟨by decide, rfl, by decide, by decide, by decide +kernel, ?_⟩
  intro hserves
  have hsame := hserves.coordinate
  exact absurd hsame (by decide)

end Samples

end BatleHub.Forge
