import BatleHub.ReadableScopes
import BatleHub.Lib.Framing

/-!
What a whole-registry document is keyed on (`services/authz/filter.rs`). The
digest is fed one length-prefixed text after another, but no counts: where one
list ends and the next begins is not fed. Two audiences feed the same bytes
exactly when they feed the same texts. The heads of the readable lists, the flags of
the namespaces and the separators say where a list ends, as long as no entry looks
like one of them; between the listable packages and the groups stands nothing.
-/
namespace BatleHub.DocumentAudiences

open ReadableScopes Lib.SortedSearch Lib.Framing

/-- Everything a filtered document depends on. -/
structure DocumentAudience where
  readable : Readable
  listable : Readable
  role : Role
  groups : List String
  localReadGrants : List String
  versionReadGrants : List String
  betaMember : Bool
  deriving DecidableEq, Repr

/-- Groups are compared with their spaces removed, sorted and without repetition. -/
def DocumentAudience.new (identity : Identity) (readable listable : Readable)
    (localReadGrants versionReadGrants : List String) (betaMember : Bool) : DocumentAudience where
  readable := readable
  listable := listable
  role := identity.role
  groups := sortDedup (identity.groups.map fun g =>
    String.ofList (g.toList.filter fun c => decide (c ≠ ' ')))
  localReadGrants := localReadGrants
  versionReadGrants := versionReadGrants
  betaMember := betaMember

/-- One field: the length of the text as a `u32`, then its bytes. -/
def feed (s : String) : List UInt8 := frame (utf8 s)

def bit (flag : Bool) : String := if flag then "1" else "0"

def feedReadable : Readable → List UInt8
  | .everything => feed "*"
  | .scopedTo scope =>
    feed "scoped" ++ feed scope.kind.asStr ++ feed (bit scope.registryGrantsRead) ++
      feed (bit scope.floorSurvives) ++
      scope.namespaces.flatMap (fun ns =>
        feed ns.lead ++ feed (bit ns.grantsRead) ++ feed (bit ns.isSealed)) ++
      scope.packages.flatMap feed

/-- The bytes the hasher is given. -/
def digestInput (a : DocumentAudience) : List UInt8 :=
  feed a.role.toString ++ feed (if a.betaMember then "beta" else "-") ++
    feedReadable a.readable ++ feedReadable a.listable ++ a.groups.flatMap feed ++ feed "|" ++
    a.localReadGrants.flatMap feed ++ feed "|" ++ a.versionReadGrants.flatMap feed

def readableTexts : Readable → List String
  | .everything => ["*"]
  | .scopedTo scope =>
    ["scoped", scope.kind.asStr, bit scope.registryGrantsRead, bit scope.floorSurvives] ++
      scope.namespaces.flatMap (fun ns => [ns.lead, bit ns.grantsRead, bit ns.isSealed]) ++
      scope.packages

/-- The texts of an audience, in the order they are fed. -/
def texts (a : DocumentAudience) : List String :=
  [a.role.toString, if a.betaMember then "beta" else "-"] ++ readableTexts a.readable ++
    readableTexts a.listable ++ a.groups ++ ["|"] ++ a.localReadGrants ++ ["|"] ++
    a.versionReadGrants

/-- How many namespaces and packages a scope feeds. -/
def readableCuts : Readable → Option (ℕ × ℕ)
  | .everything => none
  | .scopedTo scope => some (scope.namespaces.length, scope.packages.length)

/-- Where an audience cuts its texts. -/
def cuts (a : DocumentAudience) : Option (ℕ × ℕ) × Option (ℕ × ℕ) × ℕ × ℕ :=
  (readableCuts a.readable, readableCuts a.listable, a.groups.length, a.localReadGrants.length)

theorem flatMap_feed (l : List String) : l.flatMap feed = frames (l.map utf8) := by
  unfold frames feed
  rw [List.flatMap_map]

theorem feedReadable_eq (r : Readable) : feedReadable r = (readableTexts r).flatMap feed := by
  cases r with
  | everything => simp [feedReadable, readableTexts]
  | scopedTo scope =>
    simp only [feedReadable, readableTexts, List.flatMap_append, List.flatMap_cons,
      List.flatMap_nil, List.append_nil, List.append_assoc, List.flatMap_assoc]

/-- The bytes are the frames of the texts, and nothing else. -/
theorem digestInput_eq (a : DocumentAudience) :
    digestInput a = frames ((texts a).map utf8) := by
  rw [← flatMap_feed]
  simp only [digestInput, texts, feedReadable_eq, List.flatMap_append, List.flatMap_cons,
    List.flatMap_nil, List.append_nil, List.append_assoc]

theorem bit_injective {a b : Bool} (h : bit a = bit b) : a = b := by
  cases a <;> cases b <;> first | rfl | exact absurd h (by decide)

theorem roleToString_injective {a b : Role} (h : a.toString = b.toString) : a = b := by
  cases a <;> cases b <;> first | rfl | exact absurd h (by decide)

def allKinds : List RegistryKind :=
  [.github, .forgejo, .gitlab, .cargo, .npm, .openvsx, .goproxy, .pypi, .conda, .composer,
    .vscodeMarketplace, .maven, .terraform, .rubygems, .nuget, .deb, .rpm, .pacman, .apk,
    .jetbrains, .jetbrainsMarketplace, .generic, .nodedist, .sdkman, .rustup, .galaxy, .nix,
    .devfile, .helm]

theorem kindAsStr_injective {a b : RegistryKind} (h : a.asStr = b.asStr) : a = b := by
  have hall : ∀ k : RegistryKind, k ∈ allKinds := by
    intro k
    cases k <;> decide
  have hnodup : (allKinds.map RegistryKind.asStr).Nodup := by decide
  exact List.inj_on_of_nodup_map hnodup (hall a) (hall b) h

theorem namespaceTexts_injective (xs ys : List NamespaceRead) (hlen : xs.length = ys.length)
    (h : xs.flatMap (fun ns => [ns.lead, bit ns.grantsRead, bit ns.isSealed]) =
      ys.flatMap (fun ns => [ns.lead, bit ns.grantsRead, bit ns.isSealed])) : xs = ys := by
  induction xs generalizing ys with
  | nil => exact (List.length_eq_zero_iff.mp hlen.symm).symm
  | cons x xs ih =>
    cases ys with
    | nil => simp at hlen
    | cons y ys =>
      simp only [List.flatMap_cons, List.cons_append, List.nil_append, List.cons.injEq] at h
      obtain ⟨hlead, hread, hsealed, hrest⟩ := h
      have hxy : x = y := by
        cases x
        cases y
        simp_all only [NamespaceRead.mk.injEq, true_and]
        exact ⟨bit_injective hread, bit_injective hsealed⟩
      rw [hxy, ih ys (by simpa using hlen) hrest]

theorem length_namespaceTexts (xs : List NamespaceRead) :
    (xs.flatMap (fun ns => [ns.lead, bit ns.grantsRead, bit ns.isSealed])).length =
      3 * xs.length := by
  induction xs with
  | nil => rfl
  | cons x xs ih =>
    rw [List.flatMap_cons, List.length_append, ih, List.length_cons]
    simp only [List.length_cons, List.length_nil]
    omega

theorem length_readableTexts {x y : Readable} (h : readableCuts x = readableCuts y) :
    (readableTexts x).length = (readableTexts y).length := by
  cases x with
  | everything =>
    cases y with
    | everything => rfl
    | scopedTo scope => simp [readableCuts] at h
  | scopedTo sx =>
    cases y with
    | everything => simp [readableCuts] at h
    | scopedTo sy =>
      simp only [readableCuts, Option.some.injEq, Prod.mk.injEq] at h
      simp only [readableTexts, List.length_append, length_namespaceTexts, h.1, h.2,
        List.length_cons]

theorem readableTexts_injective {x y : Readable} (hcuts : readableCuts x = readableCuts y)
    (h : readableTexts x = readableTexts y) : x = y := by
  cases x with
  | everything =>
    cases y with
    | everything => rfl
    | scopedTo scope => simp [readableCuts] at hcuts
  | scopedTo sx =>
    cases y with
    | everything => simp [readableCuts] at hcuts
    | scopedTo sy =>
      simp only [readableCuts, Option.some.injEq, Prod.mk.injEq] at hcuts
      obtain ⟨hns, -⟩ := hcuts
      simp only [readableTexts, List.cons_append, List.nil_append, List.cons.injEq,
        true_and] at h
      obtain ⟨hkind, hread, hfloor, hrest⟩ := h
      obtain ⟨hnamespaces, hpackages⟩ := List.append_inj hrest (by
        rw [length_namespaceTexts, length_namespaceTexts, hns])
      cases sx
      cases sy
      simp only [Readable.scopedTo.injEq, Scope.mk.injEq]
      exact ⟨kindAsStr_injective hkind, bit_injective hread, bit_injective hfloor,
        namespaceTexts_injective _ _ hns hnamespaces, hpackages⟩

/-- One sequence of texts, cut at the same places, is one audience. -/
theorem texts_injective {a b : DocumentAudience} (hcuts : cuts a = cuts b)
    (h : texts a = texts b) : a = b := by
  simp only [cuts, Prod.mk.injEq] at hcuts
  obtain ⟨hr, hl, hg, hp⟩ := hcuts
  simp only [texts, List.append_assoc, List.cons_append, List.nil_append, List.cons.injEq] at h
  obtain ⟨hrole, hbeta, hrest⟩ := h
  obtain ⟨hreadable, hrest⟩ := List.append_inj hrest (length_readableTexts hr)
  obtain ⟨hlistable, hrest⟩ := List.append_inj hrest (length_readableTexts hl)
  obtain ⟨hgroups, hrest⟩ := List.append_inj hrest hg
  obtain ⟨hlocal, hrest⟩ := List.append_inj (List.cons.inj hrest).2 hp
  have hversion := (List.cons.inj hrest).2
  have hbetaEq : a.betaMember = b.betaMember := by
    cases ha : a.betaMember <;> cases hb : b.betaMember <;> simp_all
  cases a
  cases b
  simp only [DocumentAudience.mk.injEq]
  exact ⟨readableTexts_injective hr hreadable, readableTexts_injective hl hlistable,
    roleToString_injective hrole, hgroups, hlocal, hversion, hbetaEq⟩

theorem texts_eq_of_digestInput_eq {a b : DocumentAudience} (ha : Fits (texts a))
    (hb : Fits (texts b)) (h : digestInput a = digestInput b) : texts a = texts b := by
  rw [digestInput_eq, digestInput_eq] at h
  exact frames_utf8_injective ha hb h

/-- Equal bytes mean audiences that agree in every field the bytes are made of. -/
def ToldApart (a b : DocumentAudience) : Prop :=
  digestInput a = digestInput b →
    a.role = b.role ∧ a.betaMember = b.betaMember ∧ a.readable = b.readable ∧
      a.listable = b.listable ∧ a.groups = b.groups ∧
      a.localReadGrants = b.localReadGrants ∧ a.versionReadGrants = b.versionReadGrants

/-- Scopes, groups and package grants of the same lengths on both sides. -/
def SameCounts (a b : DocumentAudience) : Prop := cuts a = cuts b

/-- The first text of a list of readable names. -/
def IsHead (t : String) : Prop := t = "*" ∨ t = "scoped"

def IsBit (t : String) : Prop := t = "0" ∨ t = "1"

instance (t : String) : Decidable (IsHead t) := inferInstanceAs (Decidable (_ ∨ _))
instance (t : String) : Decidable (IsBit t) := inferInstanceAs (Decidable (_ ∨ _))

/-- No text of the lists is one that the digest writes itself, in a place where it
could be taken for it: a head, a flag or the separator. Version grants come last and
are free. -/
structure Plain (a : DocumentAudience) : Prop where
  readable : ∀ scope, a.readable = .scopedTo scope →
    (∀ ns ∈ scope.namespaces, ¬ IsHead ns.lead) ∧ ∀ t ∈ scope.packages, ¬ IsHead t ∧ ¬ IsBit t
  listable : ∀ scope, a.listable = .scopedTo scope →
    (∀ ns ∈ scope.namespaces, ns.lead ≠ "|") ∧ (∀ t ∈ scope.packages, t ≠ "|") ∧
      ∀ t ∈ scope.packages ++ a.groups, ¬ IsBit t
  groups : "|" ∉ a.groups
  localReadGrants : "|" ∉ a.localReadGrants

/-- The first groups of `a` are the last listable packages of `b`, and all else is one. -/
def Moved (a b : DocumentAudience) : Prop :=
  ∃ scope moved, moved ≠ [] ∧ a.listable = .scopedTo scope ∧ a.groups = moved ++ b.groups ∧
    b = { a with
      listable := .scopedTo { scope with packages := scope.packages ++ moved }
      groups := b.groups }

theorem isBit_bit (flag : Bool) : IsBit (bit flag) := by
  cases flag <;> simp [IsBit, bit]

theorem not_isHead_bit (flag : Bool) : ¬ IsHead (bit flag) := by
  cases flag <;> simp [IsHead, bit]

theorem bit_ne_separator (flag : Bool) : bit flag ≠ "|" := by
  cases flag <;> simp [bit]

/-- Namespaces carry flags and what follows carries none, so the flags say where the
namespaces end. -/
theorem namespaceTexts_append_inj {xs ys : List NamespaceRead} {p q : List String}
    (hp : ∀ t ∈ p, ¬ IsBit t) (hq : ∀ t ∈ q, ¬ IsBit t)
    (h : xs.flatMap (fun ns => [ns.lead, bit ns.grantsRead, bit ns.isSealed]) ++ p =
      ys.flatMap (fun ns => [ns.lead, bit ns.grantsRead, bit ns.isSealed]) ++ q) :
    xs = ys ∧ p = q := by
  induction xs generalizing ys with
  | nil =>
    cases ys with
    | nil => exact ⟨rfl, h⟩
    | cons y ys =>
      have hmem : bit y.grantsRead ∈ p := by
        simp only [List.flatMap_nil, List.nil_append] at h
        rw [h]
        simp
      exact absurd (isBit_bit _) (hp _ hmem)
  | cons x xs ih =>
    cases ys with
    | nil =>
      have hmem : bit x.grantsRead ∈ q := by
        simp only [List.flatMap_nil, List.nil_append] at h
        rw [← h]
        simp
      exact absurd (isBit_bit _) (hq _ hmem)
    | cons y ys =>
      simp only [List.flatMap_cons, List.cons_append, List.nil_append, List.cons.injEq] at h
      obtain ⟨hlead, hread, hsealed, hrest⟩ := h
      obtain ⟨rfl, hpq⟩ := ih hrest
      have hxy : x = y := by
        cases x
        cases y
        simp_all only [NamespaceRead.mk.injEq, true_and]
        exact ⟨bit_injective hread, bit_injective hsealed⟩
      exact ⟨by rw [hxy], hpq⟩

theorem mem_namespaceTexts {xs : List NamespaceRead} {t : String}
    (h : t ∈ xs.flatMap (fun ns => [ns.lead, bit ns.grantsRead, bit ns.isSealed])) :
    ∃ ns ∈ xs, t = ns.lead ∨ ∃ flag, t = bit flag := by
  obtain ⟨ns, hns, ht⟩ := List.mem_flatMap.mp h
  simp only [List.mem_cons, List.not_mem_nil, or_false] at ht
  refine ⟨ns, hns, ?_⟩
  rcases ht with ht | ht | ht
  · exact .inl ht
  · exact .inr ⟨_, ht⟩
  · exact .inr ⟨_, ht⟩

/-- The readable names end where the next head stands. -/
theorem readableTexts_append_inj {x y : Readable} {m n : String} {r s : List String}
    (hx : ∀ scope, x = .scopedTo scope → (∀ ns ∈ scope.namespaces, ¬ IsHead ns.lead) ∧
      ∀ t ∈ scope.packages, ¬ IsHead t ∧ ¬ IsBit t)
    (hy : ∀ scope, y = .scopedTo scope → (∀ ns ∈ scope.namespaces, ¬ IsHead ns.lead) ∧
      ∀ t ∈ scope.packages, ¬ IsHead t ∧ ¬ IsBit t)
    (hm : IsHead m) (hn : IsHead n)
    (h : readableTexts x ++ m :: r = readableTexts y ++ n :: s) :
    x = y ∧ m = n ∧ r = s := by
  have hfree : ∀ scope : Scope, (∀ ns ∈ scope.namespaces, ¬ IsHead ns.lead) →
      (∀ t ∈ scope.packages, ¬ IsHead t ∧ ¬ IsBit t) →
      ∀ t ∈ scope.namespaces.flatMap (fun ns => [ns.lead, bit ns.grantsRead, bit ns.isSealed]) ++
        scope.packages, ¬ IsHead t := by
    intro scope hns hpackages t ht
    rcases List.mem_append.mp ht with ht | ht
    · obtain ⟨ns, hmem, rfl | ⟨flag, rfl⟩⟩ := mem_namespaceTexts ht
      · exact hns ns hmem
      · exact not_isHead_bit flag
    · exact (hpackages t ht).1
  cases x with
  | everything =>
    cases y with
    | everything => exact ⟨rfl, List.cons.inj (List.cons.inj h).2⟩
    | scopedTo sy => simp [readableTexts] at h
  | scopedTo sx =>
    cases y with
    | everything => simp [readableTexts] at h
    | scopedTo sy =>
      obtain ⟨hxlead, hxpackages⟩ := hx sx rfl
      obtain ⟨hylead, hypackages⟩ := hy sy rfl
      simp only [readableTexts, List.cons_append, List.nil_append, List.cons.injEq,
        true_and] at h
      obtain ⟨hkind, hread, hfloor, hrest⟩ := h
      obtain ⟨hentries, hmarks⟩ := Lib.Texts.append_cons_inj_of_forall
        (hfree sx hxlead hxpackages) (hfree sy hylead hypackages) hm hn hrest
      obtain ⟨hnamespaces, hpackages⟩ := namespaceTexts_append_inj
        (fun t ht => (hxpackages t ht).2) (fun t ht => (hypackages t ht).2) hentries
      refine ⟨?_, hmarks⟩
      cases sx
      cases sy
      simp only [Readable.scopedTo.injEq, Scope.mk.injEq]
      exact ⟨kindAsStr_injective hkind, bit_injective hread, bit_injective hfloor, hnamespaces,
        hpackages⟩

/-- The listable names and the groups behind them end at the separator, and nothing
says where the one ends and the other begins. -/
theorem listableTexts_append_inj {a b : DocumentAudience} {r s : List String} (ha : Plain a)
    (hb : Plain b)
    (h : readableTexts a.listable ++ (a.groups ++ "|" :: r) =
      readableTexts b.listable ++ (b.groups ++ "|" :: s)) :
    r = s ∧ ((a.listable = b.listable ∧ a.groups = b.groups) ∨
      ∃ sx sy, a.listable = .scopedTo sx ∧ b.listable = .scopedTo sy ∧
        sy = { sx with packages := sy.packages } ∧
        sx.packages ++ a.groups = sy.packages ++ b.groups) := by
  have hfree : ∀ {c : DocumentAudience} {scope : Scope}, Plain c → c.listable = .scopedTo scope →
      ∀ t ∈ scope.namespaces.flatMap (fun ns => [ns.lead, bit ns.grantsRead, bit ns.isSealed]) ++
        (scope.packages ++ c.groups), ¬ t = "|" := by
    intro c scope hc hscope t ht
    obtain ⟨hns, hpackages, -⟩ := hc.listable scope hscope
    rcases List.mem_append.mp ht with ht | ht
    · obtain ⟨ns, hmem, rfl | ⟨flag, rfl⟩⟩ := mem_namespaceTexts ht
      · exact hns ns hmem
      · exact bit_ne_separator flag
    · rcases List.mem_append.mp ht with ht | ht
      · exact hpackages t ht
      · rintro rfl
        exact hc.groups ht
  cases hx : a.listable with
  | everything =>
    cases hy : b.listable with
    | everything =>
      rw [hx, hy] at h
      obtain ⟨hgroups, -, hrest⟩ := Lib.Texts.append_cons_inj_of_forall (p := (· = "|"))
        (fun t ht => by rintro rfl; exact ha.groups ht)
        (fun t ht => by rintro rfl; exact hb.groups ht) rfl rfl (List.cons.inj h).2
      exact ⟨hrest, .inl ⟨rfl, hgroups⟩⟩
    | scopedTo sy => simp [readableTexts, hx, hy] at h
  | scopedTo sx =>
    cases hy : b.listable with
    | everything => simp [readableTexts, hx, hy] at h
    | scopedTo sy =>
      simp only [hx, hy, readableTexts, List.cons_append, List.nil_append, List.cons.injEq,
        true_and] at h
      obtain ⟨hkind, hread, hfloor, hrest⟩ := h
      obtain ⟨hentries, -, hrest⟩ := Lib.Texts.append_cons_inj_of_forall (p := (· = "|"))
        (hfree ha hx) (hfree hb hy) rfl rfl (by simpa only [List.append_assoc] using hrest)
      obtain ⟨hnamespaces, hnames⟩ := namespaceTexts_append_inj (ha.listable sx hx).2.2
        (hb.listable sy hy).2.2 hentries
      refine ⟨hrest, .inr ⟨sx, sy, rfl, rfl, ?_, hnames⟩⟩
      cases sx
      cases sy
      simp only [Scope.mk.injEq, and_true]
      exact ⟨(kindAsStr_injective hkind).symm, (bit_injective hread).symm,
        (bit_injective hfloor).symm, hnamespaces.symm⟩

theorem eq_with_lists {a b : DocumentAudience} (hreadable : a.readable = b.readable)
    (hrole : a.role = b.role) (hlocal : a.localReadGrants = b.localReadGrants)
    (hversion : a.versionReadGrants = b.versionReadGrants)
    (hbeta : a.betaMember = b.betaMember) :
    b = { a with listable := b.listable, groups := b.groups } := by
  cases b
  simp_all

/-- Two plain audiences with one sequence of texts are one audience, but for the place
where the listable packages end and the groups begin. -/
theorem agree_of_texts_eq {a b : DocumentAudience} (ha : Plain a) (hb : Plain b)
    (h : texts a = texts b) :
    b = { a with listable := b.listable, groups := b.groups } ∧
      ((a.listable = b.listable ∧ a.groups = b.groups) ∨
        ∃ sx sy, a.listable = .scopedTo sx ∧ b.listable = .scopedTo sy ∧
          sy = { sx with packages := sy.packages } ∧
          sx.packages ++ a.groups = sy.packages ++ b.groups) := by
  have hheads : ∀ r : Readable, ∃ m rest, readableTexts r = m :: rest ∧ IsHead m := by
    intro r
    cases r with
    | everything => exact ⟨_, _, rfl, .inl rfl⟩
    | scopedTo scope => exact ⟨_, _, rfl, .inr rfl⟩
  obtain ⟨m, restA, hlistA, hm⟩ := hheads a.listable
  obtain ⟨n, restB, hlistB, hn⟩ := hheads b.listable
  simp only [texts, List.append_assoc, List.cons_append, List.nil_append, List.cons.injEq] at h
  obtain ⟨hrole, hbeta, hrest⟩ := h
  have hbeta : a.betaMember = b.betaMember := by
    cases hx : a.betaMember <;> cases hy : b.betaMember <;> simp_all
  obtain ⟨hreadable, hhead, hbehind⟩ := readableTexts_append_inj ha.readable hb.readable hm hn (by
    simpa only [hlistA, hlistB, List.cons_append] using hrest)
  have hlists : readableTexts a.listable ++ (a.groups ++ "|" ::
      (a.localReadGrants ++ "|" :: a.versionReadGrants)) =
      readableTexts b.listable ++ (b.groups ++ "|" ::
        (b.localReadGrants ++ "|" :: b.versionReadGrants)) := by
    rw [hlistA, hlistB, List.cons_append, List.cons_append, hhead, hbehind]
  obtain ⟨hgrants, hcase⟩ := listableTexts_append_inj ha hb hlists
  obtain ⟨hlocal, -, hversion⟩ := Lib.Texts.append_cons_inj_of_forall (p := (· = "|"))
    (fun t ht => by rintro rfl; exact ha.localReadGrants ht)
    (fun t ht => by rintro rfl; exact hb.localReadGrants ht) rfl rfl hgrants
  exact ⟨eq_with_lists hreadable (roleToString_injective hrole) hlocal hversion hbeta, hcase⟩

/-- Packages moved from the groups, or none. -/
theorem eq_or_moved_of_append {a b : DocumentAudience} {sx sy : Scope} {moved : List String}
    (hb : b = { a with listable := b.listable, groups := b.groups })
    (hx : a.listable = .scopedTo sx) (hy : b.listable = .scopedTo sy)
    (hsy : sy = { sx with packages := sy.packages })
    (hpackages : sy.packages = sx.packages ++ moved) (hgroups : a.groups = moved ++ b.groups) :
    a = b ∨ Moved a b := by
  have hlistable : b.listable = .scopedTo { sx with packages := sx.packages ++ moved } := by
    rw [hy, ← hpackages, ← hsy]
  cases moved with
  | nil =>
    left
    rw [hb, hlistable, List.append_nil, ← hx]
    rw [List.nil_append] at hgroups
    rw [← hgroups]
  | cons t rest =>
    right
    refine ⟨sx, t :: rest, by simp, hx, hgroups, ?_⟩
    rw [← hlistable]
    exact hb

theorem eq_or_moved_of_texts_eq {a b : DocumentAudience} (ha : Plain a) (hb : Plain b)
    (h : texts a = texts b) : a = b ∨ Moved a b ∨ Moved b a := by
  obtain ⟨hwith, ⟨hlistable, hgroups⟩ | ⟨sx, sy, hx, hy, hsy, hnames⟩⟩ := agree_of_texts_eq ha hb h
  · left
    rw [hwith, ← hlistable, ← hgroups]
  · rcases List.append_eq_append_iff.mp hnames with ⟨moved, hpackages, hgroups⟩ |
      ⟨moved, hpackages, hgroups⟩
    · rcases eq_or_moved_of_append hwith hx hy hsy hpackages hgroups with h | h
      · exact .inl h
      · exact .inr (.inl h)
    · have hback : a = { b with listable := a.listable, groups := a.groups } := by
        rw [hwith]
      have hsx : sx = { sy with packages := sx.packages } := by
        rw [hsy]
      rcases eq_or_moved_of_append hback hy hx hsx hpackages hgroups with h | h
      · exact .inl h.symm
      · exact .inr (.inr h)

theorem not_toldApart_of_moved {a b : DocumentAudience} (h : Moved a b) : ¬ ToldApart a b := by
  obtain ⟨scope, moved, hmoved, hlistable, hgroups, hb⟩ := h
  have htexts : texts a = texts b := by
    rw [hb]
    simp only [texts, hlistable, hgroups, readableTexts, List.append_assoc]
  have hbytes : digestInput a = digestInput b := by rw [digestInput_eq, digestInput_eq, htexts]
  intro htold
  obtain ⟨-, -, -, -, heq, -⟩ := htold hbytes
  rw [hgroups] at heq
  exact hmoved (List.append_left_eq_self.mp heq)

theorem ToldApart.symm {a b : DocumentAudience} (h : ToldApart a b) : ToldApart b a := by
  intro hbytes
  obtain ⟨hrole, hbeta, hr, hl, hg, hlocal, hversion⟩ := h hbytes.symm
  exact ⟨hrole.symm, hbeta.symm, hr.symm, hl.symm, hg.symm, hlocal.symm, hversion.symm⟩

theorem toldApart_of_sameCounts {a b : DocumentAudience} (ha : Fits (texts a))
    (hb : Fits (texts b)) (h : SameCounts a b) : ToldApart a b := by
  intro hbytes
  obtain rfl := texts_injective h (texts_eq_of_digestInput_eq ha hb hbytes)
  simp

theorem toldApart_of_plain {a b : DocumentAudience} (ha : Fits (texts a)) (hb : Fits (texts b))
    (hpa : Plain a) (hpb : Plain b) (hab : ¬ Moved a b) (hba : ¬ Moved b a) : ToldApart a b := by
  intro hbytes
  rcases eq_or_moved_of_texts_eq hpa hpb (texts_eq_of_digestInput_eq ha hb hbytes) with rfl | h | h
  · simp
  · exact absurd h hab
  · exact absurd h hba

/-- When the digest input tells two audiences apart, as long as no length wraps in its
prefix: always where their lists are of the same lengths; between plain audiences in
every case but one, that groups of the one are listable packages of the other; and in
that case never, plain or not. -/
theorem digestInput_injective_iff (a b : DocumentAudience) :
    (Fits (texts a) → Fits (texts b) → SameCounts a b → ToldApart a b) ∧
      (Moved a b ∨ Moved b a → ¬ ToldApart a b) ∧
      (Plain a → Plain b → Fits (texts a) → Fits (texts b) →
        (ToldApart a b ↔ ¬ Moved a b ∧ ¬ Moved b a)) := by
  have hmoved : Moved a b ∨ Moved b a → ¬ ToldApart a b := by
    rintro (h | h) htold
    · exact not_toldApart_of_moved h htold
    · exact not_toldApart_of_moved h htold.symm
  refine ⟨toldApart_of_sameCounts, hmoved, fun hpa hpb ha hb => ?_⟩
  constructor
  · intro htold
    exact ⟨fun h => hmoved (.inl h) htold, fun h => hmoved (.inr h) htold⟩
  · rintro ⟨hab, hba⟩
    exact toldApart_of_plain ha hb hpa hpb hab hba

/-- A caller of the group `acme` in a registry without package rows. -/
def groupAudience : DocumentAudience :=
  DocumentAudience.new ⟨some "u", .user, none, ["acme"]⟩ .everything
    (.scopedTo ⟨.npm, false, false, [], []⟩) [] [] false

/-- A caller without groups, whom a package row lets list `acme`. -/
def rowAudience : DocumentAudience :=
  DocumentAudience.new ⟨some "v", .user, none, []⟩ .everything
    (.scopedTo ⟨.npm, false, false, [], ["acme"]⟩) [] [] false

/-- A caller of the group `tools`, with a namespace and a row of its own. -/
def toolsAudience : DocumentAudience :=
  DocumentAudience.new ⟨some "w", .user, none, ["tools"]⟩ .everything
    (.scopedTo ⟨.npm, false, false, [⟨"@tools/", true, false⟩], ["left-pad"]⟩) [] [] false

theorem digest_tells_groups_apart : digestInput groupAudience ≠ digestInput toolsAudience := by
  intro h
  have hgroup : Plain groupAudience := by
    refine ⟨fun scope hs => (by cases hs), fun scope hs => ?_, (by decide), by decide⟩
    cases hs
    decide
  have htools : Plain toolsAudience := by
    refine ⟨fun scope hs => (by cases hs), fun scope hs => ?_, (by decide), by decide⟩
    cases hs
    decide
  have hto : ¬ Moved groupAudience toolsAudience := by
    rintro ⟨scope, moved, -, hlistable, -, heq⟩
    cases hlistable
    have hcount := congrArg (fun a => (readableCuts a.listable).map Prod.fst) heq
    simp [toolsAudience, DocumentAudience.new, readableCuts] at hcount
  have hback : ¬ Moved toolsAudience groupAudience := by
    rintro ⟨scope, moved, -, hlistable, -, heq⟩
    cases hlistable
    have hcount := congrArg (fun a => (readableCuts a.listable).map Prod.fst) heq
    simp [groupAudience, DocumentAudience.new, readableCuts] at hcount
  have hagree := ((digestInput_injective_iff _ _).2.2 hgroup htools (by decide)
    (by decide)).mpr ⟨hto, hback⟩ h
  exact absurd hagree.2.2.2.2.1 (by decide)

/-- One list's tail poses as the next list's head: the two callers get one key. -/
theorem digest_confuses_package_and_group :
    digestInput groupAudience = digestInput rowAudience ∧
      ¬ (groupAudience.groups = rowAudience.groups) := by
  decide

end BatleHub.DocumentAudiences
