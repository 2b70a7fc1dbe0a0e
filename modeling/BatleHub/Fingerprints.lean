import BatleHub.Lib.Fallible
import BatleHub.NarInfos

/-!
What a narinfo's fingerprint signs. The text joins four parts with semicolons and the
references with commas, and no length is written. It is read back in one way because
the four parsers before it let neither separator into a part.
-/
namespace BatleHub.Nix

open Lib

section Signed

/-- What a signature is about: the parts of a fingerprint, each without the separator
that ends it. -/
@[ext]
structure ValidPathInfo where
  path : String
  narHash : String
  narSize : ℕ
  references : List String
  path_plain : ';' ∉ path.toList
  narHash_plain : ';' ∉ narHash.toList
  references_plain : ∀ base ∈ references, base ≠ "" ∧ ',' ∉ base.toList

def ValidPathInfo.printed (v : ValidPathInfo) : String :=
  "1;" ++ v.path ++ ";" ++ v.narHash ++ ";" ++ toString v.narSize ++ ";" ++
    Joins.join ',' v.references

/-- A text up to a separator, where the text before it is plain. -/
theorem part_inj {a b x y : String} (ha : ';' ∉ a.toList) (hb : ';' ∉ b.toList)
    (h : a ++ ";" ++ x = b ++ ";" ++ y) : a = b ∧ x = y := by
  have hchars : a.toList ++ ';' :: x.toList = b.toList ++ ';' :: y.toList := by
    simpa using congrArg String.toList h
  obtain ⟨hab, hxy⟩ := Joins.field_inj ha hb hchars
  exact ⟨String.toList_inj.mp hab, String.toList_inj.mp hxy⟩

theorem size_plain (n : ℕ) : ';' ∉ (toString n).toList := by
  intro h
  have hdigit := Joins.isDigit_of_mem_toString h
  simp at hdigit

/-- A fingerprint is read back in one way. -/
theorem ValidPathInfo.printed_injective {v w : ValidPathInfo} (h : v.printed = w.printed) :
    v = w := by
  have hassoc : ∀ u : ValidPathInfo, u.printed = "1" ++ ";" ++ (u.path ++ ";" ++
      (u.narHash ++ ";" ++ (toString u.narSize ++ ";" ++ Joins.join ',' u.references))) := by
    intro u
    apply String.toList_inj.mp
    simp [printed]
  rw [hassoc, hassoc] at h
  have hone : ';' ∉ "1".toList := by decide
  obtain ⟨-, h⟩ := part_inj hone hone h
  obtain ⟨hpath, h⟩ := part_inj v.path_plain w.path_plain h
  obtain ⟨hhash, h⟩ := part_inj v.narHash_plain w.narHash_plain h
  obtain ⟨hsize, h⟩ := part_inj (size_plain _) (size_plain _) h
  have hrefs := Joins.join_injective v.references_plain w.references_plain h
  exact ValidPathInfo.ext hpath hhash (Joins.toString_injective hsize) hrefs

end Signed

section Alphabets
variable {escapeDebug : String → String} {text : String} {info : NarInfo}

/-- What the checks of a parsed document say. -/
theorem parse_checks (h : NarInfo.parse escapeDebug text = .ok info) :
    checkStorePathField escapeDebug info = .ok () ∧
      checkReferencesField escapeDebug info = .ok () ∧
        checkNarHashField escapeDebug info = .ok () := by
  unfold NarInfo.parse checkFingerprintFields at h
  obtain ⟨lines, -, h⟩ := (Fallible.bind_eq_ok_iff _ _ _).mp h
  obtain ⟨⟨⟩, hchecks, h⟩ := (Fallible.bind_eq_ok_iff _ _ _).mp h
  obtain rfl := Except.ok.inj h
  obtain ⟨⟨⟩, hpath, hchecks⟩ := (Fallible.bind_eq_ok_iff _ _ _).mp hchecks
  obtain ⟨⟨⟩, hrefs, hhash⟩ := (Fallible.bind_eq_ok_iff _ _ _).mp hchecks
  exact ⟨hpath, hrefs, hhash⟩

theorem isStoreDir_default : isStoreDir DEFAULT_STORE_DIR = true := by decide

/-- The store directory of a parsed document's path. -/
theorem isStoreDir_of_parse (h : NarInfo.parse escapeDebug text = .ok info) {path : StorePath}
    (hpath : info.storePath = .ok path) :
    isStoreDir (path.storeDir.getD DEFAULT_STORE_DIR) = true := by
  have hcheck := (parse_checks h).1
  unfold checkStorePathField at hcheck
  unfold NarInfo.storePath at hpath
  cases hget : info.get "StorePath" with
  | none =>
    rw [hget] at hpath
    cases hpath
  | some raw =>
    rw [hget] at hpath hcheck
    obtain ⟨parsed, hparsed, hdir⟩ := (Fallible.bind_eq_ok_iff _ _ _).mp hcheck
    obtain rfl : path = parsed := Except.ok.inj (hpath.symm.trans hparsed)
    cases hstore : path.storeDir with
    | none => exact isStoreDir_default
    | some dir =>
      rw [hstore] at hdir
      dsimp only at hdir
      split_ifs at hdir with hok
      exact hok

theorem notMem_of_isStoreDir {dir : String} {c : Char} (h : isStoreDir dir = true)
    (hc : isDirChar c = false) : c ∉ dir.toList := by
  intro hmem
  rw [isStoreDir, Bool.and_eq_true, List.all_eq_true] at h
  have htrue := h.2 c hmem
  rw [hc] at htrue
  cases htrue

theorem isReference_of_parse (h : NarInfo.parse escapeDebug text = .ok info) :
    ∀ base ∈ info.referenceTokens, isReference base = true := by
  have hcheck := (parse_checks h).2.1
  unfold checkReferencesField at hcheck
  intro base hbase
  split at hcheck
  · cases hcheck
  · rename_i hnone
    have hnot := List.find?_eq_none.mp hnone base hbase
    simpa using hnot

/-- A reference is spelled in the characters of a store name. -/
theorem isNameChar_of_isReference {base : String} (h : isReference base = true) :
    ∀ c ∈ base.toList, isNameChar c = true := by
  rw [isReference, Bool.and_eq_true] at h
  obtain ⟨hslash, hparse⟩ := h
  have hno : '/' ∉ base.toList := by simpa using hslash
  cases hp : StorePath.parse base with
  | error e =>
    rw [hp] at hparse
    cases hparse
  | ok p =>
    have hspec := (StorePath.parse_spec hp).1
    rw [cutDir_of_notMem hno, Prod.mk.injEq] at hspec
    rw [hspec.2]
    exact StorePath.isNameChar_of_parse hp

theorem notMem_of_isReference {base : String} {c : Char} (h : isReference base = true)
    (hc : isNameChar c = false) : c ∉ base.toList := by
  intro hmem
  have htrue := isNameChar_of_isReference h c hmem
  rw [hc] at htrue
  cases htrue

theorem path_plain_of_parse (h : NarInfo.parse escapeDebug text = .ok info) {path : StorePath}
    (hpath : info.storePath = .ok path) : ';' ∉ path.toFullPath.toList := by
  have hdir := notMem_of_isStoreDir (isStoreDir_of_parse h hpath) (c := ';') (by decide)
  have hbase : ';' ∉ (path.hash ++ "-" ++ path.name).toList := by
    unfold NarInfo.storePath at hpath
    split at hpath
    · cases hpath
    · intro hmem
      have htrue := StorePath.isNameChar_of_parse hpath ';' hmem
      exact absurd htrue (by decide)
  unfold StorePath.toFullPath
  simp only [String.toList_append, List.mem_append, not_or] at hbase ⊢
  exact ⟨⟨⟨⟨hdir, by decide⟩, hbase.1.1⟩, hbase.1.2⟩, hbase.2⟩

theorem splitDigest_eq_some {hash algo digest : String} (h : splitDigest hash = some (algo, digest)) :
    ∃ sep, (sep = ':' ∨ sep = '-') ∧ hash.toList = algo.toList ++ sep :: digest.toList := by
  unfold splitDigest at h
  rw [List.span_eq_takeWhile_dropWhile] at h
  have hcut := List.takeWhile_append_dropWhile (p := fun c => decide (c ≠ ':' ∧ c ≠ '-'))
    (l := hash.toList)
  cases hdrop : hash.toList.dropWhile fun c => decide (c ≠ ':' ∧ c ≠ '-') with
  | nil =>
    rw [hdrop] at h
    cases h
  | cons sep rest =>
    rw [hdrop] at h hcut
    obtain ⟨rfl, rfl⟩ := Prod.mk.inj (Option.some.inj h)
    refine ⟨sep, ?_, ?_⟩
    · have hhead := List.head_dropWhile_not (l := hash.toList)
        (fun c => decide (c ≠ ':' ∧ c ≠ '-')) (by rw [hdrop]; simp)
      simp only [hdrop, List.head_cons] at hhead
      by_contra hne
      rw [not_or] at hne
      exact absurd hhead (by simpa using hne)
    · rw [String.toList_ofList, String.toList_ofList, hcut]

theorem isNarHash_plain {hash : String} (h : isNarHash hash = true) : ';' ∉ hash.toList := by
  unfold isNarHash at h
  split at h
  · rename_i algo digest hsplit
    rw [Bool.and_eq_true, Bool.and_eq_true, List.all_eq_true] at h
    obtain ⟨⟨halgo, -⟩, hdigest⟩ := h
    obtain ⟨sep, hsep, hchars⟩ := splitDigest_eq_some hsplit
    have halgo' : ';' ∉ algo.toList := by
      have hall : ∀ a ∈ ["md5", "sha1", "sha256", "sha512"], ';' ∉ a.toList := by decide
      exact hall algo (by simpa using halgo)
    have hdigest' : ';' ∉ digest.toList := by
      intro hmem
      exact absurd (hdigest ';' hmem) (by decide)
    rw [hchars, List.mem_append, List.mem_cons]
    rintro (hmem | rfl | hmem)
    · exact halgo' hmem
    · rcases hsep with hsep | hsep <;> exact absurd hsep (by decide)
    · exact hdigest' hmem
  · cases h

theorem narHash_plain_of_parse (h : NarInfo.parse escapeDebug text = .ok info) :
    ';' ∉ ((info.get "NarHash").getD "").toList := by
  have hcheck := (parse_checks h).2.2
  unfold checkNarHashField at hcheck
  cases hget : info.get "NarHash" with
  | none => decide
  | some hash =>
    rw [hget] at hcheck
    dsimp only at hcheck
    split_ifs at hcheck with hok
    exact isNarHash_plain hok

theorem references_plain_of_parse (h : NarInfo.parse escapeDebug text = .ok info)
    {path : StorePath} (hpath : info.storePath = .ok path) :
    ∀ full ∈ info.referencedPaths (path.storeDir.getD DEFAULT_STORE_DIR),
      full ≠ "" ∧ ',' ∉ full.toList := by
  intro full hfull
  obtain ⟨base, hbase, rfl⟩ := List.mem_map.mp ((SortedSearch.mem_sortDedup _ _).mp hfull)
  constructor
  · intro hempty
    have hchars := congrArg String.toList hempty
    simp at hchars
  · have hdir := notMem_of_isStoreDir (isStoreDir_of_parse h hpath) (c := ',') (by decide)
    have href := notMem_of_isReference (isReference_of_parse h base hbase) (c := ',') (by decide)
    simp only [String.toList_append, List.mem_append, not_or]
    exact ⟨⟨hdir, by decide⟩, href⟩

end Alphabets

section Refinement
variable {escapeDebug : String → String} {text : String} {info : NarInfo}

/-- The fields that a fingerprint is made of, as they stand in a document. -/
structure NarInfo.Signs (info : NarInfo) (v : ValidPathInfo) : Prop where
  path : ∃ path, info.storePath = .ok path ∧ v.path = path.toFullPath ∧
    v.references = info.referencedPaths (path.storeDir.getD DEFAULT_STORE_DIR)
  narHash : info.get "NarHash" = some v.narHash
  narSize : info.narSize = .ok v.narSize

theorem NarInfo.isSome_of_requireFields (h : info.requireFields = .ok ()) :
    ∀ field ∈ ["StorePath", "NarHash", "NarSize", "URL"], (info.get field).isSome = true := by
  unfold requireFields at h
  intro field hfield
  split at h
  · cases h
  · rename_i hnone
    have hnot := List.find?_eq_none.mp hnone field hfield
    rw [Bool.not_eq_true, Option.isNone_eq_false_iff] at hnot
    exact hnot

/-- The fingerprint of a parsed document prints what the document signs. -/
theorem fingerprint_printed (h : NarInfo.parse escapeDebug text = .ok info) {print : String}
    (hprint : fingerprint info = .ok print) :
    ∃ v : ValidPathInfo, info.Signs v ∧ v.printed = print := by
  unfold fingerprint at hprint
  obtain ⟨⟨⟩, hfields, hprint⟩ := (Fallible.bind_eq_ok_iff _ _ _).mp hprint
  obtain ⟨path, hpath, hprint⟩ := (Fallible.bind_eq_ok_iff _ _ _).mp hprint
  obtain ⟨narSize, hsize, hprint⟩ := (Fallible.bind_eq_ok_iff _ _ _).mp hprint
  have hsome := NarInfo.isSome_of_requireFields hfields "NarHash" (by decide)
  obtain ⟨narHash, hhash⟩ := Option.isSome_iff_exists.mp hsome
  have hplain := narHash_plain_of_parse h
  rw [hhash] at hplain hprint
  refine ⟨⟨path.toFullPath, narHash, narSize,
    info.referencedPaths (path.storeDir.getD DEFAULT_STORE_DIR), path_plain_of_parse h hpath,
    hplain, references_plain_of_parse h hpath⟩, ⟨⟨path, hpath, rfl, rfl⟩, hhash, hsize⟩, ?_⟩
  exact Except.ok.inj hprint

/-- Documents that sign the same sign with the same fields. -/
theorem NarInfo.Signs.agree {info' : NarInfo} {v : ValidPathInfo} (h : info.Signs v)
    (h' : info'.Signs v) :
    (∃ path path' : StorePath, info.storePath = .ok path ∧ info'.storePath = .ok path' ∧
        path.toFullPath = path'.toFullPath ∧
        ∀ full, full ∈ info.referencedPaths (path.storeDir.getD DEFAULT_STORE_DIR) ↔
          full ∈ info'.referencedPaths (path'.storeDir.getD DEFAULT_STORE_DIR)) ∧
      info.get "NarHash" = info'.get "NarHash" ∧
      ∃ size, info.narSize = .ok size ∧ info'.narSize = .ok size := by
  obtain ⟨path, hpath, hfull, hrefs⟩ := h.path
  obtain ⟨path', hpath', hfull', hrefs'⟩ := h'.path
  refine ⟨⟨path, path', hpath, hpath', hfull.symm.trans hfull', ?_⟩, ?_, v.narSize, h.narSize,
    h'.narSize⟩
  · intro full
    rw [← hrefs, ← hrefs']
  · rw [h.narHash, h'.narHash]

end Refinement

section Edits

/-- What a proxy does to a document it relays. -/
inductive Edit where
  | rewriteUrl (storeHash : String)
  | dropSignaturesBy (keyName : String)
  | pushSignature (signature : String)
  | set (name value : String)
  | remove (name : String)
  deriving DecidableEq, Repr

def Edit.apply (info : NarInfo) : Edit → NarInfo
  | .rewriteUrl storeHash => (Nix.rewriteUrl info storeHash).2
  | .dropSignaturesBy keyName => (info.dropSignaturesBy keyName).1
  | .pushSignature signature => info.pushSignature signature
  | .set name value => info.set name value
  | .remove name => info.remove name

/-- The fields a fingerprint is made of. -/
def SIGNED_FIELDS : List String := ["StorePath", "NarHash", "NarSize", "References"]

/-- An edit of one field is of an unsigned one, and a document with a URL keeps one. -/
def Edit.Unsigned (info : NarInfo) (e : Edit) : Prop :=
  match e with
  | .set name _ | .remove name =>
    name ∉ SIGNED_FIELDS ∧ ((e.apply info).get "URL").isSome = (info.get "URL").isSome
  | _ => True

theorem get_congr {info info' : NarInfo} {name : String}
    (h : info'.getAll name = info.getAll name) : info'.get name = info.get name := by
  rw [NarInfo.get_eq_head, NarInfo.get_eq_head, h]

/-- The fingerprint reads the signed fields and whether there is a URL. -/
theorem fingerprint_congr {info info' : NarInfo}
    (hfields : ∀ field ∈ SIGNED_FIELDS, info'.getAll field = info.getAll field)
    (hurl : (info'.get "URL").isSome = (info.get "URL").isSome) :
    fingerprint info' = fingerprint info := by
  have hget : ∀ field ∈ SIGNED_FIELDS, info'.get field = info.get field :=
    fun field hfield => get_congr (hfields field hfield)
  have hpath := hget "StorePath" (by decide)
  have hhash := hget "NarHash" (by decide)
  have hsize := hget "NarSize" (by decide)
  have hrefs : info'.referenceTokens = info.referenceTokens := by
    unfold NarInfo.referenceTokens
    rw [hfields "References" (by decide)]
  have hrequire : info'.requireFields = info.requireFields := by
    have hnone : (info'.get "URL").isNone = (info.get "URL").isNone := by
      rw [← Option.not_isSome, ← Option.not_isSome, hurl]
    unfold NarInfo.requireFields
    simp only [List.find?_cons, List.find?_nil, hpath, hhash, hsize, hnone]
  unfold fingerprint NarInfo.storePath NarInfo.narSize NarInfo.referencedPaths
  rw [hrequire, hpath, hhash, hsize, hrefs]

theorem getAll_rewriteUrl (info : NarInfo) (storeHash : String) {other : String}
    (h : other ≠ "URL") : (rewriteUrl info storeHash).2.getAll other = info.getAll other := by
  unfold rewriteUrl
  split
  · rfl
  · dsimp only
    split_ifs
    · rfl
    · split
      · rfl
      · exact getAll_set info h _

theorem url_rewriteUrl (info : NarInfo) (storeHash : String) :
    ((rewriteUrl info storeHash).2.get "URL").isSome = (info.get "URL").isSome := by
  unfold rewriteUrl
  split
  · rfl
  · rename_i url hurl
    dsimp only
    split_ifs
    · rfl
    · split
      · rfl
      · rw [get_set_self, hurl]
        rfl

/-- An edit that leaves the signed fields alone leaves the fingerprint alone. -/
theorem fingerprint_apply (info : NarInfo) (e : Edit) (h : e.Unsigned info) :
    fingerprint (e.apply info) = fingerprint info := by
  have hne : ∀ {field name : String}, field ∈ SIGNED_FIELDS → name ∉ SIGNED_FIELDS →
      field ≠ name := by
    intro field name hfield hname heq
    exact hname (heq ▸ hfield)
  cases e with
  | rewriteUrl storeHash =>
    apply fingerprint_congr
    · intro field hfield
      exact getAll_rewriteUrl info storeHash (hne hfield (by decide))
    · exact url_rewriteUrl info storeHash
  | dropSignaturesBy keyName =>
    apply fingerprint_congr
    · intro field hfield
      exact getAll_dropSignaturesBy info (hne hfield (by decide)) keyName
    · have hsame : ((Edit.dropSignaturesBy keyName).apply info).get "URL" = info.get "URL" :=
        get_congr (getAll_dropSignaturesBy info (by decide) keyName)
      rw [hsame]
  | pushSignature signature =>
    apply fingerprint_congr
    · intro field hfield
      exact getAll_pushSignature info (hne hfield (by decide)) signature
    · have hsame : ((Edit.pushSignature signature).apply info).get "URL" = info.get "URL" :=
        get_congr (getAll_pushSignature info (by decide) signature)
      rw [hsame]
  | set name value =>
    apply fingerprint_congr
    · intro field hfield
      exact getAll_set info (hne hfield h.1) value
    · exact h.2
  | remove name =>
    apply fingerprint_congr
    · intro field hfield
      exact getAll_remove info (hne hfield h.1)
    · exact h.2

/-- Any number of them. -/
theorem fingerprint_foldl_apply (edits : List Edit) (info : NarInfo)
    (h : ∀ (done : List Edit) (e : Edit), done ++ [e] <+: edits →
      e.Unsigned (done.foldl Edit.apply info)) :
    fingerprint (edits.foldl Edit.apply info) = fingerprint info := by
  induction edits using List.reverseRecOn with
  | nil => rfl
  | append_singleton edits e ih =>
    have hearlier := ih fun done e' hpre => h done e' (hpre.trans (List.prefix_append _ _))
    rw [List.foldl_append, List.foldl_cons, List.foldl_nil,
      fingerprint_apply _ e (h edits e (List.prefix_refl _)), hearlier]

/-- A fingerprint determines what it signs, and edits of anything else keep it. -/
theorem fingerprint_determines (escapeDebug : String → String) :
    (∀ (text text' : String) (info info' : NarInfo) (print : String),
      NarInfo.parse escapeDebug text = .ok info → NarInfo.parse escapeDebug text' = .ok info' →
      fingerprint info = .ok print → fingerprint info' = .ok print →
      (∃ path path' : StorePath, info.storePath = .ok path ∧ info'.storePath = .ok path' ∧
          path.toFullPath = path'.toFullPath ∧
          ∀ full, full ∈ info.referencedPaths (path.storeDir.getD DEFAULT_STORE_DIR) ↔
            full ∈ info'.referencedPaths (path'.storeDir.getD DEFAULT_STORE_DIR)) ∧
        info.get "NarHash" = info'.get "NarHash" ∧
        ∃ size, info.narSize = .ok size ∧ info'.narSize = .ok size) ∧
      (∀ (text : String) (info : NarInfo) (e : Edit), NarInfo.parse escapeDebug text = .ok info →
        e.Unsigned info → fingerprint (e.apply info) = fingerprint info) ∧
      ∀ (edits : List Edit) (info : NarInfo),
        (∀ (done : List Edit) (e : Edit), done ++ [e] <+: edits →
          e.Unsigned (done.foldl Edit.apply info)) →
        fingerprint (edits.foldl Edit.apply info) = fingerprint info := by
  refine ⟨?_, ?_, fingerprint_foldl_apply⟩
  · intro text text' info info' print hparse hparse' hprint hprint'
    obtain ⟨v, hv, hvprint⟩ := fingerprint_printed hparse hprint
    obtain ⟨w, hw, hwprint⟩ := fingerprint_printed hparse' hprint'
    obtain rfl : v = w := ValidPathInfo.printed_injective (hvprint.trans hwprint.symm)
    exact hv.agree hw
  · intro text info e _ hunsigned
    exact fingerprint_apply info e hunsigned

/-- A store path's document, as one cache writes it. -/
def helloText : String :=
  "StorePath: /nix/store/0123456789abcdfghijklmnpqrsvwxyz-a\nURL: a\n" ++
  "NarHash: md5:1\nNarSize: 7\n" ++
  "References: 1123456789abcdfghijklmnpqrsvwxyz-b 0123456789abcdfghijklmnpqrsvwxyz-a\n"

/-- The same path's document, as another one does, its references in another order and one of
them twice. -/
def mirroredText : String :=
  "NarSize: +7\nStorePath: 0123456789abcdfghijklmnpqrsvwxyz-a\n" ++
  "NarHash: md5:1\nURL: b\nSig: m:1\n" ++
  "References: 0123456789abcdfghijklmnpqrsvwxyz-a 1123456789abcdfghijklmnpqrsvwxyz-b " ++
  "0123456789abcdfghijklmnpqrsvwxyz-a\n"

def helloInfo : NarInfo :=
  ⟨[("StorePath", "/nix/store/0123456789abcdfghijklmnpqrsvwxyz-a"), ("URL", "a"),
    ("NarHash", "md5:1"), ("NarSize", "7"),
    ("References",
      "1123456789abcdfghijklmnpqrsvwxyz-b 0123456789abcdfghijklmnpqrsvwxyz-a")]⟩

def mirroredInfo : NarInfo :=
  ⟨[("NarSize", "+7"), ("StorePath", "0123456789abcdfghijklmnpqrsvwxyz-a"),
    ("NarHash", "md5:1"), ("URL", "b"), ("Sig", "m:1"),
    ("References", "0123456789abcdfghijklmnpqrsvwxyz-a 1123456789abcdfghijklmnpqrsvwxyz-b " ++
      "0123456789abcdfghijklmnpqrsvwxyz-a")]⟩

def helloPrint : String :=
  "1;/nix/store/0123456789abcdfghijklmnpqrsvwxyz-a;md5:1;7;" ++
  "/nix/store/0123456789abcdfghijklmnpqrsvwxyz-a,/nix/store/1123456789abcdfghijklmnpqrsvwxyz-b"

theorem two_documents_one_fingerprint :
    NarInfo.parse id helloText = .ok helloInfo ∧ NarInfo.parse id mirroredText = .ok mirroredInfo ∧
      fingerprint helloInfo = .ok helloPrint ∧ fingerprint mirroredInfo = .ok helloPrint ∧
      helloInfo.get "NarHash" = mirroredInfo.get "NarHash" ∧
      fingerprint ((Edit.set "Deriver" "x.drv").apply helloInfo) = fingerprint helloInfo := by
  have htext : helloText = helloInfo.toWire := by decide +kernel
  have htext' : mirroredText = mirroredInfo.toWire := by decide +kernel
  have hplain : helloInfo.Plain := by
    simp [NarInfo.Plain, plainLine_iff, helloInfo]
  have hplain' : mirroredInfo.Plain := by
    simp [NarInfo.Plain, plainLine_iff, mirroredInfo]
  have hparse : NarInfo.parse id helloText = .ok helloInfo := by
    rw [htext, parse_toWire hplain]
    decide +kernel
  have hparse' : NarInfo.parse id mirroredText = .ok mirroredInfo := by
    rw [htext', parse_toWire hplain']
    decide +kernel
  have hprint : fingerprint helloInfo = .ok helloPrint := by decide +kernel
  have hprint' : fingerprint mirroredInfo = .ok helloPrint := by decide +kernel
  obtain ⟨hsame, hedit, -⟩ := fingerprint_determines id
  refine ⟨hparse, hparse', hprint, hprint', ?_, ?_⟩
  · exact (hsame helloText mirroredText helloInfo mirroredInfo helloPrint hparse hparse' hprint
      hprint').2.1
  · exact hedit helloText helloInfo (.set "Deriver" "x.drv") hparse
      ⟨by decide +kernel, by decide +kernel⟩

end Edits

end BatleHub.Nix
