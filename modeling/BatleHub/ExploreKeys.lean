import BatleHub.Lib.Joins
import BatleHub.Lib.SortedSearch
import Mathlib.Data.String.Basic

/-!
The keys of the explore cache (`services/explore_cache.rs`). A key joins the texts of
a query and of its viewer with `:`, lists with `,` and pairs with `/`, and escapes
none of them. Two queries without separators in their texts share a key only if they
ask for the same and their viewers may see the same.
-/
namespace BatleHub.ExploreKeys

open Lib.Joins Lib.SortedSearch

/-- Who is asking, as far as package visibility goes. -/
structure ExploreViewer where
  isAdmin : Bool
  isAuthenticated : Bool
  groups : List String
  deriving DecidableEq, Repr

/-- Group ids with their spaces removed. -/
def ExploreViewer.normalisedGroups (v : ExploreViewer) : List String :=
  v.groups.map fun g => String.ofList (g.toList.filter fun c => decide (c ≠ ' '))

inductive ExploreSortBy where
  | downloads
  | name
  | recent
  | fetched
  deriving DecidableEq, Repr

structure ExploreFilter where
  registry : Option String
  registries : List String
  nameContains : Option String
  nameIn : List (String × String)
  sortBy : ExploreSortBy
  limit : ℕ
  offset : ℕ
  viewer : ExploreViewer
  deriving DecidableEq, Repr

def sorted (l : List String) : List String := l.insertionSort (· ≤ ·)

/-- The viewer's contribution to a key. -/
def viewerKeyPart (v : ExploreViewer) : String :=
  if v.isAdmin then "admin"
  else if !v.isAuthenticated && v.groups.isEmpty then "anon"
  else "u:" ++ join ',' (sortDedup v.normalisedGroups)

def ExploreSortBy.keyPart : ExploreSortBy → String
  | downloads => "dl"
  | name => "name"
  | recent => "recent"
  | fetched => "fetched"

def pairText (p : String × String) : String := p.1 ++ "/" ++ p.2

/-- The format of a package-list key. -/
def packagesKeyText (registry name sort limit offset regs viewer names : String) : String :=
  "exp:pkg:" ++ registry ++ ":" ++ name ++ ":" ++ sort ++ ":" ++ limit ++ ":" ++ offset ++ ":" ++
    regs ++ ":" ++ viewer ++ ":" ++ names

def packagesCacheKey (filter : ExploreFilter) : String :=
  packagesKeyText (filter.registry.getD "") (filter.nameContains.getD "") filter.sortBy.keyPart
    (toString filter.limit) (toString filter.offset) (join ',' (sorted filter.registries))
    (viewerKeyPart filter.viewer) (join ',' (sorted (filter.nameIn.map pairText)))

def statsCacheKey (accessibleRegistries : List String) (viewer : ExploreViewer) : String :=
  "exp:stats:" ++ join ',' (sorted accessibleRegistries) ++ ":" ++ viewerKeyPart viewer

/-- The visibility rule cannot tell the two viewers apart. -/
def SameSight (v w : ExploreViewer) : Prop :=
  v.isAdmin = w.isAdmin ∧
    (v.isAdmin = false → v.isAuthenticated = w.isAuthenticated ∧
      ∀ g, g ∈ v.normalisedGroups ↔ g ∈ w.normalisedGroups)

/-- The two filters ask for the same, for viewers that see the same. -/
structure Agree (f g : ExploreFilter) : Prop where
  registry : f.registry.getD "" = g.registry.getD ""
  nameContains : f.nameContains.getD "" = g.nameContains.getD ""
  sortBy : f.sortBy = g.sortBy
  limit : f.limit = g.limit
  offset : f.offset = g.offset
  registries : ∀ r, r ∈ f.registries ↔ r ∈ g.registries
  nameIn : ∀ p, p ∈ f.nameIn ↔ p ∈ g.nameIn
  viewer : SameSight f.viewer g.viewer

/-- A text that can stand in a list: neither empty nor holding a comma. -/
def PlainEntry (s : String) : Prop := s ≠ "" ∧ ',' ∉ s.toList

/-- A viewer that is no admin and has groups is logged in, and its groups are plain. -/
def PlainViewer (v : ExploreViewer) : Prop :=
  v.isAdmin = false →
    (v.groups ≠ [] → v.isAuthenticated = true) ∧ ∀ g ∈ v.normalisedGroups, PlainEntry g

/-- No colon in the registry, the name, a listed registry or a group; no comma in the
lists; no slash in the registry of a pair. -/
structure PlainFilter (f : ExploreFilter) : Prop where
  registry : ':' ∉ (f.registry.getD "").toList
  nameContains : ':' ∉ (f.nameContains.getD "").toList
  registries : ∀ r ∈ f.registries, PlainEntry r ∧ ':' ∉ r.toList
  nameIn : ∀ p ∈ f.nameIn, '/' ∉ p.1.toList ∧ ',' ∉ p.1.toList ∧ ',' ∉ p.2.toList
  viewer : PlainViewer f.viewer
  groups : f.viewer.isAdmin = false → ∀ g ∈ f.viewer.normalisedGroups, ':' ∉ g.toList

section Parts

theorem mem_sorted (l : List String) (s : String) : s ∈ sorted l ↔ s ∈ l :=
  List.mem_insertionSort _

/-- Lists of plain entries with the same joined text have the same entries. -/
theorem mem_iff_of_join_sorted {l m : List String} (hl : ∀ s ∈ l, PlainEntry s)
    (hm : ∀ s ∈ m, PlainEntry s) (h : join ',' (sorted l) = join ',' (sorted m)) (s : String) :
    s ∈ l ↔ s ∈ m := by
  have hsame : sorted l = sorted m := by
    apply join_injective _ _ h
    · intro t ht
      exact hl t ((mem_sorted l t).mp ht)
    · intro t ht
      exact hm t ((mem_sorted m t).mp ht)
  rw [← mem_sorted l, hsame, mem_sorted]

theorem notMem_keyPart (sortBy : ExploreSortBy) : ':' ∉ sortBy.keyPart.toList := by
  cases sortBy <;> decide

theorem keyPart_injective {s t : ExploreSortBy} (h : s.keyPart = t.keyPart) : s = t := by
  cases s <;> cases t <;> first | rfl | exact absurd h (by decide)

theorem colon_notMem_toString (n : ℕ) : ':' ∉ (toString n).toList := by
  intro h
  exact absurd (isDigit_of_mem_toString h) (by decide)

theorem pairText_injective {p q : String × String} (hp : '/' ∉ p.1.toList)
    (hq : '/' ∉ q.1.toList) (h : pairText p = pairText q) : p = q := by
  have hchars : p.1.toList ++ '/' :: p.2.toList = q.1.toList ++ '/' :: q.2.toList := by
    simpa [pairText] using congrArg String.toList h
  obtain ⟨hfst, hsnd⟩ := field_inj hp hq hchars
  exact Prod.ext (String.toList_inj.mp hfst) (String.toList_inj.mp hsnd)

theorem plainEntry_pairText {p : String × String} (hp : ',' ∉ p.1.toList ∧ ',' ∉ p.2.toList) :
    PlainEntry (pairText p) := by
  constructor
  · intro hempty
    have hchars := congrArg String.toList hempty
    simp [pairText] at hchars
  · simp [pairText, hp.1, hp.2]

end Parts

section Viewers
variable {v w : ExploreViewer}

/-- The three kinds of viewer, by what they contribute. -/
theorem viewerKeyPart_cases (v : ExploreViewer) :
    (v.isAdmin = true ∧ viewerKeyPart v = "admin") ∨
      (v.isAdmin = false ∧ v.isAuthenticated = false ∧ v.groups = [] ∧ viewerKeyPart v = "anon") ∨
      (v.isAdmin = false ∧ (v.isAuthenticated = true ∨ v.groups ≠ []) ∧
        viewerKeyPart v = "u:" ++ join ',' (sortDedup v.normalisedGroups)) := by
  unfold viewerKeyPart
  cases hadmin : v.isAdmin with
  | true => simp
  | false =>
    cases hauth : v.isAuthenticated with
    | true => simp
    | false =>
      cases hgroups : v.groups with
      | nil => simp
      | cons g rest => simp

/-- Plain viewers with the same part see the same. -/
theorem sameSight_of_viewerKeyPart (hv : PlainViewer v) (hw : PlainViewer w)
    (h : viewerKeyPart v = viewerKeyPart w) : SameSight v w := by
  rcases viewerKeyPart_cases v with ⟨hva, hvk⟩ | ⟨hva, hvauth, hvg, hvk⟩ | ⟨hva, hvauth, hvk⟩ <;>
    rcases viewerKeyPart_cases w with ⟨hwa, hwk⟩ | ⟨hwa, hwauth, hwg, hwk⟩ | ⟨hwa, hwauth, hwk⟩ <;>
    rw [hvk, hwk] at h
  · exact ⟨hva.trans hwa.symm, fun hnot => absurd (hva.symm.trans hnot) (by decide)⟩
  · exact absurd h (by decide)
  · exact absurd (congrArg String.toList h) (by simp)
  · exact absurd h (by decide)
  · refine ⟨hva.trans hwa.symm, fun _ => ⟨hvauth.trans hwauth.symm, ?_⟩⟩
    simp [ExploreViewer.normalisedGroups, hvg, hwg]
  · exact absurd (congrArg String.toList h) (by simp)
  · exact absurd (congrArg String.toList h) (by simp)
  · exact absurd (congrArg String.toList h) (by simp)
  · -- both are logged in, and the groups are read back from their joined text
    obtain ⟨hvlogin, hvplain⟩ := hv hva
    obtain ⟨hwlogin, hwplain⟩ := hw hwa
    have hvtrue : v.isAuthenticated = true := hvauth.elim id hvlogin
    have hwtrue : w.isAuthenticated = true := hwauth.elim id hwlogin
    have hjoined : join ',' (sortDedup v.normalisedGroups) =
        join ',' (sortDedup w.normalisedGroups) := by
      apply String.toList_inj.mp
      simpa using congrArg String.toList h
    have hgroups : sortDedup v.normalisedGroups = sortDedup w.normalisedGroups := by
      apply join_injective _ _ hjoined
      · intro g hg
        exact hvplain g ((mem_sortDedup _ g).mp hg)
      · intro g hg
        exact hwplain g ((mem_sortDedup _ g).mp hg)
    refine ⟨hva.trans hwa.symm, fun _ => ⟨hvtrue.trans hwtrue.symm, ?_⟩⟩
    intro g
    rw [← mem_sortDedup, hgroups, mem_sortDedup]

/-- The viewer's part ends where its fields end. -/
theorem viewerKeyPart_inj {x y : List Char}
    (hv : v.isAdmin = false → ∀ g ∈ v.normalisedGroups, ':' ∉ g.toList)
    (hw : w.isAdmin = false → ∀ g ∈ w.normalisedGroups, ':' ∉ g.toList)
    (h : (viewerKeyPart v).toList ++ ':' :: x = (viewerKeyPart w).toList ++ ':' :: y) :
    viewerKeyPart v = viewerKeyPart w ∧ x = y := by
  have hgroups : ∀ u : ExploreViewer, (∀ g ∈ u.normalisedGroups, ':' ∉ g.toList) →
      ':' ∉ (join ',' (sortDedup u.normalisedGroups)).toList := by
    intro u hu
    apply notMem_join (by decide)
    intro g hg
    exact hu g ((mem_sortDedup _ g).mp hg)
  rcases viewerKeyPart_cases v with ⟨-, hvk⟩ | ⟨-, -, -, hvk⟩ | ⟨hva, -, hvk⟩ <;>
    rcases viewerKeyPart_cases w with ⟨-, hwk⟩ | ⟨-, -, -, hwk⟩ | ⟨hwa, -, hwk⟩ <;>
    rw [hvk, hwk] at h ⊢
  · exact ⟨rfl, (field_inj (by decide) (by decide) h).2⟩
  · simp at h
  · simp at h
  · simp at h
  · exact ⟨rfl, (field_inj (by decide) (by decide) h).2⟩
  · simp at h
  · simp at h
  · simp at h
  · have hrest : (join ',' (sortDedup v.normalisedGroups)).toList ++ ':' :: x =
        (join ',' (sortDedup w.normalisedGroups)).toList ++ ':' :: y := by
      simpa using h
    obtain ⟨hsame, htail⟩ := field_inj (hgroups v (hv hva)) (hgroups w (hw hwa)) hrest
    exact ⟨by rw [String.toList_inj.mp hsame], htail⟩

end Viewers

section Keys
variable {f g : ExploreFilter}

theorem toList_packagesKeyText (registry name sort limit offset regs viewer names : String) :
    (packagesKeyText registry name sort limit offset regs viewer names).toList =
      "exp:pkg:".toList ++ (registry.toList ++ ':' :: (name.toList ++ ':' :: (sort.toList ++ ':' ::
        (limit.toList ++ ':' :: (offset.toList ++ ':' :: (regs.toList ++ ':' ::
          (viewer.toList ++ ':' :: names.toList))))))) := by
  have hcolon : ":".toList = [':'] := rfl
  unfold packagesKeyText
  generalize "exp:pkg:" = head
  simp only [String.toList_append, hcolon, List.append_assoc, List.cons_append, List.nil_append]

theorem colon_notMem_registries {l : List String} (h : ∀ r ∈ l, PlainEntry r ∧ ':' ∉ r.toList) :
    ':' ∉ (join ',' (sorted l)).toList := by
  apply notMem_join (by decide)
  intro r hr
  exact (h r ((mem_sorted l r).mp hr)).2

theorem nameIn_of_join (hf : PlainFilter f) (hg : PlainFilter g)
    (h : join ',' (sorted (f.nameIn.map pairText)) = join ',' (sorted (g.nameIn.map pairText)))
    (p : String × String) : p ∈ f.nameIn ↔ p ∈ g.nameIn := by
  have hplain : ∀ k : ExploreFilter, PlainFilter k →
      ∀ s ∈ k.nameIn.map pairText, PlainEntry s := by
    intro k hk s hs
    obtain ⟨q, hq, rfl⟩ := List.mem_map.mp hs
    exact plainEntry_pairText (hk.nameIn q hq).2
  have hsame := mem_iff_of_join_sorted (hplain f hf) (hplain g hg) h
  constructor
  · intro hp
    obtain ⟨q, hq, heq⟩ := List.mem_map.mp ((hsame _).mp (List.mem_map_of_mem hp))
    have := pairText_injective (hg.nameIn q hq).1 (hf.nameIn p hp).1 heq
    exact this ▸ hq
  · intro hp
    obtain ⟨q, hq, heq⟩ := List.mem_map.mp ((hsame _).mpr (List.mem_map_of_mem hp))
    have := pairText_injective (hf.nameIn q hq).1 (hg.nameIn p hp).1 heq
    exact this ▸ hq

/-- Plain filters with one key agree: the key is read field by field. -/
theorem agree_of_packagesCacheKey (hf : PlainFilter f) (hg : PlainFilter g)
    (h : packagesCacheKey f = packagesCacheKey g) : Agree f g := by
  have hchars := congrArg String.toList h
  rw [packagesCacheKey, packagesCacheKey, toList_packagesKeyText, toList_packagesKeyText] at hchars
  have h₀ := List.append_cancel_left hchars
  obtain ⟨hregistry, h₁⟩ := field_inj hf.registry hg.registry h₀
  obtain ⟨hname, h₂⟩ := field_inj hf.nameContains hg.nameContains h₁
  obtain ⟨hsort, h₃⟩ := field_inj (notMem_keyPart _) (notMem_keyPart _) h₂
  obtain ⟨hlimit, h₄⟩ := field_inj (colon_notMem_toString _) (colon_notMem_toString _) h₃
  obtain ⟨hoffset, h₅⟩ := field_inj (colon_notMem_toString _) (colon_notMem_toString _) h₄
  obtain ⟨hregistries, h₆⟩ := field_inj (colon_notMem_registries hf.registries)
    (colon_notMem_registries hg.registries) h₅
  obtain ⟨hviewer, hnames⟩ := viewerKeyPart_inj hf.groups hg.groups h₆
  constructor
  · exact String.toList_inj.mp hregistry
  · exact String.toList_inj.mp hname
  · exact keyPart_injective (String.toList_inj.mp hsort)
  · exact toString_injective (String.toList_inj.mp hlimit)
  · exact toString_injective (String.toList_inj.mp hoffset)
  · exact mem_iff_of_join_sorted (fun r hr => (hf.registries r hr).1)
      (fun r hr => (hg.registries r hr).1) (String.toList_inj.mp hregistries)
  · exact nameIn_of_join hf hg (String.toList_inj.mp hnames)
  · exact sameSight_of_viewerKeyPart hf.viewer hg.viewer hviewer

theorem agree_of_statsCacheKey {rs ss : List String} {v w : ExploreViewer}
    (hrs : ∀ r ∈ rs, PlainEntry r ∧ ':' ∉ r.toList)
    (hss : ∀ r ∈ ss, PlainEntry r ∧ ':' ∉ r.toList) (hv : PlainViewer v) (hw : PlainViewer w)
    (h : statsCacheKey rs v = statsCacheKey ss w) :
    (∀ r, r ∈ rs ↔ r ∈ ss) ∧ SameSight v w := by
  have hchars := congrArg String.toList h
  simp only [statsCacheKey, String.toList_append, List.append_assoc] at hchars
  have hfields := List.append_cancel_left hchars
  obtain ⟨hregistries, hviewer⟩ :=
    field_inj (colon_notMem_registries hrs) (colon_notMem_registries hss) hfields
  exact ⟨mem_iff_of_join_sorted (fun r hr => (hrs r hr).1) (fun r hr => (hss r hr).1)
    (String.toList_inj.mp hregistries), sameSight_of_viewerKeyPart hv hw
      (String.toList_inj.mp hviewer)⟩

end Keys

section Collisions

theorem exists_cut {c : Char} {s : String} (h : c ∈ s.toList) :
    ∃ a b : String, s = a ++ String.singleton c ++ b := by
  obtain ⟨a, b, hab⟩ := List.append_of_mem h
  refine ⟨String.ofList a, String.ofList b, ?_⟩
  apply String.toList_inj.mp
  simp [hab]

theorem ne_append_singleton (a b : String) (c : Char) : a ≠ a ++ String.singleton c ++ b := by
  intro h
  have hlength := congrArg (List.length ∘ String.toList) h
  simp at hlength

/-- A colon in the registry can be the one before the name. -/
theorem collides_of_registry {f : ExploreFilter} (h : ':' ∈ (f.registry.getD "").toList) :
    ∃ g, packagesCacheKey g = packagesCacheKey f ∧ ¬ Agree g f := by
  obtain ⟨a, b, hab⟩ := exists_cut h
  refine ⟨{ f with registry := some a, nameContains := some (b ++ ":" ++ f.nameContains.getD "") },
    ?_, ?_⟩
  · apply String.toList_inj.mp
    rw [packagesCacheKey, packagesCacheKey, toList_packagesKeyText, toList_packagesKeyText, hab]
    simp only [Option.getD_some, String.toList_append, String.toList_singleton, List.append_assoc,
      List.cons_append, List.nil_append]
    rfl
  · intro hagree
    exact ne_append_singleton a b ':' (hagree.registry.trans hab)

/-- A colon in the name can be the one before it. -/
theorem collides_of_nameContains {f : ExploreFilter}
    (h : ':' ∈ (f.nameContains.getD "").toList) :
    ∃ g, packagesCacheKey g = packagesCacheKey f ∧ ¬ Agree g f := by
  obtain ⟨a, b, hab⟩ := exists_cut h
  refine ⟨{ f with registry := some (f.registry.getD "" ++ ":" ++ a), nameContains := some b },
    ?_, ?_⟩
  · apply String.toList_inj.mp
    rw [packagesCacheKey, packagesCacheKey, toList_packagesKeyText, toList_packagesKeyText, hab]
    simp only [Option.getD_some, String.toList_append, String.toList_singleton, List.append_assoc,
      List.cons_append, List.nil_append]
    rfl
  · intro hagree
    exact ne_append_singleton (f.registry.getD "") a ':' hagree.registry.symm

/-- A slash in the registry of a pair can be the one before its name. -/
theorem collides_of_nameIn {f : ExploreFilter} {p : String × String} (hp : p ∈ f.nameIn)
    (h : '/' ∈ p.1.toList) : ∃ g, packagesCacheKey g = packagesCacheKey f ∧ ¬ Agree g f := by
  obtain ⟨a, b, hab⟩ := exists_cut h
  have hne : (a, b ++ "/" ++ p.2) ≠ p := by
    intro heq
    exact ne_append_singleton a b '/' ((congrArg Prod.fst heq).trans hab)
  have htext : pairText (a, b ++ "/" ++ p.2) = pairText p := by
    apply String.toList_inj.mp
    simp [pairText, hab]
  refine ⟨{ f with nameIn := f.nameIn.map fun q => if q = p then (a, b ++ "/" ++ p.2) else q },
    ?_, ?_⟩
  · have hsame : (f.nameIn.map fun q => if q = p then (a, b ++ "/" ++ p.2) else q).map pairText =
        f.nameIn.map pairText := by
      rw [List.map_map]
      apply List.map_congr_left
      intro q hq
      rw [Function.comp_apply]
      split
      · rename_i heq
        rw [htext, heq]
      · rfl
    rw [packagesCacheKey, packagesCacheKey, hsame]
  · intro hagree
    obtain ⟨q, hq, heq⟩ := List.mem_map.mp ((hagree.nameIn p).mpr hp)
    split at heq
    · exact hne heq
    · contradiction

/-- A group member who is not logged in has the key of one who is. -/
theorem collides_of_viewer {f : ExploreFilter} (hadmin : f.viewer.isAdmin = false)
    (hauth : f.viewer.isAuthenticated = false) (hgroups : f.viewer.groups ≠ []) :
    ∃ g, packagesCacheKey g = packagesCacheKey f ∧ ¬ Agree g f := by
  refine ⟨{ f with viewer := { f.viewer with isAuthenticated := true } }, ?_, ?_⟩
  · have hpart : viewerKeyPart { f.viewer with isAuthenticated := true } =
        viewerKeyPart f.viewer := by
      simp [viewerKeyPart, hadmin, hauth, hgroups, ExploreViewer.normalisedGroups]
    rw [packagesCacheKey, packagesCacheKey, hpart]
  · intro hagree
    have hsame : true = f.viewer.isAuthenticated := (hagree.viewer.2 hadmin).1
    rw [hauth] at hsame
    exact absurd hsame (by decide)

end Collisions

/-- Plain filters with one key agree, for packages and for statistics; and a filter with
a colon in its registry or name, a slash in the registry of a pair, or groups without a
login shares its key with one it does not agree with. -/
theorem cacheKeys_separate (f g : ExploreFilter) (rs ss : List String) (v w : ExploreViewer) :
    (PlainFilter f → PlainFilter g → packagesCacheKey f = packagesCacheKey g → Agree f g) ∧
      ((∀ r ∈ rs, PlainEntry r ∧ ':' ∉ r.toList) → (∀ r ∈ ss, PlainEntry r ∧ ':' ∉ r.toList) →
        PlainViewer v → PlainViewer w → statsCacheKey rs v = statsCacheKey ss w →
        (∀ r, r ∈ rs ↔ r ∈ ss) ∧ SameSight v w) ∧
      ((':' ∈ (f.registry.getD "").toList ∨
          ':' ∈ (f.nameContains.getD "").toList ∨ (∃ p ∈ f.nameIn, '/' ∈ p.1.toList) ∨
          (f.viewer.isAdmin = false ∧ f.viewer.isAuthenticated = false ∧ f.viewer.groups ≠ [])) →
        ∃ g, packagesCacheKey g = packagesCacheKey f ∧ ¬ Agree g f) := by
  refine ⟨fun hf hg h => agree_of_packagesCacheKey hf hg h,
    fun hrs hss hv hw h => agree_of_statsCacheKey hrs hss hv hw h, ?_⟩
  intro hcase
  rcases hcase with hregistry | hname | ⟨p, hp, hslash⟩ | ⟨hadmin, hauth, hgroups⟩
  · exact collides_of_registry hregistry
  · exact collides_of_nameContains hname
  · exact collides_of_nameIn hp hslash
  · exact collides_of_viewer hadmin hauth hgroups

section Concrete

/-- The first page of two registries, for a member of a team. -/
def teamPage (registries : List String) (groups : List String) : ExploreFilter where
  registry := none
  registries := registries
  nameContains := some "left"
  nameIn := []
  sortBy := .downloads
  limit := 20
  offset := 0
  viewer := ⟨false, true, groups⟩

theorem plain_teamPage {registries groups : List String}
    (hregistries : ∀ r ∈ registries, PlainEntry r ∧ ':' ∉ r.toList)
    (hgroups : ∀ g ∈ (teamPage registries groups).viewer.normalisedGroups,
      PlainEntry g ∧ ':' ∉ g.toList) : PlainFilter (teamPage registries groups) where
  registry := by simp [teamPage]
  nameContains := by simp [teamPage]
  registries := hregistries
  nameIn := by simp [teamPage]
  viewer _ := ⟨fun _ => rfl, fun g hg => (hgroups g hg).1⟩
  groups _ g hg := (hgroups g hg).2

theorem order_shares_a_key :
    Agree (teamPage ["npm", "pypi"] ["core"]) (teamPage ["pypi", "npm"] ["co re"]) := by
  have hkey : packagesCacheKey (teamPage ["npm", "pypi"] ["core"]) =
      packagesCacheKey (teamPage ["pypi", "npm"] ["co re"]) := by decide
  apply (cacheKeys_separate _ _ [] [] (teamPage [] []).viewer (teamPage [] []).viewer).1 _ _ hkey
  · apply plain_teamPage
    · simp [PlainEntry]
    · simp [teamPage, ExploreViewer.normalisedGroups, PlainEntry]
  · apply plain_teamPage
    · simp [PlainEntry]
    · simp [teamPage, ExploreViewer.normalisedGroups, PlainEntry]

theorem colon_confuses_queries :
    packagesCacheKey { teamPage ["npm"] [] with registry := some "npm", nameContains := some "a:b" } =
        packagesCacheKey { teamPage ["npm"] [] with
          registry := some "npm:a", nameContains := some "b" } ∧
      ¬ Agree { teamPage ["npm"] [] with registry := some "npm", nameContains := some "a:b" }
        { teamPage ["npm"] [] with registry := some "npm:a", nameContains := some "b" } := by
  refine ⟨by decide, ?_⟩
  intro hagree
  exact absurd hagree.registry (by decide)

end Concrete

end BatleHub.ExploreKeys
