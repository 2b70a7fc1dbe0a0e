import BatleHub.Grants
import BatleHub.Lib.Texts
import BatleHub.SignedUrls

/-!
Grant subjects as texts (`entities/grant.rs`) and the subject of an owner row
(`services/ownership_grants.rs`). A row of the grants table is keyed by the text of its
subject. Two subjects can share a text; two that are canonical, as every parsed one is,
cannot.
-/
namespace BatleHub.Grants

open Lib

namespace SubjectMatcher

/-- Parse a subject key. -/
def parse (s : String) : Except SubjectParseError SubjectMatcher :=
  if s = "*" then .ok .anyone
  else
    match Texts.stripPrefix s "role:" with
    | some rest =>
      match SignedUrls.parseRole rest with
      | some r => .ok (.role r)
      | none => .error ⟨s⟩
    | none =>
      match Texts.stripPrefix s "group:" with
      | some rest =>
        match Texts.splitOnce rest ':' with
        | none => .error ⟨s⟩
        | some (provider, name) =>
          if name = "" then .error ⟨s⟩
          else if provider = "*" then .ok (.group .any name)
          else if provider = "" then .ok (.group .unprefixed name)
          else .ok (.group (.named provider) name)
      | none =>
        match Texts.stripPrefix s "user:" with
        | some rest => if rest = "" then .error ⟨s⟩ else .ok (.user rest)
        | none =>
          match Texts.stripPrefix s "token:" with
          | some rest => if rest = "" then .error ⟨s⟩ else .ok (.token rest)
          | none => .error ⟨s⟩

/-- A named provider is neither of the two special ones, and has no separator. -/
def Canonical : SubjectMatcher → Prop
  | .group (.named p) _ => p ≠ "" ∧ p ≠ "*" ∧ ':' ∉ p.toList
  | _ => True

instance : (m : SubjectMatcher) → Decidable m.Canonical
  | .anyone => isTrue trivial
  | .role _ => isTrue trivial
  | .user _ => isTrue trivial
  | .token _ => isTrue trivial
  | .group .any _ => isTrue trivial
  | .group .unprefixed _ => isTrue trivial
  | .group (.named p) _ => inferInstanceAs (Decidable (p ≠ "" ∧ p ≠ "*" ∧ ':' ∉ p.toList))

theorem canonical_of_parse {s : String} {m : SubjectMatcher} (h : parse s = .ok m) :
    m.Canonical := by
  unfold parse at h
  repeat' split at h
  all_goals first
    | cases h; trivial
    | cases h
  rename_i provider name hsplit hname hany hnone
  refine ⟨hnone, hany, ?_⟩
  exact ((Texts.splitOnce_eq_some_iff _ _ _ _).mp hsplit).2

/-- The text of a group's provider. -/
def providerText : GroupProvider → String
  | .any => "*"
  | .named p => p
  | .unprefixed => ""

theorem asString_group (provider : GroupProvider) (name : String) :
    (SubjectMatcher.group provider name).asString =
      "group:" ++ (providerText provider ++ String.singleton ':' ++ name) := by
  cases provider <;> apply String.toList_inj.mp <;>
    simp [asString, providerText, String.toList_append]

/-- The first character of the text tells the five forms apart. -/
def mark : SubjectMatcher → Char
  | .anyone => '*'
  | .role _ => 'r'
  | .group _ _ => 'g'
  | .user _ => 'u'
  | .token _ => 't'

theorem asString_head (m : SubjectMatcher) : m.asString.toList.head? = some m.mark := by
  cases m with
  | anyone => rfl
  | role r => cases r <;> rfl
  | group provider name =>
    rw [asString_group, String.toList_append]
    rfl
  | user id =>
    rw [asString, String.toList_append]
    rfl
  | token name =>
    rw [asString, String.toList_append]
    rfl

theorem colon_notMem_providerText {provider : GroupProvider} {name : String}
    (h : (SubjectMatcher.group provider name).Canonical) : ':' ∉ (providerText provider).toList := by
  cases provider with
  | any => decide
  | named p => exact h.2.2
  | unprefixed => decide

theorem splitOnce_groupText {provider : GroupProvider} {name : String}
    (h : (SubjectMatcher.group provider name).Canonical) :
    Texts.splitOnce (providerText provider ++ String.singleton ':' ++ name) ':' =
      some (providerText provider, name) :=
  (Texts.splitOnce_eq_some_iff _ _ _ _).mpr ⟨rfl, colon_notMem_providerText h⟩

theorem providerText_injective {p q : GroupProvider} {name : String}
    (hp : (SubjectMatcher.group p name).Canonical) (hq : (SubjectMatcher.group q name).Canonical)
    (h : providerText p = providerText q) : p = q := by
  cases p with
  | any =>
    cases q with
    | any => rfl
    | named q => exact absurd h.symm hq.2.1
    | unprefixed => exact absurd h (by decide)
  | named p =>
    cases q with
    | any => exact absurd h hp.2.1
    | named q => exact congrArg GroupProvider.named h
    | unprefixed => exact absurd h hp.1
  | unprefixed =>
    cases q with
    | any => exact absurd h (by decide)
    | named q => exact absurd h.symm hq.1
    | unprefixed => rfl

/-- Two canonical subjects have two texts. -/
theorem asString_injective {m m' : SubjectMatcher} (hm : m.Canonical) (hm' : m'.Canonical)
    (h : m.asString = m'.asString) : m = m' := by
  have hmarks : m.mark = m'.mark := by
    have hheads := asString_head m
    rw [h, asString_head m', Option.some.injEq] at hheads
    exact hheads.symm
  cases m with
  | anyone =>
    cases m' with
    | anyone => rfl
    | _ => exact absurd hmarks (by simp [mark])
  | role r =>
    cases m' with
    | role r' =>
      cases r <;> cases r' <;> first | rfl | exact absurd h (by decide)
    | _ => exact absurd hmarks (by simp [mark])
  | user id =>
    cases m' with
    | user id' =>
      rw [asString, asString, String.append_right_inj] at h
      rw [h]
    | _ => exact absurd hmarks (by simp [mark])
  | token name =>
    cases m' with
    | token name' =>
      rw [asString, asString, String.append_right_inj] at h
      rw [h]
    | _ => exact absurd hmarks (by simp [mark])
  | group provider name =>
    cases m' with
    | group provider' name' =>
      rw [asString_group, asString_group, String.append_right_inj] at h
      -- Both texts are cut at their first colon.
      have hcut := splitOnce_groupText hm
      rw [h, splitOnce_groupText hm', Option.some.injEq, Prod.mk.injEq] at hcut
      obtain ⟨hprovider, rfl⟩ := hcut
      rw [providerText_injective hm hm' hprovider.symm]
    | _ => exact absurd hmarks (by simp [mark])

end SubjectMatcher

/-- The grant subject an owner row maps to. -/
def subjectForOwner (principalType principalId : String) : Option SubjectMatcher :=
  if principalType = "user" then some (.user principalId)
  else if principalType = "group" then
    match Texts.splitOnce principalId ':' with
    | some (provider, name) => some (.group (.named provider) name)
    | none => some (.group .unprefixed principalId)
  else none

end BatleHub.Grants
