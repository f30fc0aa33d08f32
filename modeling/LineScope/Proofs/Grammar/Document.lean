import Mathlib.Logic.Relation
import LineScope.Proofs.Grammar.Form

/-!
What a grammar document has to look like, told of the JSON values as they stand, and what its rules
come to: a value that is a rule has forms, and among these are its includes.
-/

namespace LineScope

open Json (Members)
open Declaration (field)

variable {M : Type}

namespace Json

inductive IsScope : Json → Prop
  | none : IsScope .null
  | text {s : String} : IsScope (.str s)

/-- What a capture map may give for a group: a scope name, or an object with one. -/
inductive IsCaptureScope : Json → Prop
  | scope {j : Json} : IsScope j → IsCaptureScope j
  | object {members : Members} : IsScope (field members "name") → IsCaptureScope (.obj members)

/-- A capture map has whole numbers from zero on for keys. -/
inductive IsCaptures : Json → Prop
  | none : IsCaptures .null
  | object {members : Members} :
      (∀ m ∈ members, (∃ n : Nat, Text.wholeNumber? m.1 = some (n : Int)) ∧ IsCaptureScope m.2) →
        IsCaptures (.obj members)

end Json

def Engine.Accepts (e : Engine M) (source : String) : Prop := ∃ m, e.compile source = .ok m

/-- An end pattern that refers to the begin match is tried with the references left out. -/
def Engine.AcceptsEnd (e : Engine M) (source : String) : Prop :=
  e.Accepts (if BackReference.occursIn source then BackReference.blank source else source)

namespace GrammarDocument

open Json

structure IsMatch (e : Engine M) (members : Members) : Prop where
  source : ∃ source, field members "match" = .str source ∧ e.Accepts source
  scope : IsScope (field members "name")
  captures : IsCaptures (field members "captures")

structure IsRegion (e : Engine M) (members : Members) : Prop where
  beginSource : ∃ source, field members "begin" = .str source ∧ e.Accepts source
  endSource : ∃ source, field members "end" = .str source ∧ e.AcceptsEnd source
  scope : IsScope (field members "name")
  contentScope : IsScope (field members "contentName")
  beginCaptures : IsCaptures ((members.get? "beginCaptures").getD (field members "captures"))
  endCaptures : IsCaptures ((members.get? "endCaptures").getD (field members "captures"))

mutual

inductive IsRule (e : Engine M) (refers : String → Prop) : Json → Prop
  | target {members : Members} {reference : String} :
      members.get? "include" = some (.str reference) → refers reference →
        IsRule e refers (.obj members)
  | leaf {members : Members} :
      members.has "include" = false → members.has "match" = true → IsMatch e members →
        IsRule e refers (.obj members)
  | region {members : Members} :
      members.has "include" = false → members.has "match" = false → members.has "begin" = true →
        IsRegion e members → IsPatterns e refers (field members "patterns") →
        IsRule e refers (.obj members)
  | group {members : Members} :
      members.has "include" = false → members.has "match" = false → members.has "begin" = false →
        members.has "patterns" = true → IsPatterns e refers (field members "patterns") →
        IsRule e refers (.obj members)

inductive IsPatterns (e : Engine M) (refers : String → Prop) : Json → Prop
  | none : IsPatterns e refers .null
  | list {items : List Json} : (∀ item ∈ items, IsRule e refers item) →
      IsPatterns e refers (.arr items)

end

def isRuleEntry (members : Members) : Bool :=
  members.has "match" || members.has "begin" || members.has "include"

/-- An entry of the repository: a rule, or an object with a list of rules. -/
inductive IsEntry (e : Engine M) (refers : String → Prop) : Json → Prop
  | rule {members : Members} : isRuleEntry members = true → IsRule e refers (.obj members) →
      IsEntry e refers (.obj members)
  | patterns {members : Members} : isRuleEntry members = false →
      IsPatterns e refers (field members "patterns") → IsEntry e refers (.obj members)

/-- The entries of the repository; there are none in a repository that counts as false. -/
def repositoryOf (members : Members) : Members :=
  match field members "repository" with
  | .obj entries => entries
  | _ => []

/-- What an include names: the document itself, or an entry of its repository. -/
inductive Names (repository : Members) : String → ContextName → Prop
  | self : Names repository "$self" .root
  | base : Names repository "$base" .root
  | entry {key : String} : repository.has key = true → Names repository ("#" ++ key) (.entry key)

def Refers (repository : Members) (reference : String) : Prop :=
  ∃ target, Names repository reference target

/-- A rule includes what its reference names; a group includes what the rules in it include. What is
inside regions is a context of its own. -/
inductive HasInclude (reference : String) : Json → Prop
  | here {members : Members} : members.get? "include" = some (.str reference) →
      HasInclude reference (.obj members)
  | group {members : Members} {items : List Json} {item : Json} :
      members.has "include" = false → members.has "match" = false → members.has "begin" = false →
        field members "patterns" = .arr items → item ∈ items → HasInclude reference item →
        HasInclude reference (.obj members)

def patternItems : Json → List Json
  | .arr items => items
  | _ => []

def entryRules : Json → List Json
  | .obj members =>
    if isRuleEntry members then [.obj members] else patternItems (field members "patterns")
  | _ => []

def listed (members : Members) : ContextName → List Json
  | .root => patternItems (field members "patterns")
  | .entry key => ((repositoryOf members).get? key).elim [] entryRules
  | .inside _ => []

def Includes (members : Members) (source target : ContextName) : Prop :=
  ∃ item ∈ listed members source, ∃ reference,
    HasInclude reference item ∧ Names (repositoryOf members) reference target

/-- The members of a document that is a grammar. -/
structure WellFormed (e : Engine M) (members : Members) : Prop where
  scopeName : ∃ name, members.get? "scopeName" = some (.str name) ∧ name ≠ ""
  repository : (field members "repository").isTrue = true →
    ∃ entries, field members "repository" = .obj entries
  patterns : IsPatterns e (Refers (repositoryOf members)) (field members "patterns")
  entries : ∀ m ∈ repositoryOf members, IsEntry e (Refers (repositoryOf members)) m.2
  acyclic : ∀ name, ¬ Relation.TransGen (Includes members) name name

end GrammarDocument

namespace Draft

open Json GrammarDocument

variable {e : Engine M} {place : Place}

theorem exists_scope_iff {j : Json} : (∃ scope?, scope place j = .ok scope?) ↔ j.IsScope := by
  constructor
  · rintro ⟨scope?, h⟩
    cases j with
    | null => exact .none
    | str s => exact .text
    | _ => cases h
  · rintro (_ | _)
    · exact ⟨_, rfl⟩
    · exact ⟨_, rfl⟩

theorem exists_captureScope_iff (place : Place) {j : Json} :
    (∃ scope?, captureScope place j = .ok scope?) ↔ j.IsCaptureScope := by
  constructor
  · rintro ⟨scope?, h⟩
    unfold captureScope at h
    split at h
    · exact .object (exists_scope_iff.mp ⟨scope?, h⟩)
    · exact .scope (exists_scope_iff.mp ⟨scope?, h⟩)
  · rintro (hscope | hscope)
    · cases hscope with
      | none => exact ⟨_, rfl⟩
      | text => exact ⟨_, rfl⟩
    · exact exists_scope_iff.mpr hscope

theorem exists_captureList_iff {members : Members} :
    (∃ captures, captureList place members = .ok captures) ↔
      ∀ m ∈ members, (∃ n : Nat, Text.wholeNumber? m.1 = some (n : Int)) ∧ m.2.IsCaptureScope := by
  induction members with
  | nil => simp [captureList]
  | cons m rest ih =>
      rw [List.forall_mem_cons, ← ih, ← exists_captureScope_iff place]
      simp only [captureList, bind_eq_ok, captureGroup_eq_ok]
      constructor
      · rintro ⟨_, n, hn, scope?, hscope, more, hmore, -⟩
        exact ⟨⟨⟨n, hn⟩, scope?, hscope⟩, more, hmore⟩
      · rintro ⟨⟨⟨n, hn⟩, scope?, hscope⟩, more, hmore⟩
        exact ⟨_, n, hn, scope?, hscope, more, hmore, rfl⟩

theorem exists_captures_iff {j : Json} :
    (∃ found, captures place j = .ok found) ↔ j.IsCaptures := by
  constructor
  · rintro ⟨found, h⟩
    cases j with
    | null => exact .none
    | obj members =>
        obtain ⟨listed, hlisted, -⟩ := map_eq_ok.mp h
        exact .object (exists_captureList_iff.mp ⟨listed, hlisted⟩)
    | _ => cases h
  · rintro (_ | hmembers)
    · exact ⟨_, rfl⟩
    · obtain ⟨listed, hlisted⟩ := exists_captureList_iff.mpr hmembers
      exact ⟨_, map_eq_ok.mpr ⟨listed, hlisted, rfl⟩⟩

theorem exists_closer_iff {source : String} :
    (∃ closer?, closer e place source = .ok closer?) ↔ e.AcceptsEnd source := by
  unfold closer Engine.AcceptsEnd Engine.Accepts
  split
  · simp only [bind_eq_ok, pattern_eq_ok]
    constructor
    · rintro ⟨_, m, hm, -⟩
      exact ⟨m, hm⟩
    · rintro ⟨m, hm⟩
      exact ⟨_, m, hm, rfl⟩
  · simp only [bind_eq_ok, pattern_eq_ok]
    constructor
    · rintro ⟨_, m, hm, -⟩
      exact ⟨m, hm⟩
    · rintro ⟨m, hm⟩
      exact ⟨_, m, hm, rfl⟩

theorem exists_leaf_iff (place : Place) (id : Nat) {members : Members} :
    (∃ r, leaf e place id (Declaration.matchFields members) = .ok r) ↔ IsMatch e members := by
  simp only [leaf, bind_eq_ok, sourceOf_eq_ok, pattern_eq_ok, Declaration.matchFields]
  constructor
  · rintro ⟨_, source, hsource, m, hm, scope?, hscope, captures, hcaptures, -⟩
    exact ⟨⟨source, hsource, m, hm⟩, exists_scope_iff.mp ⟨_, hscope⟩,
      exists_captures_iff.mp ⟨_, hcaptures⟩⟩
  · rintro ⟨⟨source, hsource, m, hm⟩, hscope, hcaptures⟩
    obtain ⟨scope?, hscope⟩ := exists_scope_iff.mpr hscope
    obtain ⟨captures, hcaptures⟩ := exists_captures_iff.mpr hcaptures
    exact ⟨_, source, hsource, m, hm, scope?, hscope, captures, hcaptures, rfl⟩

theorem exists_region_iff (place : Place) (id : Nat) {members : Members} :
    (∃ r, region e place id (Declaration.regionFields members) = .ok r) ↔ IsRegion e members := by
  simp only [region, bind_eq_ok, sourceOf_eq_ok, pattern_eq_ok, endGiven_eq_ok,
    Declaration.regionFields]
  constructor
  · rintro ⟨_, _, ⟨rfl, -⟩, beginSource, hbegin, m, hm, endSource, hend, closer?, hcloser, scope?,
      hscope, content?, hcontent, beginCaptures, hbeginCaptures, endCaptures, hendCaptures, -⟩
    exact {
      beginSource := ⟨beginSource, hbegin, m, hm⟩
      endSource := ⟨endSource, hend, exists_closer_iff.mp ⟨_, hcloser⟩⟩
      scope := exists_scope_iff.mp ⟨_, hscope⟩
      contentScope := exists_scope_iff.mp ⟨_, hcontent⟩
      beginCaptures := exists_captures_iff.mp ⟨_, hbeginCaptures⟩
      endCaptures := exists_captures_iff.mp ⟨_, hendCaptures⟩ }
  · rintro ⟨⟨beginSource, hbegin, m, hm⟩, ⟨endSource, hend, hcloser⟩, hscope, hcontent,
      hbeginCaptures, hendCaptures⟩
    obtain ⟨closer?, hcloser⟩ := exists_closer_iff.mpr hcloser
    obtain ⟨scope?, hscope⟩ := exists_scope_iff.mpr hscope
    obtain ⟨content?, hcontent⟩ := exists_scope_iff.mpr hcontent
    obtain ⟨beginCaptures, hbeginCaptures⟩ := exists_captures_iff.mpr hbeginCaptures
    obtain ⟨endCaptures, hendCaptures⟩ := exists_captures_iff.mpr hendCaptures
    have hgiven : field members "end" ≠ .null := by
      rw [hend]
      exact Json.noConfusion
    exact ⟨_, _, ⟨rfl, hgiven⟩, beginSource, hbegin, m, hm, endSource, hend, closer?, hcloser,
      scope?, hscope, content?, hcontent, beginCaptures, hbeginCaptures, endCaptures,
      hendCaptures, rfl⟩

end Draft

namespace Json.Members

theorem has_iff {members : Members} {key : String} :
    members.has key = true ↔ ∃ value, members.get? key = some value := by
  unfold has get?
  induction members with
  | nil => simp
  | cons m rest ih =>
      rw [List.any_cons, List.lookup_cons]
      by_cases hkey : m.1 = key
      · simp [hkey]
      · have hne : (key == m.1) = false := by simpa using Ne.symm hkey
        simp [hkey, hne, ih]

theorem has_eq_false_iff {members : Members} {key : String} :
    members.has key = false ↔ members.get? key = none := by
  rw [← Bool.not_eq_true, has_iff]
  cases members.get? key <;> simp

end Json.Members

namespace Declaration

open Json GrammarDocument

variable {e : Engine M} {target? : String → Option ContextName}

theorem patternsIn_eq (members : Members) :
    patternsIn members = listOf (field members "patterns") := by
  unfold field Members.get?
  induction members with
  | nil => rfl
  | cons m rest ih =>
      obtain ⟨key, value⟩ := m
      rw [patternsIn, List.lookup_cons]
      by_cases hkey : key = "patterns"
      · simp [hkey]
      · have hne : ("patterns" == key) = false := by simpa using Ne.symm hkey
        simp [hkey, hne, ih]

theorem ofItems_eq (items : List Json) : ofItems items = items.map ofJson := by
  induction items with
  | nil => rfl
  | cons item rest ih => rw [ofItems, ih, List.map_cons]

variable {refers : String → Prop}

def ListFormed (e : Engine M) (target? : String → Option ContextName)
    (patterns? : Option (List Declaration)) : Prop :=
  ∃ declared forms, patterns? = some declared ∧ formsAmong e target? declared = some forms

theorem isRule_obj_iff {members : Members} :
    IsRule e refers (.obj members) ↔
      match members.get? "include" with
      | some value => ∃ reference, value = .str reference ∧ refers reference
      | none =>
        if members.has "match" then IsMatch e members
        else if members.has "begin" then
          IsRegion e members ∧ IsPatterns e refers (field members "patterns")
        else members.has "patterns" = true ∧ IsPatterns e refers (field members "patterns") := by
  constructor
  · intro h
    cases h with
    | target hinclude hrefers => simpa [hinclude] using hrefers
    | leaf hinclude hmatch hleaf =>
        rw [Members.has_eq_false_iff] at hinclude
        simpa [hinclude, hmatch] using hleaf
    | region hinclude hmatch hbegin hregion hinside =>
        rw [Members.has_eq_false_iff] at hinclude
        simpa [hinclude, hmatch, hbegin] using ⟨hregion, hinside⟩
    | group hinclude hmatch hbegin hgroup hinside =>
        rw [Members.has_eq_false_iff] at hinclude
        simpa [hinclude, hmatch, hbegin] using ⟨hgroup, hinside⟩
  · intro h
    split at h
    · rename_i value hinclude
      obtain ⟨reference, rfl, hrefers⟩ := h
      exact .target hinclude hrefers
    · rename_i hinclude
      have hinclude := Members.has_eq_false_iff.mpr hinclude
      split at h
      · rename_i hmatch
        exact .leaf hinclude hmatch h
      · rename_i hmatch
        have hmatch := Bool.eq_false_iff.mpr hmatch
        split at h
        · rename_i hbegin
          exact .region hinclude hmatch hbegin h.1 h.2
        · rename_i hbegin
          exact .group hinclude hmatch (Bool.eq_false_iff.mpr hbegin) h.1 h.2

theorem exists_classify_iff
    (hrefers : ∀ reference, refers reference ↔ ∃ c, target? reference = some c)
    {members : Members} {patterns? : Option (List Declaration)}
    (hpatterns : ListFormed e target? patterns? ↔ IsPatterns e refers (field members "patterns")) :
    (∃ forms, (classify members patterns?).forms e target? = some forms) ↔
      IsRule e refers (.obj members) := by
  rw [isRule_obj_iff, classify]
  rcases members.get? "include" with _ | value
  · dsimp only
    split
    · simp only [Declaration.forms, Option.bind_eq_bind, Option.bind_eq_some_iff, toOption_eq_some,
        ← Draft.exists_leaf_iff .nowhere 0]
      constructor
      · rintro ⟨_, r, hr, -⟩
        exact ⟨r, hr⟩
      · rintro ⟨r, hr⟩
        exact ⟨_, r, hr, rfl⟩
    · split
      · rw [← hpatterns, ← Draft.exists_region_iff .nowhere 0]
        constructor
        · rintro ⟨forms, hforms⟩
          rcases patterns? with _ | declared
          · cases hforms
          · simp only [Declaration.forms, Option.bind_eq_bind, Option.bind_eq_some_iff,
              toOption_eq_some] at hforms
            obtain ⟨r, hr, inner, hinner, -⟩ := hforms
            exact ⟨⟨r, hr⟩, declared, inner, rfl, hinner⟩
        · rintro ⟨⟨r, hr⟩, declared, inner, rfl, hinner⟩
          simp only [Declaration.forms, Option.bind_eq_bind, Option.bind_eq_some_iff,
            toOption_eq_some]
          exact ⟨_, r, hr, inner, hinner, rfl⟩
      · rw [← hpatterns]
        split
        · rename_i hgroup
          constructor
          · rintro ⟨forms, hforms⟩
            rcases patterns? with _ | declared
            · cases hforms
            · exact ⟨hgroup, declared, forms, rfl, hforms⟩
          · rintro ⟨-, declared, forms, rfl, hforms⟩
            exact ⟨forms, hforms⟩
        · rename_i hgroup
          constructor
          · rintro ⟨forms, hforms⟩
            cases hforms
          · rintro ⟨hpatterns, -⟩
            exact absurd hpatterns hgroup
  · simp only [Declaration.forms, Option.bind_eq_bind, Option.bind_eq_some_iff, hrefers]
    constructor
    · rintro ⟨_, name, hname, c, hc, -⟩
      cases value with
      | str s =>
          cases hname
          exact ⟨name, rfl, c, hc⟩
      | _ => cases hname
    · rintro ⟨reference, rfl, c, hc⟩
      exact ⟨_, reference, rfl, c, hc, rfl⟩

mutual

theorem exists_forms_iff
    (hrefers : ∀ reference, refers reference ↔ ∃ c, target? reference = some c) :
    (j : Json) → ((∃ forms, (ofJson j).forms e target? = some forms) ↔ IsRule e refers j)
  | .obj members => by
      rw [ofJson]
      exact exists_classify_iff hrefers (patternsIn_formed_iff hrefers members)
  | .null | .bool _ | .int _ | .float _ | .str _ | .arr _ => by
      constructor
      · rintro ⟨_, h⟩
        cases h
      · intro h
        cases h

theorem patternsIn_formed_iff
    (hrefers : ∀ reference, refers reference ↔ ∃ c, target? reference = some c) :
    (members : Members) →
      (ListFormed e target? (patternsIn members) ↔ IsPatterns e refers (field members "patterns"))
  | [] => ⟨fun _ => .none, fun _ => ⟨[], [], rfl, rfl⟩⟩
  | (key, value) :: rest => by
      rw [patternsIn, field, Members.get?, List.lookup_cons]
      by_cases hkey : key = "patterns"
      · have heq : ("patterns" == key) = true := by simp [hkey]
        rw [if_pos (by simp [hkey]), heq]
        exact listOf_formed_iff hrefers value
      · have hne : ("patterns" == key) = false := by simpa using Ne.symm hkey
        rw [if_neg (by simp [hkey]), hne]
        exact patternsIn_formed_iff hrefers rest

theorem listOf_formed_iff
    (hrefers : ∀ reference, refers reference ↔ ∃ c, target? reference = some c) :
    (j : Json) → (ListFormed e target? (listOf j) ↔ IsPatterns e refers j)
  | .null => ⟨fun _ => .none, fun _ => ⟨[], [], rfl, rfl⟩⟩
  | .arr items => by
      have hitems := ofItems_formed_iff hrefers items
      rw [listOf]
      constructor
      · rintro ⟨_, forms, heq, hforms⟩
        cases heq
        exact .list (hitems.mp ⟨forms, hforms⟩)
      · intro h
        cases h with
        | list h =>
            obtain ⟨forms, hforms⟩ := hitems.mpr h
            exact ⟨_, forms, rfl, hforms⟩
  | .bool _ | .int _ | .float _ | .str _ | .obj _ => by
      constructor
      · rintro ⟨_, _, h, -⟩
        cases h
      · intro h
        cases h

theorem ofItems_formed_iff
    (hrefers : ∀ reference, refers reference ↔ ∃ c, target? reference = some c) :
    (items : List Json) → ((∃ forms, formsAmong e target? (ofItems items) = some forms) ↔
      ∀ item ∈ items, IsRule e refers item)
  | [] => ⟨fun _ => by simp, fun _ => ⟨[], rfl⟩⟩
  | item :: rest => by
      have hitem := exists_forms_iff hrefers item
      have hrest := ofItems_formed_iff hrefers rest
      rw [List.forall_mem_cons, ← hitem, ← hrest]
      simp only [ofItems, formsAmong, Option.bind_eq_bind, Option.bind_eq_some_iff]
      constructor
      · rintro ⟨_, forms, hforms, more, hmore, -⟩
        exact ⟨⟨forms, hforms⟩, more, hmore⟩
      · rintro ⟨⟨forms, hforms⟩, more, hmore⟩
        exact ⟨_, forms, hforms, more, hmore, rfl⟩

end

theorem hasInclude_obj_iff {reference : String} {members : Members} :
    HasInclude reference (.obj members) ↔
      match members.get? "include" with
      | some value => value = .str reference
      | none =>
        members.has "match" = false ∧ members.has "begin" = false ∧
          ∃ item ∈ patternItems (field members "patterns"), HasInclude reference item := by
  constructor
  · intro h
    cases h with
    | here hinclude => simp [hinclude]
    | group hinclude hmatch hbegin hitems hmem hitem =>
        rw [Members.has_eq_false_iff] at hinclude
        simp only [hinclude, hitems]
        exact ⟨hmatch, hbegin, _, hmem, hitem⟩
  · intro h
    split at h
    · rename_i value hinclude
      exact .here (h ▸ hinclude)
    · rename_i hinclude
      obtain ⟨hmatch, hbegin, item, hmem, hitem⟩ := h
      unfold patternItems at hmem
      split at hmem
      · rename_i found hitems
        exact .group (Members.has_eq_false_iff.mpr hinclude) hmatch hbegin hitems hmem hitem
      · cases hmem

def Leads (target? : String → Option ContextName) (rules : List Json) (target : ContextName) :
    Prop :=
  ∃ item ∈ rules, ∃ reference, HasInclude reference item ∧ target? reference = some target

theorem classify_include_iff {members : Members} {patterns? : Option (List Declaration)}
    {forms : List (Form M)} {target : ContextName}
    (hpatterns : ∀ declared forms, patterns? = some declared →
      formsAmong e target? declared = some forms →
      (.include target ∈ forms ↔ Leads target? (patternItems (field members "patterns")) target))
    (h : (classify members patterns?).forms e target? = some forms) :
    .include target ∈ forms ↔ Leads target? [.obj members] target := by
  simp only [Leads, List.mem_singleton, exists_eq_left, hasInclude_obj_iff]
  unfold classify at h
  rcases hinclude : members.get? "include" with _ | value
  · simp only [hinclude] at h ⊢
    split at h
    · rename_i hmatch
      simp only [Declaration.forms, Option.bind_eq_bind, Option.bind_eq_some_iff] at h
      obtain ⟨r, -, heq⟩ := h
      cases heq
      simp [hmatch]
    · rename_i hmatch
      split at h
      · rename_i hbegin
        rcases patterns? with _ | declared
        · cases h
        · simp only [Declaration.forms, Option.bind_eq_bind, Option.bind_eq_some_iff] at h
          obtain ⟨r, -, inner, -, heq⟩ := h
          cases heq
          simp [hbegin]
      · rename_i hbegin
        split at h
        · rcases patterns? with _ | declared
          · cases h
          · rw [hpatterns declared forms rfl h, Leads]
            have hmatch := Bool.eq_false_iff.mpr hmatch
            have hbegin := Bool.eq_false_iff.mpr hbegin
            constructor
            · rintro ⟨item, hitem, reference, hinclude, htarget⟩
              exact ⟨reference, ⟨hmatch, hbegin, item, hitem, hinclude⟩, htarget⟩
            · rintro ⟨reference, ⟨-, -, item, hitem, hinclude⟩, htarget⟩
              exact ⟨item, hitem, reference, hinclude, htarget⟩
        · cases h
  · simp only [hinclude, Declaration.forms, Option.bind_eq_bind, Option.bind_eq_some_iff] at h
    obtain ⟨name, hname, c, hc, heq⟩ := h
    cases heq
    cases value with
    | str s =>
        cases hname
        constructor
        · intro hmem
          cases List.mem_singleton.mp hmem
          exact ⟨name, rfl, hc⟩
        · rintro ⟨reference, heq, htarget⟩
          cases heq
          rw [hc] at htarget
          cases htarget
          exact List.mem_singleton_self _
    | _ => cases hname

mutual

theorem forms_include_iff {target : ContextName} :
    (j : Json) → {forms : List (Form M)} → (ofJson j).forms e target? = some forms →
      (.include target ∈ forms ↔ Leads target? [j] target)
  | .obj members, _, h => by
      rw [ofJson] at h
      exact classify_include_iff (fun _ _ => patternsIn_include_iff members) h
  | .null, _, h | .bool _, _, h | .int _, _, h | .float _, _, h | .str _, _, h
  | .arr _, _, h => by cases h

theorem patternsIn_include_iff {target : ContextName} :
    (members : Members) → {declared : List Declaration} → {forms : List (Form M)} →
      patternsIn members = some declared → formsAmong e target? declared = some forms →
      (.include target ∈ forms ↔ Leads target? (patternItems (field members "patterns")) target)
  | [], _, _, h, hforms => by
      cases h
      cases hforms
      simp [Leads, patternItems, field, Members.get?]
  | (key, value) :: rest, _, _, h, hforms => by
      rw [patternsIn] at h
      rw [field, Members.get?, List.lookup_cons]
      by_cases hkey : key = "patterns"
      · have heq : ("patterns" == key) = true := by simp [hkey]
        rw [if_pos (by simp [hkey])] at h
        rw [heq]
        exact listOf_include_iff value h hforms
      · have hne : ("patterns" == key) = false := by simpa using Ne.symm hkey
        rw [if_neg (by simp [hkey])] at h
        rw [hne]
        exact patternsIn_include_iff rest h hforms

theorem listOf_include_iff {target : ContextName} :
    (j : Json) → {declared : List Declaration} → {forms : List (Form M)} →
      listOf j = some declared → formsAmong e target? declared = some forms →
      (.include target ∈ forms ↔ Leads target? (patternItems j) target)
  | .null, _, _, h, hforms => by
      cases h
      cases hforms
      simp [Leads, patternItems]
  | .arr found, _, _, h, hforms => by
      rw [listOf] at h
      cases h
      exact ofItems_include_iff found hforms
  | .bool _, _, _, h, _ | .int _, _, _, h, _ | .float _, _, _, h, _ | .str _, _, _, h, _
  | .obj _, _, _, h, _ => by cases h

theorem ofItems_include_iff {target : ContextName} :
    (found : List Json) → {forms : List (Form M)} →
      formsAmong e target? (ofItems found) = some forms →
      (.include target ∈ forms ↔ Leads target? found target)
  | [], _, h => by
      cases h
      simp [Leads]
  | item :: rest, _, h => by
      simp only [ofItems, formsAmong, Option.bind_eq_bind, Option.bind_eq_some_iff] at h
      obtain ⟨forms, hforms, more, hmore, heq⟩ := h
      cases heq
      have hitem : .include target ∈ forms ↔ Leads target? [item] target :=
        forms_include_iff item hforms
      have hrest : .include target ∈ more ↔ Leads target? rest target :=
        ofItems_include_iff rest hmore
      rw [List.mem_append, hitem, hrest]
      simp [Leads]

end

end Declaration

end LineScope
