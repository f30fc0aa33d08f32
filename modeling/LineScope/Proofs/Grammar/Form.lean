import Mathlib.Data.List.Forall2
import LineScope.Proofs.Grammar.Draft

/-!
Declarations compiled all the way down, before any rule has its number. Such forms depend on nothing
but the declaration, the engine and what includes refer to; a grammar is drafted if all its contexts
have forms, and then the draft of a context is its forms with consecutive numbers.
-/

namespace LineScope

variable {M : Type}

def Rule.withId (id : Nat) : Rule M → Rule M
  | .leaf r => .leaf { r with id }
  | .region r => .region { r with id }

@[simp] theorem Rule.withId_id (id : Nat) (r : Rule M) : (r.withId id).id = id := by
  cases r <;> rfl

/-- What a context lists, with the number of a rule still open (it is zero), and with what is inside
the regions of the rule at hand. -/
inductive Form (M : Type) where
  | include (target : ContextName)
  | rule (r : Rule M) (inner : List (Form M))

namespace Form

def entries : Nat → List (Form M) → List (Entry M)
  | _, [] => []
  | n, .include target :: rest => .include target :: entries n rest
  | n, .rule r _ :: rest => .rule (r.withId n) :: entries (n + 1) rest

def rules : Nat → List (Form M) → List (Rule M)
  | _, [] => []
  | n, .include _ :: rest => rules n rest
  | n, .rule r _ :: rest => r.withId n :: rules (n + 1) rest

def inside : Nat → List (Form M) → List (ContextName × List (Form M))
  | _, [] => []
  | n, .include _ :: rest => inside n rest
  | n, .rule (.leaf _) _ :: rest => inside (n + 1) rest
  | n, .rule (.region _) inner :: rest => (.inside n, inner) :: inside (n + 1) rest

theorem entries_append (n : Nat) (first second : List (Form M)) :
    entries n (first ++ second) =
      entries n first ++ entries (n + (rules n first).length) second := by
  induction first generalizing n with
  | nil => rfl
  | cons f rest ih =>
      rcases f with target | ⟨r, inner⟩
      · simp [entries, rules, ih]
      · simp [entries, rules, ih, Nat.add_assoc, Nat.add_comm 1]

theorem rules_append (n : Nat) (first second : List (Form M)) :
    rules n (first ++ second) = rules n first ++ rules (n + (rules n first).length) second := by
  induction first generalizing n with
  | nil => rfl
  | cons f rest ih =>
      rcases f with target | ⟨r, inner⟩
      · simp [rules, ih]
      · simp [rules, ih, Nat.add_assoc, Nat.add_comm 1]

theorem inside_append (n : Nat) (first second : List (Form M)) :
    inside n (first ++ second) = inside n first ++ inside (n + (rules n first).length) second := by
  induction first generalizing n with
  | nil => rfl
  | cons f rest ih =>
      rcases f with target | ⟨r | r, inner⟩
      · simp [inside, rules, ih]
      · simp [inside, rules, ih, Nat.add_assoc, Nat.add_comm 1]
      · simp [inside, rules, ih, Nat.add_assoc, Nat.add_comm 1]

theorem include_mem_entries {n : Nat} {forms : List (Form M)} {target : ContextName} :
    .include target ∈ entries n forms ↔ .include target ∈ forms := by
  induction forms generalizing n with
  | nil => simp [entries]
  | cons f rest ih =>
      rcases f with _ | ⟨r, inner⟩
      · simp [entries, ih]
      · simp [entries, ih]

end Form

theorem exists_forall₂_iff {α β : Type} {R : α → β → Prop} {l : List α} :
    (∃ l', List.Forall₂ R l l') ↔ ∀ a ∈ l, ∃ b, R a b := by
  constructor
  · rintro ⟨l', h⟩
    induction h with
    | nil => simp
    | cons hab _ ih => exact List.forall_mem_cons.mpr ⟨⟨_, hab⟩, ih⟩
  · intro h
    induction l with
    | nil => exact ⟨[], .nil⟩
    | cons a rest ih =>
        obtain ⟨⟨b, hab⟩, hrest⟩ := List.forall_mem_cons.mp h
        obtain ⟨l', hl'⟩ := ih hrest
        exact ⟨b :: l', .cons hab hl'⟩

theorem exists_of_mem_forall₂ {α β : Type} {R : α → β → Prop} {l : List α} {l' : List β}
    (h : List.Forall₂ R l l') {b : β} (hb : b ∈ l') : ∃ a ∈ l, R a b := by
  induction h with
  | nil => cases hb
  | cons hab _ ih =>
      rcases List.mem_cons.mp hb with rfl | hb
      · exact ⟨_, List.mem_cons_self .., hab⟩
      · obtain ⟨a, ha, hab⟩ := ih hb
        exact ⟨a, List.mem_cons_of_mem _ ha, hab⟩

namespace Draft

open Grammar

variable {e : Engine M} {place : Place}

theorem sourceOf_eq_ok {j : Json} {source : String} :
    sourceOf place j = .ok source ↔ j = .str source := by
  cases j with
  | str s => simp [sourceOf]
  | _ => simp [sourceOf]

theorem endGiven_eq_ok {j ending : Json} :
    endGiven place j = .ok ending ↔ j = ending ∧ j ≠ .null := by
  cases j with
  | null => simp [endGiven]
  | _ => simp [endGiven]

theorem scope_congr {j : Json} {scope? : Option String} (h : scope place j = .ok scope?)
    (place' : Place) : scope place' j = .ok scope? := by
  cases j with
  | null => exact h
  | str s => exact h
  | _ => cases h

theorem captureScope_congr {j : Json} {scope? : Option String}
    (h : captureScope place j = .ok scope?) (place' : Place) :
    captureScope place' j = .ok scope? := by
  unfold captureScope at h ⊢
  split at h
  · exact scope_congr h place'
  · exact scope_congr h place'

theorem captureGroup_eq_ok {key : String} {n : Nat} :
    captureGroup place key = .ok n ↔ Text.wholeNumber? key = some (n : Int) := by
  unfold captureGroup
  split
  · rename_i hkey
    simp [hkey]
  · rename_i number hkey
    rw [hkey, Option.some.injEq]
    split
    · simp only [reduceCtorEq, false_iff]
      omega
    · rw [Except.ok.injEq]
      omega

/-- The capture that a member of a capture map gives; none if there is no scope. -/
def captureOf (key : String) (value : Json) : Option Capture := do
  let group ← (captureGroup .nowhere key).toOption
  let scope? ← (captureScope .nowhere value).toOption
  let scope ← scope?
  return ⟨group, scope⟩

theorem captureList_filterMap {members : List (String × Json)} {captures : List Capture}
    (h : captureList place members = .ok captures) :
    captures = members.filterMap fun m => captureOf m.1 m.2 := by
  induction members generalizing captures with
  | nil =>
      cases h
      rfl
  | cons m rest ih =>
      obtain ⟨group, hgroup, h⟩ := bind_eq_ok.mp h
      obtain ⟨scope?, hscope, h⟩ := bind_eq_ok.mp h
      obtain ⟨more, hmore, heq⟩ := bind_eq_ok.mp h
      cases heq
      have hgroup : captureGroup .nowhere m.1 = .ok group :=
        captureGroup_eq_ok.mpr (captureGroup_eq_ok.mp hgroup)
      have hscope := captureScope_congr hscope .nowhere
      rw [List.filterMap_cons, ← ih hmore, captureOf, hgroup, hscope]
      cases scope? <;> rfl

theorem captureList_congr {members : List (String × Json)} {captures : List Capture}
    (h : captureList place members = .ok captures) (place' : Place) :
    captureList place' members = .ok captures := by
  induction members generalizing captures with
  | nil => exact h
  | cons member rest ih =>
      obtain ⟨group, hgroup, h⟩ := bind_eq_ok.mp h
      obtain ⟨scope?, hscope, h⟩ := bind_eq_ok.mp h
      obtain ⟨more, hmore, h⟩ := bind_eq_ok.mp h
      refine bind_eq_ok.mpr ⟨group, captureGroup_eq_ok.mpr (captureGroup_eq_ok.mp hgroup), ?_⟩
      refine bind_eq_ok.mpr ⟨scope?, captureScope_congr hscope place', ?_⟩
      exact bind_eq_ok.mpr ⟨more, ih hmore, h⟩

theorem captures_congr {j : Json} {found : List Capture} (h : captures place j = .ok found)
    (place' : Place) : captures place' j = .ok found := by
  cases j with
  | null => exact h
  | obj members =>
      obtain ⟨listed, hlisted, heq⟩ := map_eq_ok.mp h
      exact map_eq_ok.mpr ⟨listed, captureList_congr hlisted place', heq⟩
  | _ => cases h

theorem closer_congr {source : String} {closer? : Option M}
    (h : closer e place source = .ok closer?) (place' : Place) :
    closer e place' source = .ok closer? := by
  unfold closer at h ⊢
  split at h
  · rename_i hoccurs
    obtain ⟨m, hm, heq⟩ := bind_eq_ok.mp h
    rw [if_pos hoccurs]
    exact bind_eq_ok.mpr ⟨m, pattern_eq_ok.mpr (pattern_eq_ok.mp hm), heq⟩
  · rename_i hoccurs
    obtain ⟨m, hm, heq⟩ := bind_eq_ok.mp h
    rw [if_neg hoccurs]
    exact bind_eq_ok.mpr ⟨m, pattern_eq_ok.mpr (pattern_eq_ok.mp hm), heq⟩

theorem leaf_congr {id : Nat} {fields : MatchFields} {r : MatchRule M}
    (h : leaf e place id fields = .ok r) (place' : Place) (id' : Nat) :
    leaf e place' id' fields = .ok { r with id := id' } := by
  simp only [leaf, bind_eq_ok] at h ⊢
  obtain ⟨source, hsource, matcher, hmatcher, scope?, hscope, captures, hcaptures, heq⟩ := h
  cases heq
  exact ⟨source, sourceOf_eq_ok.mpr (sourceOf_eq_ok.mp hsource), matcher,
    pattern_eq_ok.mpr (pattern_eq_ok.mp hmatcher), scope?, scope_congr hscope place', captures,
    captures_congr hcaptures place', rfl⟩

theorem region_congr {id : Nat} {fields : RegionFields} {r : RegionRule M}
    (h : region e place id fields = .ok r) (place' : Place) (id' : Nat) :
    region e place' id' fields = .ok { r with id := id' } := by
  simp only [region, bind_eq_ok] at h ⊢
  obtain ⟨ending, hending, beginSource, hbegin, opener, hopener, endSource, hend, closer?, hcloser,
    scope?, hscope, contentScope?, hcontent, beginCaptures, hbeginCaptures, endCaptures,
    hendCaptures, heq⟩ := h
  cases heq
  exact ⟨ending, endGiven_eq_ok.mpr (endGiven_eq_ok.mp hending), beginSource,
    sourceOf_eq_ok.mpr (sourceOf_eq_ok.mp hbegin), opener,
    pattern_eq_ok.mpr (pattern_eq_ok.mp hopener), endSource,
    sourceOf_eq_ok.mpr (sourceOf_eq_ok.mp hend), closer?, closer_congr hcloser place', scope?,
    scope_congr hscope place', contentScope?, scope_congr hcontent place', beginCaptures,
    captures_congr hbeginCaptures place', endCaptures, captures_congr hendCaptures place', rfl⟩

end Draft

mutual

def Declaration.forms (e : Engine M) (target? : String → Option ContextName) :
    Declaration → Option (List (Form M))
  | .malformed => none
  | .empty => none
  | .include reference => do
    let name ← reference.str?
    let target ← target? name
    return [.include target]
  | .leaf fields => do
    let r ← (Draft.leaf e .nowhere 0 fields).toOption
    return [.rule (.leaf r) []]
  | .region _ none => none
  | .region fields (some inner) => do
    let r ← (Draft.region e .nowhere 0 fields).toOption
    let inner ← Declaration.formsAmong e target? inner
    return [.rule (.region r) inner]
  | .group none => none
  | .group (some members) => Declaration.formsAmong e target? members

def Declaration.formsAmong (e : Engine M) (target? : String → Option ContextName) :
    List Declaration → Option (List (Form M))
  | [] => some []
  | first :: rest => do
    let forms ← first.forms e target?
    let more ← Declaration.formsAmong e target? rest
    return forms ++ more

end

mutual

def Form.Leads (P : ContextName → Prop) : Form M → Prop
  | .include target => P target
  | .rule _ inner => Form.LeadAll P inner

def Form.LeadAll (P : ContextName → Prop) : List (Form M) → Prop
  | [] => True
  | f :: rest => f.Leads P ∧ Form.LeadAll P rest

end

theorem Form.leadAll_iff {P : ContextName → Prop} {forms : List (Form M)} :
    LeadAll P forms ↔ ∀ f ∈ forms, f.Leads P := by
  induction forms with
  | nil => simp [LeadAll]
  | cons f rest ih => rw [LeadAll, ih, List.forall_mem_cons]

mutual

theorem Form.Leads.imp {P Q : ContextName → Prop} (hPQ : ∀ name, P name → Q name) :
    {f : Form M} → f.Leads P → f.Leads Q
  | .include target, h => hPQ target h
  | .rule _ _, h => Form.LeadAll.imp hPQ h

theorem Form.LeadAll.imp {P Q : ContextName → Prop} (hPQ : ∀ name, P name → Q name) :
    {forms : List (Form M)} → Form.LeadAll P forms → Form.LeadAll Q forms
  | [], _ => trivial
  | _ :: _, h => ⟨Form.Leads.imp hPQ h.1, Form.LeadAll.imp hPQ h.2⟩

end

mutual

theorem Declaration.leadAll_forms {e : Engine M} {target? : String → Option ContextName}
    {P : ContextName → Prop} (htarget : ∀ reference name, target? reference = some name → P name) :
    (declared : Declaration) → {forms : List (Form M)} →
      declared.forms e target? = some forms → Form.LeadAll P forms
  | .malformed, _, h => by cases h
  | .empty, _, h => by cases h
  | .include reference, forms, h => by
      simp only [Declaration.forms, Option.bind_eq_bind, Option.bind_eq_some_iff] at h
      obtain ⟨name, -, target, hname, heq⟩ := h
      cases heq
      exact ⟨htarget name target hname, trivial⟩
  | .leaf fields, forms, h => by
      simp only [Declaration.forms, Option.bind_eq_bind, Option.bind_eq_some_iff] at h
      obtain ⟨r, -, heq⟩ := h
      cases heq
      exact ⟨trivial, trivial⟩
  | .region _ none, _, h => by cases h
  | .region fields (some inner), forms, h => by
      simp only [Declaration.forms, Option.bind_eq_bind, Option.bind_eq_some_iff] at h
      obtain ⟨r, -, innerForms, hinner, heq⟩ := h
      cases heq
      exact ⟨Declaration.leadAll_formsAmong htarget inner hinner, trivial⟩
  | .group none, _, h => by cases h
  | .group (some members), _, h => Declaration.leadAll_formsAmong htarget members h

theorem Declaration.leadAll_formsAmong {e : Engine M} {target? : String → Option ContextName}
    {P : ContextName → Prop} (htarget : ∀ reference name, target? reference = some name → P name) :
    (members : List Declaration) → {forms : List (Form M)} →
      Declaration.formsAmong e target? members = some forms → Form.LeadAll P forms
  | [], forms, h => by
      cases h
      trivial
  | first :: rest, forms, h => by
      simp only [Declaration.formsAmong, Option.bind_eq_bind, Option.bind_eq_some_iff] at h
      obtain ⟨firstForms, hfirst, more, hrest, heq⟩ := h
      cases heq
      have hlead := Form.leadAll_iff.mp (Declaration.leadAll_forms htarget first hfirst)
      have hmore := Form.leadAll_iff.mp (Declaration.leadAll_formsAmong htarget rest hrest)
      exact Form.leadAll_iff.mpr (List.forall_mem_append.mpr ⟨hlead, hmore⟩)

end

namespace Draft

open Grammar
open Declaration (formsAmong)

variable {e : Engine M} {b : Blueprint} {context : ContextName}

/-- A declared context whose forms are those given for the context of the name. -/
structure Sown (e : Engine M) (target? : String → Option ContextName) (c : DeclaredContext)
    (inner : ContextName × List (Form M)) : Prop where
  name : c.name = inner.1
  forms : formsAmong e target? c.members = some inner.2

/-- Drafting with the given outcome goes as the forms say, numbering from the next free number. -/
def Yields (e : Engine M) (target? : String → Option ContextName) (d : Draft M)
    (forms : List (Form M)) (o : Except Error (List (Entry M) × Draft M)) : Prop :=
  ∃ added,
    o = .ok (Form.entries d.rules.length forms, d.grow (Form.rules d.rules.length forms) added) ∧
    List.Forall₂ (Sown e target?) added (Form.inside d.rules.length forms)

theorem Yields.nil {target? : String → Option ContextName} (d : Draft M) :
    Yields e target? d [] (.ok ([], d)) := by
  refine ⟨[], ?_, .nil⟩
  rw [Form.entries, Form.rules, grow_nil]

theorem Yields.append {target? : String → Option ContextName} {d : Draft M}
    {first more : List (Form M)} {o : Except Error (List (Entry M) × Draft M)}
    {next : Draft M → Except Error (List (Entry M) × Draft M)}
    (h : Yields e target? d first o) (hnext : ∀ d, Yields e target? d more (next d)) :
    Yields e target? d (first ++ more) (do
      let (entries, d) ← o
      let (more, d) ← next d
      return (entries ++ more, d)) := by
  obtain ⟨added, rfl, hsown⟩ := h
  obtain ⟨added', hnext, hsown'⟩ := hnext (d.grow (Form.rules d.rules.length first) added)
  have hlength : (d.grow (Form.rules d.rules.length first) added).rules.length =
      d.rules.length + (Form.rules d.rules.length first).length := List.length_append
  rw [hlength] at hnext hsown'
  refine ⟨added ++ added', ?_, ?_⟩
  · refine bind_eq_ok.mpr ⟨_, rfl, bind_eq_ok.mpr ⟨_, hnext, ?_⟩⟩
    rw [Form.entries_append, Form.rules_append, ← grow_grow]
    rfl
  · rw [Form.inside_append]
    exact List.rel_append hsown hsown'

mutual

theorem declaration_yields {index : Nat} :
    (declared : Declaration) → {forms : List (Form M)} →
      declared.forms e b.target? = some forms → (d : Draft M) →
      Yields e b.target? d forms (declaration e b context index declared d)
  | .malformed, _, h, _ => by cases h
  | .empty, _, h, _ => by cases h
  | .include reference, forms, h, d => by
      simp only [Declaration.forms, Option.bind_eq_bind, Option.bind_eq_some_iff] at h
      obtain ⟨name, hname, target, htarget, heq⟩ := h
      cases heq
      cases reference with
      | str s =>
          cases hname
          refine ⟨[], ?_, .nil⟩
          simp only [declaration, includeOf, htarget, Form.entries, Form.rules, grow_nil]
          rfl
      | _ => cases hname
  | .leaf fields, forms, h, d => by
      simp only [Declaration.forms, Option.bind_eq_bind, Option.bind_eq_some_iff,
        toOption_eq_some] at h
      obtain ⟨r, hr, heq⟩ := h
      cases heq
      refine ⟨[], ?_, .nil⟩
      simp only [declaration]
      refine bind_eq_ok.mpr ⟨_, leaf_congr hr _ _, ?_⟩
      simp only [Form.entries, Form.rules, Rule.withId, addLeaf, grow, List.append_nil]
      rfl
  | .region _ none, _, h, _ => by cases h
  | .region fields (some inner), forms, h, d => by
      simp only [Declaration.forms, Option.bind_eq_bind, Option.bind_eq_some_iff,
        toOption_eq_some] at h
      obtain ⟨r, hr, innerForms, hinner, heq⟩ := h
      cases heq
      refine ⟨[⟨.inside d.rules.length, inner⟩], ?_, .cons ⟨rfl, hinner⟩ .nil⟩
      simp only [declaration]
      exact bind_eq_ok.mpr ⟨_, region_congr hr _ _, rfl⟩
  | .group none, _, h, _ => by cases h
  | .group (some members), _, h, d => group_yields members h d

theorem group_yields {index : Nat} :
    (members : List Declaration) → {forms : List (Form M)} →
      formsAmong e b.target? members = some forms → (d : Draft M) →
      Yields e b.target? d forms (group e b context index members d)
  | [], forms, h, d => by
      cases h
      exact .nil d
  | first :: rest, forms, h, d => by
      simp only [formsAmong, Option.bind_eq_bind, Option.bind_eq_some_iff] at h
      obtain ⟨firstForms, hfirst, more, hrest, heq⟩ := h
      cases heq
      exact (declaration_yields first hfirst d).append (group_yields rest hrest)

end

theorem members_yields {declared : List Declaration} {forms : List (Form M)}
    (h : formsAmong e b.target? declared = some forms) (index : Nat) (d : Draft M) :
    Yields e b.target? d forms (members e b context index declared d) := by
  induction declared generalizing index d forms with
  | nil =>
      cases h
      exact .nil d
  | cons first rest ih =>
      simp only [formsAmong, Option.bind_eq_bind, Option.bind_eq_some_iff] at h
      obtain ⟨firstForms, hfirst, more, hrest, heq⟩ := h
      cases heq
      exact (declaration_yields first hfirst d).append (ih hrest (index + 1))

def AllFormed (e : Engine M) (target? : String → Option ContextName)
    (contexts : List DeclaredContext) : Prop :=
  ∀ c ∈ contexts, ∃ forms, formsAmong e target? c.members = some forms

/-- The contexts that drafting with the given outcome has added are all that `forms?` lacks to be
some. -/
def Awaits (e : Engine M) (target? : String → Option ContextName) (d : Draft M)
    (forms? : Option (List (Form M))) (o : Except Error (List (Entry M) × Draft M)) : Prop :=
  ∀ entries d', o = .ok (entries, d') → ∃ rules added, d' = d.grow rules added ∧
    (AllFormed e target? added → ∃ forms, forms? = some forms)

theorem Awaits.nil {target? : String → Option ContextName} (d : Draft M) :
    Awaits e target? d (some []) (.ok ([], d)) := by
  intro entries d' heq
  cases heq
  exact ⟨[], [], d.grow_nil.symm, fun _ => ⟨[], rfl⟩⟩

theorem Awaits.append {target? : String → Option ContextName} {d : Draft M}
    {first? more? : Option (List (Form M))} {o : Except Error (List (Entry M) × Draft M)}
    {next : Draft M → Except Error (List (Entry M) × Draft M)}
    (h : Awaits e target? d first? o) (hnext : ∀ d, Awaits e target? d more? (next d)) :
    Awaits e target? d
      (do
        let first ← first?
        let more ← more?
        return first ++ more)
      (do
        let (entries, d) ← o
        let (more, d) ← next d
        return (entries ++ more, d)) := by
  intro entries d' heq
  obtain ⟨⟨firstEntries, between⟩, hfirst, heq⟩ := bind_eq_ok.mp heq
  obtain ⟨⟨moreEntries, last⟩, hmore, heq⟩ := bind_eq_ok.mp heq
  cases heq
  obtain ⟨rules, added, rfl, hforms⟩ := h _ _ hfirst
  obtain ⟨rules', added', rfl, hforms'⟩ := hnext _ _ _ hmore
  refine ⟨rules ++ rules', added ++ added', d.grow_grow .., fun hadded => ?_⟩
  obtain ⟨hfirstAdded, hmoreAdded⟩ := List.forall_mem_append.mp hadded
  obtain ⟨forms, rfl⟩ := hforms hfirstAdded
  obtain ⟨more, rfl⟩ := hforms' hmoreAdded
  exact ⟨forms ++ more, rfl⟩

mutual

theorem declaration_awaits {index : Nat} :
    (declared : Declaration) → (d : Draft M) →
      Awaits e b.target? d (declared.forms e b.target?) (declaration e b context index declared d)
  | .malformed, _ => by simp [Awaits, declaration]
  | .empty, _ => by simp [Awaits, declaration]
  | .include reference, d => by
      intro entries d' h
      obtain ⟨entry, hentry, heq⟩ := bind_eq_ok.mp (by simpa only [declaration] using h)
      cases heq
      refine ⟨[], [], d.grow_nil.symm, fun _ => ?_⟩
      unfold includeOf at hentry
      split at hentry
      · split at hentry
        · rename_i name target htarget
          exact ⟨[.include target], by simp [Declaration.forms, Json.str?, htarget]⟩
        · cases hentry
      · cases hentry
  | .leaf fields, d => by
      intro entries d' h
      obtain ⟨r, hr, heq⟩ := bind_eq_ok.mp (by simpa only [declaration] using h)
      cases heq
      refine ⟨[.leaf r], [], by simp [addLeaf, grow], fun _ => ?_⟩
      have hform := toOption_eq_some.mpr (leaf_congr hr .nowhere 0)
      exact ⟨[.rule (.leaf { r with id := 0 }) []], by simp [Declaration.forms, hform]⟩
  | .region fields none, d => by
      intro entries d' h
      simp only [declaration, bind_eq_ok] at h
      obtain ⟨_, -, _, hlisted, -⟩ := h
      cases hlisted
  | .region fields (some inner), d => by
      intro entries d' h
      obtain ⟨r, hr, h⟩ := bind_eq_ok.mp (by simpa only [declaration] using h)
      obtain ⟨_, hlisted, heq⟩ := bind_eq_ok.mp h
      cases hlisted
      cases heq
      refine ⟨[.region r], [⟨r.inner, inner⟩], rfl, fun hadded => ?_⟩
      obtain ⟨innerForms, hinner⟩ := hadded _ (List.mem_cons_self ..)
      have hform := toOption_eq_some.mpr (region_congr hr .nowhere 0)
      exact ⟨[.rule (.region { r with id := 0 }) innerForms], by
        simp [Declaration.forms, hform, hinner]⟩
  | .group none, _ => by simp [Awaits, declaration]
  | .group (some members), d => group_awaits members d

theorem group_awaits {index : Nat} :
    (members : List Declaration) → (d : Draft M) →
      Awaits e b.target? d (formsAmong e b.target? members) (group e b context index members d)
  | [], d => .nil d
  | first :: rest, d => (declaration_awaits first d).append (group_awaits rest)

end

theorem members_awaits (declared : List Declaration) (index : Nat) (d : Draft M) :
    Awaits e b.target? d (formsAmong e b.target? declared)
      (members e b context index declared d) := by
  induction declared generalizing index d with
  | nil => exact .nil d
  | cons first rest ih => exact (declaration_awaits first d).append (ih (index + 1))

end Draft

end LineScope
