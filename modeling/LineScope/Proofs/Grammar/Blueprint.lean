import LineScope.Proofs.Grammar.Document
import LineScope.Proofs.Grammar.Flattening
import LineScope.Proofs.Grammar.Numbering
import LineScope.Proofs.Grammar.Tables

/-!
Documents as they are declared: when a document has the form for it, what its references name, and
that its contexts include in the draft what they include in the document.
-/

namespace LineScope

open Json (Members)
open Declaration (field)

variable {M : Type}

namespace Blueprint

open Json GrammarDocument
open Declaration (formsAmong patternsIn)

def entryMembers (members : Members) : Option (List Declaration) :=
  if isRuleEntry members then some [Declaration.ofJson (.obj members)] else patternsIn members

theorem patternsOf_eq_ok {members : Members} {context : ContextName} {declared : List Declaration} :
    patternsOf members context = .ok declared ↔ patternsIn members = some declared := by
  unfold patternsOf
  rcases patternsIn members with _ | found
  · simp
  · simp

theorem entry_eq_ok {key : String} {value : Json} {c : DeclaredContext} :
    entry key value = .ok c ↔ ∃ members declared, value = .obj members ∧
      entryMembers members = some declared ∧ c = ⟨.entry key, declared⟩ := by
  unfold entry
  split
  · rename_i members
    have hrule : ["match", "begin", "include"].any (Members.has members) = isRuleEntry members := by
      simp [isRuleEntry, Bool.or_assoc]
    rw [hrule]
    constructor
    · intro h
      split at h
      · rename_i hentry
        cases h
        exact ⟨members, _, rfl, if_pos hentry, rfl⟩
      · rename_i hentry
        obtain ⟨declared, hdeclared, heq⟩ := map_eq_ok.mp h
        exact ⟨members, declared, rfl, (if_neg hentry).trans (patternsOf_eq_ok.mp hdeclared),
          heq.symm⟩
    · rintro ⟨_, declared, heq, hdeclared, rfl⟩
      cases heq
      unfold entryMembers at hdeclared
      split at hdeclared
      · rename_i hentry
        cases hdeclared
        exact if_pos hentry
      · rename_i hentry
        rw [if_neg hentry]
        exact map_eq_ok.mpr ⟨declared, patternsOf_eq_ok.mpr hdeclared, rfl⟩
  · rename_i hnot
    constructor
    · intro h
      cases h
    · rintro ⟨members, -, rfl, -⟩
      exact absurd rfl (hnot members)

theorem entries_eq_ok {repository : Members} {cs : List DeclaredContext} :
    entries repository = .ok cs ↔
      List.Forall₂ (fun m c => entry m.1 m.2 = .ok c) repository cs := by
  induction repository generalizing cs with
  | nil =>
      rw [List.forall₂_nil_left_iff]
      simp [entries, eq_comm]
  | cons m rest ih =>
      simp only [entries, bind_eq_ok, ih]
      constructor
      · rintro ⟨c, hc, more, hmore, heq⟩
        cases heq
        exact .cons hc hmore
      · intro h
        cases h with
        | cons hc hmore => exact ⟨_, hc, _, hmore, rfl⟩

theorem repository_eq_ok {members : Members} {cs : List DeclaredContext} :
    repository members = .ok cs ↔
      ((field members "repository").isTrue = true →
        ∃ entries, field members "repository" = .obj entries) ∧
      entries (repositoryOf members) = .ok cs := by
  unfold repository repositoryOf
  generalize field members "repository" = value
  by_cases htrue : value.isTrue = true
  · rw [if_pos htrue]
    cases value with
    | obj found => exact ⟨fun h => ⟨fun _ => ⟨found, rfl⟩, h⟩, And.right⟩
    | _ => simp [htrue]
  · rw [if_neg htrue]
    cases value with
    | obj found =>
        obtain rfl : found = [] := by simpa [Json.isTrue] using htrue
        simp [Json.isTrue, entries]
    | _ => simp [htrue, entries]

theorem scopeNameOf_eq_ok {members : Members} {name : String} :
    scopeNameOf members = .ok name ↔ members.get? "scopeName" = some (.str name) ∧ name ≠ "" := by
  unfold scopeNameOf
  split
  · rename_i s hs
    rw [hs]
    split
    · rename_i hempty
      simp only [reduceCtorEq, Option.some.injEq, Json.str.injEq, false_iff, not_and, not_not]
      rintro rfl
      simpa using hempty
    · rename_i hempty
      simp only [Except.ok.injEq, Option.some.injEq, Json.str.injEq]
      constructor
      · rintro rfl
        exact ⟨rfl, by simpa using hempty⟩
      · rintro ⟨rfl, -⟩
        rfl
  · rename_i hnot
    simp only [reduceCtorEq, false_iff, not_and]
    intro h
    exact absurd h (hnot name)

theorem ofJson_eq_ok {members : Members} {b : Blueprint} :
    ofJson (.obj members) = .ok b ↔ ∃ name root cs,
      scopeNameOf members = .ok name ∧ patternsIn members = some root ∧
        repository members = .ok cs ∧
        b = ⟨name, (field members "name").str?, ⟨.root, root⟩ :: cs⟩ := by
  simp only [ofJson, bind_eq_ok, patternsOf_eq_ok]
  constructor
  · rintro ⟨name, hname, root, hroot, cs, hcs, heq⟩
    cases heq
    exact ⟨name, root, cs, hname, hroot, hcs, rfl⟩
  · rintro ⟨name, root, cs, hname, hroot, hcs, rfl⟩
    exact ⟨name, hname, root, hroot, cs, hcs, rfl⟩

theorem names_of_entries {repository : Members} {cs : List DeclaredContext}
    (h : List.Forall₂ (fun m c => entry m.1 m.2 = .ok c) repository cs) :
    cs.map DeclaredContext.name = repository.map fun m => .entry m.1 := by
  induction h with
  | nil => rfl
  | cons hc _ ih =>
      obtain ⟨_, _, -, -, rfl⟩ := entry_eq_ok.mp hc
      rw [List.map_cons, List.map_cons, ih]

theorem target?_eq_some {members : Members} {b : Blueprint} (h : ofJson (.obj members) = .ok b)
    {reference : String} {target : ContextName} :
    b.target? reference = some target ↔ Names (repositoryOf members) reference target := by
  obtain ⟨name, root, cs, -, -, hcs, rfl⟩ := ofJson_eq_ok.mp h
  have hnames := names_of_entries (entries_eq_ok.mp (repository_eq_ok.mp hcs).2)
  have hkey : ∀ name, name ∈ cs.map DeclaredContext.name ↔
      ∃ key, (repositoryOf members).has key = true ∧ .entry key = name := by
    intro name
    simp [hnames, Members.has]
  have hfind : ∀ p : DeclaredContext → Bool, p ⟨.root, root⟩ = false →
      (⟨.root, root⟩ :: cs).find? p = cs.find? p := by
    intro p hp
    rw [List.find?_cons, hp]
  simp only [target?]
  rw [hfind _ (by simp)]
  constructor
  · intro h
    split at h
    · rename_i hself
      cases h
      rcases (by simpa using hself : reference = "$self" ∨ reference = "$base") with rfl | rfl
      · exact .self
      · exact .base
    · obtain ⟨c, hc, rfl⟩ := Option.map_eq_some_iff.mp h
      obtain ⟨key, hhas, hname⟩ :=
        (hkey c.name).mp (List.mem_map_of_mem (List.mem_of_find?_eq_some hc))
      have htext : ¬c.name = .root ∧ c.name.text = reference := by simpa using List.find?_some hc
      rw [← htext.2, ← hname]
      exact .entry hhas
  · intro h
    cases h with
    | self => simp
    | base => simp
    | @entry key hhas =>
        obtain ⟨c, hc, hname⟩ := List.mem_map.mp ((hkey (.entry key)).mpr ⟨key, hhas, rfl⟩)
        have hself : ("#" ++ key == "$self" || "#" ++ key == "$base") = false := by
          simp [String.ext_iff]
        rw [hself, if_neg Bool.false_ne_true]
        obtain ⟨found, hfound⟩ : ∃ found,
            cs.find? (fun c => c.name != .root && c.name.text == "#" ++ key) = some found :=
          Option.isSome_iff_exists.mp
            (List.find?_isSome.mpr ⟨c, hc, by simp [hname, ContextName.text]⟩)
        have htext : ¬found.name = .root ∧ found.name.text = "#" ++ key := by
          simpa using List.find?_some hfound
        rw [hfound]
        exact congrArg some (ContextName.text_inj.mp htext.2)

def membersOf (contexts : List DeclaredContext) (name : ContextName) : List Declaration :=
  match contexts.find? (·.name == name) with
  | some c => c.members
  | none => []

theorem patternsIn_map {members : Members} {declared : List Declaration}
    (h : patternsIn members = some declared) :
    declared = (patternItems (field members "patterns")).map Declaration.ofJson := by
  rw [Declaration.patternsIn_eq] at h
  generalize field members "patterns" = value at h ⊢
  cases value with
  | arr found =>
      cases h
      exact Declaration.ofItems_eq found
  | null =>
      cases h
      rfl
  | _ => cases h

theorem entryMembers_map {members : Members} {declared : List Declaration}
    (h : entryMembers members = some declared) :
    declared = (entryRules (.obj members)).map Declaration.ofJson := by
  unfold entryMembers at h
  rw [entryRules]
  split at h
  · rename_i hentry
    cases h
    rw [if_pos hentry]
    rfl
  · rename_i hentry
    rw [if_neg hentry]
    exact patternsIn_map h

theorem membersOf_entry {repository : Members} {cs : List DeclaredContext} (key : String)
    (h : List.Forall₂ (fun m c => entry m.1 m.2 = .ok c) repository cs) :
    membersOf cs (.entry key) =
      ((repository.get? key).elim [] entryRules).map Declaration.ofJson := by
  unfold membersOf Members.get?
  induction h with
  | nil => rfl
  | @cons m c rest cs hc _ ih =>
      obtain ⟨members, declared, hm, hdeclared, rfl⟩ := entry_eq_ok.mp hc
      rw [List.find?_cons, List.lookup_cons, hm]
      by_cases hkey : m.1 = key
      · simp [hkey, entryMembers_map hdeclared]
      · have hne : (key == m.1) = false := by simpa using Ne.symm hkey
        have hname : (ContextName.entry m.1 == ContextName.entry key) = false := by simpa using hkey
        simpa only [hname, hne] using ih

theorem membersOf_listed {members : Members} {b : Blueprint} (h : ofJson (.obj members) = .ok b)
    (name : ContextName) :
    membersOf b.contexts name = (listed members name).map Declaration.ofJson := by
  obtain ⟨_, root, cs, -, hroot, hcs, rfl⟩ := ofJson_eq_ok.mp h
  have hentries := entries_eq_ok.mp (repository_eq_ok.mp hcs).2
  cases name with
  | root => exact patternsIn_map hroot
  | entry key =>
      have hskip : membersOf (⟨.root, root⟩ :: cs) (.entry key) = membersOf cs (.entry key) := rfl
      exact hskip.trans (membersOf_entry key hentries)
  | inside n =>
      have hnone : cs.find? (·.name == .inside n) = none := by
        rw [List.find?_eq_none]
        intro c hc
        have hname := List.mem_map_of_mem (f := DeclaredContext.name) hc
        rw [names_of_entries hentries] at hname
        obtain ⟨m, -, hname⟩ := List.mem_map.mp hname
        simp [← hname]
      rw [membersOf, List.find?_cons, hnone]
      rfl

variable {e : Engine M} {members : Members} {b : Blueprint}

theorem exists_names_iff (h : ofJson (.obj members) = .ok b) (reference : String) :
    Refers (repositoryOf members) reference ↔ ∃ target, b.target? reference = some target :=
  exists_congr fun _ => (target?_eq_some h).symm

theorem exists_ofJson_iff :
    (∃ b, ofJson (.obj members) = .ok b) ↔
      (∃ name, scopeNameOf members = .ok name) ∧ (∃ root, patternsIn members = some root) ∧
        ∃ cs, repository members = .ok cs := by
  simp only [ofJson_eq_ok]
  constructor
  · rintro ⟨b, name, root, cs, hname, hroot, hcs, -⟩
    exact ⟨⟨name, hname⟩, ⟨root, hroot⟩, cs, hcs⟩
  · rintro ⟨⟨name, hname⟩, ⟨root, hroot⟩, cs, hcs⟩
    exact ⟨_, name, root, cs, hname, hroot, hcs, rfl⟩

theorem exists_patternsIn {refers : String → Prop} {members : Members}
    (h : IsPatterns e refers (field members "patterns")) :
    ∃ declared, patternsIn members = some declared := by
  rw [Declaration.patternsIn_eq]
  generalize field members "patterns" = value at h
  cases h with
  | none => exact ⟨_, rfl⟩
  | list _ => exact ⟨_, rfl⟩

theorem exists_entryMembers {refers : String → Prop} {value : Json} (h : IsEntry e refers value) :
    ∃ members declared, value = .obj members ∧ entryMembers members = some declared := by
  cases h with
  | rule hentry hrule => exact ⟨_, _, rfl, if_pos hentry⟩
  | @patterns members hentry hpatterns =>
      obtain ⟨declared, hdeclared⟩ := exists_patternsIn hpatterns
      refine ⟨members, declared, rfl, ?_⟩
      rw [entryMembers, hentry, if_neg Bool.false_ne_true, hdeclared]

theorem isEntry_iff {refers : String → Prop} {target? : String → Option ContextName}
    (hrefers : ∀ reference, refers reference ↔ ∃ c, target? reference = some c)
    {members : Members} {declared : List Declaration} (h : entryMembers members = some declared) :
    IsEntry e refers (.obj members) ↔ ∃ forms, formsAmong e target? declared = some forms := by
  unfold entryMembers at h
  split at h
  · rename_i hentry
    cases h
    have hrule := Declaration.exists_forms_iff hrefers (e := e) (.obj members)
    simp only [formsAmong, Option.bind_eq_bind, Option.bind_eq_some_iff]
    constructor
    · intro h
      cases h with
      | rule _ h =>
          obtain ⟨forms, hforms⟩ := hrule.mpr h
          exact ⟨_, forms, hforms, [], rfl, rfl⟩
      | patterns hnot => simp [hentry] at hnot
    · rintro ⟨_, forms, hforms, -⟩
      exact .rule hentry (hrule.mp ⟨forms, hforms⟩)
  · rename_i hentry
    have hpatterns := Declaration.patternsIn_formed_iff hrefers (e := e) members
    constructor
    · intro hvalue
      cases hvalue with
      | rule hnot => exact absurd hnot hentry
      | patterns _ hinside =>
          obtain ⟨_, forms, hdeclared, hforms⟩ := hpatterns.mpr hinside
          rw [h] at hdeclared
          cases hdeclared
          exact ⟨forms, hforms⟩
    · rintro ⟨forms, hforms⟩
      exact .patterns (Bool.eq_false_iff.mpr hentry) (hpatterns.mp ⟨declared, forms, h, hforms⟩)

theorem allFormed_iff (h : ofJson (.obj members) = .ok b) :
    Draft.AllFormed e b.target? b.contexts ↔
      IsPatterns e (Refers (repositoryOf members)) (field members "patterns") ∧
        ∀ m ∈ repositoryOf members, IsEntry e (Refers (repositoryOf members)) m.2 := by
  have hrefers := exists_names_iff h
  obtain ⟨_, root, cs, -, hroot, hcs, heq⟩ := ofJson_eq_ok.mp h
  have hentries := entries_eq_ok.mp (repository_eq_ok.mp hcs).2
  have hcontexts : b.contexts = ⟨.root, root⟩ :: cs := congrArg Blueprint.contexts heq
  rw [hcontexts, Draft.AllFormed, List.forall_mem_cons]
  refine and_congr ?_ ?_
  · rw [← Declaration.patternsIn_formed_iff hrefers, Declaration.ListFormed, hroot]
    simp
  · generalize Refers (repositoryOf members) = refers at hrefers ⊢
    generalize repositoryOf members = repository at hentries ⊢
    clear hcs heq hcontexts
    induction hentries with
    | nil => simp
    | @cons m c _ _ hc _ ih =>
        obtain ⟨_, declared, hm, hdeclared, rfl⟩ := entry_eq_ok.mp hc
        rw [List.forall_mem_cons, List.forall_mem_cons, hm, isEntry_iff hrefers hdeclared]
        exact and_congr_right fun _ => ih

theorem exists_allFormed_iff :
    (∃ b, ofJson (.obj members) = .ok b ∧ Draft.AllFormed e b.target? b.contexts) ↔
      (∃ name, members.get? "scopeName" = some (.str name) ∧ name ≠ "") ∧
      ((field members "repository").isTrue = true →
        ∃ entries, field members "repository" = .obj entries) ∧
      IsPatterns e (Refers (repositoryOf members)) (field members "patterns") ∧
      ∀ m ∈ repositoryOf members, IsEntry e (Refers (repositoryOf members)) m.2 := by
  simp only [← scopeNameOf_eq_ok]
  constructor
  · rintro ⟨b, hb, hformed⟩
    obtain ⟨hname, -, cs, hcs⟩ := exists_ofJson_iff.mp ⟨b, hb⟩
    exact ⟨hname, (repository_eq_ok.mp hcs).1, (allFormed_iff hb).mp hformed⟩
  · rintro ⟨hname, hrepository, hpatterns, hentries⟩
    have hcs : ∃ cs, repository members = .ok cs := by
      simp only [repository_eq_ok, entries_eq_ok]
      obtain ⟨cs, hcs⟩ : ∃ cs, List.Forall₂ (fun m c => entry m.1 m.2 = .ok c)
          (repositoryOf members) cs := by
        apply exists_forall₂_iff.mpr
        intro m hm
        obtain ⟨found, declared, hfound, hdeclared⟩ := exists_entryMembers (hentries m hm)
        exact ⟨_, entry_eq_ok.mpr ⟨found, declared, hfound, hdeclared, rfl⟩⟩
      exact ⟨cs, hrepository, hcs⟩
    obtain ⟨b, hb⟩ := exists_ofJson_iff.mpr ⟨hname, exists_patternsIn hpatterns, hcs⟩
    exact ⟨b, hb, (allFormed_iff hb).mpr ⟨hpatterns, hentries⟩⟩

def formsOf (forms : List (ContextName × List (Form M))) (name : ContextName) : List (Form M) :=
  match forms.find? (·.1 == name) with
  | some f => f.2
  | none => []

theorem Formed.formsOf_eq {forms : List (ContextName × List (Form M))} (h : b.Formed e forms)
    (name : ContextName) :
    formsAmong e b.target? (membersOf b.contexts name) = some (formsOf forms name) := by
  unfold Formed at h
  unfold membersOf formsOf
  generalize b.contexts = contexts at h
  induction h with
  | nil => rfl
  | @cons c f _ _ hc _ ih =>
      rw [List.find?_cons, List.find?_cons, hc.name]
      rcases hname : f.1 == name
      · exact ih
      · exact hc.forms

theorem include_entriesOf_drafts {laid : List (Nat × Plot M)} {name target : ContextName} :
    .include target ∈ Expansion.entriesOf (Laid.drafts laid) name ↔
      .include target ∈ formsOf (laid.map fun x => x.2.named) name := by
  unfold Expansion.entriesOf formsOf Laid.drafts
  induction laid with
  | nil => simp
  | cons x rest ih =>
      rw [List.map_cons, List.map_cons, List.find?_cons, List.find?_cons]
      unfold Plot.named
      rcases x.2.name == name
      · exact ih
      · exact Form.include_mem_entries

/-- No context inside a region has the name of a declared one. -/
theorem formsOf_append_plots {forms : List (ContextName × List (Form M))} {n : Nat}
    {seats : List (Seat M)} {name : ContextName} (hname : ∀ i, name ≠ .inside i) :
    formsOf (forms ++ (Seat.plots n seats).map Plot.named) name = formsOf forms name := by
  have hnone : ((Seat.plots n seats).map Plot.named).find? (·.1 == name) = none := by
    rw [List.find?_eq_none]
    intro f hf
    obtain ⟨p, hp, rfl⟩ := List.mem_map.mp hf
    obtain ⟨i, s, -, hplot⟩ := Seat.mem_plots.mp hp
    unfold Seat.plot? at hplot
    split at hplot
    · cases hplot
    · cases hplot
      simpa [Plot.named] using (hname (n + i)).symm
  unfold formsOf
  rw [List.find?_append, hnone, Option.or_none]

theorem includes_drafts_iff (hb : ofJson (.obj members) = .ok b)
    {forms : List (ContextName × List (Form M))} (hforms : b.Formed e forms)
    {laid : List (Nat × Plot M)} (hlaid : Laid 0 (forms.map Plot.declared) laid)
    {source target : ContextName} (hsource : ∀ i, source ≠ .inside i) :
    Expansion.Includes (Laid.drafts laid) source target ↔ Includes members source target := by
  have hplots : laid.map (fun x => x.2.named) =
      forms ++ (Seat.plots 0 (Laid.seats laid)).map Plot.named := by
    have hnamed := congrArg (List.map Plot.named) hlaid.plots_eq
    rw [List.map_map, List.map_append, List.map_map, show Plot.named ∘ Plot.declared = id from rfl,
      List.map_id] at hnamed
    exact hnamed
  have hlisted := hforms.formsOf_eq source
  rw [membersOf_listed hb, ← Declaration.ofItems_eq] at hlisted
  rw [Expansion.Includes, include_entriesOf_drafts, hplots, formsOf_append_plots hsource,
    Declaration.ofItems_include_iff _ hlisted]
  simp only [Declaration.Leads, Includes, target?_eq_some hb]

theorem includes_not_inside {source target : ContextName} (h : Includes members source target) :
    (∀ i, source ≠ .inside i) ∧ ∀ i, target ≠ .inside i := by
  obtain ⟨item, hitem, reference, -, hnames⟩ := h
  constructor
  · rintro i rfl
    cases hitem
  · rintro i rfl
    cases hnames

theorem Formed.include_target {forms : List (ContextName × List (Form M))}
    (hforms : b.Formed e forms) {laid : List (Nat × Plot M)}
    (hlaid : Laid 0 (forms.map Plot.declared) laid)
    {c : DraftContext M} (hc : c ∈ Laid.drafts laid) {target : ContextName}
    (h : .include target ∈ c.entries) : ∃ reference, b.target? reference = some target := by
  have hleads : ∀ p ∈ forms.map Plot.declared,
      Form.LeadAll (fun c => ∃ reference, b.target? reference = some c) p.forms := by
    intro p hp
    obtain ⟨f, hf, rfl⟩ := List.mem_map.mp hp
    obtain ⟨c, -, hsown⟩ := exists_of_mem_forall₂ hforms hf
    exact Declaration.leadAll_formsAmong (fun reference _ h => ⟨reference, h⟩) c.members hsown.forms
  obtain ⟨x, hx, rfl⟩ := List.mem_map.mp hc
  exact Form.leadAll_iff.mp (hlaid.leadAll hleads x hx) _ (Form.include_mem_entries.mp h)

theorem target_not_inside (hb : ofJson (.obj members) = .ok b) {reference : String}
    {target : ContextName} (h : b.target? reference = some target) (i : Nat) :
    target ≠ .inside i := by
  rintro rfl
  cases (target?_eq_some hb).mp h

theorem includes_drafts_not_inside (hb : ofJson (.obj members) = .ok b)
    {forms : List (ContextName × List (Form M))} (hforms : b.Formed e forms)
    {laid : List (Nat × Plot M)} (hlaid : Laid 0 (forms.map Plot.declared) laid)
    {source target : ContextName} (h : Expansion.Includes (Laid.drafts laid) source target)
    (i : Nat) : target ≠ .inside i := by
  unfold Expansion.Includes Expansion.entriesOf at h
  split at h
  · rename_i c hc
    obtain ⟨reference, hreference⟩ :=
      hforms.include_target hlaid (List.mem_of_find?_eq_some hc) h
    exact target_not_inside hb hreference i
  · cases h

/-- A cycle of includes leads through declared contexts only. -/
theorem acyclic_drafts_iff (hb : ofJson (.obj members) = .ok b)
    {forms : List (ContextName × List (Form M))} (hforms : b.Formed e forms)
    {laid : List (Nat × Plot M)} (hlaid : Laid 0 (forms.map Plot.declared) laid) :
    Expansion.Acyclic (Laid.drafts laid) ↔
      ∀ name, ¬Relation.TransGen (Includes members) name name := by
  have htarget : ∀ source target, Expansion.Includes (Laid.drafts laid) source target →
      ∀ i, target ≠ .inside i := fun _ _ => includes_drafts_not_inside hb hforms hlaid
  constructor
  · intro acyclic name hcycle
    apply acyclic name
    refine Relation.TransGen.mono (fun source target h => ?_) _ _ hcycle
    exact (includes_drafts_iff hb hforms hlaid (includes_not_inside h).1).mpr h
  · intro acyclic name hcycle
    have hname : ∀ i, name ≠ .inside i := by
      obtain ⟨before, -, hlast⟩ := Relation.TransGen.tail'_iff.mp hcycle
      exact htarget before name hlast
    -- a step to a declared context starts at one, since only these are included
    have hpath : ∀ target, Relation.TransGen (Expansion.Includes (Laid.drafts laid)) name target →
        Relation.TransGen (Includes members) name target := by
      intro target h
      induction h with
      | single h => exact .single ((includes_drafts_iff hb hforms hlaid hname).mp h)
      | tail hbefore hlast ih =>
          obtain ⟨before, -, hstep⟩ := Relation.TransGen.tail'_iff.mp hbefore
          have hdeclared := htarget before _ hstep
          exact ih.tail ((includes_drafts_iff hb hforms hlaid hdeclared).mp hlast)
    exact acyclic name (hpath name hcycle)

theorem target?_mem {document : Json} (hb : ofJson document = .ok b) {reference : String}
    {target : ContextName} (h : b.target? reference = some target) :
    target ∈ b.contexts.map DeclaredContext.name := by
  cases document with
  | obj members =>
      obtain ⟨_, root, cs, -, -, -, rfl⟩ := ofJson_eq_ok.mp hb
      unfold target? at h
      split at h
      · cases h
        exact List.mem_cons_self ..
      · obtain ⟨c, hc, rfl⟩ := Option.map_eq_some_iff.mp h
        exact List.mem_map_of_mem (List.mem_of_find?_eq_some hc)
  | _ => cases hb

theorem include_drafted {document : Json} (hb : ofJson document = .ok b)
    {drafts : List (DraftContext M)} {rules : List (Rule M)}
    (hdraft : b.draft e = .ok (drafts, rules)) {c : DraftContext M} (hc : c ∈ drafts)
    {target : ContextName} (h : .include target ∈ c.entries) :
    target ∈ drafts.map DraftContext.name := by
  obtain ⟨forms, laid, hforms, hlaid, rfl, rfl⟩ := exists_laid hdraft
  obtain ⟨reference, hreference⟩ := hforms.include_target hlaid hc h
  rw [(draft_drafted hdraft).names]
  exact List.mem_append_left _ (target?_mem hb hreference)

end Blueprint

end LineScope
