import LineScope.Proofs.Capture.Sorting
import LineScope.Proofs.Grammar.Renumbering
import LineScope.Proofs.Json.Reordering

namespace LineScope

open Json (Members Reordered)
open Declaration (field)

variable {M : Type}

namespace Draft

open Grammar

variable {e : Engine M} {place : Place} {j j' : Json} {members members' : Members}

theorem sourceOf_reordered (h : Reordered j j') : sourceOf place j = sourceOf place j' := by
  cases h with
  | atom => rfl
  | arr => rfl
  | obj => rfl

theorem scope_reordered (h : Reordered j j') : scope place j = scope place j' := by
  cases h with
  | atom => rfl
  | arr => rfl
  | obj => rfl

theorem captureScope_reordered (h : Reordered j j') :
    captureScope place j = captureScope place j' := by
  cases h with
  | atom => rfl
  | arr => rfl
  | obj hnodup hkeys hvalues =>
      exact scope_reordered ((Reordered.obj hnodup hkeys hvalues).field "name")

theorem captures_reordered (h : Reordered j j') {found : List Capture}
    (hfound : captures place j = .ok found) : captures place j' = .ok found := by
  cases h with
  | atom => exact hfound
  | arr => cases hfound
  | @obj members members' hnodup hkeys hvalues =>
      have h : Reordered (.obj members) (.obj members') := .obj hnodup hkeys hvalues
      obtain ⟨listed, hlisted, rfl⟩ := map_eq_ok.mp hfound
      obtain ⟨listed', hlisted'⟩ : ∃ listed', captureList place members' = .ok listed' := by
        rw [exists_captureList_iff]
        rintro ⟨key, value'⟩ hmem'
        obtain ⟨value, hmem, hvalue⟩ := h.symm.exists_mem hmem'
        obtain ⟨hkey, hscope⟩ := exists_captureList_iff.mp ⟨listed, hlisted⟩ _ hmem
        refine ⟨hkey, ?_⟩
        rw [← exists_captureScope_iff place] at hscope ⊢
        rwa [captureScope_reordered hvalue]
      refine map_eq_ok.mpr ⟨listed', hlisted', (Capture.sort_congr ?_).symm⟩
      have hperm := h.map_perm (f := captureOf) fun key _ _ hvalue => by
        rw [captureOf, captureOf, captureScope_reordered hvalue]
      rw [captureList_filterMap hlisted, captureList_filterMap hlisted']
      simpa [List.filterMap_map] using hperm.filterMap id

theorem leaf_reordered (h : Reordered (.obj members) (.obj members')) {id : Nat} {r : MatchRule M}
    (hr : leaf e place id (Declaration.matchFields members) = .ok r) :
    leaf e place id (Declaration.matchFields members') = .ok r := by
  simp only [leaf, bind_eq_ok, Declaration.matchFields] at hr ⊢
  obtain ⟨source, hsource, matcher, hmatcher, scope?, hscope, captures, hcaptures, heq⟩ := hr
  rw [sourceOf_reordered (h.field _)] at hsource
  rw [scope_reordered (h.field _)] at hscope
  exact ⟨source, hsource, matcher, hmatcher, scope?, hscope, captures,
    captures_reordered (h.field _) hcaptures, heq⟩

theorem given_reordered (h : Reordered (.obj members) (.obj members')) (key : String) :
    Reordered ((members.get? key).getD (field members "captures"))
      ((members'.get? key).getD (field members' "captures")) := by
  have hvalue := h.get? key
  generalize members.get? key = value at hvalue
  generalize members'.get? key = value' at hvalue
  cases hvalue with
  | some hvalue => exact hvalue
  | none => exact h.field _

theorem endGiven_reordered (h : Reordered j j') {ending : Json}
    (hj : endGiven place j = .ok ending) :
    endGiven place j' = .ok j' ∧ j = ending := by
  obtain ⟨rfl, hgiven⟩ := endGiven_eq_ok.mp hj
  refine ⟨endGiven_eq_ok.mpr ⟨rfl, ?_⟩, rfl⟩
  rintro rfl
  cases h with
  | atom => exact hgiven rfl

theorem region_reordered (h : Reordered (.obj members) (.obj members')) {id : Nat}
    {r : RegionRule M} (hr : region e place id (Declaration.regionFields members) = .ok r) :
    region e place id (Declaration.regionFields members') = .ok r := by
  simp only [region, bind_eq_ok, Declaration.regionFields] at hr ⊢
  obtain ⟨ending, hending, beginSource, hbegin, opener, hopener, endSource, hend, closer?, hcloser,
    scope?, hscope, contentScope?, hcontent, beginCaptures, hbeginCaptures, endCaptures,
    hendCaptures, heq⟩ := hr
  obtain ⟨hending', rfl⟩ := endGiven_reordered (h.field _) hending
  rw [sourceOf_reordered (h.field _)] at hbegin hend
  rw [scope_reordered (h.field _)] at hscope hcontent
  rw [(h.field "applyEndPatternLast").isTrue_eq] at heq
  exact ⟨_, hending', beginSource, hbegin, opener, hopener, endSource, hend, closer?, hcloser,
    scope?, hscope, contentScope?, hcontent, beginCaptures,
    captures_reordered (given_reordered h _) hbeginCaptures, endCaptures,
    captures_reordered (given_reordered h _) hendCaptures, heq⟩

end Draft

namespace Declaration

open Json

variable {e : Engine M} {target? : String → Option ContextName} {j j' : Json}
  {members members' : Members}

def Lists (e : Engine M) (target? : String → Option ContextName)
    (patterns? : Option (List Declaration)) (forms : List (Form M)) : Prop :=
  ∃ declared, patterns? = some declared ∧ formsAmong e target? declared = some forms

theorem classify_reordered (h : Reordered (.obj members) (.obj members'))
    {patterns? patterns?' : Option (List Declaration)} {forms : List (Form M)}
    (hpatterns : ∀ forms, Lists e target? patterns? forms → Lists e target? patterns?' forms)
    (hforms : (classify members patterns?).forms e target? = some forms) :
    (classify members' patterns?').forms e target? = some forms := by
  unfold classify at hforms ⊢
  have hinclude := h.get? "include"
  generalize members.get? "include" = value at hinclude hforms
  generalize members'.get? "include" = value' at hinclude
  cases hinclude with
  | some hvalue =>
      simp only [Declaration.forms] at hforms ⊢
      rwa [← hvalue.str?_eq]
  | none =>
      simp only [← h.has_eq] at hforms ⊢
      split at hforms
      · rename_i hmatch
        rw [if_pos hmatch]
        simp only [Declaration.forms, Option.bind_eq_bind, Option.bind_eq_some_iff,
          toOption_eq_some] at hforms ⊢
        obtain ⟨r, hr, heq⟩ := hforms
        exact ⟨r, Draft.leaf_reordered h hr, heq⟩
      · rename_i hmatch
        rw [if_neg hmatch]
        split at hforms
        · rename_i hbegin
          rw [if_pos hbegin]
          rcases patterns? with _ | declared
          · cases hforms
          · simp only [Declaration.forms, Option.bind_eq_bind, Option.bind_eq_some_iff,
              toOption_eq_some] at hforms
            obtain ⟨r, hr, inner, hinner, heq⟩ := hforms
            obtain ⟨declared', rfl, hinner'⟩ := hpatterns inner ⟨declared, rfl, hinner⟩
            simp only [Declaration.forms, Option.bind_eq_bind, Option.bind_eq_some_iff,
              toOption_eq_some]
            exact ⟨r, Draft.region_reordered h hr, inner, hinner', heq⟩
        · rename_i hbegin
          rw [if_neg hbegin]
          split at hforms
          · rename_i hgroup
            rw [if_pos hgroup]
            rcases patterns? with _ | declared
            · cases hforms
            · obtain ⟨declared', rfl, hforms'⟩ := hpatterns forms ⟨declared, rfl, hforms⟩
              exact hforms'
          · cases hforms

theorem formsAmong_map_congr {items items' : List Json} (hlength : items.length = items'.length)
    (h : ∀ (i : Nat) a a', items[i]? = some a → items'[i]? = some a' →
      ∀ forms, (ofJson a).forms e target? = some forms → (ofJson a').forms e target? = some forms)
    {forms : List (Form M)} (hforms : formsAmong e target? (items.map ofJson) = some forms) :
    formsAmong e target? (items'.map ofJson) = some forms := by
  induction items generalizing items' forms with
  | nil =>
      obtain rfl := List.length_eq_zero_iff.mp hlength.symm
      exact hforms
  | cons a rest ih =>
      rcases items' with _ | ⟨a', rest'⟩
      · cases hlength
      · simp only [List.map_cons, formsAmong, Option.bind_eq_bind,
          Option.bind_eq_some_iff] at hforms ⊢
        obtain ⟨first, hfirst, more, hmore, heq⟩ := hforms
        refine ⟨first, h 0 a a' rfl rfl first hfirst, more, ?_, heq⟩
        exact ih (Nat.succ.inj hlength) (fun i b b' hb hb' => h (i + 1) b b' hb hb') hmore

theorem forms_reordered (h : Reordered j j') :
    (∀ forms, (ofJson j).forms e target? = some forms →
      (ofJson j').forms e target? = some forms) ∧
    ∀ forms, Lists e target? (listOf j) forms → Lists e target? (listOf j') forms := by
  induction h with
  | atom => exact ⟨fun _ h => h, fun _ h => h⟩
  | @arr items items' hlength _ ih =>
      constructor
      · intro forms hforms
        cases hforms
      · rintro forms ⟨declared, heq, hforms⟩
        rw [listOf, ofItems_eq] at heq
        cases heq
        refine ⟨items'.map ofJson, by rw [listOf, ofItems_eq], ?_⟩
        exact formsAmong_map_congr hlength (fun i a a' ha ha' => (ih i a a' ha ha').1) hforms
  | @obj members members' hnodup hkeys hvalues ih =>
      have h : Reordered (.obj members) (.obj members') := .obj hnodup hkeys hvalues
      refine ⟨fun forms hforms => ?_, ?_⟩
      · rw [ofJson] at hforms ⊢
        refine classify_reordered h (fun forms => ?_) hforms
        rw [patternsIn_eq, patternsIn_eq]
        have hpatterns := h.get? "patterns"
        unfold field
        rcases hvalue : members.get? "patterns" with _ | value
        · rcases hvalue' : members'.get? "patterns" with _ | value'
          · exact fun h => h
          · rw [hvalue, hvalue'] at hpatterns
            cases hpatterns
        · rcases hvalue' : members'.get? "patterns" with _ | value'
          · rw [hvalue, hvalue'] at hpatterns
            cases hpatterns
          · exact (ih "patterns" value value' ((Members.get?_eq_some_iff h.keys_nodup).mp hvalue)
              ((Members.get?_eq_some_iff h.symm.keys_nodup).mp hvalue')).2 forms
      · rintro forms ⟨declared, heq, -⟩
        cases heq

end Declaration

namespace GrammarDocument

open Json

variable {e : Engine M} {refers : String → Prop} {j j' : Json} {members members' : Members}

theorem isRule_reordered (h : Reordered j j') (hj : IsRule e refers j) : IsRule e refers j' := by
  classical
  have hrefers : ∀ reference, refers reference ↔
      ∃ c, (if refers reference then some ContextName.root else none) = some c := by
    intro reference
    by_cases hreference : refers reference
    · simp [hreference]
    · simp [hreference]
  obtain ⟨forms, hforms⟩ := (Declaration.exists_forms_iff hrefers j).mpr hj
  apply (Declaration.exists_forms_iff hrefers j').mp
  exact ⟨forms, (Declaration.forms_reordered h).1 _ hforms⟩

theorem isPatterns_reordered (h : Reordered j j') (hj : IsPatterns e refers j) :
    IsPatterns e refers j' := by
  cases h with
  | atom => exact hj
  | arr hlength hitems =>
      cases hj with
      | list hj =>
          refine .list fun item' hitem' => ?_
          obtain ⟨item, hitem, hvalue⟩ := (Reordered.arr hlength hitems).symm.exists_item hitem'
          exact isRule_reordered hvalue.symm (hj item hitem)
  | obj => cases hj

theorem isRuleEntry_reordered (h : Reordered (.obj members) (.obj members')) :
    isRuleEntry members = isRuleEntry members' := by
  simp only [isRuleEntry, h.has_eq]

theorem isEntry_reordered (h : Reordered j j') (hj : IsEntry e refers j) : IsEntry e refers j' := by
  cases hj with
  | rule hentry hrule =>
      obtain ⟨members', rfl⟩ := h.exists_obj
      exact .rule (isRuleEntry_reordered h ▸ hentry) (isRule_reordered h hrule)
  | patterns hentry hpatterns =>
      obtain ⟨members', rfl⟩ := h.exists_obj
      exact .patterns (isRuleEntry_reordered h ▸ hentry)
        (isPatterns_reordered (h.field _) hpatterns)

theorem repositoryOf_reordered (h : Reordered (.obj members) (.obj members')) :
    Reordered (.obj (repositoryOf members)) (.obj (repositoryOf members')) := by
  have hrepository := h.field "repository"
  unfold repositoryOf
  generalize field members "repository" = value at hrepository
  generalize field members' "repository" = value' at hrepository
  have hempty : Reordered (.obj []) (.obj []) := .obj List.nodup_nil .nil (by simp)
  cases hrepository with
  | atom hatom =>
      cases value with
      | obj _ => cases hatom
      | _ => exact hempty
  | arr => exact hempty
  | obj hnodup hkeys hvalues => exact .obj hnodup hkeys hvalues

theorem names_reordered {repository repository' : Members}
    (h : Reordered (.obj repository) (.obj repository')) {reference : String}
    {target : ContextName} (hnames : Names repository reference target) :
    Names repository' reference target := by
  cases hnames with
  | self => exact .self
  | base => exact .base
  | entry hhas => exact .entry (h.has_eq _ ▸ hhas)

theorem names_reordered_iff {repository repository' : Members}
    (h : Reordered (.obj repository) (.obj repository')) {reference : String}
    {target : ContextName} :
    Names repository reference target ↔ Names repository' reference target :=
  ⟨names_reordered h, names_reordered h.symm⟩

theorem refers_reordered {repository repository' : Members}
    (h : Reordered (.obj repository) (.obj repository')) :
    Refers repository = Refers repository' := by
  funext reference
  exact propext (exists_congr fun _ => names_reordered_iff h)

theorem patternItems_reordered (h : Reordered j j') {item : Json}
    (hitem : item ∈ patternItems j) :
    ∃ item' ∈ patternItems j', Reordered item item' := by
  cases h with
  | atom h =>
      cases j with
      | arr _ => cases h
      | _ => cases hitem
  | arr hlength hvalues => exact (Reordered.arr hlength hvalues).exists_item hitem
  | obj => cases hitem

theorem hasInclude_reordered {reference : String} (h : Reordered j j')
    (hinclude : HasInclude reference j) : HasInclude reference j' := by
  induction hinclude generalizing j' with
  | here hinclude =>
      obtain ⟨members', rfl⟩ := h.exists_obj
      exact .here (h.get?_str hinclude)
  | @group members found item hnone hmatch hbegin hfound hitem _ ih =>
      obtain ⟨members', rfl⟩ := h.exists_obj
      have hmem : item ∈ patternItems (field members "patterns") := by
        rw [hfound]
        exact hitem
      obtain ⟨item', hitem', hvalue⟩ := patternItems_reordered (h.field "patterns") hmem
      rcases hvalue' : field members' "patterns" with _ | _ | _ | _ | _ | found' | _
      case arr =>
        rw [hvalue'] at hitem'
        exact .group (h.has_eq _ ▸ hnone) (h.has_eq _ ▸ hmatch) (h.has_eq _ ▸ hbegin) hvalue'
          hitem' (ih hvalue)
      all_goals
        rw [hvalue'] at hitem'
        cases hitem'

theorem entryRules_reordered (h : Reordered j j') {item : Json} (hitem : item ∈ entryRules j) :
    ∃ item' ∈ entryRules j', Reordered item item' := by
  cases h with
  | atom h =>
      cases j with
      | obj _ => cases h
      | _ => cases hitem
  | arr => cases hitem
  | @obj members members' hnodup hkeys hvalues =>
      have h : Reordered (.obj members) (.obj members') := .obj hnodup hkeys hvalues
      rw [entryRules] at hitem ⊢
      rw [← isRuleEntry_reordered h]
      split at hitem
      · rename_i hentry
        rw [if_pos hentry]
        rw [List.mem_singleton.mp hitem]
        exact ⟨_, List.mem_singleton_self _, h⟩
      · rename_i hentry
        rw [if_neg hentry]
        exact patternItems_reordered (h.field _) hitem

theorem listed_reordered (h : Reordered (.obj members) (.obj members')) {name : ContextName}
    {item : Json} (hitem : item ∈ listed members name) :
    ∃ item' ∈ listed members' name, Reordered item item' := by
  cases name with
  | root => exact patternItems_reordered (h.field _) hitem
  | entry key =>
      have hentry := (repositoryOf_reordered h).get? key
      simp only [listed] at hitem ⊢
      generalize (repositoryOf members).get? key = value at hentry hitem
      generalize (repositoryOf members').get? key = value' at hentry ⊢
      cases hentry with
      | some hvalue => exact entryRules_reordered hvalue hitem
      | none => cases hitem
  | inside n => cases hitem

theorem includes_reordered (h : Reordered (.obj members) (.obj members'))
    {source target : ContextName} (hincludes : Includes members source target) :
    Includes members' source target := by
  obtain ⟨item, hitem, reference, hinclude, hnames⟩ := hincludes
  obtain ⟨item', hitem', hvalue⟩ := listed_reordered h hitem
  exact ⟨item', hitem', reference, hasInclude_reordered hvalue hinclude,
    names_reordered (repositoryOf_reordered h) hnames⟩

theorem wellFormed_reordered (h : Reordered (.obj members) (.obj members'))
    (hmembers : WellFormed e members) : WellFormed e members' := by
  have hrepository := repositoryOf_reordered h
  have hrefers := refers_reordered hrepository
  refine ⟨?_, ?_, ?_, ?_, ?_⟩
  · obtain ⟨name, hname, hne⟩ := hmembers.scopeName
    exact ⟨name, h.get?_str hname, hne⟩
  · intro htrue
    rw [← (h.field _).isTrue_eq] at htrue
    obtain ⟨entries, hentries⟩ := hmembers.repository htrue
    have hvalue := h.field "repository"
    rw [hentries] at hvalue
    exact hvalue.exists_obj
  · rw [← hrefers]
    exact isPatterns_reordered (h.field _) hmembers.patterns
  · rintro ⟨key, value'⟩ hmem'
    obtain ⟨value, hmem, hvalue⟩ := hrepository.symm.exists_mem hmem'
    rw [← hrefers]
    exact isEntry_reordered hvalue.symm (hmembers.entries _ hmem)
  · intro name hcycle
    exact hmembers.acyclic name
      (Relation.TransGen.mono (fun _ _ hincludes => includes_reordered h.symm hincludes) _ _ hcycle)

end GrammarDocument

namespace Blueprint

open Json GrammarDocument
open Declaration (Lists formsAmong patternsIn)

variable {e : Engine M} {target? : String → Option ContextName} {members members' : Members}
  {b b' : Blueprint}

theorem target?_reordered (h : Reordered (.obj members) (.obj members'))
    (hb : ofJson (.obj members) = .ok b) (hb' : ofJson (.obj members') = .ok b') :
    b'.target? = b.target? := by
  funext reference
  rw [Option.ext_iff]
  intro target
  rw [target?_eq_some hb', target?_eq_some hb]
  exact names_reordered_iff (repositoryOf_reordered h.symm)

theorem title_reordered (h : Reordered (.obj members) (.obj members'))
    (hb : ofJson (.obj members) = .ok b) (hb' : ofJson (.obj members') = .ok b') :
    b'.scopeName = b.scopeName ∧ b'.name = b.name := by
  obtain ⟨name, _, _, hname, -, -, rfl⟩ := ofJson_eq_ok.mp hb
  obtain ⟨name', _, _, hname', -, -, rfl⟩ := ofJson_eq_ok.mp hb'
  obtain ⟨hvalue, -⟩ := scopeNameOf_eq_ok.mp hname
  obtain ⟨hvalue', -⟩ := scopeNameOf_eq_ok.mp hname'
  have hsame := h.get?_str hvalue
  rw [hvalue'] at hsame
  cases hsame
  exact ⟨rfl, (h.field "name").symm.str?_eq⟩

theorem patternsIn_reordered (h : Reordered (.obj members) (.obj members')) {forms : List (Form M)}
    (hforms : Lists e target? (patternsIn members) forms) :
    Lists e target? (patternsIn members') forms := by
  rw [Declaration.patternsIn_eq] at hforms ⊢
  exact (Declaration.forms_reordered (h.field _)).2 forms hforms

def entryForms (e : Engine M) (target? : String → Option ContextName) :
    Json → Option (List (Form M))
  | .obj members => (entryMembers members).bind (formsAmong e target?)
  | _ => none

theorem entryForms_reordered {j j' : Json} (h : Reordered j j') {forms : List (Form M)}
    (hforms : entryForms e target? j = some forms) : entryForms e target? j' = some forms := by
  cases j with
  | obj members =>
      obtain ⟨members', rfl⟩ := h.exists_obj
      obtain ⟨declared, hdeclared, hforms⟩ := Option.bind_eq_some_iff.mp hforms
      simp only [entryForms, entryMembers, isRuleEntry_reordered h] at hdeclared ⊢
      split at hdeclared
      · rename_i hentry
        cases hdeclared
        rw [if_pos hentry, Option.bind_some]
        simp only [formsAmong, Option.bind_eq_bind, Option.bind_eq_some_iff] at hforms ⊢
        obtain ⟨first, hfirst, more, hmore, heq⟩ := hforms
        exact ⟨first, (Declaration.forms_reordered h).1 first hfirst, more, hmore, heq⟩
      · rename_i hentry
        rw [if_neg hentry]
        obtain ⟨declared', hdeclared', hforms'⟩ :=
          patternsIn_reordered h ⟨declared, hdeclared, hforms⟩
        rw [hdeclared', Option.bind_some, hforms']
  | _ => cases hforms

theorem forms_of_entries {repository : Members} {cs : List DeclaredContext}
    {forms : List (ContextName × List (Form M))}
    (hentries : List.Forall₂ (fun m c => entry m.1 m.2 = .ok c) repository cs)
    (hforms : List.Forall₂ (Draft.Sown e target?) cs forms) :
    forms.map (fun f => (f.1, some f.2)) =
      repository.map fun m => (.entry m.1, entryForms e target? m.2) := by
  induction hentries generalizing forms with
  | nil =>
      cases hforms
      rfl
  | @cons m c _ _ hc _ ih =>
      obtain ⟨members, declared, hm, hdeclared, rfl⟩ := entry_eq_ok.mp hc
      cases hforms with
      | @cons _ f _ _ hsown hrest =>
          have hformed : entryForms e target? m.2 = some f.2 := by
            rw [hm, entryForms, hdeclared, Option.bind_some, hsown.forms]
          rw [List.map_cons, List.map_cons, ih hrest, hformed, ← hsown.name]

theorem formed_reordered (h : Reordered (.obj members) (.obj members'))
    (hb : ofJson (.obj members) = .ok b) (hb' : ofJson (.obj members') = .ok b')
    {forms : List (ContextName × List (Form M))} (hforms : b.Formed e forms) :
    ∃ forms', b'.Formed e forms' ∧ forms'.Perm forms := by
  have hrefers := refers_reordered (repositoryOf_reordered h)
  obtain ⟨hpatterns, hentries⟩ := (allFormed_iff hb).mp (exists_formed_iff.mp ⟨forms, hforms⟩)
  obtain ⟨forms', hforms'⟩ := exists_formed_iff.mpr ((allFormed_iff hb').mpr (by
    rw [← hrefers]
    refine ⟨isPatterns_reordered (h.field _) hpatterns, ?_⟩
    rintro ⟨key, value'⟩ hmem'
    obtain ⟨value, hmem, hvalue⟩ := (repositoryOf_reordered h).symm.exists_mem hmem'
    exact isEntry_reordered hvalue.symm (hentries _ hmem)))
  refine ⟨forms', hforms', ?_⟩
  unfold Formed at hforms hforms'
  rw [target?_reordered h hb hb'] at hforms'
  generalize b.target? = target? at hforms hforms'
  obtain ⟨_, root, cs, -, hroot, hcs, rfl⟩ := ofJson_eq_ok.mp hb
  obtain ⟨_, root', cs', -, hroot', hcs', rfl⟩ := ofJson_eq_ok.mp hb'
  have hread := entries_eq_ok.mp (repository_eq_ok.mp hcs).2
  have hread' := entries_eq_ok.mp (repository_eq_ok.mp hcs').2
  -- the root context comes first in both
  rcases forms with _ | ⟨f, rest⟩
  · cases hforms
  rcases forms' with _ | ⟨f', rest'⟩
  · cases hforms'
  obtain ⟨hf, hrest⟩ := List.forall₂_cons.mp hforms
  obtain ⟨hf', hrest'⟩ := List.forall₂_cons.mp hforms'
  have hsame : f' = f := by
    obtain ⟨_, hdeclared, hroot⟩ := patternsIn_reordered h ⟨root, hroot, hf.forms⟩
    rw [hroot'] at hdeclared
    cases hdeclared
    exact Prod.ext (hf'.name.symm.trans hf.name) (Option.some.inj (hf'.forms.symm.trans hroot))
  have hperm : (rest'.map fun f => (f.1, some f.2)).Perm (rest.map fun f => (f.1, some f.2)) := by
    rw [forms_of_entries hread hrest, forms_of_entries hread' hrest']
    refine (repositoryOf_reordered h).symm.map_perm
      (f := fun key value => (ContextName.entry key, entryForms e target? value)) ?_
    intro key value value' hvalue
    have heq : entryForms e target? value = entryForms e target? value' := by
      rw [Option.ext_iff]
      intro forms
      exact ⟨entryForms_reordered hvalue, entryForms_reordered hvalue.symm⟩
    rw [heq]
  have hback := hperm.map fun f : ContextName × Option (List (Form M)) => (f.1, f.2.getD [])
  rw [List.map_map, List.map_map] at hback
  rw [hsame]
  exact .cons f (by simpa [Function.comp_def] using hback)

end Blueprint

namespace Grammar

open Json GrammarDocument

variable {e : Engine M} {members members' : Members} {g g' : Grammar M}

/-- The grammars of reordered documents differ in the numbers of the rules and in the order of the
contexts. -/
theorem renumbered_of_reordered (h : Reordered (.obj members) (.obj members'))
    (hg : ofJson e (.obj members) = .ok g) (hg' : ofJson e (.obj members') = .ok g') :
    ∃ φ, Renumbered φ g g' ∧ Embeds φ g g' ∧ g'.regionCount = g.regionCount := by
  have hrepository := repositoryOf_reordered h
  obtain ⟨b, forms, laid, hb, hbuilt⟩ := exists_built hrepository.keys_nodup hg
  obtain ⟨b', forms', laid', hb', hbuilt'⟩ := exists_built hrepository.symm.keys_nodup hg'
  obtain ⟨hscopeName, hname⟩ := Blueprint.title_reordered h hb hb'
  have hperm : forms'.Perm forms := by
    obtain ⟨found, hfound, hperm⟩ := Blueprint.formed_reordered h hb hb' hbuilt.formed
    rwa [hbuilt'.formed.unique hfound]
  exact ⟨_, hbuilt.renumbered hbuilt' hperm hscopeName hname,
    hbuilt.embeds hbuilt' hperm.symm.subset hscopeName, hbuilt.regionCount_eq hbuilt' hperm⟩

end Grammar

end LineScope
