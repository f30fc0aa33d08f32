import LineScope.Proofs.Grammar.Renumbering

/-!
Documents with more entries in the repository. What was declared before has the same forms, since
its references find what they found; so the grammar has all of the rules that it had, and others
among them.
-/

namespace LineScope

open Json (Members)
open Declaration (field)

variable {M : Type} {e : Engine M}

namespace Declaration

variable {target? target?' : String → Option ContextName}

mutual

theorem forms_mono (hmono : ∀ reference target, target? reference = some target →
      target?' reference = some target) :
    (declared : Declaration) → {forms : List (Form M)} →
      declared.forms e target? = some forms → declared.forms e target?' = some forms
  | .malformed, _, h => by cases h
  | .empty, _, h => by cases h
  | .include reference, forms, h => by
      simp only [Declaration.forms, Option.bind_eq_bind, Option.bind_eq_some_iff] at h ⊢
      obtain ⟨name, hname, target, htarget, heq⟩ := h
      exact ⟨name, hname, target, hmono name target htarget, heq⟩
  | .leaf _, _, h => h
  | .region _ none, _, h => by cases h
  | .region fields (some inner), forms, h => by
      simp only [Declaration.forms, Option.bind_eq_bind, Option.bind_eq_some_iff] at h ⊢
      obtain ⟨r, hr, innerForms, hinner, heq⟩ := h
      exact ⟨r, hr, innerForms, formsAmong_mono hmono inner hinner, heq⟩
  | .group none, _, h => by cases h
  | .group (some members), _, h => formsAmong_mono hmono members h

theorem formsAmong_mono (hmono : ∀ reference target, target? reference = some target →
      target?' reference = some target) :
    (members : List Declaration) → {forms : List (Form M)} →
      formsAmong e target? members = some forms → formsAmong e target?' members = some forms
  | [], _, h => h
  | first :: rest, forms, h => by
      simp only [Declaration.formsAmong, Option.bind_eq_bind, Option.bind_eq_some_iff] at h ⊢
      obtain ⟨firstForms, hfirst, more, hrest, heq⟩ := h
      exact ⟨firstForms, forms_mono hmono first hfirst, more, formsAmong_mono hmono rest hrest, heq⟩

end

end Declaration

namespace GrammarDocument

/-- The second document is the first with one more entry in its repository, at any place, under a
key of its own. -/
structure EntryAdded (members members' : Members) : Prop where
  others : ∀ key, key ≠ "repository" → members'.get? key = members.get? key
  repository : ∃ before after key value, repositoryOf members = before ++ after ∧
    members'.get? "repository" = some (.obj (before ++ (key, value) :: after))
  distinct : ((repositoryOf members').map Prod.fst).Nodup

namespace EntryAdded

variable {members members' : Members}

theorem field_eq (h : EntryAdded members members') {key : String} (hkey : key ≠ "repository") :
    field members' key = field members key := by
  rw [field, field, h.others key hkey]

theorem sublist (h : EntryAdded members members') :
    (repositoryOf members).Sublist (repositoryOf members') := by
  obtain ⟨before, after, key, value, hrepository, hvalue⟩ := h.repository
  have hrepository' : repositoryOf members' = before ++ (key, value) :: after := by
    rw [repositoryOf, field, hvalue]
    rfl
  rw [hrepository, hrepository']
  exact (List.Sublist.refl before).append (List.sublist_cons_self _ after)

theorem distinct_before (h : EntryAdded members members') :
    ((repositoryOf members).map Prod.fst).Nodup :=
  h.distinct.sublist (h.sublist.map Prod.fst)

theorem names (h : EntryAdded members members') {reference : String} {target : ContextName}
    (hnames : Names (repositoryOf members) reference target) :
    Names (repositoryOf members') reference target := by
  cases hnames with
  | self => exact .self
  | base => exact .base
  | entry hhas =>
      refine .entry ?_
      simp only [Members.has, List.any_eq_true] at hhas ⊢
      obtain ⟨m, hm, hkey⟩ := hhas
      exact ⟨m, h.sublist.subset hm, hkey⟩

end EntryAdded

end GrammarDocument

namespace Blueprint

open GrammarDocument

variable {members members' : Members} {b b' : Blueprint}

theorem target?_added (h : EntryAdded members members') (hb : ofJson (.obj members) = .ok b)
    (hb' : ofJson (.obj members') = .ok b') {reference : String} {target : ContextName}
    (htarget : b.target? reference = some target) : b'.target? reference = some target :=
  (target?_eq_some hb').mpr (h.names ((target?_eq_some hb).mp htarget))

theorem scopeName_added (h : EntryAdded members members') (hb : ofJson (.obj members) = .ok b)
    (hb' : ofJson (.obj members') = .ok b') : b'.scopeName = b.scopeName := by
  obtain ⟨name, _, _, hname, -, -, rfl⟩ := ofJson_eq_ok.mp hb
  obtain ⟨name', _, _, hname', -, -, rfl⟩ := ofJson_eq_ok.mp hb'
  obtain ⟨hvalue, -⟩ := scopeNameOf_eq_ok.mp hname
  obtain ⟨hvalue', -⟩ := scopeNameOf_eq_ok.mp hname'
  rw [h.others "scopeName" (by decide), hvalue] at hvalue'
  exact (Json.str.inj (Option.some.inj hvalue')).symm

theorem contexts_added (h : EntryAdded members members') (hb : ofJson (.obj members) = .ok b)
    (hb' : ofJson (.obj members') = .ok b') : b.contexts ⊆ b'.contexts := by
  obtain ⟨_, root, cs, -, hroot, hcs, rfl⟩ := ofJson_eq_ok.mp hb
  obtain ⟨_, root', cs', -, hroot', hcs', rfl⟩ := ofJson_eq_ok.mp hb'
  have hread := entries_eq_ok.mp (repository_eq_ok.mp hcs).2
  have hread' := entries_eq_ok.mp (repository_eq_ok.mp hcs').2
  intro c hc
  rcases List.mem_cons.mp hc with rfl | hc
  · rw [Declaration.patternsIn_eq, h.field_eq (by decide), ← Declaration.patternsIn_eq,
      hroot] at hroot'
    rw [Option.some.inj hroot']
    exact List.mem_cons_self ..
  · obtain ⟨m, hm, hentry⟩ := exists_of_mem_forall₂ hread hc
    obtain ⟨c', hc', hentry'⟩ := exists_of_mem_forall₂ hread'.flip (h.sublist.subset hm)
    obtain rfl : c = c' := Except.ok.inj (hentry.symm.trans hentry')
    exact List.mem_cons_of_mem _ hc'

theorem formed_added (h : EntryAdded members members') (hb : ofJson (.obj members) = .ok b)
    (hb' : ofJson (.obj members') = .ok b') {forms forms' : List (ContextName × List (Form M))}
    (hforms : b.Formed e forms) (hforms' : b'.Formed e forms') : forms ⊆ forms' := by
  intro f hf
  obtain ⟨c, hc, hsown⟩ := exists_of_mem_forall₂ hforms hf
  obtain ⟨f', hf', hsown'⟩ :=
    exists_of_mem_forall₂ (List.Forall₂.flip hforms') (contexts_added h hb hb' hc)
  have hsame :=
    Declaration.formsAmong_mono (fun _ _ => target?_added h hb hb') c.members hsown.forms
  obtain rfl : f = f' := by
    refine Prod.ext (hsown.name.symm.trans hsown'.name) ?_
    exact Option.some.inj (hsame.symm.trans hsown'.forms)
  exact hf'

end Blueprint

namespace Grammar

open GrammarDocument

variable {members members' : Members} {g g' : Grammar M}

theorem embeds_of_entryAdded (h : EntryAdded members members')
    (hg : ofJson e (.obj members) = .ok g) (hg' : ofJson e (.obj members') = .ok g') :
    ∃ φ, Embeds φ g g' ∧ g.regionCount ≤ g'.regionCount := by
  obtain ⟨b, forms, laid, hb, hbuilt⟩ := exists_built h.distinct_before hg
  obtain ⟨b', forms', laid', hb', hbuilt'⟩ := exists_built h.distinct hg'
  have hsub := Blueprint.formed_added h hb hb' hbuilt.formed hbuilt'.formed
  exact ⟨_, hbuilt.embeds hbuilt' hsub (Blueprint.scopeName_added h hb hb'),
    hbuilt.regionCount_le hbuilt' hsub⟩

end Grammar

end LineScope
