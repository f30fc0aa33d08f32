import LineScope.Proofs.Grammar.Blueprint
import LineScope.Proofs.Grammar.Refusal

namespace LineScope

variable {M : Type}

namespace Grammar

open GrammarDocument

variable {e : Engine M} {document : Json}

theorem exists_ofJson_iff : (∃ g, ofJson e document = .ok g) ↔
    ∃ members, document = .obj members ∧ WellFormed e members := by
  have hcompiled : (∃ g, ofJson e document = .ok g) ↔
      ∃ b, Blueprint.ofJson document = .ok b ∧ ∃ drafts rules,
        b.draft e = .ok (drafts, rules) ∧ ∃ contexts, Expansion.all drafts = .ok contexts := by
    simp only [ofJson, bind_eq_ok, Prod.exists]
    constructor
    · rintro ⟨g, b, hb, drafts, rules, hdraft, contexts, hcontexts, -⟩
      exact ⟨b, hb, drafts, rules, hdraft, contexts, hcontexts⟩
    · rintro ⟨b, hb, drafts, rules, hdraft, contexts, hcontexts⟩
      exact ⟨_, b, hb, drafts, rules, hdraft, contexts, hcontexts, rfl⟩
  rw [hcompiled]
  constructor
  · rintro ⟨b, hb, drafts, rules, hdraft, hcontexts⟩
    cases document with
    | obj members =>
        obtain ⟨forms, laid, hforms, hlaid, rfl, rfl⟩ := Blueprint.exists_laid hdraft
        obtain ⟨hname, hrepository, hpatterns, hentries⟩ := Blueprint.exists_allFormed_iff.mp
          ⟨b, hb, Blueprint.exists_formed_iff.mp ⟨forms, hforms⟩⟩
        exact ⟨members, rfl, hname, hrepository, hpatterns, hentries,
          (Blueprint.acyclic_drafts_iff hb hforms hlaid).mp (Expansion.exists_all_iff.mp hcontexts)⟩
    | _ => cases hb
  · rintro ⟨members, rfl, hname, hrepository, hpatterns, hentries, acyclic⟩
    obtain ⟨b, hb, hformed⟩ :=
      Blueprint.exists_allFormed_iff.mpr ⟨hname, hrepository, hpatterns, hentries⟩
    obtain ⟨forms, hforms⟩ := Blueprint.exists_formed_iff.mpr hformed
    obtain ⟨laid, hlaid, hdraft⟩ := hforms.draft_eq
    exact ⟨b, hb, _, _, hdraft, Expansion.exists_all_iff.mpr
      ((Blueprint.acyclic_drafts_iff hb hforms hlaid).mpr acyclic)⟩

theorem ofJson_refuses (decides : e.Decides) : Refuses (ofJson e document) := by
  refine (Blueprint.ofJson_refuses document).bind fun b => ?_
  refine (Draft.contexts_refuses decides _ _).bind fun o => ?_
  exact (Expansion.contexts_refuses _ _).bind fun _ => refuses_ok _

/-- The documents that are accepted are the well-formed ones, and all others are refused as no
grammars; no include leads to a context that the expansion does not know. -/
theorem ofJson_accepts (e : Engine M) (document : Json) (decides : e.Decides) :
    ((∃ g, ofJson e document = .ok g) ↔ ∃ members, document = .obj members ∧ WellFormed e members) ∧
      (∀ fault, ofJson e document = .error fault → fault.IsRefusal) ∧
      ∀ b drafts rules, Blueprint.ofJson document = .ok b → b.draft e = .ok (drafts, rules) →
        ∀ c ∈ drafts, ∀ target, .include target ∈ c.entries →
          target ∈ drafts.map DraftContext.name :=
  ⟨exists_ofJson_iff, ofJson_refuses decides,
    fun _ _ _ hb hdraft _ hc _ h => Blueprint.include_drafted hb hdraft hc h⟩

theorem ofJson_accepts_sample :
    sampleEngine.Decides ∧
      (∃ members, sampleSource = .obj members ∧ WellFormed sampleEngine members) ∧
      ∀ fault, ofJson sampleEngine sampleSource = .error fault → fault.IsRefusal := by
  have decides : sampleEngine.Decides := Engine.plain_decides _ _
  obtain ⟨hiff, hrefusal, -⟩ := ofJson_accepts sampleEngine sampleSource decides
  exact ⟨decides, hiff.mp ⟨sample, ofJson_sample⟩, hrefusal⟩

/-- An entry that includes itself is found even if nothing refers to it. -/
example : (ofJson sampleEngine (.obj [("scopeName", .str "text"), ("repository", .obj [
    ("a", .obj [("include", .str "#a")])])])).isOk = false := by decide +kernel

end Grammar

end LineScope
