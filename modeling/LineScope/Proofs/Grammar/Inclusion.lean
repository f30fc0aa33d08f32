import LineScope.Proofs.Grammar.Listing
import LineScope.Proofs.Grammar.Renumbering

/-!
What becomes of the includes of a document: the rules of the contexts that they name, or, where they
lead around in a circle, an error that tells it.
-/

namespace LineScope

variable {M : Type}

open Json (Members)
open GrammarDocument Expansion

/-- One context includes another in the document, told by their names. -/
def GrammarDocument.NamesInclude (members : Members) (source target : String) : Prop :=
  ∃ a b : ContextName, a.text = source ∧ b.text = target ∧ GrammarDocument.Includes members a b

namespace Blueprint

variable {e : Engine M} {members : Members} {b : Blueprint} {drafts : List (DraftContext M)}
  {rules : List (Rule M)}

theorem isCycle_names (hb : ofJson (.obj members) = .ok b)
    (hdraft : b.draft e = .ok (drafts, rules)) {chain : List ContextName}
    (h : IsCycle (Expansion.Includes drafts) chain) :
    IsCycle (NamesInclude members) (chain.map ContextName.text) := by
  obtain ⟨forms, laid, hforms, hlaid, rfl, rfl⟩ := exists_laid hdraft
  refine h.map (fun _ _ => ContextName.text_inj.mp) ?_
  rintro source target ⟨before, hbefore⟩ hincludes
  have hsource := includes_drafts_not_inside hb hforms hlaid hbefore
  exact ⟨source, target, rfl, rfl, (includes_drafts_iff hb hforms hlaid hsource).mp hincludes⟩

theorem nodup_names_draft (hb : ofJson (.obj members) = .ok b)
    (hdraft : b.draft e = .ok (drafts, rules))
    (hkeys : ((repositoryOf members).map Prod.fst).Nodup) :
    (drafts.map DraftContext.name).Nodup := by
  obtain ⟨forms, laid, hforms, hlaid, rfl, rfl⟩ := exists_laid hdraft
  rw [Layout.names_drafts]
  exact (hforms.layout hb hkeys hlaid).nodup_names

end Blueprint

theorem Listing.Complete.entriesOf_eq {e : Engine M} {members : Members} {b : Blueprint}
    {drafts : List (DraftContext M)} {rules : List (Rule M)}
    {listings : List (Listing e (repositoryOf members))} (h : Complete listings drafts rules)
    (hb : Blueprint.ofJson (.obj members) = .ok b) (hdraft : b.draft e = .ok (drafts, rules))
    (hkeys : ((repositoryOf members).map Prod.fst).Nodup) :
    ∀ l ∈ listings, entriesOf drafts l.name = l.entries := by
  intro l hl
  have hmem : l.draft ∈ drafts := h.drafts ▸ List.mem_map_of_mem hl
  exact entriesOf_of_mem (Blueprint.nodup_names_draft hb hdraft hkeys) hmem

theorem Listing.Complete.expanded {e : Engine M} {members : Members}
    {drafts : List (DraftContext M)} {rules : List (Rule M)}
    {listings : List (Listing e (repositoryOf members))} (h : Complete listings drafts rules)
    {found : List (Context M)} (hfound : all drafts = .ok found) :
    List.Forall₂ (fun l c => Expanded drafts l.name c) listings found := by
  have hnames : drafts.map DraftContext.name = listings.map Listing.name := by
    rw [h.drafts, List.map_map]
    rfl
  have hexpanded := all_expanded hfound
  rwa [hnames, List.forall₂_map_left_iff] at hexpanded

namespace Grammar

theorem flattens_of_context? {e : Engine M} {document : Json} {g : Grammar M} {b : Blueprint}
    {drafts : List (DraftContext M)} {rules : List (Rule M)} (compiled : ofJson e document = .ok g)
    (declared : Blueprint.ofJson document = .ok b) (drafted : b.draft e = .ok (drafts, rules))
    {name : ContextName} {c : Context M} (hc : g.context? name.text = some c) :
    Flattens drafts (entriesOf drafts name) c.rules := by
  obtain ⟨b', hb', h⟩ := bind_eq_ok.mp compiled
  cases declared.symm.trans hb'
  obtain ⟨_, hdraft, h⟩ := bind_eq_ok.mp h
  cases drafted.symm.trans hdraft
  obtain ⟨contexts, hcontexts, heq⟩ := bind_eq_ok.mp h
  cases heq
  obtain ⟨hmem, rfl⟩ := context?_eq_some hc
  obtain ⟨_, -, hnamed, hexpanded⟩ := exists_of_mem_forall₂ (all_expanded hcontexts) hmem
  rwa [← hnamed] at hexpanded

/-- Once a document is drafted, its contexts have the rules that their entries flatten to, if there
are such; otherwise a cycle of includes is reported. The expansion comes to one or the other. -/
theorem ofJson_expands {e : Engine M} {members : Members} {b : Blueprint}
    {drafts : List (DraftContext M)} {rules : List (Rule M)}
    (declared : Blueprint.ofJson (.obj members) = .ok b)
    (drafted : b.draft e = .ok (drafts, rules)) :
    ∃ listings : List (Listing e (repositoryOf members)),
      Listing.Complete listings drafts rules ∧
      (((repositoryOf members).map Prod.fst).Nodup →
        ∀ l ∈ listings, entriesOf drafts l.name = l.entries) ∧
      (∀ g, ofJson e (.obj members) = .ok g → g.rules = rules ∧
        List.Forall₂ (fun l c => c.name = l.name ∧
          ∀ found, Flattens drafts (entriesOf drafts l.name) found ↔ found = c.rules)
          listings g.contexts) ∧
      (∀ fault, ofJson e (.obj members) = .error fault →
        ∃ chain, fault = .cyclic chain ∧ IsCycle (NamesInclude members) chain) ∧
      ∀ name done o, Expands drafts [] (.context name) done o ↔
        context drafts (drafts.length + 1) [] name done = o := by
  obtain ⟨listings, hlistings⟩ := Blueprint.draft_listed declared drafted
  refine ⟨listings, hlistings, ?_, ?_, ?_, ?_⟩
  · exact hlistings.entriesOf_eq declared drafted
  · intro g hg
    obtain ⟨b', hb', hg⟩ := bind_eq_ok.mp hg
    cases declared.symm.trans hb'
    obtain ⟨o, ho, hg⟩ := bind_eq_ok.mp hg
    cases drafted.symm.trans ho
    obtain ⟨contexts, hcontexts, heq⟩ := bind_eq_ok.mp hg
    cases heq
    refine ⟨rfl, (hlistings.expanded hcontexts).imp fun l c h => ⟨h.named, fun found => ?_⟩⟩
    exact ⟨fun hfound => hfound.unique h.rules, fun heq => heq ▸ h.rules⟩
  · intro fault hfault
    obtain hb' | ⟨b', hb', hfault⟩ := bind_eq_error.mp hfault
    · cases declared.symm.trans hb'
    cases declared.symm.trans hb'
    obtain ho | ⟨o, ho, hfault⟩ := bind_eq_error.mp hfault
    · cases drafted.symm.trans ho
    cases drafted.symm.trans ho
    obtain hcontexts | ⟨contexts, -, hfault⟩ := bind_eq_error.mp hfault
    · obtain ⟨chain, rfl, hcycle⟩ := contexts_isCycle hcontexts
      exact ⟨_, rfl, Blueprint.isCycle_names declared drafted hcycle⟩
    · cases hfault
  · intro name done o
    have hexpands := start_expands drafts name done
    exact ⟨fun h => hexpands.unique h, fun heq => heq ▸ hexpands⟩

/-- Two entries of the repository that include each other, one of them in a group; the document
itself is not in the cycle. -/
def ring : Members := [
  ("scopeName", .str "text"),
  ("patterns", .arr [.obj [("include", .str "#list")]]),
  ("repository", .obj [
    ("list", .obj [("patterns", .arr [
      .obj [("match", .str "cat")],
      .obj [("patterns", .arr [.obj [("include", .str "#item")]])]])]),
    ("item", .obj [("include", .str "#list")])])]

theorem ofJson_expands_ring :
    ∃ b drafts rules, Blueprint.ofJson (.obj ring) = .ok b ∧
      b.draft sampleEngine = .ok (drafts, rules) ∧
      ofJson sampleEngine (.obj ring) = .error (.cyclic ["#list", "#item", "#list"]) ∧
      IsCycle (NamesInclude ring) ["#list", "#item", "#list"] := by
  have hdrafted : ((Blueprint.ofJson (.obj ring)).bind (Blueprint.draft sampleEngine)).isOk =
      true := by
    decide +kernel
  have hfault : (match ofJson sampleEngine (.obj ring) with
      | .error (.cyclic chain) => chain
      | _ => []) = ["#list", "#item", "#list"] := by
    decide +kernel
  rcases hb : Blueprint.ofJson (.obj ring) with fault | b
  · rw [hb] at hdrafted
    cases hdrafted
  · rcases hdraft : b.draft sampleEngine with fault | ⟨drafts, rules⟩
    · simp only [hb, Except.bind, hdraft] at hdrafted
      cases hdrafted
    · obtain ⟨-, -, -, -, hcycle, -⟩ := ofJson_expands hb hdraft
      rcases hring : ofJson sampleEngine (.obj ring) with fault | g
      · obtain ⟨chain, rfl, hchain⟩ := hcycle fault hring
        rw [hring] at hfault
        obtain rfl : chain = ["#list", "#item", "#list"] := hfault
        exact ⟨b, drafts, rules, rfl, hdraft, rfl, hchain⟩
      · rw [hring] at hfault
        cases hfault

end Grammar

end LineScope
