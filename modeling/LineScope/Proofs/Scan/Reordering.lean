import LineScope.Proofs.Grammar.Reordering
import LineScope.Proofs.Grammar.WellFormed
import LineScope.Proofs.Scan.Renumbering

namespace LineScope

variable {M : Type} {d d' : Json}

namespace Grammar

open GrammarDocument

theorem exists_ofJson_reordered {e : Engine M} (h : Json.Reordered d d')
    (hg : ∃ g, ofJson e d = .ok g) : ∃ g', ofJson e d' = .ok g' := by
  obtain ⟨members, rfl, hmembers⟩ := exists_ofJson_iff.mp hg
  obtain ⟨members', rfl⟩ := h.exists_obj
  exact exists_ofJson_iff.mpr ⟨members', rfl, wellFormed_reordered h hmembers⟩

/-- Of two documents that are the same up to the order of members, both are grammars or none is;
these have the same rules and contexts but for the numbers, give all lines the same tokens, and
leave stacks that are the same but for the numbers. -/
theorem ofJson_reordered (e : Engine M) (h : Json.Reordered d d') :
    ((∃ g, ofJson e d = .ok g) ↔ ∃ g', ofJson e d' = .ok g') ∧
      ∀ g g', ofJson e d = .ok g → ofJson e d' = .ok g' →
        ∃ φ, Renumbered φ g g' ∧ ∀ (limits : Limits) (lines : List Text),
          (g'.tokenizeLines limits lines .initial).results =
              (g.tokenizeLines limits lines .initial).results.map (LineResult.renumber φ) ∧
            (g'.tokenizeLines limits lines .initial).fault =
              (g.tokenizeLines limits lines .initial).fault := by
  refine ⟨⟨exists_ofJson_reordered h, exists_ofJson_reordered h.symm⟩, ?_⟩
  intro g g' hg hg'
  obtain ⟨members, rfl, -⟩ := exists_ofJson_iff.mp ⟨g, hg⟩
  obtain ⟨members', rfl⟩ := h.exists_obj
  obtain ⟨φ, hφ, hembeds, hcount⟩ := renumbered_of_reordered h hg hg'
  refine ⟨φ, hφ, fun limits lines => ?_⟩
  have coherent := (ofJson_coherent hg).1
  exact tokenizeLines_renumber hembeds coherent hcount limits lines Scan.Settled.initial

def sampleOf (entries : Json.Members) : Json := .obj [
  ("scopeName", .str "text"),
  ("patterns", .arr [.obj [("include", .str "#quote")]]),
  ("repository", .obj entries)]

def sampleEntries : Json.Members := [
  ("quote", .obj [
    ("begin", .str "<"),
    ("end", .str "\\0>"),
    ("patterns", .arr [.obj [("include", .str "#animal")]])]),
  ("animal", .obj [("match", .str "cat"), ("name", .str "animal")])]

theorem sampleOf_reordered :
    Json.Reordered (sampleOf sampleEntries) (sampleOf sampleEntries.reverse) := by
  have hstr : ∀ s, Json.Reordered (.str s) (.str s) := fun _ => .atom trivial
  have hpatterns : ∀ target, Json.Reordered (.arr [.obj [("include", .str target)]])
      (.arr [.obj [("include", .str target)]]) := by
    intro target
    exact .arr_self (by simpa using .obj_perm (by simp) (.refl _) (by simp [hstr]))
  have hentries : Json.Reordered (.obj sampleEntries) (.obj sampleEntries.reverse) := by
    refine .obj_perm (by decide) (List.reverse_perm _).symm ?_
    simp only [sampleEntries, List.forall_mem_cons]
    refine ⟨?_, ?_, by simp⟩
    · exact .obj_perm (by simp) (.refl _) (by simp [hstr, hpatterns])
    · exact .obj_perm (by simp) (.refl _) (by simp [hstr])
  refine .obj (by simp) (.refl _) fun key a a' ha ha' => ?_
  simp only [List.mem_cons, Prod.mk.injEq, List.not_mem_nil, or_false] at ha ha'
  rcases ha with ⟨rfl, rfl⟩ | ⟨rfl, rfl⟩ | ⟨rfl, rfl⟩
  · simp at ha'
    exact ha' ▸ hstr _
  · simp at ha'
    exact ha' ▸ hpatterns _
  · simp at ha'
    exact ha' ▸ hentries

theorem ofJson_reordered_sample :
    Json.Reordered (sampleOf sampleEntries) (sampleOf sampleEntries.reverse) ∧
      ∃ g g' φ, ofJson sampleEngine (sampleOf sampleEntries) = .ok g ∧
        ofJson sampleEngine (sampleOf sampleEntries.reverse) = .ok g' ∧
        g.rules.map Rule.isRegion = [true, false] ∧ g'.rules.map Rule.isRegion = [false, true] ∧
        Renumbered φ g g' ∧
        (g'.tokenizeLines .default [Text.ofString "cat <<cat"] .initial).results =
          (g.tokenizeLines .default [Text.ofString "cat <<cat"] .initial).results.map
            (LineResult.renumber φ) := by
  obtain ⟨hiff, hrenumbered⟩ := ofJson_reordered sampleEngine sampleOf_reordered
  have hrules : (ofJson sampleEngine (sampleOf sampleEntries)).toOption.map
      (·.rules.map Rule.isRegion) = some [true, false] := by decide +kernel
  have hrules' : (ofJson sampleEngine (sampleOf sampleEntries.reverse)).toOption.map
      (·.rules.map Rule.isRegion) = some [false, true] := by decide +kernel
  rcases hg : ofJson sampleEngine (sampleOf sampleEntries) with fault | g
  · rw [hg] at hrules
    cases hrules
  · obtain ⟨g', hg'⟩ := hiff.mp ⟨g, hg⟩
    obtain ⟨φ, hφ, hlines⟩ := hrenumbered g g' hg hg'
    rw [hg] at hrules
    rw [hg'] at hrules'
    refine ⟨sampleOf_reordered, g, g', φ, rfl, hg', Option.some.inj hrules,
      Option.some.inj hrules', hφ, ?_⟩
    exact (hlines .default [Text.ofString "cat <<cat"]).1

end Grammar

end LineScope
