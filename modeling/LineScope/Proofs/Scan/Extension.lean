import LineScope.Proofs.Grammar.Extension
import LineScope.Proofs.Scan.Reordering

namespace LineScope

variable {M : Type}

namespace Grammar

open GrammarDocument

/-- With an entry added to its repository, a document makes a grammar that has all the rules there
were, under new numbers; it gives all lines the same tokens, and leaves stacks that are the same but
for the numbers. Nothing can have referred to the entry, since the document was accepted without it.
The bound on the iterations is the only thing that more rules change, and with an engine that finds
its matches in bounds it is never reached. -/
theorem ofJson_entryAdded {e : Engine M} {members members' : Json.Members} {g g' : Grammar M}
    (h : EntryAdded members members') (hg : ofJson e (.obj members) = .ok g)
    (hg' : ofJson e (.obj members') = .ok g') :
    ∃ φ, Embeds φ g g' ∧ ∀ (limits : Limits) (lines : List Text),
      ((g.tokenizeLines limits lines .initial).fault ≠ some .endless →
        (g'.tokenizeLines limits lines .initial).results =
            (g.tokenizeLines limits lines .initial).results.map (LineResult.renumber φ) ∧
          (g'.tokenizeLines limits lines .initial).fault =
            (g.tokenizeLines limits lines .initial).fault) ∧
      (e.InBounds → (g.tokenizeLines limits lines .initial).fault ≠ some .endless) := by
  obtain ⟨φ, hembeds, hcount⟩ := embeds_of_entryAdded h hg hg'
  obtain ⟨coherent, rfl⟩ := ofJson_coherent hg
  refine ⟨φ, hembeds, fun limits lines => ⟨fun hends => ?_, fun bounded hendless => ?_⟩⟩
  · exact tokenizeLines_embeds hembeds coherent hcount limits lines Scan.Settled.initial
      fun hendless => absurd hendless hends
  · obtain ⟨line, -, stack, hline⟩ := exists_line_of_fault hendless
    exact tokenizeLine_ne_endless coherent bounded limits line stack hline

def strayEntry : String × Json :=
  ("stray", .obj [
    ("begin", .str "("),
    ("end", .str ")"),
    ("patterns", .arr [.obj [("include", .str "#quote")], .obj [("match", .str "dog")]])])

/-- The entry comes first and takes the number of the region, which the line opens. -/
theorem ofJson_entryAdded_sample :
    let lines := [Text.ofString "(cat <cat", Text.ofString "cat<> dog"]
    ∃ g g' φ, ofJson sampleEngine (sampleOf sampleEntries) = .ok g ∧
      ofJson sampleEngine (sampleOf (strayEntry :: sampleEntries)) = .ok g' ∧
      Embeds φ g g' ∧
      (g.tokenizeLines .default lines .initial).results.map (fun r => r.stack.map (·.rule)) =
        [[0], []] ∧
      (g'.tokenizeLines .default lines .initial).results.map (fun r => r.stack.map (·.rule)) =
        [[1], []] ∧
      (g'.tokenizeLines .default lines .initial).results =
        (g.tokenizeLines .default lines .initial).results.map (LineResult.renumber φ) := by
  intro lines
  have hstacks : ((ofJson sampleEngine (sampleOf sampleEntries)).toOption.map fun g =>
      (g.tokenizeLines .default lines .initial).results.map fun r => r.stack.map (·.rule)) =
        some [[0], []] := by
    decide +kernel
  have hstacks' :
      ((ofJson sampleEngine (sampleOf (strayEntry :: sampleEntries))).toOption.map fun g =>
        (g.tokenizeLines .default lines .initial).results.map fun r => r.stack.map (·.rule)) =
          some [[1], []] := by
    decide +kernel
  rcases hg : ofJson sampleEngine (sampleOf sampleEntries) with fault | g
  · rw [hg] at hstacks
    cases hstacks
  · rcases hg' : ofJson sampleEngine (sampleOf (strayEntry :: sampleEntries)) with fault | g'
    · rw [hg'] at hstacks'
      cases hstacks'
    · rw [hg] at hstacks
      rw [hg'] at hstacks'
      have hadded : ∀ key, key ≠ "repository" →
          Json.Members.get? [("scopeName", .str "text"),
              ("patterns", .arr [.obj [("include", .str "#quote")]]),
              ("repository", .obj (strayEntry :: sampleEntries))] key =
            Json.Members.get? [("scopeName", .str "text"),
              ("patterns", .arr [.obj [("include", .str "#quote")]]),
              ("repository", .obj sampleEntries)] key := by
        intro key hkey
        have hne : (key == "repository") = false := by simpa using hkey
        simp only [Json.Members.get?, List.lookup_cons, hne]
      obtain ⟨φ, hembeds, hlines⟩ := ofJson_entryAdded
        ⟨hadded, ⟨[], sampleEntries, "stray", strayEntry.2, rfl, rfl⟩, by decide⟩ hg hg'
      have hends := (hlines .default lines).2 (Engine.plain_inBounds _ _)
      exact ⟨g, g', φ, rfl, rfl, hembeds, Option.some.inj hstacks, Option.some.inj hstacks',
        ((hlines .default lines).1 hends).1⟩

end Grammar

end LineScope
