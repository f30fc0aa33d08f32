import LineScope.Scan.Lines

namespace LineScope

variable {M : Type}

namespace Stack

theorem resumeFrame_congr (g : Grammar M) {f f' : Frame M} (h : f.toRegion = f'.toRegion) :
    resumeFrame g f = resumeFrame g f' := by
  rcases f with ⟨region, closer⟩
  rcases f' with ⟨region', closer'⟩
  change region = region' at h
  subst h
  rfl

theorem resumeAll_congr (g : Grammar M) {s t : Stack M} (h : s.regions = t.regions) :
    resumeAll g s = resumeAll g t := by
  induction s generalizing t with
  | nil =>
      have ht : t = [] := List.map_eq_nil_iff.mp h.symm
      rw [ht]
  | cons f outer ih =>
      rcases t with _ | ⟨f', outer'⟩
      · exact absurd h (by simp [regions])
      · have hparts : f.toRegion = f'.toRegion ∧ regions outer = regions outer' := by
          simpa [regions] using h
        simp only [resumeAll, ih hparts.2, resumeFrame_congr g hparts.1]

end Stack

/-- Equal stacks lead to the same run, whatever matchers their frames carry. -/
theorem Grammar.tokenizeLine_congr (g : Grammar M) (limits : Limits) (line : Text)
    {s t : Stack M} (h : s.same t = true) :
    g.tokenizeLine limits line s = g.tokenizeLine limits line t := by
  have hresume : Scan.resume g s = Scan.resume g t := by
    rw [Scan.resume, Scan.resume, Stack.resumeAll_congr g (Stack.same_iff.mp h)]
  rw [Grammar.tokenizeLine, Grammar.tokenizeLine, hresume]

end LineScope
