import LineScope.Proofs.Scan.Acceptance

/-!
Valid frames: what a check at the start of a line leaves, and what every iteration keeps. The rule
of a valid frame is one for regions, its context is the one inside them, and the matcher that it
carries is the one that the grammar has for its end pattern. So the rule and the end pattern of a
frame determine everything that a scan reads of it but the scopes.
-/

namespace LineScope

variable {M : Type} {g : Grammar M} {line : Text} {limits : Limits}

structure Frame.Valid (g : Grammar M) (f : Frame M) : Prop where
  region : ∃ r, g.region? f.rule = some r ∧ f.context = r.inner.text
  closer : ∃ m, Stack.closerFor g f = .ok (some m) ∧ f.closer = some m

theorem Frame.Valid.belongs {f : Frame M} (h : f.Valid g) : f.Belongs g := by
  obtain ⟨m, -, hm⟩ := h.closer
  exact ⟨h.region, by rw [hm]; rfl⟩

def Stack.Valid (g : Grammar M) (s : Stack M) : Prop := ∀ f ∈ s, f.Valid g

namespace Stack

theorem valid_of_resumeFrame {f : Frame M} (h : resumeFrame g f = .ok f) : f.Valid g := by
  obtain ⟨m, hcloser, hm, -⟩ := resumeFrame_eq_self_iff.mp h
  exact ⟨(resumeFrame_belongs h).region, m, hcloser, hm⟩

theorem Accepted.valid {s : Stack M} (h : s.Accepted g) : s.Valid g :=
  fun f hf => valid_of_resumeFrame (h f hf)

end Stack

namespace Scan

variable {s t : Scan M}

theorem resume_valid {stack : Stack M} (h : resume g stack = .ok s) : s.stack.Valid g := by
  unfold resume at h
  split at h
  · rename_i resumed hresumed
    cases h
    exact (Stack.accepted_of_resumeAll hresumed).valid
  · cases h
    simp [Stack.Valid, record, start, Stack.initial]
  · cases h

/-- What all frames have is what all frames have behind a match, if its rule pushes such ones. -/
theorem forall_frames_applies {P : Frame M → Prop} {c : Candidates M} {cursor : Int}
    {found : Found M} (coherent : g.Coherent) (h : ∀ f ∈ s.stack, P f)
    (hcandidates : candidates g s.stack = .ok c) (hoffers : Offers g.engine line cursor c found)
    (happlies : Applies g line limits s found t)
    (hpush : ∀ r scopes endSource m, .region r ∈ c.rules → g.region? r.id = some r →
      Stack.closerFor g (frameFor r scopes endSource m) = .ok (some m) →
        P (frameFor r scopes endSource m)) : ∀ f ∈ t.stack, P f := by
  rcases found with ⟨_ | r | r, hit⟩
  · cases happlies with
    | closed => exact fun f hf => h f (List.mem_of_mem_tail hf)
  · cases happlies with
    | skipped => exact h
    | covered =>
        rw [cover_stack]
        exact h
  · cases hoffers with
    | rule hlisted =>
        have hr := region?_id_of_candidates coherent hcandidates hlisted
        obtain ⟨-, hstack | ⟨endSource, m, hstack, hcloser⟩⟩ := happlies.region_cases hr
        · rw [hstack]
          exact h
        · rw [hstack]
          exact List.forall_mem_cons.mpr ⟨hpush r _ endSource m hlisted hr (hcloser _), h⟩

theorem valid_applies {c : Candidates M} {cursor : Int} {found : Found M} (coherent : g.Coherent)
    (h : s.stack.Valid g) (hcandidates : candidates g s.stack = .ok c)
    (hoffers : Offers g.engine line cursor c found)
    (happlies : Applies g line limits s found t) : t.stack.Valid g :=
  forall_frames_applies coherent h hcandidates hoffers happlies
    fun r _ _ m _ hr hcloser => ⟨⟨r, hr, rfl⟩, m, hcloser, rfl⟩

theorem valid_invariant (coherent : g.Coherent) :
    Invariant g line limits fun s => s.stack.Valid g where
  congr h hstack _ := hstack ▸ h
  passTo _ h := by simpa [passTo] using h
  applies h hcandidates hoffers happlies := valid_applies coherent h hcandidates hoffers happlies

theorem Reaches.valid {stack : Stack M} (coherent : g.Coherent) (hresume : resume g stack = .ok s)
    (h : Reaches g line limits s t) : t.stack.Valid g :=
  (valid_invariant coherent).reaches (resume_valid hresume) h

end Scan

end LineScope
