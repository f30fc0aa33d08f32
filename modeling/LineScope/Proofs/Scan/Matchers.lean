import LineScope.Proofs.Scan.Events
import LineScope.Proofs.Scan.Validity

/-!
The matchers in the frames of a stack are determined by the rest of it. Those that a stack brings
with it are not looked at; at the start of a line every frame gets what the engine of the grammar
compiles its end pattern to, or else all frames are given up; a frame that is pushed gets the same,
and one that comes to the top again still has it.
-/

namespace LineScope

variable {M : Type} {g : Grammar M} {line : Text} {limits : Limits}

/-- The frame carries the matcher that an engine compiles its end pattern to. -/
def Frame.Bound (e : Engine M) (f : Frame M) : Prop :=
  ∃ m, e.compile f.endSource = .ok m ∧ f.closer = some m

namespace Stack

theorem compile_of_closerFor (coherent : g.Coherent) {f : Frame M} {m : M}
    (h : closerFor g f = .ok (some m)) : g.engine.compile f.endSource = .ok m := by
  unfold closerFor at h
  split at h
  · cases h
  · rename_i r hr
    have hcompiled := coherent.compiled r (Grammar.region?_mem hr)
    unfold RegionRule.EndCompiled at hcompiled
    split at h
    · rename_i closer hcloser
      rw [hcloser] at hcompiled
      split at h
      · rename_i hsource
        cases h
        rw [hsource]
        exact hcompiled.2
      · cases h
    · split at h
      · rename_i closer hcompile
        cases h
        exact hcompile
      · cases h
      · cases h

theorem Valid.bound (coherent : g.Coherent) {s : Stack M} (h : s.Valid g) :
    ∀ f ∈ s, f.Bound g.engine := by
  intro f hf
  obtain ⟨m, hcloser, hm⟩ := (h f hf).closer
  exact ⟨m, compile_of_closerFor coherent hcloser, hm⟩

theorem compile_of_overflow {f : Frame M} {reason : String}
    (h : resumeFrame g f = .error (.overflow reason)) :
    g.engine.compile f.endSource = .error (.overflow reason) := by
  obtain hcloser | ⟨closer?, -, h⟩ := bind_eq_error.mp h
  · unfold closerFor at hcloser
    split at hcloser
    · cases hcloser
    · split at hcloser
      · cases hcloser
      · split at hcloser
        · cases hcloser
        · cases hcloser
        · rename_i hcompile
          cases hcloser
          exact hcompile
  · rcases closer? with _ | closer
    · cases h
    · simp only at h
      split at h
      · cases h
      · cases h

theorem exists_overflow {s : Stack M} {reason : String}
    (h : resumeAll g s = .error (.overflow reason)) :
    ∃ f ∈ s, g.engine.compile f.endSource = .error (.overflow reason) := by
  induction s with
  | nil => cases h
  | cons f outer ih =>
      obtain houter | ⟨outer', -, h⟩ := bind_eq_error.mp h
      · obtain ⟨f', hf', hcompile⟩ := ih houter
        exact ⟨f', List.mem_cons_of_mem _ hf', hcompile⟩
      · obtain hframe | ⟨f', -, h⟩ := bind_eq_error.mp h
        · exact ⟨f, List.mem_cons_self .., compile_of_overflow hframe⟩
        · cases h

end Stack

namespace Scan

/-- The stack that a scan starts with is the given one with other matchers, or the initial one. -/
theorem accepted_of_resume {stack : Stack M} {s : Scan M} (h : resume g stack = .ok s) :
    s.stack.Accepted g ∧ (s.stack = .initial ∨ s.stack.same stack = true) ∧
      ∃ earlier, s = (start s.stack).behind earlier := by
  unfold resume at h
  split at h
  · rename_i resumed hresumed
    cases h
    exact ⟨Stack.accepted_of_resumeAll hresumed,
      .inr (Stack.same_iff.mpr (Stack.resumeAll_regions hresumed)), [], rfl⟩
  · rename_i context _
    cases h
    exact ⟨by simp [record, start, Stack.initial, Stack.Accepted], .inl rfl,
      [.foreignFrame context g.scopeName], rfl⟩
  · cases h

theorem finish_start_result {stack : Stack M} {s : Scan M} (h : resume g stack = .ok s) :
    (lineRun (finish g line limits (start s.stack))).result =
      (lineRun (finish g line limits s)).result := by
  obtain ⟨-, -, earlier, hs⟩ := accepted_of_resume h
  have hfinish : finish g line limits s =
      (finish g line limits (start s.stack)).behind earlier := by
    rw [← finish_behind, ← hs]
  rw [hfinish]
  exact (lineRun_behind earlier _).1.symm

end Scan

namespace Grammar

/-- Stacks that are the same but for their matchers lead to the same run, and so does the stack that
the scan makes of them at its start. From there on all matchers are those of the engine, unless the
engine breaks down at an end pattern. -/
theorem tokenizeLine_matchers {e : Engine M} {document : Json}
    (compiled : ofJson e document = .ok g) (limits : Limits) (line : Text) {stack stack' : Stack M}
    (same : stack.same stack' = true) :
    g.tokenizeLine limits line stack = g.tokenizeLine limits line stack' ∧
      (∀ s, Scan.resume g stack = .ok s →
        (s.stack = .initial ∨ s.stack.same stack = true ∧ ∀ f ∈ s.stack, f.Bound e) ∧
        Scan.resume g s.stack = .ok (Scan.start s.stack) ∧
        (g.tokenizeLine limits line stack).result =
          (g.tokenizeLine limits line s.stack).result ∧
        ∀ t, Scan.Reaches g line limits s t → ∀ f ∈ t.stack, f.Bound e) ∧
      (∀ fault s, Scan.resume g stack = .error (fault, s) → ∃ reason,
        fault = .overflow reason ∧ ∃ f ∈ stack, e.compile f.endSource = .error (.overflow reason)) ∧
      ∀ r, (g.tokenizeLine limits line stack).result = .ok r → ∀ f ∈ r.stack, f.Bound e := by
  obtain ⟨coherent, rfl⟩ := ofJson_coherent compiled
  refine ⟨tokenizeLine_congr g limits line same, ?_, ?_, ?_⟩
  · intro s hresume
    obtain ⟨haccepted, hstack, -⟩ := Scan.accepted_of_resume hresume
    have hbound : ∀ f ∈ s.stack, f.Bound g.engine := haccepted.valid.bound coherent
    refine ⟨hstack.imp_right fun hsame => ⟨hsame, hbound⟩, haccepted.resume_eq, ?_, ?_⟩
    · rw [tokenizeLine_of_resume hresume, tokenizeLine_of_resume haccepted.resume_eq]
      exact (Scan.finish_start_result hresume).symm
    · exact fun t hreaches => (hreaches.valid coherent hresume).bound coherent
  · intro fault s hresume
    unfold Scan.resume at hresume
    split at hresume
    · cases hresume
    · cases hresume
    · rename_i reason hoverflow
      cases hresume
      exact ⟨reason, rfl, Stack.exists_overflow hoverflow⟩
  · intro r hresult
    obtain ⟨s, t, hresume, hfinish, rfl⟩ := tokenizeLine_eq_ok hresult
    have hvalid := (Scan.valid_invariant coherent).finish (Scan.resume_valid hresume) hfinish
    exact hvalid.bound coherent

theorem tokenizeLine_matchers_sample :
    ∃ first second,
      (sample.tokenizeLine .default (Text.ofString "cat <b <c") .initial).result = .ok first ∧
      first.stack.depth = 2 ∧
      (sample.tokenizeLine .default (Text.ofString "d <> cat")
        (first.stack.map fun f => { f with closer := none })).result = .ok second ∧
      (sample.tokenizeLine .default (Text.ofString "d <> cat") first.stack).result = .ok second ∧
      second.stack.depth = 1 ∧ ∀ f ∈ second.stack, f.Bound sampleEngine := by
  have hok : ((sample.tokenizeLine .default (Text.ofString "cat <b <c") .initial).result.bind
      fun first => (sample.tokenizeLine .default (Text.ofString "d <> cat") first.stack).result.map
        fun second => (first.stack.depth, second.stack.depth)).toOption = some (2, 1) := by
    decide +kernel
  rcases hfirst : (sample.tokenizeLine .default (Text.ofString "cat <b <c") .initial).result
    with fault | first
  · rw [hfirst] at hok
    cases hok
  · rcases hsecond : (sample.tokenizeLine .default (Text.ofString "d <> cat") first.stack).result
      with fault | second
    · simp only [hfirst, Except.bind, hsecond] at hok
      cases hok
    · simp only [hfirst, Except.bind, hsecond] at hok
      obtain ⟨htwo, hone⟩ := Prod.mk.inj (Option.some.inj hok)
      have hsame : Stack.same (first.stack.map fun f => { f with closer := none }) first.stack =
          true := Stack.same_iff.mpr (by simp [Stack.regions])
      obtain ⟨hrun, -, -, hbound⟩ := tokenizeLine_matchers ofJson_sample .default
        (Text.ofString "d <> cat") hsame
      rw [hrun] at hbound
      exact ⟨first, second, rfl, htwo, hrun ▸ hsecond, hsecond, hone, hbound second hsecond⟩

end Grammar

end LineScope
