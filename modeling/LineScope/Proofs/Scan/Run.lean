import LineScope.Scan.Resume
import LineScope.Proofs.Scan.Step

/-!
Runs of the loop without a bound on the iterations, and what the bounded loop has to do with them.
-/

namespace LineScope

namespace Scan

variable {M : Type} {g : Grammar M} {line : Text} {limits : Limits}

inductive Reaches (g : Grammar M) (line : Text) (limits : Limits) : Scan M → Scan M → Prop
  | refl {s : Scan M} : Reaches g line limits s s
  | step {s t u : Scan M} :
      step g line limits s = .going t → Reaches g line limits t u → Reaches g line limits s u

/-- The loop ends after a number of iterations, the last of which gives the outcome. -/
inductive Ends (g : Grammar M) (line : Text) (limits : Limits) : Scan M → Nat → Outcome M → Prop
  | finished {s t : Scan M} :
      step g line limits s = .finished t → Ends g line limits s 1 (.ok t)
  | failed {s t : Scan M} {fault : Fault} :
      step g line limits s = .failed fault t → Ends g line limits s 1 (.error (fault, t))
  | going {s t : Scan M} {n : Nat} {o : Outcome M} :
      step g line limits s = .going t → Ends g line limits t n o → Ends g line limits s (n + 1) o

theorem Reaches.keeps {P : Scan M → Prop} {s t : Scan M}
    (hstep : ∀ s t, P s → Scan.step g line limits s = .going t → P t)
    (h : Reaches g line limits s t) (hs : P s) : P t := by
  induction h with
  | refl => exact hs
  | step hgoing _ ih => exact ih (hstep _ _ hs hgoing)

/-- The loop with a bound comes to the same end, if the bound is high enough. -/
theorem Ends.run_eq {s : Scan M} {n fuel : Nat} {o : Outcome M} (h : Ends g line limits s n o)
    (hfuel : n ≤ fuel) : run g line limits fuel s = o := by
  induction h generalizing fuel with
  | finished hstep =>
      obtain ⟨fuel, rfl⟩ : ∃ k, fuel = k + 1 := ⟨fuel - 1, by omega⟩
      simp only [run, hstep]
  | failed hstep =>
      obtain ⟨fuel, rfl⟩ : ∃ k, fuel = k + 1 := ⟨fuel - 1, by omega⟩
      simp only [run, hstep]
  | going hstep _ ih =>
      obtain ⟨fuel, rfl⟩ : ∃ k, fuel = k + 1 := ⟨fuel - 1, by omega⟩
      simp only [run, hstep]
      exact ih (by omega)

/-- What the loop with a bound comes to within it is what the loop comes to. -/
theorem ends_of_run {s : Scan M} {fuel : Nat}
    (h : (lineRun (run g line limits fuel s)).result ≠ .error .endless) :
    ∃ n ≤ fuel, Ends g line limits s n (run g line limits fuel s) := by
  induction fuel generalizing s with
  | zero => exact absurd rfl h
  | succ fuel ih =>
      simp only [run] at h ⊢
      rcases hstep : step g line limits s with t | t | ⟨fault, t⟩
      · simp only [hstep] at h
        obtain ⟨n, hn, hends⟩ := ih h
        exact ⟨n + 1, Nat.succ_le_succ hn, .going hstep hends⟩
      · exact ⟨1, Nat.succ_le_succ (Nat.zero_le _), .finished hstep⟩
      · exact ⟨1, Nat.succ_le_succ (Nat.zero_le _), .failed hstep⟩

theorem ends_of_run_eq_ok {s t : Scan M} {fuel : Nat} (h : run g line limits fuel s = .ok t) :
    ∃ n, Ends g line limits s n (.ok t) := by
  have hok : (lineRun (run g line limits fuel s)).result ≠ .error .endless := by
    simp [h, lineRun]
  obtain ⟨n, -, hends⟩ := ends_of_run hok
  exact ⟨n, h ▸ hends⟩

/-- A higher bound changes nothing where a lower one is enough. -/
theorem run_of_le {s : Scan M} {fuel fuel' : Nat} (hfuel : fuel ≤ fuel')
    (h : (lineRun (run g line limits fuel s)).result ≠ .error .endless) :
    run g line limits fuel' s = run g line limits fuel s := by
  obtain ⟨n, hn, hends⟩ := ends_of_run h
  exact hends.run_eq (Nat.le_trans hn hfuel)

theorem Ends.iterations_eq {s : Scan M} {n : Nat} {o : Outcome M} (h : Ends g line limits s n o) :
    (lineRun o).tally.iterations = s.tally.iterations + n := by
  induction h with
  | finished hstep => exact iterations_of_step hstep
  | failed hstep => exact iterations_of_step hstep
  | going hstep _ ih =>
      have hcount := iterations_of_step hstep
      simp only [Step.scan] at hcount
      omega

theorem Ends.ne_endless {s : Scan M} {n : Nat} {o : Outcome M} (h : Ends g line limits s n o) :
    (lineRun o).result ≠ .error .endless := by
  induction h with
  | finished => simp [lineRun]
  | failed hstep =>
      have hfault := step_ne_endless hstep
      simpa [lineRun] using hfault
  | going _ _ ih => exact ih

/-- A line that is too long becomes one token, and any other is what the loop comes to. -/
theorem finish_cases (g : Grammar M) (line : Text) (limits : Limits) (s : Scan M) :
    (∃ limit, finish g line limits s =
        .ok ((s.record (.lineTooLong line.size limit)).passTo g line.size)) ∨
      finish g line limits s = run g line limits (fuel g line limits s) s := by
  unfold finish
  split
  · split
    · exact .inl ⟨_, rfl⟩
    · exact .inr rfl
  · exact .inr rfl

theorem finish_of_ends {s : Scan M} {n : Nat} {o : Outcome M} (h : Ends g line limits s n o)
    (hfuel : n ≤ fuel g line limits s) :
    finish g line limits s = o ∨ ∃ t, finish g line limits s = .ok t ∧ t.tally = s.tally := by
  rcases finish_cases g line limits s with ⟨limit, hlong⟩ | hrun
  · exact .inr ⟨_, hlong, by simp [passTo, record]⟩
  · exact .inl (hrun.trans (h.run_eq hfuel))

theorem Ends.finish_ne_endless {s : Scan M} {n : Nat} {o : Outcome M}
    (h : Ends g line limits s n o) (hfuel : n ≤ fuel g line limits s) :
    (lineRun (finish g line limits s)).result ≠ .error .endless := by
  rcases finish_of_ends h hfuel with hfinish | ⟨t, hfinish, -⟩
  · rw [hfinish]
    exact h.ne_endless
  · rw [hfinish]
    simp [lineRun]

theorem resume_eq_ok {stack : Stack M} {s : Scan M} (h : resume g stack = .ok s) :
    s.cursor = 0 ∧ s.tokens = [] ∧ s.seen = [] ∧ s.tally = ⟨0, 0, 0⟩ := by
  unfold resume at h
  split at h
  · cases h
    exact ⟨rfl, rfl, rfl, rfl⟩
  · cases h
    exact ⟨rfl, rfl, rfl, rfl⟩
  · cases h

end Scan

theorem Grammar.tokenizeLine_of_resume {M : Type} {g : Grammar M} {stack : Stack M} {s : Scan M}
    (h : Scan.resume g stack = .ok s) (limits : Limits) (line : Text) :
    g.tokenizeLine limits line stack = Scan.lineRun (Scan.finish g line limits s) := by
  rw [Grammar.tokenizeLine, h]
  rfl

/-- The result of a line of any length is what the loop comes to, if it takes no more iterations
than there are characters, and two. -/
theorem Scan.tokenizeLine_of_ends {M : Type} {g : Grammar M} {line : Text} {limits : Limits}
    {stack : Stack M} {s t : Scan M} {n : Nat} (hresume : resume g stack = .ok s)
    (hlength : limits.length = none) (h : Ends g line limits s n (.ok t)) (hn : n ≤ line.size + 2) :
    (g.tokenizeLine limits line stack).result = .ok ⟨t.tokens.reverse, t.stack⟩ := by
  have hfuel : line.size + 2 ≤ fuel g line limits s := by
    have htwo : (line.size + 1) * 2 ≤ fuel g line limits s :=
      Nat.mul_le_mul_left _ (Nat.le_add_left 2 _)
    omega
  have hfinish : finish g line limits s = .ok t := by
    simp only [finish, hlength]
    exact h.run_eq (Nat.le_trans hn hfuel)
  rw [Grammar.tokenizeLine_of_resume hresume, hfinish]
  rfl

theorem Grammar.tokenizeLine_eq_ok {M : Type} {g : Grammar M} {limits : Limits} {line : Text}
    {stack : Stack M} {r : LineResult M} (h : (g.tokenizeLine limits line stack).result = .ok r) :
    ∃ s t, Scan.resume g stack = .ok s ∧ Scan.finish g line limits s = .ok t ∧
      r = ⟨t.tokens.reverse, t.stack⟩ := by
  unfold Grammar.tokenizeLine at h
  rcases hresume : Scan.resume g stack with _ | s
  · rw [hresume] at h
    cases h
  · rcases hfinish : Scan.finish g line limits s with _ | t
    · simp only [hresume, Except.bind, hfinish, Scan.lineRun, reduceCtorEq] at h
    · simp only [hresume, Except.bind, hfinish, Scan.lineRun] at h
      cases h
      exact ⟨s, t, rfl, hfinish, rfl⟩

end LineScope
