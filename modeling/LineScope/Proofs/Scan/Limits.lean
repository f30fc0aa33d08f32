import LineScope.Proofs.Scan.Progress
import LineScope.Proofs.Scan.Sequence

/-!
Limits that are not hit. Every time that a limit takes effect there is an event, and no event is
lost on the way; so a scan without such an event has never looked at its limits to any effect, and
comes to the same under all that allow more.
-/

namespace LineScope

variable {M : Type}

/-- Whether the event is that a limit took effect: the line is not scanned, or a region not
opened. -/
def Event.isLimit : Event → Bool
  | .lineTooLong .. => true
  | .depthReached .. => true
  | _ => false

/-- No limit took effect in the scan of a line. -/
def LineRun.Unlimited (run : LineRun M) : Prop := ∀ e ∈ run.events, e.isLimit = false

instance (run : LineRun M) : Decidable run.Unlimited :=
  inferInstanceAs (Decidable (∀ e ∈ run.events, e.isLimit = false))

def LinesRun.Unlimited (run : LinesRun M) : Prop := ∀ e ∈ run.events, e.isLimit = false

instance (run : LinesRun M) : Decidable run.Unlimited :=
  inferInstanceAs (Decidable (∀ e ∈ run.events, e.isLimit = false))

/-- Whether a line is not too long to be scanned. -/
def Limits.Admits (limits : Limits) (line : Text) : Prop := ∀ n ∈ limits.length, line.size ≤ n

instance (limits : Limits) (line : Text) : Decidable (limits.Admits line) :=
  inferInstanceAs (Decidable (∀ n ∈ limits.length, line.size ≤ n))

namespace Scan

variable {g : Grammar M} {line : Text} {limits limits' : Limits} {s t : Scan M}

@[simp] theorem emit_events (s : Scan M) (t : Token) : (s.emit t).events = s.events := by
  unfold emit
  split
  · rfl
  · rfl

@[simp] theorem cover_events (s : Scan M) (m : Match) (captures : List Capture)
    (scopes : ScopePath) : (s.cover m captures scopes).events = s.events :=
  emitAll_keeps emit_events s _

@[simp] theorem reach_events (s : Scan M) (g : Grammar M) (start : Int) :
    (s.reach g start).events = s.events := by
  unfold reach
  split
  · exact emit_events s _
  · rfl

theorem Applies.events_subset {found : Found M} (h : Applies g line limits s found t) :
    s.events ⊆ t.events := by
  cases h with
  | skipped => exact List.Subset.refl _
  | capped => simp [record]
  | blanked => simp [record]
  | _ => simp

theorem Breaks.events_subset {found : Found M} {fault : Fault}
    (h : Breaks g line limits s found fault t) : s.events ⊆ t.events := by
  cases h with
  | unopened => exact List.Subset.refl _
  | ruleless => exact List.Subset.refl _
  | unblanked => simp [record]
  | _ => simp

theorem guard_events (s : Scan M) (g : Grammar M) (line : Text) (w : Winner M) :
    (s.guard g line w).scan.events = s.events := by
  unfold guard
  split
  · split
    · rfl
    · exact emit_events s _
  · rfl

theorem step_events {o : Step M} (h : step g line limits s = o) : s.events ⊆ o.scan.events := by
  have happlied : ∀ {found probes t}, (s.counted probes).apply g line limits found = .ok t →
      s.events ⊆ t.events := by
    intro found probes t happly
    have hsubset := (apply_applies happly).events_subset
    rwa [reach_events] at hsubset
  cases iteration_of_step h with
  | lost => exact List.Subset.refl _
  | unmatched => simp [Step.scan, passTo, counted]
  | broken _ _ happly =>
      have hsubset := (apply_breaks happly).events_subset
      rwa [reach_events] at hsubset
  | moved _ _ happly =>
      have ht := happlied happly
      exact ht
  | noted _ _ happly =>
      have ht := happlied happly
      exact ht
  | forced _ _ happly => simpa [Step.scan, forceStep, passTo] using happlied happly
  | stopped _ _ happly => exact happlied happly

theorem Ends.events_subset {n : Nat} {o : Outcome M} (h : Ends g line limits s n o) :
    s.events ⊆ (lineRun o).events := by
  induction h with
  | finished hstep =>
      intro e he
      exact List.mem_reverse.mpr (step_events hstep he)
  | failed hstep =>
      intro e he
      exact List.mem_reverse.mpr (step_events hstep he)
  | going hstep _ ih =>
      intro e he
      exact ih (step_events hstep he)

/-- Only a region that may not open makes a difference, and then there is an event. -/
theorem apply_eq_of_unlimited {found : Found M} (hdepth : limits.depth ≤ limits'.depth)
    (h : (lineRun (s.apply g line limits found)).Unlimited) :
    s.apply g line limits' found = s.apply g line limits found := by
  rcases found with ⟨_ | (r | r), hit⟩
  · rfl
  · rfl
  · change (lineRun ((s.reach g hit.start).openRegion g line limits r hit)).Unlimited at h
    change (s.reach g hit.start).openRegion g line limits' r hit =
      (s.reach g hit.start).openRegion g line limits r hit
    generalize s.reach g hit.start = u at h ⊢
    by_cases hcapped : limits.depth ≤ u.stack.depth
    · have hevent : Event.depthReached limits.depth r.beginSource ∈
          (lineRun (u.openRegion g line limits r hit)).events := by
        simp [openRegion, hcapped, lineRun, record]
      exact absurd (h _ hevent) (by simp [Event.isLimit])
    · have hroom : ¬ limits'.depth ≤ u.stack.depth := by omega
      simp only [openRegion, cover_stack, if_neg hcapped, if_neg hroom]

theorem step_eq_of_unlimited (hdepth : limits.depth ≤ limits'.depth)
    (h : ∀ e ∈ (step g line limits s).scan.events, e.isLimit = false) :
    step g line limits' s = step g line limits s := by
  rcases hcandidates : candidates g s.stack with fault | c
  · simp only [step, hcandidates]
  · rw [step_eq hcandidates] at h ⊢
    rw [step_eq hcandidates]
    rcases hchoose : choose g.engine line s.cursor c with ⟨_ | found, probes⟩
    · rfl
    · rw [hchoose] at h
      have hunlimited :
          (lineRun ((s.counted probes).apply g line limits found)).Unlimited := by
        intro e he
        rcases happly : (s.counted probes).apply g line limits found with ⟨fault, t⟩ | t
        · rw [happly] at he
          simp only [happly] at h
          exact h e (List.mem_reverse.mp he)
        · rw [happly] at he
          simp only [happly] at h
          apply h e
          split
          · exact List.mem_reverse.mp he
          · rw [guard_events]
            exact List.mem_reverse.mp he
      simp only [apply_eq_of_unlimited hdepth hunlimited]

theorem Ends.of_unlimited {n : Nat} {o : Outcome M} (hdepth : limits.depth ≤ limits'.depth)
    (h : Ends g line limits s n o) (hunlimited : (lineRun o).Unlimited) :
    Ends g line limits' s n o := by
  have hsame : ∀ {s : Scan M} {o : Step M}, step g line limits s = o →
      (∀ e ∈ o.scan.events, e.isLimit = false) → step g line limits' s = o := by
    rintro s _ rfl hstep
    exact step_eq_of_unlimited hdepth hstep
  induction h with
  | finished hstep =>
      exact .finished (hsame hstep fun e he => hunlimited e (List.mem_reverse.mpr he))
  | failed hstep =>
      exact .failed (hsame hstep fun e he => hunlimited e (List.mem_reverse.mpr he))
  | going hstep hends ih =>
      refine .going (hsame hstep fun e he => ?_) (ih hunlimited)
      exact hunlimited e (hends.events_subset he)

theorem fuel_mono (g : Grammar M) (line : Text) (s : Scan M)
    (hdepth : limits.depth ≤ limits'.depth) :
    fuel g line limits s ≤ fuel g line limits' s := by
  have hmost : max s.stack.depth limits.depth.toNat ≤ max s.stack.depth limits'.depth.toNat := by
    omega
  exact Nat.mul_le_mul_left _ (Nat.add_le_add_right (Nat.mul_le_mul_right _ hmost) 2)

theorem finish_of_admits (h : limits.Admits line) :
    finish g line limits s = run g line limits (fuel g line limits s) s := by
  unfold finish
  split
  · rename_i n hlength
    exact if_neg (Int.not_lt.mpr (h n hlength))
  · rfl

/-- A line that is too long leaves an event. -/
theorem admits_of_unlimited (h : (lineRun (finish g line limits s)).Unlimited) :
    limits.Admits line := by
  intro n hlength
  by_contra hlong
  have hevent : Event.lineTooLong line.size n ∈ (lineRun (finish g line limits s)).events := by
    simp only [finish, Option.mem_def.mp hlength, if_pos (Int.not_le.mp hlong)]
    simp [lineRun, passTo, record]
  exact absurd (h _ hevent) (by simp [Event.isLimit])

theorem finish_of_unlimited (hdepth : limits.depth ≤ limits'.depth) (hadmits : limits'.Admits line)
    (hunlimited : (lineRun (finish g line limits s)).Unlimited)
    (hends : (lineRun (finish g line limits s)).result ≠ .error .endless) :
    finish g line limits' s = finish g line limits s := by
  have hrun := finish_of_admits (g := g) (s := s) (admits_of_unlimited hunlimited)
  rw [hrun] at hunlimited hends
  obtain ⟨n, hn, h⟩ := ends_of_run hends
  rw [hrun, finish_of_admits hadmits]
  exact (h.of_unlimited hdepth hunlimited).run_eq (Nat.le_trans hn (fuel_mono g line s hdepth))

end Scan

namespace Grammar

theorem tokenizeLine_of_unlimited {g : Grammar M} {limits limits' : Limits} {line : Text}
    {stack : Stack M} (hdepth : limits.depth ≤ limits'.depth) (hadmits : limits'.Admits line)
    (hunlimited : (g.tokenizeLine limits line stack).Unlimited)
    (hends : (g.tokenizeLine limits line stack).result ≠ .error .endless) :
    g.tokenizeLine limits' line stack = g.tokenizeLine limits line stack := by
  rcases hresume : Scan.resume g stack with failure | s
  · simp only [tokenizeLine, hresume]
    rfl
  · rw [tokenizeLine_of_resume hresume] at hunlimited hends ⊢
    rw [tokenizeLine_of_resume hresume, Scan.finish_of_unlimited hdepth hadmits hunlimited hends]

theorem lineRuns_of_unlimited {g : Grammar M} {limits limits' : Limits} {lines : List Text}
    {stack : Stack M} (hdepth : limits.depth ≤ limits'.depth)
    (hadmits : ∀ line ∈ lines, limits'.Admits line)
    (hunlimited : (g.tokenizeLines limits lines stack).Unlimited)
    (hends : (g.tokenizeLines limits lines stack).fault ≠ some .endless) :
    g.lineRuns limits' lines stack = g.lineRuns limits lines stack := by
  induction lines generalizing stack with
  | nil => rfl
  | cons line lines ih =>
      obtain ⟨hline, hlines⟩ := List.forall_mem_cons.mp hadmits
      simp only [tokenizeLines, lineRuns, LinesRun.ofRuns, LinesRun.Unlimited] at hunlimited hends
      rcases hresult : (g.tokenizeLine limits line stack).result with fault | r
      · simp only [hresult] at hunlimited hends
        have hsame := tokenizeLine_of_unlimited hdepth hline hunlimited
          (by simpa [hresult] using hends)
        simp only [lineRuns, hsame, hresult]
      · simp only [hresult, List.forall_mem_append] at hunlimited hends
        have hsame := tokenizeLine_of_unlimited hdepth hline hunlimited.1 (by simp [hresult])
        simp only [lineRuns, hsame, hresult, ih hlines hunlimited.2 hends]

/-- Where no limit takes effect, limits that allow more change nothing of what comes of a line: the
tokens, the stack, the events, or a fault. So it is with lines that follow one another. This is said
of loops that end, as they do in all grammars whose engine finds matches in bounds. -/
theorem tokenizeLines_of_looser_limits {g : Grammar M} {limits limits' : Limits}
    (hdepth : limits.depth ≤ limits'.depth) (stack : Stack M) :
    (∀ line, limits'.Admits line → (g.tokenizeLine limits line stack).Unlimited →
      (g.tokenizeLine limits line stack).result ≠ .error .endless →
      g.tokenizeLine limits' line stack = g.tokenizeLine limits line stack) ∧
    (∀ lines, (∀ line ∈ lines, limits'.Admits line) →
      (g.tokenizeLines limits lines stack).Unlimited →
      (g.tokenizeLines limits lines stack).fault ≠ some .endless →
      g.tokenizeLines limits' lines stack = g.tokenizeLines limits lines stack) ∧
    (∀ e document, ofJson e document = .ok g → e.InBounds →
      (∀ line, (g.tokenizeLine limits line stack).result ≠ .error .endless) ∧
        ∀ lines, (g.tokenizeLines limits lines stack).fault ≠ some .endless) := by
  refine ⟨?_, ?_, ?_⟩
  · intro line hadmits hunlimited hends
    exact tokenizeLine_of_unlimited hdepth hadmits hunlimited hends
  · intro lines hadmits hunlimited hends
    exact congrArg LinesRun.ofRuns (lineRuns_of_unlimited hdepth hadmits hunlimited hends)
  · intro e document compiled bounded
    obtain ⟨coherent, rfl⟩ := ofJson_coherent compiled
    refine ⟨fun line => tokenizeLine_ne_endless coherent bounded limits line stack, ?_⟩
    intro lines hendless
    obtain ⟨line, -, stack, hline⟩ := exists_line_of_fault hendless
    exact tokenizeLine_ne_endless coherent bounded limits line stack hline

/-- Two regions are open at most, which is just what the limit allows. -/
theorem tokenizeLines_of_looser_limits_sample :
    let lines := [Text.ofString "<cat", Text.ofString "<b", Text.ofString "cat<>"]
    (sample.tokenizeLines ⟨2, some 5⟩ lines .initial).results.map (fun r => r.stack.depth) =
        [1, 2, 1] ∧
      (sample.tokenizeLines ⟨2, some 5⟩ lines .initial).Unlimited ∧
      sample.tokenizeLines ⟨3, some 6⟩ lines .initial =
        sample.tokenizeLines ⟨2, some 5⟩ lines .initial := by
  intro lines
  have hdepths : (sample.tokenizeLines ⟨2, some 5⟩ lines .initial).results.map
      (fun r => r.stack.depth) = [1, 2, 1] := by
    decide +kernel
  have hunlimited : (sample.tokenizeLines ⟨2, some 5⟩ lines .initial).Unlimited := by
    decide +kernel
  have hadmits : ∀ line ∈ lines, Limits.Admits ⟨3, some 6⟩ line := by
    decide +kernel
  have hdepth : (⟨2, some 5⟩ : Limits).depth ≤ (⟨3, some 6⟩ : Limits).depth := by decide
  obtain ⟨-, hlines, hends⟩ := tokenizeLines_of_looser_limits (g := sample) hdepth .initial
  have hend := (hends _ _ ofJson_sample (Engine.plain_inBounds _ _)).2 lines
  exact ⟨hdepths, hunlimited, hlines lines hadmits hunlimited hend⟩

end Grammar

end LineScope
