import LineScope.Proofs.Scan.Frames
import LineScope.Proofs.Scan.Limits
import LineScope.Proofs.Scan.Tiling

/-!
The work that a scan does. An iteration searches for no more than the rules of one context and the
end of one region, and forces one step at most; every forced step takes the cursor past a character.
-/

namespace LineScope

variable {M : Type}

/-- A scan that stands in the line and was forced past no more characters than are behind it. -/
structure Scan.Paced (line : Text) (s : Scan M) : Prop where
  nonneg : 0 ≤ s.cursor
  le_size : s.cursor ≤ line.size
  forced_le : s.tally.forced ≤ s.cursor

namespace Scan

variable {g : Grammar M} {e : Engine M} {line : Text} {limits : Limits} {s t : Scan M}

def Outcome.scan : Outcome M → Scan M
  | .ok s => s
  | .error (_, s) => s

theorem tally_lineRun (o : Outcome M) : (lineRun o).tally = o.scan.tally := by
  rcases o with ⟨fault, s⟩ | s
  · rfl
  · rfl

theorem findRule_probes (e : Engine M) (line : Text) (cursor : Int) (rules : List (Rule M))
    (best : Option (Found M)) : (findRule e line cursor rules best).2 ≤ rules.length := by
  induction rules generalizing best with
  | nil => exact Nat.le_refl 0
  | cons r rest ih =>
      simp only [findRule]
      split
      · exact Nat.succ_le_succ (ih best)
      · split
        · split
          · exact Nat.le_add_left 1 rest.length
          · exact Nat.succ_le_succ (ih _)
        · exact Nat.succ_le_succ (ih best)

theorem choose_probes (e : Engine M) (line : Text) (cursor : Int) (c : Candidates M) :
    (choose e line cursor c).2 ≤ 1 + c.rules.length := by
  have hrules := findRule_probes e line cursor c.rules
  unfold choose
  split
  · have hnone := hrules none
    omega
  · split
    · have hnone := hrules none
      rcases hfound : findRule e line cursor c.rules none with ⟨best, probes⟩
      rw [hfound] at hnone
      simp only at hnone ⊢
      split
      · simp only
        omega
      · simp only
        omega
    · split
      · have hnone := hrules none
        simp only
        omega
      · rename_i m _
        split
        · simp only
          omega
        · have hsome := hrules (some ⟨.closer, m⟩)
          simp only
          omega

theorem tally_of_step (g : Grammar M) (line : Text) (limits : Limits) (s : Scan M) :
    ∃ probes forced, (step g line limits s).scan.tally =
        ⟨s.tally.iterations + 1, s.tally.probes + probes, s.tally.forced + forced⟩ ∧
      forced ≤ 1 ∧
      (probes = 0 ∨ ∃ c, candidates g s.stack = .ok c ∧ probes ≤ 1 + c.rules.length) := by
  have hprobes : ∀ {c found? probes}, candidates g s.stack = .ok c →
      choose g.engine line s.cursor c = (found?, probes) →
      probes = 0 ∨ ∃ c, candidates g s.stack = .ok c ∧ probes ≤ 1 + c.rules.length := by
    intro c found? probes hcandidates hchoose
    have hle := choose_probes g.engine line s.cursor c
    rw [hchoose] at hle
    exact .inr ⟨c, hcandidates, hle⟩
  have happlied : ∀ {found probes t}, (s.counted probes).apply g line limits found = .ok t →
      t.tally = ⟨s.tally.iterations + 1, s.tally.probes + probes, s.tally.forced⟩ := by
    intro found probes t happly
    rw [(apply_applies happly).tally_eq, reach_tally]
    rfl
  generalize h : step g line limits s = o
  cases iteration_of_step h with
  | lost => exact ⟨0, 0, rfl, Nat.zero_le 1, .inl rfl⟩
  | unmatched hcandidates hchoose =>
      exact ⟨_, 0, by simp [Step.scan, passTo, counted], Nat.zero_le 1,
        hprobes hcandidates hchoose⟩
  | broken hcandidates hchoose happly =>
      refine ⟨_, 0, ?_, Nat.zero_le 1, hprobes hcandidates hchoose⟩
      simp only [Step.scan]
      rw [(apply_breaks happly).tally_eq, reach_tally]
      rfl
  | moved hcandidates hchoose happly =>
      have ht := happlied happly
      exact ⟨_, 0, ht, Nat.zero_le 1, hprobes hcandidates hchoose⟩
  | noted hcandidates hchoose happly =>
      have ht := happlied happly
      exact ⟨_, 0, ht, Nat.zero_le 1, hprobes hcandidates hchoose⟩
  | forced hcandidates hchoose happly =>
      refine ⟨_, 1, ?_, Nat.le_refl 1, hprobes hcandidates hchoose⟩
      simp [Step.scan, forceStep, passTo, happlied happly]
  | stopped hcandidates hchoose happly =>
      exact ⟨_, 0, happlied happly, Nat.zero_le 1, hprobes hcandidates hchoose⟩

theorem forced_le_step (h : s.tally.forced ≤ s.tally.iterations) :
    (step g line limits s).scan.tally.forced ≤ (step g line limits s).scan.tally.iterations := by
  obtain ⟨probes, forced, htally, hforced, -⟩ := tally_of_step g line limits s
  rw [htally]
  simp only
  omega

theorem probes_le_step {most : Nat} (h : s.tally.probes ≤ s.tally.iterations * (1 + most))
    (hmost : ∀ context, g.context? s.stack.context = some context →
      context.rules.length ≤ most) :
    (step g line limits s).scan.tally.probes ≤
      (step g line limits s).scan.tally.iterations * (1 + most) := by
  obtain ⟨probes, forced, htally, -, hprobes⟩ := tally_of_step g line limits s
  have hsearched : probes ≤ 1 + most := by
    rcases hprobes with rfl | ⟨c, hcandidates, hle⟩
    · exact Nat.zero_le _
    · obtain ⟨context, hcontext, hrules⟩ := candidates_context hcandidates
      have hlength := hmost context hcontext
      rw [hrules] at hle
      omega
  rw [htally]
  simp only
  rw [Nat.add_mul (s.tally.iterations) 1, Nat.one_mul]
  exact Nat.add_le_add h hsearched

theorem cursor_of_apply {c : Candidates M} {found : Found M} {probes : Nat}
    (bounded : g.engine.InBounds) (h : Paced line s)
    (hchoose : choose g.engine line s.cursor c = (some found, probes))
    (happly : (s.counted probes).apply g line limits found = .ok t) :
    s.cursor ≤ t.cursor ∧ t.cursor ≤ line.size := by
  obtain ⟨hstart, hmatch, hsize⟩ := choose_bounds bounded h.nonneg h.le_size hchoose
  have hcursor := (apply_applies happly).cursor_eq (reach_cursor hstart)
  omega

theorem Breaks.cursor_eq {found : Found M} {fault : Fault}
    (h : Breaks g line limits s found fault t) :
    t.cursor = found.hit.stop ∨ t.cursor = s.cursor := by
  cases h with
  | unopened => exact .inr rfl
  | ruleless => exact .inr rfl
  | _ => exact .inl rfl

theorem Paced.step (bounded : g.engine.InBounds) (h : Paced line s) {o : Step M}
    (hstep : step g line limits s = o) : Paced line o.scan := by
  have hnonneg := h.nonneg
  have hforced := h.forced_le
  have happlied : ∀ {c found probes t}, choose g.engine line s.cursor c = (some found, probes) →
      (s.counted probes).apply g line limits found = .ok t → Paced line t := by
    intro c found probes t hchoose happly
    obtain ⟨hlow, hhigh⟩ := cursor_of_apply bounded h hchoose happly
    have htally : t.tally.forced = s.tally.forced := by
      rw [(apply_applies happly).tally_eq, reach_tally]
      rfl
    exact ⟨by omega, hhigh, by omega⟩
  cases iteration_of_step hstep with
  | lost => exact ⟨h.nonneg, h.le_size, h.forced_le⟩
  | unmatched =>
      have hsize := h.le_size
      refine ⟨Int.natCast_nonneg _, Int.le_refl _, ?_⟩
      simp only [Step.scan, passTo, emit_tally, counted]
      omega
  | @broken c found probes _ t _ hchoose happly =>
      obtain ⟨hstart, hmatch, hsize⟩ := choose_bounds bounded h.nonneg h.le_size hchoose
      have hbreaks := apply_breaks happly
      have hcursor : ((s.counted probes).reach g found.hit.start).cursor = found.hit.start :=
        reach_cursor hstart
      have htally : t.tally.forced = s.tally.forced := by
        rw [hbreaks.tally_eq, reach_tally]
        rfl
      simp only [Step.scan]
      rcases hbreaks.cursor_eq with hstop | hstop
      · exact ⟨by omega, by omega, by omega⟩
      · exact ⟨by omega, by omega, by omega⟩
  | moved _ hchoose happly =>
      have ht := happlied hchoose happly
      exact ⟨ht.nonneg, ht.le_size, ht.forced_le⟩
  | noted _ hchoose happly =>
      have ht := happlied hchoose happly
      exact ⟨ht.nonneg, ht.le_size, ht.forced_le⟩
  | @forced _ _ _ t _ hchoose happly _ _ hlt =>
      have ht := happlied hchoose happly
      have hlow := ht.nonneg
      have hbehind := ht.forced_le
      refine ⟨?_, ?_, ?_⟩
      · simp only [Step.scan, forceStep, passTo]
        omega
      · simp only [Step.scan, forceStep, passTo]
        omega
      · simp only [Step.scan, forceStep, passTo, emit_tally]
        omega
  | stopped _ hchoose happly => exact happlied hchoose happly

/-- What every iteration keeps, whether the loop goes on after it or not, holds of the scan that the
loop ends with. -/
theorem run_keeps {P : Scan M → Prop} (fuel : Nat)
    (hstep : ∀ t, Reaches g line limits s t → P t → P (Scan.step g line limits t).scan)
    (hs : P s) : P (run g line limits fuel s).scan := by
  induction fuel generalizing s with
  | zero => exact hs
  | succ fuel ih =>
      have hnext := hstep s .refl hs
      unfold run
      rcases hgoing : Scan.step g line limits s with t | t | ⟨fault, t⟩
      · rw [hgoing] at hnext
        exact ih (fun u hu => hstep u (.step hgoing hu)) hnext
      · rw [hgoing] at hnext
        exact hnext
      · rw [hgoing] at hnext
        exact hnext

theorem finish_keeps {P : Scan M → Prop}
    (hlong : ¬ limits.Admits line →
      ∀ n, P ((s.record (.lineTooLong line.size n)).passTo g line.size))
    (hstep : limits.Admits line →
      ∀ t, Reaches g line limits s t → P t → P (Scan.step g line limits t).scan)
    (hs : P s) : P (finish g line limits s).scan := by
  by_cases hadmits : limits.Admits line
  · rw [finish_of_admits hadmits]
    exact run_keeps _ (hstep hadmits) hs
  · have hlong := hlong hadmits
    simp only [Limits.Admits, not_forall] at hadmits
    obtain ⟨n, hlength, hlt⟩ := hadmits
    simp only [finish, Option.mem_def.mp hlength, if_pos (Int.not_le.mp hlt)]
    exact hlong n

end Scan

namespace Grammar

def Involves (g : Grammar M) (limits : Limits) (line : Text) (stack : Stack M)
    (context : Context M) : Prop :=
  limits.Admits line ∧ ∃ s t, Scan.resume g stack = .ok s ∧ Scan.Reaches g line limits s t ∧
    g.context? t.stack.context = some context

variable {g : Grammar M} {limits : Limits} {line : Text} {stack : Stack M}

theorem tally_of_resume_error {failure : Fault × Scan M}
    (h : Scan.resume g stack = .error failure) :
    (g.tokenizeLine limits line stack).tally = ⟨0, 0, 0⟩ := by
  simp only [tokenizeLine, h]
  unfold Scan.resume at h
  split at h
  · cases h
  · cases h
  · cases h
    rfl

/-- What holds of no work at all, and is kept by every iteration, holds of the work for a line. -/
theorem tally_keeps {P : Tally → Prop} (hzero : P ⟨0, 0, 0⟩)
    (hstep : limits.Admits line → ∀ s t, Scan.resume g stack = .ok s →
      Scan.Reaches g line limits s t → P t.tally → P (Scan.step g line limits t).scan.tally) :
    P (g.tokenizeLine limits line stack).tally := by
  rcases hresume : Scan.resume g stack with failure | s
  · rwa [tally_of_resume_error hresume]
  · rw [tokenizeLine_of_resume hresume, Scan.tally_lineRun]
    have hs : P s.tally := by
      rwa [(Scan.resume_eq_ok hresume).2.2.2]
    refine Scan.finish_keeps (P := fun t => P t.tally) (fun _ n => ?_) ?_ hs
    · simpa [Scan.passTo, Scan.record] using hs
    · exact fun hadmits t hreaches ht => hstep hadmits s t hresume hreaches ht

theorem forced_le_iterations (g : Grammar M) (limits : Limits) (line : Text) (stack : Stack M) :
    (g.tokenizeLine limits line stack).tally.forced ≤
      (g.tokenizeLine limits line stack).tally.iterations :=
  tally_keeps (P := fun t => t.forced ≤ t.iterations) (Nat.le_refl 0)
    fun _ _ _ _ _ ht => Scan.forced_le_step ht

/-- No iteration searches for more than the end of a region and the rules of a context. -/
theorem probes_le {most : Nat}
    (h : ∀ context, g.Involves limits line stack context → context.rules.length ≤ most) :
    (g.tokenizeLine limits line stack).tally.probes ≤
      (g.tokenizeLine limits line stack).tally.iterations * (1 + most) := by
  refine tally_keeps (P := fun t => t.probes ≤ t.iterations * (1 + most)) (Nat.zero_le _) ?_
  intro hadmits s t hresume hreaches ht
  refine Scan.probes_le_step ht fun context hcontext => ?_
  exact h context ⟨hadmits, s, t, hresume, hreaches, hcontext⟩

theorem forced_le_size (bounded : g.engine.InBounds) (limits : Limits) (line : Text)
    (stack : Stack M) : (g.tokenizeLine limits line stack).tally.forced ≤ line.size := by
  rcases hresume : Scan.resume g stack with failure | s
  · rw [tally_of_resume_error hresume]
    exact Nat.zero_le _
  · rw [tokenizeLine_of_resume hresume, Scan.tally_lineRun]
    obtain ⟨hcursor, -, -, htally⟩ := Scan.resume_eq_ok hresume
    have hs : Scan.Paced line s := by
      refine ⟨Int.le_of_eq hcursor.symm, ?_, ?_⟩
      · rw [hcursor]
        exact Int.natCast_nonneg _
      · rw [hcursor, htally]
        exact Int.le_refl 0
    have hpaced : Scan.Paced line (Scan.finish g line limits s).scan := by
      refine Scan.finish_keeps (fun _ n => ?_) (fun _ t _ ht => ht.step bounded rfl) hs
      have hforced := hs.forced_le
      have hsize := hs.le_size
      refine ⟨Int.natCast_nonneg _, Int.le_refl _, ?_⟩
      simp only [Scan.passTo, Scan.emit_tally, Scan.record]
      omega
    have hforced := hpaced.forced_le
    have hsize := hpaced.le_size
    omega

end Grammar

theorem Token.Covered.length_le {stop : Int} {tokens : List Token}
    (h : Token.Covered stop tokens) : tokens.length ≤ stop := by
  induction h with
  | nil => exact Int.le_refl 0
  | cons _ hlt _ ih =>
      rw [List.length_cons]
      omega

theorem Grammar.tokens_le_size {g : Grammar M} (bounded : g.engine.InBounds) {limits : Limits}
    {line : Text} {stack : Stack M} {r : LineResult M}
    (h : (g.tokenizeLine limits line stack).result = .ok r) : r.tokens.length ≤ line.size := by
  have hlength := (Grammar.tokenizeLine_covered bounded h).length_le
  rw [List.length_reverse] at hlength
  omega

end LineScope
