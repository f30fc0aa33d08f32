import Mathlib.Data.List.Perm.Subperm
import Mathlib.Data.List.ProdSigma
import LineScope.Proofs.Scan.Frames

/-!
The scan of a line comes to an end. At one place, every iteration that does not move the cursor
meets a new state, and there are only so many: one for every depth and every rule for regions, and
one for the initial stack.
-/

namespace LineScope.Scan

variable {M : Type} {g : Grammar M} {line : Text} {limits : Limits} {s t : Scan M}

def regionIds (g : Grammar M) : List Int := (g.rules.filter Rule.isRegion).map fun r => (r.id : Int)

/-- The states that a scan with at most `most` open regions can be in at one place. -/
def states (g : Grammar M) (most : Nat) : List (Nat × Int) :=
  (0, -1) :: List.range' 1 most ×ˢ regionIds g

theorem length_states (g : Grammar M) (most : Nat) :
    (states g most).length = most * g.regionCount + 1 := by
  rw [states, List.length_cons, List.length_product, List.length_range', regionIds,
    List.length_map, Grammar.regionCount, List.countP_eq_length_filter]

theorem state_mem_states {most : Nat} (coherent : g.Coherent) (h : Framed g most s) :
    s.state ∈ states g most := by
  have hdepth := h.depth_le
  unfold state
  rcases hstack : s.stack with _ | ⟨f, outer⟩
  · exact List.mem_cons_self ..
  · obtain ⟨r, hr, -⟩ := (h.belongs f (by rw [hstack]; exact List.mem_cons_self ..)).region
    have hid : f.rule ∈ regionIds g := by
      rw [← coherent.id_eq hr]
      refine List.mem_map.mpr ⟨.region r, ?_, rfl⟩
      exact List.mem_filter.mpr ⟨Grammar.region?_mem hr, rfl⟩
    rw [hstack] at hdepth
    refine List.mem_cons_of_mem _ (List.mem_product.mpr ⟨?_, hid⟩)
    simp only [Stack.depth, List.length_cons] at hdepth ⊢
    rw [List.mem_range'_1]
    omega

/-- Where a scan stands that moves on: the cursor is in the line, and the states met at the cursor
are different ones of those that there are. -/
structure OnCourse (g : Grammar M) (line : Text) (most : Nat) (s : Scan M) : Prop where
  framed : Framed g most s
  nonneg : 0 ≤ s.cursor
  le_size : s.cursor ≤ line.size
  nodup : s.seen.Nodup
  seen : s.seen ⊆ states g most

/-- How many more iterations can follow: at every place behind the cursor one for each state and
one more, and at the cursor one for each state not met yet. -/
def left (g : Grammar M) (line : Text) (most : Nat) (s : Scan M) : Nat :=
  (line.size - s.cursor).toNat * (most * g.regionCount + 2) +
    (most * g.regionCount + 1 - s.seen.length)

theorem OnCourse.length_seen {most : Nat} (h : OnCourse g line most s) :
    s.seen.length ≤ most * g.regionCount + 1 := by
  rw [← length_states g most]
  exact (List.subperm_of_subset h.nodup h.seen).length_le

theorem OnCourse.left_lt_of_moved {most : Nat} (h : OnCourse g line most s)
    (hcursor : s.cursor < t.cursor) (hsize : t.cursor ≤ line.size) (hseen : t.seen = []) :
    left g line most t < left g line most s := by
  have hlength := h.length_seen
  have hplaces : (line.size - t.cursor).toNat + 1 ≤ (line.size - s.cursor).toNat := by omega
  have hmul := Nat.mul_le_mul_right (most * g.regionCount + 2) hplaces
  rw [Nat.add_mul, Nat.one_mul] at hmul
  simp only [left, hseen, List.length_nil]
  omega

/-- Every iteration that the loop goes on after uses up some of what is left. -/
theorem OnCourse.going {most : Nat} (coherent : g.Coherent) (bounded : g.engine.InBounds)
    (hmost : limits.depth.toNat ≤ most) (h : OnCourse g line most s)
    (hstep : step g line limits s = .going t) :
    OnCourse g line most t ∧ left g line most t < left g line most s := by
  have hframed := h.framed.going coherent hmost hstep
  -- what the winner leaves: the cursor at the end of its match, and the states as they were
  have hwinner : ∀ {c found probes u}, choose g.engine line s.cursor c = (some found, probes) →
      (s.counted probes).apply g line limits found = .ok u →
      s.cursor ≤ u.cursor ∧ u.cursor ≤ line.size ∧ u.seen = s.seen := by
    intro c found probes u hchoose happly
    obtain ⟨hstart, hmatch, hsize⟩ := choose_bounds bounded h.nonneg h.le_size hchoose
    have happlies := apply_applies happly
    have hcursor := happlies.cursor_eq (reach_cursor hstart)
    refine ⟨by omega, by omega, ?_⟩
    rw [happlies.seen_eq, reach_seen, counted_seen]
  cases iteration_of_step hstep with
  | moved _ hchoose happly hlt =>
      obtain ⟨hlow, hsize, -⟩ := hwinner hchoose happly
      refine ⟨⟨hframed, ?_, hsize, List.nodup_nil, List.nil_subset _⟩, ?_⟩
      · exact Int.le_trans h.nonneg hlow
      · exact h.left_lt_of_moved hlt hsize rfl
  | @noted _ _ _ u _ hchoose happly hle _ hnew =>
      obtain ⟨hlow, hsize, hseen⟩ := hwinner hchoose happly
      have hstate : u.state ∈ states g most :=
        state_mem_states coherent (s := u) ⟨hframed.belongs, hframed.depth_le⟩
      have hcourse : OnCourse g line most { u with seen := u.state :: u.seen } := by
        refine ⟨hframed, Int.le_trans h.nonneg hlow, hsize, ?_, ?_⟩
        · exact List.nodup_cons.mpr ⟨hnew, hseen ▸ h.nodup⟩
        · exact List.cons_subset.mpr ⟨hstate, hseen ▸ h.seen⟩
      refine ⟨hcourse, ?_⟩
      have hcursor : u.cursor = s.cursor := Int.le_antisymm hle hlow
      have hlength := hcourse.length_seen
      simp only [left, hcursor, hseen, List.length_cons] at hlength ⊢
      omega
  | @forced _ _ _ u _ hchoose happly _ _ hlt =>
      obtain ⟨hlow, -, -⟩ := hwinner hchoose happly
      have hnonneg := h.nonneg
      have hcursor : (u.forceStep g).cursor = u.cursor + 1 := rfl
      refine ⟨⟨hframed, ?_, ?_, List.nodup_nil, List.nil_subset _⟩, ?_⟩
      · simp only [hcursor]
        omega
      · simp only [hcursor]
        omega
      · refine h.left_lt_of_moved ?_ ?_ rfl
        · simp only [hcursor]
          omega
        · simp only [hcursor]
          omega

theorem OnCourse.ends {most : Nat} (coherent : g.Coherent) (bounded : g.engine.InBounds)
    (hmost : limits.depth.toNat ≤ most) (h : OnCourse g line most s) :
    ∃ n o, Ends g line limits s n o ∧ n ≤ left g line most s + 1 := by
  generalize hleft : left g line most s = k
  induction k using Nat.strongRecOn generalizing s with
  | ind k ih =>
      subst hleft
      rcases hstep : step g line limits s with t | t | ⟨fault, t⟩
      · obtain ⟨hcourse, hlt⟩ := h.going coherent bounded hmost hstep
        obtain ⟨n, o, hends, hn⟩ := ih _ hlt hcourse rfl
        exact ⟨n + 1, o, .going hstep hends, by omega⟩
      · exact ⟨1, _, .finished hstep, by omega⟩
      · exact ⟨1, _, .failed hstep, by omega⟩

theorem resume_ends {stack : Stack M} (coherent : g.Coherent) (bounded : g.engine.InBounds)
    (limits : Limits) (line : Text) (h : resume g stack = .ok s) :
    ∃ n o, Ends g line limits s n o ∧ n ≤ fuel g line limits s := by
  obtain ⟨hcursor, -, hseen, -⟩ := resume_eq_ok h
  have hcourse : OnCourse g line (max s.stack.depth limits.depth.toNat) s := by
    refine ⟨(resume_framed h).mono (Nat.le_max_left ..), ?_, ?_, ?_, ?_⟩
    · exact Int.le_of_eq hcursor.symm
    · rw [hcursor]
      exact Int.natCast_nonneg _
    · rw [hseen]
      exact List.nodup_nil
    · rw [hseen]
      exact List.nil_subset _
  obtain ⟨n, o, hends, hn⟩ := hcourse.ends coherent bounded (Nat.le_max_right ..)
  refine ⟨n, o, hends, Nat.le_trans hn ?_⟩
  simp only [left, fuel, hcursor, hseen, List.length_nil]
  rw [Int.sub_zero, Int.toNat_natCast, Nat.add_mul, Nat.one_mul]
  omega

theorem resume_ne_endless {stack : Stack M} {fault : Fault}
    (h : resume g stack = .error (fault, s)) : fault ≠ .endless := by
  unfold resume at h
  split at h
  · cases h
  · cases h
  · cases h
    exact Fault.noConfusion

end LineScope.Scan

namespace LineScope

theorem Grammar.tokenizeLine_ne_endless {M : Type} {g : Grammar M} (coherent : g.Coherent)
    (bounded : g.engine.InBounds) (limits : Limits) (line : Text) (stack : Stack M) :
    (g.tokenizeLine limits line stack).result ≠ .error .endless := by
  rcases hresume : Scan.resume g stack with ⟨fault, s⟩ | s
  · have hfault := Scan.resume_ne_endless hresume
    simpa [tokenizeLine, hresume, Except.bind, Scan.lineRun] using hfault
  · obtain ⟨n, o, hends, hn⟩ := Scan.resume_ends coherent bounded limits line hresume
    rw [tokenizeLine_of_resume hresume]
    exact hends.finish_ne_endless hn

/-- The loop ends on every line, from every stack, if the engine finds matches in bounds: every
place of the line, and the one behind it, takes an iteration for each state and one more at most.
So the bound that the loop is given never cuts it off. -/
theorem Grammar.tokenizeLine_terminates {M : Type} {e : Engine M} {document : Json}
    {g : Grammar M} (compiled : Grammar.ofJson e document = .ok g) (bounded : e.InBounds)
    (limits : Limits) (line : Text) {stack : Stack M} {s : Scan M}
    (resumed : Scan.resume g stack = .ok s) :
    ∃ n o, Scan.Ends g line limits s n o ∧
      n ≤ (line.size + 1) * (max s.stack.depth limits.depth.toNat * g.regionCount + 2) ∧
      Scan.run g line limits (Scan.fuel g line limits s) s = o ∧
      (g.tokenizeLine limits line stack).tally.iterations ≤ n ∧
      (g.tokenizeLine limits line stack).result ≠ .error .endless := by
  obtain ⟨coherent, rfl⟩ := ofJson_coherent compiled
  obtain ⟨n, o, hends, hn⟩ := Scan.resume_ends coherent bounded limits line resumed
  have hiterations := hends.iterations_eq
  have hzero : s.tally.iterations = 0 := by
    rw [(Scan.resume_eq_ok resumed).2.2.2]
  refine ⟨n, o, hends, hn, hends.run_eq hn, ?_, ?_⟩
  · rw [tokenizeLine_of_resume resumed]
    rcases Scan.finish_of_ends hends hn with hfinish | ⟨t, hfinish, ht⟩
    · rw [hfinish]
      omega
    · rw [hfinish]
      simp only [Scan.lineRun, ht, hzero]
      omega
  · rw [tokenizeLine_of_resume resumed]
    exact hends.finish_ne_endless hn

theorem Grammar.tokenizeLine_terminates_sample :
    ∃ s n o, Scan.resume sample .initial = .ok s ∧
      Scan.Ends sample (Text.ofString "cat <b <> <") .default s n o ∧
      n ≤ (11 + 1) * (max 0 100 * sample.regionCount + 2) := by
  obtain ⟨n, o, hends, hn, -⟩ := tokenizeLine_terminates ofJson_sample (Engine.plain_inBounds _ _)
    .default (Text.ofString "cat <b <> <") (show Scan.resume sample .initial = .ok _ from rfl)
  exact ⟨_, n, o, rfl, hends, hn⟩

end LineScope
