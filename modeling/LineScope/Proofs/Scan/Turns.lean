import LineScope.Proofs.Scan.Validity
import LineScope.Proofs.Stack.Cycle

/-!
Iterations without the guard. What an iteration that does not move the cursor does to the stack
depends on the depth, on the innermost rule and on the end pattern that its region was opened with,
and on nothing below; so a scan whose moves lead back to its stack stays where it is forever.
-/

namespace LineScope

variable {M : Type} {g : Grammar M} {line : Text} {limits : Limits}

/-- What decides how a scan goes on inside a region: the rule and the end pattern. -/
def Region.mark (f : Region) : Int × String := (f.rule, f.endSource)

def Stack.marks (s : Stack M) : List (Int × String) := s.map fun f => f.mark

@[simp] theorem Stack.length_marks (s : Stack M) : s.marks.length = s.depth := List.length_map ..

@[simp] theorem Stack.marks_pop (s : Stack M) : s.pop.marks = s.marks.tail := List.map_tail ..

theorem Stack.head?_marks (s : Stack M) : s.marks.head? = s.top?.map fun f => f.mark :=
  List.head?_map ..

theorem Frame.Valid.congr {f f' : Frame M} (h : f.Valid g) (h' : f'.Valid g)
    (hmark : f.mark = f'.mark) :
    f.rule = f'.rule ∧ f.context = f'.context ∧ f.closer = f'.closer := by
  obtain ⟨hrule, hend⟩ := Prod.mk.inj hmark
  obtain ⟨r, hr, hcontext⟩ := h.region
  obtain ⟨r', hr', hcontext'⟩ := h'.region
  obtain ⟨m, hm, hcloser⟩ := h.closer
  obtain ⟨m', hm', hcloser'⟩ := h'.closer
  rw [hrule, hr'] at hr
  cases hr
  have hsame : Stack.closerFor g f = Stack.closerFor g f' := by
    simp only [Stack.closerFor, hrule, hend]
  rw [hsame, hm'] at hm
  cases hm
  exact ⟨hrule, by rw [hcontext, hcontext'], by rw [hcloser, hcloser']⟩

namespace Scan

variable {s t : Scan M} {found : Found M}

def attempt (g : Grammar M) (line : Text) (limits : Limits) (s : Scan M) :
    Option (Found M × Scan M) :=
  match candidates g s.stack with
  | .error _ => none
  | .ok among =>
    match choose g.engine line s.cursor among with
    | (none, _) => none
    | (some found, probes) =>
      match (s.counted probes).apply g line limits found with
      | .error _ => none
      | .ok t => some (found, t)

def turns (g : Grammar M) (line : Text) (limits : Limits) : Nat → Scan M → Option (Scan M)
  | 0, s => some s
  | n + 1, s => (attempt g line limits s).bind fun (_, t) => turns g line limits n t

/-- Without the guard the scan would go on forever and never move the cursor. -/
def Stuck (g : Grammar M) (line : Text) (limits : Limits) (s : Scan M) : Prop :=
  ∀ n, ∃ t, turns g line limits n s = some t ∧ t.cursor = s.cursor

theorem attempt_eq_some : attempt g line limits s = some (found, t) ↔
    ∃ c probes, candidates g s.stack = .ok c ∧
      choose g.engine line s.cursor c = (some found, probes) ∧
      (s.counted probes).apply g line limits found = .ok t := by
  constructor
  · intro h
    unfold attempt at h
    split at h
    · cases h
    · rename_i c hc
      split at h
      · cases h
      · rename_i found' probes hchoose
        split at h
        · cases h
        · rename_i t' happly
          cases h
          exact ⟨c, probes, hc, hchoose, happly⟩
  · rintro ⟨c, probes, hc, hchoose, happly⟩
    simp only [attempt, hc, hchoose, happly]

theorem candidates_congr {stack stack' : Stack M} (h : stack.Valid g) (h' : stack'.Valid g)
    (htop : stack.marks.head? = stack'.marks.head?) : candidates g stack = candidates g stack' := by
  rcases stack with _ | ⟨f, outer⟩
  · rcases stack' with _ | ⟨f', outer'⟩
    · rfl
    · cases htop
  · rcases stack' with _ | ⟨f', outer'⟩
    · cases htop
    · obtain ⟨hrule, hcontext, hcloser⟩ := (h f (List.mem_cons_self ..)).congr
        (h' f' (List.mem_cons_self ..)) (Option.some.inj htop)
      simp only [candidates, Stack.top?, List.head?_cons, hrule, hcontext, hcloser]

theorem reach_cursor_congr {s s' : Scan M} (h : s.cursor = s'.cursor) (start : Int) :
    (s.reach g start).cursor = (s'.reach g start).cursor := by
  unfold reach
  rw [h]
  split
  · rfl
  · exact h

theorem openRegion_moves {r : RegionRule M} {hit : Match}
    (h : s.openRegion g line limits r hit = .ok t) :
    t.cursor = hit.stop ∧ ∃ m : Move (Int × String), t.stack.marks = m.apply s.stack.marks ∧
      ∀ s' : Scan M, s'.stack.depth = s.stack.depth →
        ∃ t', s'.openRegion g line limits r hit = .ok t' ∧ t'.cursor = hit.stop ∧
          t'.stack.marks = m.apply s'.stack.marks := by
  have happlied := openRegion_applied g line limits s r hit
  rw [h] at happlied
  cases happlied with
  | capped hdepth =>
      refine ⟨rfl, .stay, ?_, fun s' hsame => ?_⟩
      · simp only [record, cover_stack, Move.apply]
      · rw [← hsame] at hdepth
        refine ⟨_, by simp only [openRegion, cover_stack, if_pos hdepth]; rfl, rfl, ?_⟩
        simp only [record, cover_stack, Move.apply]
  | @opened _ _ m hdepth hcloser =>
      refine ⟨rfl, .push (r.id, r.endSource), rfl, fun s' hsame => ?_⟩
      rw [← hsame] at hdepth
      have hfree := Int.not_le.mpr hdepth
      refine ⟨_, by simp only [openRegion, cover_stack, if_neg hfree, hcloser]; rfl, rfl, rfl⟩
  | @bound _ _ endSource m hdepth hcloser hresolve hcompile =>
      refine ⟨rfl, .push (r.id, endSource), rfl, fun s' hsame => ?_⟩
      rw [← hsame] at hdepth
      refine ⟨_, by simp only [openRegion, cover_stack, if_neg (Int.not_le.mpr hdepth), hcloser,
        bindEnd, hresolve, hcompile]; rfl, rfl, ?_⟩
      rfl
  | @blanked _ _ endSource reason m hdepth hcloser hresolve hcompile hblank =>
      refine ⟨rfl, .push (r.id, BackReference.blank r.endSource), rfl, fun s' hsame => ?_⟩
      rw [← hsame] at hdepth
      refine ⟨_, by simp only [openRegion, cover_stack, if_neg (Int.not_le.mpr hdepth), hcloser,
        bindEnd, hresolve, hcompile, hblank]; rfl, rfl, ?_⟩
      simp only [record, cover_stack]
      rfl

theorem closeRegion_moves {hit : Match} (h : s.closeRegion g hit = .ok t) :
    t.cursor = hit.stop ∧ t.stack.marks = s.stack.marks.tail ∧
      ∀ s' : Scan M, s'.stack.marks.head? = s.stack.marks.head? →
        ∃ t', s'.closeRegion g hit = .ok t' ∧ t'.cursor = hit.stop ∧
          t'.stack.marks = s'.stack.marks.tail := by
  have happlied := closeRegion_applied g #[] .default s hit
  rw [h] at happlied
  cases happlied with
  | @closed f rule _ captures htop hrule =>
      refine ⟨rfl, Stack.marks_pop _, fun s' hsame => ?_⟩
      rw [Stack.head?_marks, Stack.head?_marks, htop] at hsame
      obtain ⟨f', htop', hmark⟩ := Option.map_eq_some_iff.mp hsame
      rw [← (Prod.mk.inj hmark).1] at hrule
      rcases rule with r | r
      · refine ⟨_, by simp only [closeRegion, htop', hrule]; rfl, rfl, ?_⟩
        exact Stack.marks_pop _
      · refine ⟨_, by simp only [closeRegion, htop', hrule]; rfl, rfl, ?_⟩
        exact Stack.marks_pop _

theorem applyLeaf_stack (s : Scan M) (g : Grammar M) (r : MatchRule M) (hit : Match) :
    (s.applyLeaf g r hit).stack = s.stack := by
  unfold applyLeaf
  split
  · rfl
  · exact cover_stack ..

theorem applyLeaf_cursor (s : Scan M) (g : Grammar M) (r : MatchRule M) (hit : Match) :
    (s.applyLeaf g r hit).cursor = if hit.isEmpty then s.cursor else hit.stop := by
  unfold applyLeaf
  split <;> rfl

/-- The moves that are possible at a place, in all scans with a given mark on top and of a given
depth. -/
def Moves (g : Grammar M) (line : Text) (limits : Limits) (cursor : Int)
    (top : Option (Int × String)) (depth : Nat) (m : Move (Int × String)) : Prop :=
  ∀ s : Scan M, s.cursor = cursor → s.stack.Valid g → s.stack.marks.head? = top →
    s.stack.depth = depth → ∃ found t, attempt g line limits s = some (found, t) ∧
      t.cursor = cursor ∧ t.stack.marks = m.apply s.stack.marks

theorem apply_moves {probes : Nat} (h : (s.counted probes).apply g line limits found = .ok t) :
    ∃ m : Move (Int × String), t.stack.marks = m.apply s.stack.marks ∧
      ∀ s' : Scan M, s'.cursor = s.cursor → s'.stack.marks.head? = s.stack.marks.head? →
        s'.stack.depth = s.stack.depth →
        ∃ t', (s'.counted probes).apply g line limits found = .ok t' ∧ t'.cursor = t.cursor ∧
          t'.stack.marks = m.apply s'.stack.marks := by
  rcases found with ⟨winner, hit⟩
  rcases winner with _ | r | r
  · have hclose : ((s.counted probes).reach g hit.start).closeRegion g hit = .ok t := h
    obtain ⟨hcursor, hmarks, hothers⟩ := closeRegion_moves hclose
    refine ⟨.pop, ?_, fun s' _ htop _ => ?_⟩
    · simpa [Move.apply] using hmarks
    · obtain ⟨t', ht', hcursor', hmarks'⟩ :=
        hothers ((s'.counted probes).reach g hit.start) (by simpa using htop)
      exact ⟨t', ht', by rw [hcursor', hcursor], by simpa [Move.apply] using hmarks'⟩
  · have hleaf : ((s.counted probes).reach g hit.start).applyLeaf g r hit = t := Except.ok.inj h
    subst hleaf
    refine ⟨.stay, ?_, fun s' hcursor _ _ =>
      ⟨((s'.counted probes).reach g hit.start).applyLeaf g r hit, rfl, ?_, ?_⟩⟩
    · simp only [applyLeaf_stack, reach_stack, counted_stack, Move.apply]
    · have hcounted : (s'.counted probes).cursor = (s.counted probes).cursor := hcursor
      have hreach : ((s'.counted probes).reach g hit.start).cursor =
          ((s.counted probes).reach g hit.start).cursor :=
        reach_cursor_congr hcounted _
      simp only [applyLeaf_cursor, hreach]
    · simp only [applyLeaf_stack, reach_stack, counted_stack, Move.apply]
  · have hopen : ((s.counted probes).reach g hit.start).openRegion g line limits r hit = .ok t := h
    obtain ⟨hcursor, m, hmarks, hothers⟩ := openRegion_moves hopen
    refine ⟨m, ?_, fun s' _ _ hdepth => ?_⟩
    · simpa using hmarks
    · obtain ⟨t', ht', hcursor', hmarks'⟩ :=
        hothers ((s'.counted probes).reach g hit.start) (by simpa using hdepth)
      exact ⟨t', ht', by rw [hcursor', hcursor], by simpa using hmarks'⟩

/-- An iteration that does not move the cursor makes a move of the stack that is possible wherever
the mark on top and the depth are the same. -/
theorem exists_move (valid : s.stack.Valid g) (h : attempt g line limits s = some (found, t))
    (hcursor : t.cursor = s.cursor) :
    ∃ m, Moves g line limits s.cursor s.stack.marks.head? s.stack.depth m ∧
      t.stack.marks = m.apply s.stack.marks := by
  obtain ⟨c, probes, hc, hchoose, happly⟩ := attempt_eq_some.mp h
  obtain ⟨m, hmarks, hothers⟩ := apply_moves happly
  refine ⟨m, fun s' hcursor' valid' htop hdepth => ?_, hmarks⟩
  obtain ⟨t', ht', htcursor, hmarks'⟩ := hothers s' hcursor' htop hdepth
  refine ⟨found, t', attempt_eq_some.mpr ⟨c, probes, ?_, ?_, ht'⟩, htcursor.trans hcursor, hmarks'⟩
  · rw [candidates_congr valid' valid htop, hc]
  · rw [hcursor', hchoose]

theorem valid_of_attempt (coherent : g.Coherent) (valid : s.stack.Valid g)
    (h : attempt g line limits s = some (found, t)) : t.stack.Valid g := by
  obtain ⟨c, probes, hc, hchoose, happly⟩ := attempt_eq_some.mp h
  exact (valid_invariant coherent).apply valid hc hchoose happly

theorem turns_of_runs (coherent : g.Coherent) {n : Nat} {cursor : Int}
    {marks last : List (Int × String)} (h : Move.Runs (Moves g line limits cursor) n marks last)
    (hcursor : s.cursor = cursor) (valid : s.stack.Valid g) (hmarks : s.stack.marks = marks) :
    ∃ t, turns g line limits n s = some t ∧ t.cursor = cursor := by
  induction h generalizing s with
  | refl => exact ⟨s, rfl, hcursor⟩
  | move hmove _ ih =>
      subst hmarks
      obtain ⟨found, t, hattempt, htcursor, htmarks⟩ :=
        hmove s hcursor valid rfl (Stack.length_marks _).symm
      obtain ⟨u, hturns, hucursor⟩ := ih htcursor (valid_of_attempt coherent valid hattempt) htmarks
      refine ⟨u, ?_, hucursor⟩
      simp only [turns, hattempt, Option.bind_some]
      exact hturns

/-- A stack that its moves lead back to keeps the scan where it is. -/
theorem stuck_of_cycle (coherent : g.Coherent) (valid : s.stack.Valid g) {k : Nat} (hk : 0 < k)
    (h : Move.Runs (Moves g line limits s.cursor) k s.stack.marks s.stack.marks) :
    Stuck g line limits s := by
  intro n
  obtain ⟨marks, hruns⟩ := h.forever hk n
  exact turns_of_runs coherent hruns rfl valid rfl

end Scan

end LineScope
