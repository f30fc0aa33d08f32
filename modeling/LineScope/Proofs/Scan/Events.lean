import LineScope.Proofs.Scan.Run

namespace LineScope.Scan

variable {M : Type}

/-- The scan with other events before its own. Both lists have the last event first. -/
def behind (earlier : List Event) (s : Scan M) : Scan M :=
  { s with events := s.events ++ earlier }

def Outcome.behind (earlier : List Event) : Outcome M → Outcome M
  | .ok s => .ok (s.behind earlier)
  | .error (fault, s) => .error (fault, s.behind earlier)

def Step.behind (earlier : List Event) : Step M → Step M
  | .going s => .going (s.behind earlier)
  | .finished s => .finished (s.behind earlier)
  | .failed fault s => .failed fault (s.behind earlier)

variable (earlier : List Event) (g : Grammar M) (line : Text) (limits : Limits) (s : Scan M)

theorem emit_behind (t : Token) : (s.behind earlier).emit t = (s.emit t).behind earlier := by
  unfold emit
  split
  · rfl
  · rfl

theorem emitAll_behind (tokens : List Token) :
    (s.behind earlier).emitAll tokens = (s.emitAll tokens).behind earlier := by
  induction tokens generalizing s with
  | nil => rfl
  | cons t rest ih =>
      have hrest := ih (s.emit t)
      rw [← emit_behind] at hrest
      exact hrest

theorem passTo_behind (stop : Int) :
    (s.behind earlier).passTo g stop = (s.passTo g stop).behind earlier := by
  have hemit := emit_behind earlier s ⟨s.cursor, stop, s.stack.scopes g.scopeName⟩
  exact congrArg (fun t : Scan M => { t with cursor := stop }) hemit

theorem cover_behind (m : Match) (captures : List Capture) (scopes : ScopePath) :
    (s.behind earlier).cover m captures scopes = (s.cover m captures scopes).behind earlier := by
  unfold cover
  rw [emitAll_behind]
  rfl

theorem applyLeaf_behind (r : MatchRule M) (m : Match) :
    (s.behind earlier).applyLeaf g r m = (s.applyLeaf g r m).behind earlier := by
  unfold applyLeaf
  split
  · rfl
  · exact cover_behind earlier s m r.captures ((s.stack.scopes g.scopeName).extend r.scope)

theorem bindEnd_behind (r : RegionRule M) (m : Match) :
    (s.behind earlier).bindEnd g line r m =
      match s.bindEnd g line r m with
      | .ok (endSource, closer, t) => .ok (endSource, closer, t.behind earlier)
      | .error (fault, t) => .error (fault, t.behind earlier) := by
  unfold bindEnd
  rcases BackReference.resolve r.endSource line m.groups with tooLong | bound
  · rfl
  · simp only
    rcases g.engine.compile bound with (reason | reason) | closer
    · simp only
      rcases g.engine.compile (BackReference.blank r.endSource) with (reason | reason) | closer
      · rfl
      · rfl
      · rfl
    · rfl
    · rfl

theorem openRegion_behind (r : RegionRule M) (m : Match) :
    (s.behind earlier).openRegion g line limits r m =
      Outcome.behind earlier (s.openRegion g line limits r m) := by
  have hstack : (s.behind earlier).stack = s.stack := rfl
  unfold openRegion
  simp only [hstack, cover_behind]
  generalize s.cover m r.beginCaptures ((s.stack.scopes g.scopeName).extend r.scope) = t
  have hdepth : (t.behind earlier).stack.depth = t.stack.depth := rfl
  rw [hdepth]
  split
  · rfl
  · rcases r.closer with _ | closer
    · simp only [bindEnd_behind]
      rcases t.bindEnd g line r m with ⟨fault, u⟩ | ⟨endSource, closer, u⟩
      · rfl
      · rfl
    · rfl

theorem closeRegion_behind (m : Match) :
    (s.behind earlier).closeRegion g m = Outcome.behind earlier (s.closeRegion g m) := by
  have hstack : (s.behind earlier).stack = s.stack := rfl
  unfold closeRegion
  simp only [hstack, cover_behind]
  rcases s.stack.top? with _ | f
  · rfl
  · simp only
    rcases g.rule? f.rule with _ | (r | r)
    · rfl
    · rfl
    · rfl

theorem reach_behind (start : Int) :
    (s.behind earlier).reach g start = (s.reach g start).behind earlier := by
  unfold reach
  rw [passTo_behind]
  exact (apply_ite (behind earlier) (s.cursor < start) _ _).symm

theorem apply_behind (found : Found M) :
    (s.behind earlier).apply g line limits found =
      Outcome.behind earlier (s.apply g line limits found) := by
  have hreach := reach_behind earlier g s found.hit.start
  rcases found with ⟨_ | (r | r), hit⟩
  · have hclose := closeRegion_behind earlier g (s.reach g hit.start) hit
    rw [← hreach] at hclose
    exact hclose
  · have hleaf := applyLeaf_behind earlier g (s.reach g hit.start) r hit
    rw [← hreach] at hleaf
    exact congrArg Except.ok hleaf
  · have hopen := openRegion_behind earlier g line limits (s.reach g hit.start) r hit
    rw [← hreach] at hopen
    exact hopen

theorem guard_behind (w : Winner M) :
    (s.behind earlier).guard g line w = Step.behind earlier (s.guard g line w) := by
  have hforce : (s.behind earlier).forceStep g = (s.forceStep g).behind earlier := by
    have hpass := passTo_behind earlier g s (s.cursor + 1)
    exact congrArg (fun t : Scan M =>
      { t with tally := { t.tally with forced := t.tally.forced + 1 } }) hpass
  have hcursor : (s.behind earlier).cursor = s.cursor := rfl
  have hseen : (s.behind earlier).seen = s.seen := rfl
  have hstate : (s.behind earlier).state = s.state := rfl
  unfold guard
  rw [hforce, hcursor, hseen, hstate]
  split
  · split
    · rfl
    · rfl
  · rfl

theorem step_behind :
    step g line limits (s.behind earlier) = Step.behind earlier (step g line limits s) := by
  have hstack : (s.behind earlier).stack = s.stack := rfl
  have hcursor : (s.behind earlier).cursor = s.cursor := rfl
  rcases hcandidates : candidates g s.stack with fault | c
  · simp only [step, hstack, hcandidates]
    rfl
  · rw [step_eq hcandidates, step_eq (hstack ▸ hcandidates), hcursor]
    have hcounted : ∀ probes,
        (s.behind earlier).counted probes = (s.counted probes).behind earlier := fun _ => rfl
    rcases choose g.engine line s.cursor c with ⟨_ | found, probes⟩
    · simp only [hcounted, passTo_behind]
      rfl
    · simp only [hcounted, apply_behind]
      rcases (s.counted probes).apply g line limits found with ⟨fault, t⟩ | t
      · rfl
      · simp only [Outcome.behind, guard_behind]
        change (if s.cursor < t.cursor then _ else _) = _
        split
        · rfl
        · rfl

theorem run_behind (fuel : Nat) :
    run g line limits fuel (s.behind earlier) =
      Outcome.behind earlier (run g line limits fuel s) := by
  induction fuel generalizing s with
  | zero => rfl
  | succ fuel ih =>
      rw [run, run, step_behind]
      rcases step g line limits s with t | t | ⟨fault, t⟩
      · exact ih t
      · rfl
      · rfl

theorem finish_behind :
    finish g line limits (s.behind earlier) = Outcome.behind earlier (finish g line limits s) := by
  have hfuel : fuel g line limits (s.behind earlier) = fuel g line limits s := rfl
  unfold finish
  rw [hfuel, run_behind]
  split
  · rename_i limit _
    split
    · exact congrArg Except.ok
        (passTo_behind earlier g (s.record (.lineTooLong line.size limit)) line.size)
    · rfl
  · rfl

/-- The events before a scan are told before those of the scan, and the rest stays as it is. -/
theorem lineRun_behind (o : Outcome M) :
    (lineRun (o.behind earlier)).result = (lineRun o).result ∧
      (lineRun (o.behind earlier)).tally = (lineRun o).tally ∧
      (lineRun (o.behind earlier)).events = earlier.reverse ++ (lineRun o).events := by
  rcases o with ⟨fault, t⟩ | t
  · exact ⟨rfl, rfl, List.reverse_append⟩
  · exact ⟨rfl, rfl, List.reverse_append⟩

end LineScope.Scan
