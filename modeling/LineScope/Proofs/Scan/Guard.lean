import LineScope.Proofs.Grammar.Form
import LineScope.Proofs.Scan.Progress
import LineScope.Proofs.Scan.Turns

/-!
The guard against scans that do not move. It takes a scan for stuck when a begin or an end without
characters leads to a depth and an innermost rule that were met at the cursor before. It is right,
unless the region that was innermost then has another end pattern than the one that is now.
-/

namespace LineScope

variable {M : Type} {g : Grammar M} {line : Text} {limits : Limits}

namespace Scan

variable {s t origin : Scan M} {found : Found M}

/-- The guard speaks up about what an iteration leads to: a begin or an end has not moved the
cursor, and the state was met there before. -/
structure Alarm (g : Grammar M) (line : Text) (limits : Limits) (s t : Scan M) : Prop where
  attempted : ∃ found, attempt g line limits s = some (found, t) ∧ found.winner.isLeaf = false
  stays : t.cursor ≤ s.cursor
  met : t.state ∈ t.seen

theorem Alarm.step_eq (h : Alarm g line limits s t) :
    step g line limits s =
      if line.size ≤ t.cursor then .finished t else .going { t.forceStep g with seen := [] } := by
  obtain ⟨found, hattempt, -⟩ := h.attempted
  obtain ⟨c, probes, hc, hchoose, happly⟩ := attempt_eq_some.mp hattempt
  have hstay : ¬ s.cursor < t.cursor := Int.not_lt.mpr h.stays
  have hmet : t.seen.contains t.state = true := List.contains_iff_mem.mpr h.met
  simp only [counted] at happly
  simp only [step, hc, hchoose, happly, if_neg hstay, guard, hmet, Bool.or_true, if_true]

def alarm? (g : Grammar M) (line : Text) (limits : Limits) (s : Scan M) : Option (Scan M) :=
  (attempt g line limits s).bind fun (found, t) =>
    if found.winner.isLeaf = false ∧ t.cursor ≤ s.cursor ∧ t.state ∈ t.seen then some t else none

theorem alarm_of_alarm? (h : alarm? g line limits s = some t) : Alarm g line limits s t := by
  obtain ⟨⟨found, t'⟩, hattempt, h⟩ := Option.bind_eq_some_iff.mp h
  simp only at h
  split at h
  · rename_i halarm
    cases h
    exact ⟨⟨found, hattempt, halarm.1⟩, halarm.2.1, halarm.2.2⟩
  · cases h

def after (g : Grammar M) (line : Text) (limits : Limits) : Nat → Scan M → Option (Scan M)
  | 0, s => some s
  | n + 1, s =>
    match step g line limits s with
    | .going t => after g line limits n t
    | _ => none

theorem reaches_of_after {n : Nat} (h : after g line limits n s = some t) :
    Reaches g line limits s t := by
  induction n generalizing s with
  | zero =>
      cases h
      exact .refl
  | succ n ih =>
      simp only [after] at h
      split at h
      · exact .step ‹_› (ih h)
      · cases h

theorem Reaches.snoc (h : Reaches g line limits origin s)
    (hstep : Scan.step g line limits s = .going t) : Reaches g line limits origin t := by
  induction h with
  | refl => exact .step hstep .refl
  | step hfirst _ ih => exact .step hfirst (ih hstep)

/-- For every state met at the cursor there is a scan that was in it there, and from which moves of
the stack have led to the stack at hand. -/
def Remembers (g : Grammar M) (line : Text) (limits : Limits) (origin s : Scan M) : Prop :=
  ∀ x ∈ s.seen, ∃ u n, Reaches g line limits origin u ∧ u.cursor = s.cursor ∧ u.state = x ∧
    Move.Runs (Moves g line limits s.cursor) n u.stack.marks s.stack.marks

structure Guarded (g : Grammar M) (line : Text) (limits : Limits) (most : Nat)
    (origin s : Scan M) : Prop where
  course : OnCourse g line most s
  reached : Reaches g line limits origin s
  valid : s.stack.Valid g
  remembers : Remembers g line limits origin s

theorem OnCourse.le_of_attempt {most : Nat} (bounded : g.engine.InBounds)
    (h : OnCourse g line most s) (hattempt : attempt g line limits s = some (found, t)) :
    s.cursor ≤ t.cursor ∧ t.seen = s.seen := by
  obtain ⟨c, probes, -, hchoose, happly⟩ := attempt_eq_some.mp hattempt
  obtain ⟨hstart, hmatch, -⟩ := choose_bounds bounded h.nonneg h.le_size hchoose
  have happlies := apply_applies happly
  have hcursor := happlies.cursor_eq (reach_cursor hstart)
  refine ⟨by omega, ?_⟩
  rw [happlies.seen_eq, reach_seen, counted_seen]

theorem Guarded.move {most : Nat} (bounded : g.engine.InBounds)
    (h : Guarded g line limits most origin s) (hattempt : attempt g line limits s = some (found, t))
    (hle : t.cursor ≤ s.cursor) :
    ∀ x ∈ s.seen, ∃ u n, Reaches g line limits origin u ∧ u.cursor = t.cursor ∧ u.state = x ∧
      Move.Runs (Moves g line limits t.cursor) (n + 1) u.stack.marks t.stack.marks := by
  intro x hx
  have hcursor : t.cursor = s.cursor :=
    Int.le_antisymm hle (h.course.le_of_attempt bounded hattempt).1
  obtain ⟨m, hmove, hmarks⟩ := exists_move h.valid hattempt hcursor
  obtain ⟨u, n, hu, hucursor, hstate, hruns⟩ := h.remembers x hx
  refine ⟨u, n, hu, by rw [hucursor, hcursor], hstate, ?_⟩
  rw [hcursor, hmarks]
  exact hruns.snoc (by rwa [Stack.length_marks])

theorem Guarded.going {most : Nat} (coherent : g.Coherent) (bounded : g.engine.InBounds)
    (hmost : limits.depth.toNat ≤ most) (h : Guarded g line limits most origin s)
    (hstep : step g line limits s = .going t) : Guarded g line limits most origin t := by
  have hcourse := (h.course.going coherent bounded hmost hstep).1
  have hreached := h.reached.snoc hstep
  have hvalid := (valid_invariant coherent).going h.valid hstep
  refine ⟨hcourse, hreached, hvalid, ?_⟩
  cases iteration_of_step hstep with
  | moved => simp [Remembers]
  | forced => simp [Remembers]
  | @noted c found probes t hc hchoose happly hle =>
      have hattempt : attempt g line limits s = some (found, t) :=
        attempt_eq_some.mpr ⟨c, probes, hc, hchoose, happly⟩
      have hseen := (h.course.le_of_attempt bounded hattempt).2
      intro x hx
      rcases List.mem_cons.mp hx with rfl | hx
      · -- the state that is noted now is that of the scan itself
        exact ⟨_, 0, hreached, rfl, rfl, .refl⟩
      · obtain ⟨u, n, hu, hcursor, hstate, hruns⟩ := h.move bounded hattempt hle x (hseen ▸ hx)
        exact ⟨u, n + 1, hu, hcursor, hstate, hruns⟩

theorem resume_guarded {stack : Stack M} (limits : Limits) (line : Text)
    (h : resume g stack = .ok s) :
    Guarded g line limits (max s.stack.depth limits.depth.toNat) s s := by
  obtain ⟨hcursor, -, hseen, -⟩ := resume_eq_ok h
  refine ⟨⟨(resume_framed h).mono (Nat.le_max_left ..), ?_, ?_, ?_, ?_⟩, .refl, resume_valid h, ?_⟩
  · exact Int.le_of_eq hcursor.symm
  · rw [hcursor]
    exact Int.natCast_nonneg _
  · rw [hseen]
    exact List.nodup_nil
  · rw [hseen]
    exact List.nil_subset _
  · simp [Remembers, hseen]

/-- When the state was met at the cursor, the region that was open there is of the rule that is
innermost now, but has another end pattern, as the rule builds these from its begin matches. -/
def Rebound (g : Grammar M) (line : Text) (limits : Limits) (origin t : Scan M) : Prop :=
  ∃ u f f' r, Reaches g line limits origin u ∧ u.cursor = t.cursor ∧ u.state = t.state ∧
    u.stack.top? = some f ∧ t.stack.top? = some f' ∧ f.rule = f'.rule ∧
    g.region? f.rule = some r ∧ r.bindsEnd = true ∧ f.endSource ≠ f'.endSource

theorem endSource_of_fixed {f : Frame M} {r : RegionRule M} (h : f.Valid g)
    (hr : g.region? f.rule = some r) (hfixed : r.bindsEnd = false) : f.endSource = r.endSource := by
  obtain ⟨m, hm, -⟩ := h.closer
  obtain ⟨closer, hcloser⟩ : ∃ closer, r.closer = some closer := by
    simpa [RegionRule.bindsEnd, Option.isSome_iff_exists] using hfixed
  simp only [Stack.closerFor, hr, hcloser] at hm
  split at hm
  · assumption
  · cases hm

theorem marks_of_state {u t : Scan M} (hu : u.stack.Valid g) (ht : t.stack.Valid g)
    (hstate : u.state = t.state) :
    u.stack.depth = t.stack.depth ∧ (u.stack.marks.head? = t.stack.marks.head? ∨
      ∃ f f' r, u.stack.top? = some f ∧ t.stack.top? = some f' ∧ f.rule = f'.rule ∧
        g.region? f.rule = some r ∧ r.bindsEnd = true ∧ f.endSource ≠ f'.endSource) := by
  obtain ⟨hdepth, hrule⟩ := Prod.mk.inj hstate
  refine ⟨hdepth, ?_⟩
  rcases hutop : u.stack with _ | ⟨f, outer⟩
  · rw [hutop] at hdepth
    rw [List.eq_nil_of_length_eq_zero hdepth.symm]
    exact .inl rfl
  · rcases httop : t.stack with _ | ⟨f', outer'⟩
    · rw [hutop, httop] at hdepth
      cases hdepth
    · rw [hutop, httop] at hrule
      have hrule : f.rule = f'.rule := hrule
      have hf := hu f (hutop ▸ List.mem_cons_self ..)
      have hf' := ht f' (httop ▸ List.mem_cons_self ..)
      by_cases hsource : f.endSource = f'.endSource
      · exact .inl (congrArg some (Prod.ext hrule hsource))
      · obtain ⟨r, hr, -⟩ := hf.region
        refine .inr ⟨f, f', r, rfl, rfl, hrule, hr, ?_, hsource⟩
        rcases hbinds : r.bindsEnd with _ | _
        · rw [endSource_of_fixed hf hr hbinds,
            endSource_of_fixed hf' (hrule ▸ hr) hbinds] at hsource
          exact absurd rfl hsource
        · rfl

end Scan

open Scan

/-- When the guard speaks up, it forces a step or ends the scan, and the scan is stuck: without the
guard it would go on forever at the cursor. The only exception is a region whose end pattern is
built from its begin match: the guard does not tell it from a region of the same rule that was open
at this cursor with another end pattern. -/
theorem Grammar.stuck_of_alarm {e : Engine M} {document : Json}
    (compiled : Grammar.ofJson e document = .ok g) (bounded : e.InBounds) (limits : Limits)
    (line : Text) {stack : Stack M} {origin s t : Scan M} (resumed : resume g stack = .ok origin)
    (reached : Reaches g line limits origin s) (alarm : Alarm g line limits s t) :
    step g line limits s =
        (if line.size ≤ t.cursor then .finished t else .going { t.forceStep g with seen := [] }) ∧
      (Stuck g line limits t ∨ Rebound g line limits origin t) := by
  obtain ⟨coherent, rfl⟩ := ofJson_coherent compiled
  have hs : Guarded g line limits (max origin.stack.depth limits.depth.toNat) origin s :=
    reached.keeps (fun _ _ h hstep => h.going coherent bounded (Nat.le_max_right ..) hstep)
      (resume_guarded limits line resumed)
  obtain ⟨found, hattempt, -⟩ := alarm.attempted
  have hseen := (hs.course.le_of_attempt bounded hattempt).2
  obtain ⟨u, n, hu, hcursor, hstate, hruns⟩ :=
    hs.move bounded hattempt alarm.stays t.state (hseen ▸ alarm.met)
  have hvalid := valid_of_attempt coherent hs.valid hattempt
  refine ⟨alarm.step_eq, ?_⟩
  obtain ⟨hdepth, htop | ⟨f, f', r, hf, hf', hrest⟩⟩ :=
    marks_of_state (hu.valid coherent resumed) hvalid hstate
  · -- the same mark again at the same depth: the moves in between can be made again and again
    left
    obtain ⟨k, hk, hcycle⟩ := hruns.cycle (Nat.succ_pos n) (by simpa using hdepth) htop
    exact stuck_of_cycle coherent hvalid hk hcycle
  · exact .inr ⟨u, f, f', r, hu, hcursor, hstate, hf, hf', hrest⟩

/-- A region that begins and ends without characters. -/
def Grammar.flickerSource : Json := .obj [
  ("scopeName", .str "text"),
  ("patterns", .arr [.obj [("begin", .str ""), ("end", .str "")]])]

theorem Grammar.stuck_of_alarm_sample :
    ∃ g origin s t, ofJson sampleEngine flickerSource = .ok g ∧
      resume g .initial = .ok origin ∧ Reaches g (.ofString "a") .default origin s ∧
      Alarm g (.ofString "a") .default s t ∧ Stuck g (.ofString "a") .default t := by
  have halarm : ((ofJson sampleEngine flickerSource).toOption.bind fun g =>
      (after g (.ofString "a") .default 2 (start .initial)).bind fun s =>
        (alarm? g (.ofString "a") .default s).map fun t =>
          (t.cursor, t.stack.depth, g.rules.all fun
            | .leaf _ => true
            | .region r => !r.bindsEnd)) = some (0, 1, true) := by
    decide +kernel
  obtain ⟨g, hg, halarm⟩ := Option.bind_eq_some_iff.mp halarm
  obtain ⟨s, hs, halarm⟩ := Option.bind_eq_some_iff.mp halarm
  obtain ⟨t, ht, heq⟩ := Option.map_eq_some_iff.mp halarm
  have hreached := reaches_of_after hs
  have halarm := alarm_of_alarm? ht
  have hg := toOption_eq_some.mp hg
  have hresume : resume g .initial = .ok (start .initial) := rfl
  refine ⟨g, _, s, t, hg, hresume, hreached, halarm, ?_⟩
  rcases (stuck_of_alarm hg (Engine.plain_inBounds _ _) .default (.ofString "a") hresume hreached
    halarm).2 with hstuck | ⟨_, _, _, r, _, _, _, _, _, _, hr, hbinds, _⟩
  · exact hstuck
  · have hall := (Prod.mk.inj (Prod.mk.inj heq).2).2
    have hfixed := List.all_eq_true.mp hall _ (region?_mem hr)
    simp [hbinds] at hfixed

/-- A region goes on to the first character that is not the one it begins at. -/
def Grammar.reboundSource : Json := .obj [
  ("scopeName", .str "text"),
  ("patterns", .arr [.obj [
    ("begin", .str "(?=(a|b))"),
    ("end", .str "(?!\\1)"),
    ("name", .str "region"),
    ("patterns", .arr [
      .obj [("begin", .str "a"), ("end", .str "(?=b)"), ("name", .str "inner")],
      .obj [("match", .str "b"), ("name", .str "letter")]])]])]

/-- The guard speaks up at the second character of the line, and steps over it, though the rule
for letters matches it. -/
theorem Grammar.alarm_without_cycle :
    ∃ g origin s t, ofJson Engine.pattern reboundSource = .ok g ∧
      resume g .initial = .ok origin ∧ Reaches g (.ofString "ab") .default origin s ∧
      Alarm g (.ofString "ab") .default s t ∧ t.cursor = 1 ∧
      ¬ Stuck g (.ofString "ab") .default t ∧
      ((g.tokenizeLine .default (.ofString "ab") .initial).result.map LineResult.tokens =
        .ok [⟨0, 1, ["text", "region", "inner"]⟩, ⟨1, 2, ["text", "region"]⟩]) := by
  have halarm : ((ofJson Engine.pattern reboundSource).toOption.bind fun g =>
      (after g (.ofString "ab") .default 4 (start .initial)).bind fun s =>
        (alarm? g (.ofString "ab") .default s).bind fun t =>
          (turns g (.ofString "ab") .default 1 t).map fun u =>
            (t.cursor, u.cursor,
              (g.tokenizeLine .default (.ofString "ab") .initial).result.map LineResult.tokens)) =
      some (1, 2, .ok [⟨0, 1, ["text", "region", "inner"]⟩, ⟨1, 2, ["text", "region"]⟩]) := by
    decide +kernel
  obtain ⟨g, hg, halarm⟩ := Option.bind_eq_some_iff.mp halarm
  obtain ⟨s, hs, halarm⟩ := Option.bind_eq_some_iff.mp halarm
  obtain ⟨t, ht, halarm⟩ := Option.bind_eq_some_iff.mp halarm
  obtain ⟨u, hu, heq⟩ := Option.map_eq_some_iff.mp halarm
  obtain ⟨htcursor, heq⟩ := Prod.mk.inj heq
  obtain ⟨hucursor, htokens⟩ := Prod.mk.inj heq
  refine ⟨g, _, s, t, toOption_eq_some.mp hg, rfl, reaches_of_after hs, alarm_of_alarm? ht,
    htcursor, fun hstuck => ?_, htokens⟩
  obtain ⟨v, hv, hcursor⟩ := hstuck 1
  rw [hu] at hv
  cases hv
  omega

end LineScope
