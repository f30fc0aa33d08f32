import LineScope.Scan.Basic
import LineScope.Proofs.Engine.Bounds

/-!
What one iteration of a scan can do, said once: which candidate may win, what the winner makes of
the scan, and how the iteration ends.
-/

namespace LineScope.Scan

variable {M : Type} {g : Grammar M} {e : Engine M} {line : Text} {limits : Limits} {s t : Scan M}

@[simp] theorem emit_cursor (s : Scan M) (t : Token) : (s.emit t).cursor = s.cursor := by
  unfold emit
  split <;> rfl

@[simp] theorem emit_stack (s : Scan M) (t : Token) : (s.emit t).stack = s.stack := by
  unfold emit
  split <;> rfl

@[simp] theorem emit_seen (s : Scan M) (t : Token) : (s.emit t).seen = s.seen := by
  unfold emit
  split <;> rfl

@[simp] theorem emit_tally (s : Scan M) (t : Token) : (s.emit t).tally = s.tally := by
  unfold emit
  split <;> rfl

theorem emitAll_keeps {α : Type} {part : Scan M → α}
    (h : ∀ (s : Scan M) t, part (s.emit t) = part s) (s : Scan M) (tokens : List Token) :
    part (s.emitAll tokens) = part s := by
  induction tokens generalizing s with
  | nil => rfl
  | cons t rest ih => exact (ih (s.emit t)).trans (h s t)

@[simp] theorem cover_cursor (s : Scan M) (m : Match) (captures : List Capture)
    (scopes : ScopePath) : (s.cover m captures scopes).cursor = m.stop := rfl

@[simp] theorem cover_stack (s : Scan M) (m : Match) (captures : List Capture)
    (scopes : ScopePath) : (s.cover m captures scopes).stack = s.stack :=
  emitAll_keeps emit_stack s _

@[simp] theorem cover_seen (s : Scan M) (m : Match) (captures : List Capture)
    (scopes : ScopePath) : (s.cover m captures scopes).seen = s.seen :=
  emitAll_keeps emit_seen s _

@[simp] theorem cover_tally (s : Scan M) (m : Match) (captures : List Capture)
    (scopes : ScopePath) : (s.cover m captures scopes).tally = s.tally :=
  emitAll_keeps emit_tally s _

def counted (s : Scan M) (probes : Nat) : Scan M :=
  { s with tally := ⟨s.tally.iterations + 1, s.tally.probes + probes, s.tally.forced⟩ }

@[simp] theorem counted_cursor (s : Scan M) (probes : Nat) :
    (s.counted probes).cursor = s.cursor := rfl

@[simp] theorem counted_stack (s : Scan M) (probes : Nat) :
    (s.counted probes).stack = s.stack := rfl

@[simp] theorem counted_seen (s : Scan M) (probes : Nat) :
    (s.counted probes).seen = s.seen := rfl

def reach (s : Scan M) (g : Grammar M) (start : Int) : Scan M :=
  if s.cursor < start then s.passTo g start else s

@[simp] theorem reach_stack (s : Scan M) (g : Grammar M) (start : Int) :
    (s.reach g start).stack = s.stack := by
  unfold reach
  split <;> simp [passTo]

@[simp] theorem reach_seen (s : Scan M) (g : Grammar M) (start : Int) :
    (s.reach g start).seen = s.seen := by
  unfold reach
  split <;> simp [passTo]

@[simp] theorem reach_tally (s : Scan M) (g : Grammar M) (start : Int) :
    (s.reach g start).tally = s.tally := by
  unfold reach
  split <;> simp [passTo]

theorem reach_cursor {start : Int} (h : s.cursor ≤ start) : (s.reach g start).cursor = start := by
  unfold reach
  split
  · rfl
  · omega

/-- A candidate in a place, with the match that a search finds for it. -/
inductive Offers (e : Engine M) (line : Text) (cursor : Int) (c : Candidates M) : Found M → Prop
  | closer {m : M} {hit : Match} :
      c.closer = some m → e.search m line cursor = some hit →
        Offers e line cursor c ⟨.closer, hit⟩
  | rule {r : Rule M} {hit : Match} :
      r ∈ c.rules → e.search r.matcher line cursor = some hit →
        Offers e line cursor c ⟨.rule r, hit⟩

theorem findRule_offers {cursor : Int} {c : Candidates M} {rules : List (Rule M)}
    {best : Option (Found M)} {found : Found M} (hrules : ∀ r ∈ rules, r ∈ c.rules)
    (hbest : ∀ b, best = some b → Offers e line cursor c b)
    (h : (findRule e line cursor rules best).1 = some found) : Offers e line cursor c found := by
  induction rules generalizing best with
  | nil => exact hbest found h
  | cons r rest ih =>
      have hrest : ∀ r ∈ rest, r ∈ c.rules := fun r hr => hrules r (List.mem_cons_of_mem _ hr)
      simp only [findRule] at h
      split at h
      · exact ih hrest hbest h
      · rename_i hit hsearch
        have hoffer : Offers e line cursor c ⟨.rule r, hit⟩ :=
          .rule (hrules r (List.mem_cons_self ..)) hsearch
        split at h
        · split at h
          · cases h
            exact hoffer
          · refine ih hrest ?_ h
            intro b hb
            cases hb
            exact hoffer
        · exact ih hrest hbest h

theorem choose_offers {cursor : Int} {c : Candidates M} {found : Found M}
    (h : (choose e line cursor c).1 = some found) : Offers e line cursor c found := by
  have hnone : ∀ {found}, (findRule e line cursor c.rules none).1 = some found →
      Offers e line cursor c found :=
    findRule_offers (fun _ hr => hr) (by simp)
  unfold choose at h
  split at h
  · exact hnone h
  · rename_i m hcloser
    split at h
    · simp only at h
      split at h
      · exact hnone h
      · rename_i hit hsearch
        split at h
        · cases h
          exact .closer hcloser hsearch
        · exact hnone h
    · split at h
      · exact hnone h
      · rename_i hit hsearch
        split at h
        · cases h
          exact .closer hcloser hsearch
        · refine findRule_offers (fun _ hr => hr) ?_ h
          intro b hb
          cases hb
          exact .closer hcloser hsearch

theorem choose_bounds {cursor : Int} {c : Candidates M} {found : Found M} {probes : Nat}
    (bounded : e.InBounds) (hlow : 0 ≤ cursor) (hhigh : cursor ≤ line.size)
    (h : choose e line cursor c = (some found, probes)) :
    cursor ≤ found.hit.start ∧ found.hit.start ≤ found.hit.stop ∧ found.hit.stop ≤ line.size := by
  have hoffers : Offers e line cursor c found := choose_offers (by rw [h])
  cases hoffers with
  | closer _ hsearch => exact bounded _ _ _ _ hlow hhigh hsearch
  | rule _ hsearch => exact bounded _ _ _ _ hlow hhigh hsearch

/-- What a match may make of a scan that has come to where the match starts. -/
inductive Applies (g : Grammar M) (line : Text) (limits : Limits) (s : Scan M) :
    Found M → Scan M → Prop
  /-- A match of a leaf rule without characters changes nothing. -/
  | skipped {r : MatchRule M} {hit : Match} :
      hit.isEmpty = true → Applies g line limits s ⟨.rule (.leaf r), hit⟩ s
  | covered {r : MatchRule M} {hit : Match} :
      hit.isEmpty = false → Applies g line limits s ⟨.rule (.leaf r), hit⟩
        (s.cover hit r.captures ((s.stack.scopes g.scopeName).extend r.scope))
  | capped {r : RegionRule M} {hit : Match} :
      limits.depth ≤ s.stack.depth → Applies g line limits s ⟨.rule (.region r), hit⟩
        ((s.cover hit r.beginCaptures ((s.stack.scopes g.scopeName).extend r.scope)).record
          (.depthReached limits.depth r.beginSource))
  | opened {r : RegionRule M} {hit : Match} {m : M} :
      s.stack.depth < limits.depth → r.closer = some m →
      Applies g line limits s ⟨.rule (.region r), hit⟩
        { s.cover hit r.beginCaptures ((s.stack.scopes g.scopeName).extend r.scope) with
          stack := s.stack.push
            (frameFor r ((s.stack.scopes g.scopeName).extend r.scope) r.endSource m) }
  /-- The end pattern is the one of the rule with its references filled in. -/
  | bound {r : RegionRule M} {hit : Match} {endSource : String} {m : M} :
      s.stack.depth < limits.depth → r.closer = none →
      BackReference.resolve r.endSource line hit.groups = .ok endSource →
      g.engine.compile endSource = .ok m →
      Applies g line limits s ⟨.rule (.region r), hit⟩
        { s.cover hit r.beginCaptures ((s.stack.scopes g.scopeName).extend r.scope) with
          stack := s.stack.push
            (frameFor r ((s.stack.scopes g.scopeName).extend r.scope) endSource m) }
  /-- The engine rejects that, and the references are left out. -/
  | blanked {r : RegionRule M} {hit : Match} {endSource reason : String} {m : M} :
      s.stack.depth < limits.depth → r.closer = none →
      BackReference.resolve r.endSource line hit.groups = .ok endSource →
      g.engine.compile endSource = .error (.rejected reason) →
      g.engine.compile (BackReference.blank r.endSource) = .ok m →
      Applies g line limits s ⟨.rule (.region r), hit⟩
        { (s.cover hit r.beginCaptures ((s.stack.scopes g.scopeName).extend r.scope)).record
            (.endRejected endSource) with
          stack := s.stack.push (frameFor r ((s.stack.scopes g.scopeName).extend r.scope)
            (BackReference.blank r.endSource) m) }
  | closed {f : Frame M} {r : Rule M} {hit : Match} {captures : List Capture} :
      s.stack.top? = some f → g.rule? f.rule = some r →
      captures = (match r with
        | .leaf _ => []
        | .region r => r.endCaptures) →
      Applies g line limits s ⟨.closer, hit⟩
        { s.cover hit captures f.nameScopes with stack := s.stack.pop }

/-- How a match may fail to be applied, once the scan has come to where the match starts. -/
inductive Breaks (g : Grammar M) (line : Text) (limits : Limits) (s : Scan M) :
    Found M → Fault → Scan M → Prop
  | unbound {r : RegionRule M} {hit : Match} {tooLong : BackReference.TooLong} :
      s.stack.depth < limits.depth → r.closer = none →
      BackReference.resolve r.endSource line hit.groups = .error tooLong →
      Breaks g line limits s ⟨.rule (.region r), hit⟩ (.longReference tooLong.digits)
        (s.cover hit r.beginCaptures ((s.stack.scopes g.scopeName).extend r.scope))
  | overflow {r : RegionRule M} {hit : Match} {endSource reason : String} :
      s.stack.depth < limits.depth → r.closer = none →
      BackReference.resolve r.endSource line hit.groups = .ok endSource →
      g.engine.compile endSource = .error (.overflow reason) →
      Breaks g line limits s ⟨.rule (.region r), hit⟩ (.overflow reason)
        (s.cover hit r.beginCaptures ((s.stack.scopes g.scopeName).extend r.scope))
  /-- The engine refuses the end pattern without its references, too. -/
  | unblanked {r : RegionRule M} {hit : Match} {endSource reason : String} {refusal : Refusal} :
      s.stack.depth < limits.depth → r.closer = none →
      BackReference.resolve r.endSource line hit.groups = .ok endSource →
      g.engine.compile endSource = .error (.rejected reason) →
      g.engine.compile (BackReference.blank r.endSource) = .error refusal →
      Breaks g line limits s ⟨.rule (.region r), hit⟩
        (match refusal with
          | .rejected reason => .blankRejected reason
          | .overflow reason => .overflow reason)
        ((s.cover hit r.beginCaptures ((s.stack.scopes g.scopeName).extend r.scope)).record
          (.endRejected endSource))
  | unopened {hit : Match} :
      s.stack.top? = none → Breaks g line limits s ⟨.closer, hit⟩ .nothingToClose s
  | ruleless {f : Frame M} {hit : Match} :
      s.stack.top? = some f → g.rule? f.rule = none →
      Breaks g line limits s ⟨.closer, hit⟩ (.noRule f.rule) s

def Applied (g : Grammar M) (line : Text) (limits : Limits) (s : Scan M) (found : Found M) :
    Outcome M → Prop
  | .ok t => Applies g line limits s found t
  | .error (fault, t) => Breaks g line limits s found fault t

theorem openRegion_applied (g : Grammar M) (line : Text) (limits : Limits) (s : Scan M)
    (r : RegionRule M) (hit : Match) :
    Applied g line limits s ⟨.rule (.region r), hit⟩ (s.openRegion g line limits r hit) := by
  simp only [openRegion, cover_stack]
  split
  · rename_i hdepth
    exact Applies.capped hdepth
  · rename_i hdepth
    have hdepth : s.stack.depth < limits.depth := by omega
    split
    · rename_i m hcloser
      exact Applies.opened hdepth hcloser
    · rename_i hcloser
      unfold bindEnd
      rcases hresolve : BackReference.resolve r.endSource line hit.groups with tooLong | endSource
      · exact Breaks.unbound hdepth hcloser hresolve
      · rcases hcompile : g.engine.compile endSource with refusal | m
        · rcases refusal with reason | reason
          · rcases hblank : g.engine.compile (BackReference.blank r.endSource) with refusal | m
            · have hbreaks := Breaks.unblanked (s := s) hdepth hcloser hresolve hcompile hblank
              rcases refusal with reason | reason
              · simp only [hcompile, hblank]
                exact hbreaks
              · simp only [hcompile, hblank]
                exact hbreaks
            · simp only [hcompile, hblank, record, cover_stack]
              exact Applies.blanked hdepth hcloser hresolve hcompile hblank
          · simp only [hcompile]
            exact Breaks.overflow hdepth hcloser hresolve hcompile
        · simp only [hcompile, cover_stack]
          exact Applies.bound hdepth hcloser hresolve hcompile

theorem closeRegion_applied (g : Grammar M) (line : Text) (limits : Limits) (s : Scan M)
    (hit : Match) : Applied g line limits s ⟨.closer, hit⟩ (s.closeRegion g hit) := by
  unfold closeRegion
  split
  · rename_i htop
    exact Breaks.unopened htop
  · rename_i f htop
    split
    · rename_i hrule
      exact Breaks.ruleless htop hrule
    · rename_i r hrule
      exact Applies.closed htop hrule rfl
    · rename_i r hrule
      exact Applies.closed htop hrule rfl

theorem apply_applied (g : Grammar M) (line : Text) (limits : Limits) (s : Scan M)
    (found : Found M) :
    Applied g line limits (s.reach g found.hit.start) found (s.apply g line limits found) := by
  rcases found with ⟨winner, hit⟩
  rcases winner with _ | r
  · exact closeRegion_applied g line limits (s.reach g hit.start) hit
  · rcases r with r | r
    · change Applies g line limits (s.reach g hit.start) ⟨.rule (.leaf r), hit⟩
        ((s.reach g hit.start).applyLeaf g r hit)
      unfold applyLeaf
      split
      · exact .skipped ‹_›
      · exact .covered (Bool.eq_false_iff.mpr ‹_›)
    · exact openRegion_applied g line limits (s.reach g hit.start) r hit

theorem apply_applies {found : Found M} (h : s.apply g line limits found = .ok t) :
    Applies g line limits (s.reach g found.hit.start) found t := by
  have happlied := apply_applied g line limits s found
  rw [h] at happlied
  exact happlied

theorem apply_breaks {found : Found M} {fault : Fault}
    (h : s.apply g line limits found = .error (fault, t)) :
    Breaks g line limits (s.reach g found.hit.start) found fault t := by
  have happlied := apply_applied g line limits s found
  rw [h] at happlied
  exact happlied

theorem Applies.seen_eq {found : Found M} (h : Applies g line limits s found t) :
    t.seen = s.seen := by
  cases h with
  | skipped => rfl
  | _ => simp only [record, cover_seen]

theorem Applies.tally_eq {found : Found M} (h : Applies g line limits s found t) :
    t.tally = s.tally := by
  cases h with
  | skipped => rfl
  | _ => simp only [record, cover_tally]

theorem Applies.cursor_eq {found : Found M} (h : Applies g line limits s found t)
    (hstart : s.cursor = found.hit.start) : t.cursor = found.hit.stop := by
  cases h with
  | skipped hempty => exact hstart.trans (eq_of_beq hempty)
  | _ => rfl

theorem Breaks.tally_eq {found : Found M} {fault : Fault}
    (h : Breaks g line limits s found fault t) : t.tally = s.tally := by
  cases h with
  | unopened => rfl
  | ruleless => rfl
  | _ => simp only [record, cover_tally]

/-- A region whose end is fixed is opened without fail. -/
theorem Breaks.closer_eq_none {r : RegionRule M} {hit : Match} {fault : Fault}
    (h : Breaks g line limits s ⟨.rule (.region r), hit⟩ fault t) : r.closer = none := by
  cases h <;> assumption

theorem Breaks.ne_endless {found : Found M} {fault : Fault}
    (h : Breaks g line limits s found fault t) : fault ≠ .endless := by
  cases h with
  | @unblanked _ _ _ _ refusal => rcases refusal with _ | _ <;> simp
  | _ => simp

theorem step_eq {c : Candidates M} (hc : candidates g s.stack = .ok c) :
    step g line limits s =
      match choose g.engine line s.cursor c with
      | (none, probes) => .finished ((s.counted probes).passTo g line.size)
      | (some found, probes) =>
        match (s.counted probes).apply g line limits found with
        | .error (fault, t) => .failed fault t
        | .ok t =>
          if s.cursor < t.cursor then .going { t with seen := [] }
          else t.guard g line found.winner := by
  simp only [step, hc]
  rcases choose g.engine line s.cursor c with ⟨_ | found, probes⟩
  · rfl
  · rfl

/-- How an iteration may end. -/
inductive Iteration (g : Grammar M) (line : Text) (limits : Limits) (s : Scan M) : Step M → Prop
  | lost {fault : Fault} :
      candidates g s.stack = .error fault →
      Iteration g line limits s (.failed fault (s.counted 0))
  /-- No candidate matches, and the rest of the line is passed. -/
  | unmatched {c : Candidates M} {probes : Nat} :
      candidates g s.stack = .ok c → choose g.engine line s.cursor c = (none, probes) →
      Iteration g line limits s (.finished ((s.counted probes).passTo g line.size))
  | broken {c : Candidates M} {found : Found M} {probes : Nat} {fault : Fault} {t : Scan M} :
      candidates g s.stack = .ok c → choose g.engine line s.cursor c = (some found, probes) →
      (s.counted probes).apply g line limits found = .error (fault, t) →
      Iteration g line limits s (.failed fault t)
  | moved {c : Candidates M} {found : Found M} {probes : Nat} {t : Scan M} :
      candidates g s.stack = .ok c → choose g.engine line s.cursor c = (some found, probes) →
      (s.counted probes).apply g line limits found = .ok t → s.cursor < t.cursor →
      Iteration g line limits s (.going { t with seen := [] })
  /-- The state is a new one at this place. -/
  | noted {c : Candidates M} {found : Found M} {probes : Nat} {t : Scan M} :
      candidates g s.stack = .ok c → choose g.engine line s.cursor c = (some found, probes) →
      (s.counted probes).apply g line limits found = .ok t → t.cursor ≤ s.cursor →
      found.winner.isLeaf = false → t.state ∉ t.seen →
      Iteration g line limits s (.going { t with seen := t.state :: t.seen })
  | forced {c : Candidates M} {found : Found M} {probes : Nat} {t : Scan M} :
      candidates g s.stack = .ok c → choose g.engine line s.cursor c = (some found, probes) →
      (s.counted probes).apply g line limits found = .ok t → t.cursor ≤ s.cursor →
      (found.winner.isLeaf = true ∨ t.state ∈ t.seen) → t.cursor < line.size →
      Iteration g line limits s (.going { t.forceStep g with seen := [] })
  | stopped {c : Candidates M} {found : Found M} {probes : Nat} {t : Scan M} :
      candidates g s.stack = .ok c → choose g.engine line s.cursor c = (some found, probes) →
      (s.counted probes).apply g line limits found = .ok t → t.cursor ≤ s.cursor →
      (found.winner.isLeaf = true ∨ t.state ∈ t.seen) → line.size ≤ t.cursor →
      Iteration g line limits s (.finished t)

theorem step_iteration (g : Grammar M) (line : Text) (limits : Limits) (s : Scan M) :
    Iteration g line limits s (step g line limits s) := by
  rcases hcandidates : candidates g s.stack with fault | c
  · have hstep : step g line limits s = .failed fault (s.counted 0) := by
      simp only [step, hcandidates, counted, Nat.add_zero]
    rw [hstep]
    exact .lost hcandidates
  · rw [step_eq hcandidates]
    rcases hchoose : choose g.engine line s.cursor c with ⟨_ | found, probes⟩
    · exact .unmatched hcandidates hchoose
    · simp only
      rcases happly : (s.counted probes).apply g line limits found with ⟨fault, t⟩ | t
      · exact .broken hcandidates hchoose happly
      · simp only
        split
        · exact .moved hcandidates hchoose happly ‹_›
        · rename_i hcursor
          have hcursor : t.cursor ≤ s.cursor := by omega
          unfold guard
          split
          · rename_i hstuck
            have hstuck : found.winner.isLeaf = true ∨ t.state ∈ t.seen := by
              simpa using hstuck
            split
            · exact .stopped hcandidates hchoose happly hcursor hstuck ‹_›
            · exact .forced hcandidates hchoose happly hcursor hstuck (by omega)
          · rename_i hfree
            simp only [Bool.or_eq_true, List.contains_iff_mem, not_or, Bool.not_eq_true] at hfree
            exact .noted hcandidates hchoose happly hcursor hfree.1 hfree.2

theorem iteration_of_step {o : Step M} (h : step g line limits s = o) :
    Iteration g line limits s o :=
  h ▸ step_iteration g line limits s

def Step.scan : Step M → Scan M
  | .going s => s
  | .finished s => s
  | .failed _ s => s

theorem iterations_of_step {o : Step M} (h : step g line limits s = o) :
    o.scan.tally.iterations = s.tally.iterations + 1 := by
  have happlied : ∀ {found probes t}, (s.counted probes).apply g line limits found = .ok t →
      t.tally.iterations = s.tally.iterations + 1 := by
    intro found probes t happly
    rw [(apply_applies happly).tally_eq, reach_tally]
    rfl
  cases iteration_of_step h with
  | lost => rfl
  | unmatched => simp [Step.scan, passTo, counted]
  | broken _ _ happly =>
      simp only [Step.scan]
      rw [(apply_breaks happly).tally_eq, reach_tally]
      rfl
  | moved _ _ happly =>
      have ht := happlied happly
      exact ht
  | noted _ _ happly =>
      have ht := happlied happly
      exact ht
  | forced _ _ happly => simpa [Step.scan, forceStep, passTo] using happlied happly
  | stopped _ _ happly => exact happlied happly

theorem step_ne_endless {fault : Fault} (h : step g line limits s = .failed fault t) :
    fault ≠ .endless := by
  cases iteration_of_step h with
  | lost hcandidates =>
      rintro rfl
      unfold candidates at hcandidates
      split at hcandidates
      · split at hcandidates <;> cases hcandidates
      · split at hcandidates <;> cases hcandidates
  | broken _ _ happly => exact (apply_breaks happly).ne_endless

end LineScope.Scan
