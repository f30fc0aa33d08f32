import LineScope.Proofs.Grammar.Renumbering
import LineScope.Proofs.Scan.Acceptance
import LineScope.Proofs.Scan.Progress
import LineScope.Proofs.Scan.Sequence

/-!
Scans with a grammar that has all rules of another under new numbers. The numbers appear in the
frames of the stack and in the states met at a place, and nothing is decided by them but whether two
are the same; so the scan with the one grammar is that with the other, with new numbers.
-/

namespace LineScope

variable {M : Type} {φ : Nat → Nat} {g g' : Grammar M} {line : Text} {limits : Limits}

def renumberId (φ : Nat → Nat) (id : Int) : Int := if id < 0 then id else φ id.toNat

@[simp] theorem renumberId_natCast (i : Nat) : renumberId φ i = φ i := by
  simp [renumberId]

def Frame.renumber (φ : Nat → Nat) (f : Frame M) : Frame M :=
  { f with
    rule := renumberId φ f.rule
    context := (ContextName.inside (φ f.rule.toNat)).text }

def Stack.renumber (φ : Nat → Nat) (s : Stack M) : Stack M := s.map (Frame.renumber φ)

namespace Stack

@[simp] theorem scopes_renumber (s : Stack M) (root : String) :
    (s.renumber φ).scopes root = s.scopes root := by
  cases s <;> rfl

@[simp] theorem depth_renumber (s : Stack M) : (s.renumber φ).depth = s.depth :=
  List.length_map ..

theorem top?_renumber (s : Stack M) : (s.renumber φ).top? = s.top?.map (Frame.renumber φ) :=
  List.head?_map

theorem pop_renumber (s : Stack M) : (s.renumber φ).pop = s.pop.renumber φ :=
  List.map_tail.symm

end Stack

namespace Grammar

theorem rule?_renumber (h : Embeds φ g g') {id : Int} {r : Rule M} (hr : g.rule? id = some r) :
    g'.rule? (renumberId φ id) = some (r.withId (φ id.toNat)) := by
  unfold rule? at hr
  split at hr
  · cases hr
  · rename_i hid
    have hnew : renumberId φ id = φ id.toNat := if_neg hid
    rw [hnew, rule?, if_neg (by omega), Int.toNat_natCast]
    exact h.rules _ _ hr

theorem region?_renumber (h : Embeds φ g g') {id : Int} {r : RegionRule M}
    (hr : g.region? id = some r) :
    g'.region? (renumberId φ id) = some { r with id := φ id.toNat } := by
  have hrule := rule?_renumber h (rule?_of_region? hr)
  simp only [region?, hrule, Rule.withId]

end Grammar

namespace Scan

def Candidates.renumber (φ : Nat → Nat) (c : Candidates M) : Candidates M :=
  ⟨c.rules.map (Rule.renumber φ), c.closer, c.endLast⟩

def Winner.renumber (φ : Nat → Nat) : Winner M → Winner M
  | .closer => .closer
  | .rule r => .rule (r.renumber φ)

def Found.renumber (φ : Nat → Nat) (found : Found M) : Found M :=
  ⟨found.winner.renumber φ, found.hit⟩

def renumberState (φ : Nat → Nat) (state : Nat × Int) : Nat × Int := (state.1, renumberId φ state.2)

def renumber (φ : Nat → Nat) (s : Scan M) : Scan M :=
  { s with stack := s.stack.renumber φ, seen := s.seen.map (renumberState φ) }

def Outcome.renumber (φ : Nat → Nat) : Outcome M → Outcome M
  | .ok s => .ok (s.renumber φ)
  | .error (fault, s) => .error (fault, s.renumber φ)

def Step.renumber (φ : Nat → Nat) : Step M → Step M
  | .going s => .going (s.renumber φ)
  | .finished s => .finished (s.renumber φ)
  | .failed fault s => .failed fault (s.renumber φ)

theorem matcher_renumber (r : Rule M) : (r.renumber φ).matcher = r.matcher := by
  cases r <;> rfl

theorem better_renumber (best : Option (Found M)) (m : Match) :
    better (best.map (Found.renumber φ)) m = better best m := by
  cases best <;> rfl

theorem findRule_renumber (e : Engine M) (line : Text) (cursor : Int) (rules : List (Rule M))
    (best : Option (Found M)) :
    findRule e line cursor (rules.map (Rule.renumber φ)) (best.map (Found.renumber φ)) =
      ((findRule e line cursor rules best).1.map (Found.renumber φ),
        (findRule e line cursor rules best).2) := by
  induction rules generalizing best with
  | nil => rfl
  | cons r rest ih =>
      simp only [List.map_cons, findRule, matcher_renumber, better_renumber]
      split
      · rw [ih]
      · rename_i m hm
        split
        · split
          · rfl
          · have hnext := ih (some ⟨.rule r, m⟩)
            rw [Option.map_some, Found.renumber, Winner.renumber] at hnext
            rw [hnext]
        · rw [ih]

theorem choose_renumber (e : Engine M) (line : Text) (cursor : Int) (c : Candidates M) :
    choose e line cursor (c.renumber φ) =
      ((choose e line cursor c).1.map (Found.renumber φ), (choose e line cursor c).2) := by
  have hrules := findRule_renumber (φ := φ) e line cursor c.rules
  have hnone := hrules none
  rw [Option.map_none] at hnone
  unfold choose Candidates.renumber
  simp only
  split
  · exact hnone
  · rename_i closer hcloser
    split
    · rw [hnone]
      simp only [better_renumber]
      split
      · rfl
      · split
        · rfl
        · rfl
    · split
      · rw [hnone]
      · rename_i m hm
        split
        · rfl
        · have hbest := hrules (some ⟨.closer, m⟩)
          rw [Option.map_some, Found.renumber, Winner.renumber] at hbest
          rw [hbest]

theorem emit_renumber (s : Scan M) (t : Token) : (s.renumber φ).emit t = (s.emit t).renumber φ := by
  unfold emit
  split
  · rfl
  · rfl

theorem emitAll_renumber (s : Scan M) (tokens : List Token) :
    (s.renumber φ).emitAll tokens = (s.emitAll tokens).renumber φ := by
  induction tokens generalizing s with
  | nil => rfl
  | cons t rest ih =>
      have hrest := ih (s.emit t)
      rw [← emit_renumber] at hrest
      exact hrest

theorem passTo_renumber (h : Grammar.Embeds φ g g') (s : Scan M) (stop : Int) :
    (s.renumber φ).passTo g' stop = (s.passTo g stop).renumber φ := by
  change ({ (s.renumber φ).emit ⟨s.cursor, stop, (s.stack.renumber φ).scopes g'.scopeName⟩ with
    cursor := stop } : Scan M) = _
  rw [h.scopeName, Stack.scopes_renumber, emit_renumber]
  rfl

theorem cover_renumber (s : Scan M) (m : Match) (captures : List Capture) (scopes : ScopePath) :
    (s.renumber φ).cover m captures scopes = (s.cover m captures scopes).renumber φ := by
  unfold cover
  rw [emitAll_renumber]
  rfl

theorem frameFor_renumber (r : RegionRule M) (nameScopes : ScopePath) (endSource : String)
    (closer : M) : frameFor { r with id := φ r.id } nameScopes endSource closer =
      (frameFor r nameScopes endSource closer).renumber φ := by
  simp [frameFor, Frame.renumber, RegionRule.inner]

theorem applyLeaf_renumber (h : Grammar.Embeds φ g g') (s : Scan M) (r : MatchRule M) (m : Match) :
    (s.renumber φ).applyLeaf g' { r with id := φ r.id } m = (s.applyLeaf g r m).renumber φ := by
  unfold applyLeaf
  split
  · rfl
  · change (s.renumber φ).cover m r.captures
      (((s.stack.renumber φ).scopes g'.scopeName).extend r.scope) = _
    rw [h.scopeName, Stack.scopes_renumber, cover_renumber]

theorem bindEnd_renumber (h : Grammar.Embeds φ g g') (line : Text) (s : Scan M) (r : RegionRule M)
    (m : Match) :
    (s.renumber φ).bindEnd g' line { r with id := φ r.id } m =
      match s.bindEnd g line r m with
      | .ok (endSource, closer, t) => .ok (endSource, closer, t.renumber φ)
      | .error (fault, t) => .error (fault, t.renumber φ) := by
  unfold bindEnd
  rw [h.engine]
  simp only
  rcases BackReference.resolve r.endSource line m.groups with tooLong | bound
  · rfl
  · simp only
    rcases g.engine.compile bound with (reason | reason) | closer
    · simp only
      rcases g.engine.compile (BackReference.blank r.endSource) with (reason | reason) | closer
      · rfl
      · rfl
      · rfl
    · rfl
    · rfl

theorem openRegion_renumber (h : Grammar.Embeds φ g g') (line : Text) (limits : Limits) (s : Scan M)
    (r : RegionRule M) (m : Match) :
    (s.renumber φ).openRegion g' line limits { r with id := φ r.id } m =
      Outcome.renumber φ (s.openRegion g line limits r m) := by
  have hpush : ∀ (t : Scan M) scopes endSource closer,
      ({ t.renumber φ with
        stack := (t.renumber φ).stack.push
          (frameFor { r with id := φ r.id } scopes endSource closer) } : Scan M) =
        renumber φ { t with stack := t.stack.push (frameFor r scopes endSource closer) } := by
    intro t scopes endSource closer
    rw [frameFor_renumber]
    rfl
  unfold openRegion
  have hscopes : (s.renumber φ).stack.scopes g'.scopeName = s.stack.scopes g.scopeName := by
    rw [h.scopeName]
    exact Stack.scopes_renumber s.stack _
  simp only [hscopes, cover_renumber]
  generalize s.cover m r.beginCaptures ((s.stack.scopes g.scopeName).extend r.scope) = t
  have hdepth : (t.renumber φ).stack.depth = t.stack.depth := Stack.depth_renumber _
  have hbind := bindEnd_renumber h line t r m
  rw [hdepth, hbind]
  split
  · rfl
  · rcases t.bindEnd g line r m with ⟨fault, u⟩ | ⟨endSource, closer, u⟩
    · simp only [hpush]
      rcases r.closer with _ | closer
      · rfl
      · rfl
    · simp only [hpush]
      rcases r.closer with _ | closer
      · rfl
      · rfl

theorem closeRegion_renumber (h : Grammar.Embeds φ g g') {s : Scan M}
    (belongs : ∀ f ∈ s.stack, f.Belongs g) (m : Match) :
    (s.renumber φ).closeRegion g' m = Outcome.renumber φ (s.closeRegion g m) := by
  have htop : (s.renumber φ).stack.top? = s.stack.top?.map (Frame.renumber φ) :=
    Stack.top?_renumber s.stack
  unfold closeRegion
  rw [htop]
  rcases hframe : s.stack.top? with _ | f
  · rfl
  · obtain ⟨r, hr, -⟩ := (belongs f (List.mem_of_mem_head? hframe)).region
    have hrule' := Grammar.rule?_renumber h (Grammar.rule?_of_region? hr)
    have hid : (f.renumber φ).rule = renumberId φ f.rule := rfl
    simp only [Option.map_some, hid, hrule', Grammar.rule?_of_region? hr, Rule.withId,
      cover_renumber]
    have hpop : (s.renumber φ).stack.pop = s.stack.pop.renumber φ := Stack.pop_renumber s.stack
    rw [hpop]
    rfl

theorem apply_renumber (h : Grammar.Embeds φ g g') {s : Scan M}
    (belongs : ∀ f ∈ s.stack, f.Belongs g) (found : Found M) :
    (s.renumber φ).apply g' line limits (found.renumber φ) =
      Outcome.renumber φ (s.apply g line limits found) := by
  have hreach : (s.renumber φ).reach g' found.hit.start =
      (s.reach g found.hit.start).renumber φ := by
    unfold reach
    rw [passTo_renumber h]
    exact (apply_ite (renumber φ) (s.cursor < found.hit.start) _ _).symm
  have hbelongs : ∀ f ∈ (s.reach g found.hit.start).stack, f.Belongs g := by
    rw [reach_stack]
    exact belongs
  rcases found with ⟨_ | r, hit⟩
  · have hclose := closeRegion_renumber h hbelongs hit
    rw [← hreach] at hclose
    exact hclose
  · rcases r with r | r
    · have hleaf := applyLeaf_renumber h (s.reach g hit.start) r hit
      rw [← hreach] at hleaf
      exact congrArg Except.ok hleaf
    · have hopen := openRegion_renumber h line limits (s.reach g hit.start) r hit
      rw [← hreach] at hopen
      exact hopen

theorem candidates_renumber (h : Grammar.Embeds φ g g') (coherent : g.Coherent) {s : Stack M}
    (belongs : ∀ f ∈ s, f.Belongs g) :
    ∃ c, candidates g s = .ok c ∧ candidates g' (s.renumber φ) = .ok (c.renumber φ) := by
  unfold candidates
  rw [Stack.top?_renumber]
  rcases hframe : s.top? with _ | f
  · obtain ⟨c, hc⟩ := Option.isSome_iff_exists.mp (Grammar.Coherent.context?_isSome coherent.root)
    have hc' : g'.context? ContextName.root.text = some (c.renumber φ) := h.contexts .root c hc
    refine ⟨⟨c.rules, none, false⟩, ?_, ?_⟩
    · simp only [hc]
    · simp only [Option.map_none, hc']
      rfl
  · have hf := belongs f (List.mem_of_mem_head? hframe)
    obtain ⟨c, hc⟩ := Option.isSome_iff_exists.mp (coherent.context?_of_belongs hf)
    obtain ⟨r, hr, hcontext⟩ := hf.region
    have hid := coherent.id_eq hr
    have hc' : g'.context? (f.renumber φ).context = some (c.renumber φ) := by
      have hname : (f.renumber φ).context = (r.inner.renumber φ).text := by
        rw [Frame.renumber, ← hid]
        rfl
      rw [hname]
      exact h.contexts r.inner c (hcontext ▸ hc)
    have hrule : (f.renumber φ).rule = renumberId φ f.rule := rfl
    refine ⟨⟨c.rules, f.closer, r.endLast⟩, ?_, ?_⟩
    · simp only [hc, Grammar.rule?_of_region? hr]
    · simp only [Option.map_some, hc', hrule,
        Grammar.rule?_renumber h (Grammar.rule?_of_region? hr), Rule.withId]
      rfl

theorem state_renumber (s : Scan M) : (s.renumber φ).state = renumberState φ s.state := by
  have htop : (s.renumber φ).stack.top? = s.stack.top?.map (Frame.renumber φ) :=
    Stack.top?_renumber s.stack
  have hdepth : (s.renumber φ).stack.depth = s.stack.depth := Stack.depth_renumber s.stack
  unfold state renumberState
  rw [htop, hdepth]
  rcases s.stack.top? with _ | f
  · rfl
  · rfl

theorem renumberState_injOn (h : Grammar.Embeds φ g g') (coherent : g.Coherent) (most : Nat) :
    ∀ x ∈ states g most, ∀ y ∈ states g most, renumberState φ x = renumberState φ y → x = y := by
  have hregion : ∀ x ∈ states g most, x = (0, -1) ∨ ∃ i, i < g.rules.length ∧ x.2 = (i : Int) := by
    intro x hx
    rcases List.mem_cons.mp hx with rfl | hx
    · exact .inl rfl
    · obtain ⟨r, hr, hid⟩ := List.mem_map.mp (List.mem_product.mp hx).2
      obtain ⟨i, hi⟩ := List.mem_iff_getElem?.mp (List.mem_of_mem_filter hr)
      refine .inr ⟨r.id, ?_, hid.symm⟩
      rw [coherent.numbered i r hi]
      exact (List.getElem?_eq_some_iff.mp hi).1
  intro x hx y hy heq
  obtain ⟨hdepth, hrule⟩ := Prod.ext_iff.mp heq
  change renumberId φ x.2 = renumberId φ y.2 at hrule
  have hnone : renumberId φ (-1) = -1 := rfl
  rcases hregion x hx with rfl | ⟨i, hi, hxi⟩
  · rcases hregion y hy with rfl | ⟨j, hj, hyj⟩
    · rfl
    · rw [hyj, hnone, renumberId_natCast] at hrule
      omega
  · rcases hregion y hy with rfl | ⟨j, hj, hyj⟩
    · rw [hxi, hnone, renumberId_natCast] at hrule
      omega
    · rw [hxi, hyj, renumberId_natCast, renumberId_natCast] at hrule
      have hij : i = j := h.injective hi hj (by omega)
      exact Prod.ext hdepth (by rw [hxi, hyj, hij])

structure Known (g : Grammar M) (most : Nat) (s : Scan M) : Prop where
  framed : Framed g most s
  seen : s.seen ⊆ states g most

theorem Known.apply {most : Nat} {c : Candidates M} {found : Found M} {probes : Nat} {s t : Scan M}
    (coherent : g.Coherent) (hmost : limits.depth.toNat ≤ most) (known : Known g most s)
    (hcandidates : candidates g s.stack = .ok c)
    (hchoose : choose g.engine line s.cursor c = (some found, probes))
    (happly : (s.counted probes).apply g line limits found = .ok t) : Known g most t := by
  refine ⟨known.framed.apply coherent hmost hcandidates hchoose happly, ?_⟩
  rw [(apply_applies happly).seen_eq, reach_seen]
  exact known.seen

theorem Known.going {most : Nat} {s t : Scan M} (coherent : g.Coherent)
    (hmost : limits.depth.toNat ≤ most) (known : Known g most s)
    (hstep : step g line limits s = .going t) : Known g most t := by
  refine ⟨known.framed.going coherent hmost hstep, ?_⟩
  cases iteration_of_step hstep with
  | moved => exact List.nil_subset _
  | noted hcandidates hchoose happly =>
      have hknown := known.apply coherent hmost hcandidates hchoose happly
      exact List.cons_subset.mpr ⟨state_mem_states coherent hknown.framed, hknown.seen⟩
  | forced => exact List.nil_subset _

theorem guard_renumber {most : Nat} (h : Grammar.Embeds φ g g') (coherent : g.Coherent) {s : Scan M}
    (known : Known g most s) (line : Text) (w : Winner M) :
    (s.renumber φ).guard g' line (w.renumber φ) = Step.renumber φ (s.guard g line w) := by
  have hleaf : (w.renumber φ).isLeaf = w.isLeaf := by
    rcases w with _ | (r | r)
    · rfl
    · rfl
    · rfl
  have hseen : (s.renumber φ).seen.contains (s.renumber φ).state = s.seen.contains s.state := by
    -- new numbers may coincide elsewhere, but not on the states that the scan can meet
    have hinj := renumberState_injOn h coherent most
    rw [Bool.eq_iff_iff, List.contains_iff_mem, List.contains_iff_mem, state_renumber]
    constructor
    · intro hmem
      obtain ⟨x, hx, heq⟩ := List.mem_map.mp hmem
      rwa [← hinj x (known.seen hx) _ (state_mem_states coherent known.framed) heq]
    · exact fun hmem => List.mem_map_of_mem hmem
  have hforce : (s.renumber φ).forceStep g' = (s.forceStep g).renumber φ := by
    have hpass : (s.renumber φ).passTo g' ((s.renumber φ).cursor + 1) =
        (s.passTo g (s.cursor + 1)).renumber φ := passTo_renumber h s _
    unfold forceStep
    rw [hpass]
    rfl
  unfold guard
  rw [hleaf, hseen, hforce, state_renumber]
  split
  · change (if line.size ≤ s.cursor then _ else _) = _
    split
    · rfl
    · rfl
  · rfl

/-- One iteration with the one grammar is one with the other. -/
theorem step_renumber {most : Nat} (h : Grammar.Embeds φ g g') (coherent : g.Coherent)
    (hmost : limits.depth.toNat ≤ most) {s : Scan M} (known : Known g most s) :
    step g' line limits (s.renumber φ) = Step.renumber φ (step g line limits s) := by
  obtain ⟨c, hc, hc'⟩ := candidates_renumber h coherent known.framed.belongs
  have hcounted : ∀ probes, (s.renumber φ).counted probes = (s.counted probes).renumber φ :=
    fun _ => rfl
  have hcursor : (s.renumber φ).cursor = s.cursor := rfl
  rw [step_eq hc, step_eq hc', h.engine, hcursor, choose_renumber]
  rcases hchoose : choose g.engine line s.cursor c with ⟨_ | found, probes⟩
  · simp only [Option.map_none, hcounted, passTo_renumber h]
    rfl
  · simp only [Option.map_some, hcounted]
    have hbelongs : ∀ f ∈ (s.counted probes).stack, f.Belongs g := known.framed.belongs
    rw [apply_renumber h hbelongs]
    rcases happly : (s.counted probes).apply g line limits found with ⟨fault, t⟩ | t
    · rfl
    · have hknown := known.apply coherent hmost hc hchoose happly
      have hguard := guard_renumber h coherent hknown line found.winner
      simp only [Outcome.renumber]
      change (if s.cursor < t.cursor then _ else (t.renumber φ).guard g' line
        (found.winner.renumber φ)) = _
      rw [hguard]
      split
      · rfl
      · rfl

theorem run_renumber {most : Nat} (h : Grammar.Embeds φ g g') (coherent : g.Coherent)
    (hmost : limits.depth.toNat ≤ most) {s : Scan M} (known : Known g most s) (line : Text)
    (fuel : Nat) :
    run g' line limits fuel (s.renumber φ) = Outcome.renumber φ (run g line limits fuel s) := by
  induction fuel generalizing s with
  | zero => rfl
  | succ fuel ih =>
      rw [run, run, step_renumber h coherent hmost known]
      rcases hstep : step g line limits s with t | t | ⟨fault, t⟩
      · exact ih (known.going coherent hmost hstep)
      · rfl
      · rfl

/-- The loop with the one grammar has a bound that is no lower; this does not matter, unless the
bound of the other cuts it off. -/
theorem finish_renumber (h : Grammar.Embeds φ g g') (coherent : g.Coherent)
    (hcount : g.regionCount ≤ g'.regionCount) (line : Text) (limits : Limits) {s : Scan M}
    (belongs : ∀ f ∈ s.stack, f.Belongs g) (hseen : s.seen = [])
    (hends : (lineRun (finish g line limits s)).result = .error .endless →
      g'.regionCount = g.regionCount) :
    finish g' line limits (s.renumber φ) = Outcome.renumber φ (finish g line limits s) := by
  have known : Known g (max s.stack.depth limits.depth.toNat) s :=
    ⟨⟨belongs, Nat.le_max_left ..⟩, hseen ▸ List.nil_subset _⟩
  have hdepth : (s.renumber φ).stack.depth = s.stack.depth := Stack.depth_renumber s.stack
  have hfuel : fuel g line limits s ≤ fuel g' line limits (s.renumber φ) := by
    rw [fuel, fuel, hdepth]
    exact Nat.mul_le_mul_left _ (Nat.add_le_add_right (Nat.mul_le_mul_left _ hcount) 2)
  have hrun : ((lineRun (run g line limits (fuel g line limits s) s)).result = .error .endless →
        g'.regionCount = g.regionCount) →
      run g' line limits (fuel g' line limits (s.renumber φ)) (s.renumber φ) =
        Outcome.renumber φ (run g line limits (fuel g line limits s) s) := by
    intro hends
    rw [run_renumber h coherent (Nat.le_max_right ..) known]
    by_cases hendless :
        (lineRun (run g line limits (fuel g line limits s) s)).result = .error .endless
    · have hsame : fuel g' line limits (s.renumber φ) = fuel g line limits s := by
        rw [fuel, fuel, hends hendless, hdepth]
      rw [hsame]
    · rw [run_of_le hfuel hendless]
  unfold finish at hends ⊢
  rcases hlength : limits.length with _ | limit
  · simp only [hlength] at hends ⊢
    exact hrun hends
  · simp only [hlength] at hends ⊢
    by_cases hlong : limit < line.size
    · simp only [if_pos hlong]
      have hpass := passTo_renumber h (s.record (.lineTooLong line.size limit)) line.size
      exact congrArg Except.ok hpass
    · simp only [if_neg hlong] at hends ⊢
      exact hrun hends

end Scan

def LineResult.renumber (φ : Nat → Nat) (r : LineResult M) : LineResult M :=
  ⟨r.tokens, r.stack.renumber φ⟩

namespace Stack

theorem closerFor_renumber (h : Grammar.Embeds φ g g') {f : Frame M} {r : RegionRule M}
    (hr : g.region? f.rule = some r) : closerFor g' (f.renumber φ) = closerFor g f := by
  have hr' : g'.region? (f.renumber φ).rule = some { r with id := φ f.rule.toNat } :=
    Grammar.region?_renumber h hr
  simp only [closerFor, hr, hr', h.engine]
  rfl

theorem fits_renumber (h : Grammar.Embeds φ g g') (coherent : g.Coherent) {f : Frame M}
    (hfits : fits g f = true) : fits g' (f.renumber φ) = true := by
  unfold fits at hfits
  split at hfits
  · cases hfits
  · rename_i r hr
    simp only [Bool.and_eq_true, beq_iff_eq] at hfits
    obtain ⟨⟨hcontext, hknown⟩, hroot⟩ := hfits
    have hr' : g'.region? (f.renumber φ).rule = some { r with id := φ f.rule.toNat } :=
      Grammar.region?_renumber h hr
    have hinner : r.inner.renumber φ = .inside (φ f.rule.toNat) := by
      rw [← coherent.id_eq hr]
      rfl
    obtain ⟨c, hc⟩ := Option.isSome_iff_exists.mp hknown
    have hc' : g'.context? (f.renumber φ).context = some (c.renumber φ) := by
      have hfound := h.contexts r.inner c (hcontext ▸ hc)
      rwa [hinner] at hfound
    have hnames : (f.renumber φ).nameScopes.head? = some g'.scopeName :=
      hroot.trans (congrArg some h.scopeName.symm)
    simp only [fits, hr', hc', hnames]
    simp [RegionRule.inner, Frame.renumber]

theorem Accepted.renumber (h : Grammar.Embeds φ g g') (coherent : g.Coherent) {s : Stack M}
    (hs : s.Accepted g) : (s.renumber φ).Accepted g' := by
  intro f' hf'
  obtain ⟨f, hf, rfl⟩ := List.mem_map.mp hf'
  have hresume := hs f hf
  obtain ⟨r, hr, -⟩ := (resumeFrame_belongs hresume).region
  obtain ⟨m, hm, hsame, hfits⟩ := resumeFrame_eq_self_iff.mp hresume
  refine resumeFrame_eq_self_iff.mpr ⟨m, ?_, hsame, fits_renumber h coherent hfits⟩
  rw [closerFor_renumber h hr, hm]

end Stack

namespace Grammar

theorem tokenizeLine_renumber (h : Embeds φ g g') (coherent : g.Coherent)
    (hcount : g.regionCount ≤ g'.regionCount) (limits : Limits) (line : Text) {stack : Stack M}
    (hstack : stack.Accepted g)
    (hends : (g.tokenizeLine limits line stack).result = .error .endless →
      g'.regionCount = g.regionCount) :
    (g'.tokenizeLine limits line (stack.renumber φ)).result =
      (g.tokenizeLine limits line stack).result.map (LineResult.renumber φ) := by
  have belongs : ∀ f ∈ (Scan.start stack).stack, f.Belongs g :=
    fun f hf => Stack.resumeFrame_belongs (hstack f hf)
  rw [tokenizeLine_of_resume hstack.resume_eq] at hends ⊢
  have hfinish := Scan.finish_renumber h coherent hcount line limits belongs rfl hends
  rw [tokenizeLine_of_resume (hstack.renumber h coherent).resume_eq]
  change (Scan.lineRun (Scan.finish g' line limits ((Scan.start stack).renumber φ))).result = _
  rw [hfinish]
  rcases Scan.finish g line limits (Scan.start stack) with ⟨fault, t⟩ | t
  · rfl
  · rfl

theorem tokenizeLines_embeds (h : Embeds φ g g') (coherent : g.Coherent)
    (hcount : g.regionCount ≤ g'.regionCount) (limits : Limits) (lines : List Text)
    {stack : Stack M} (hstack : Scan.Settled g (Scan.start stack))
    (hends : (g.tokenizeLines limits lines stack).fault = some .endless →
      g'.regionCount = g.regionCount) :
    (g'.tokenizeLines limits lines (stack.renumber φ)).results =
        (g.tokenizeLines limits lines stack).results.map (LineResult.renumber φ) ∧
      (g'.tokenizeLines limits lines (stack.renumber φ)).fault =
        (g.tokenizeLines limits lines stack).fault := by
  induction lines generalizing stack with
  | nil => exact ⟨rfl, rfl⟩
  | cons line lines ih =>
      have haccepted : stack.Accepted g := hstack.accepted
      have hline := tokenizeLine_renumber h coherent hcount limits line haccepted
      rcases hresult : (g.tokenizeLine limits line stack).result with fault | r
      · obtain ⟨hresults, hfault⟩ := tokenizeLines_of_error g limits lines hresult
        have hsame := hline fun hendless => hends (by
          rw [hresult] at hendless
          rw [hfault, Except.error.inj hendless])
        rw [hresult] at hsame
        obtain ⟨hresults', hfault'⟩ := tokenizeLines_of_error g' limits lines hsame
        rw [hresults, hresults', hfault, hfault']
        exact ⟨rfl, rfl⟩
      · have hsame := hline (by simp [hresult])
        rw [hresult] at hsame
        obtain ⟨s, t, hresume, hfinish, rfl⟩ := tokenizeLine_eq_ok hresult
        rw [haccepted.resume_eq] at hresume
        cases hresume
        have hnext := ((Scan.Settled.invariant coherent).finish hstack hfinish).next
        obtain ⟨hresults, hfault⟩ := tokenizeLines_of_ok g limits lines hresult
        obtain ⟨hresults', hfault'⟩ := tokenizeLines_of_ok g' limits lines hsame
        rw [hfault] at hends
        obtain ⟨ihResults, ihFault⟩ := ih hnext hends
        rw [hresults, hresults', hfault, hfault']
        exact ⟨congrArg _ ihResults, ihFault⟩

theorem tokenizeLines_renumber (h : Embeds φ g g') (coherent : g.Coherent)
    (hcount : g'.regionCount = g.regionCount) (limits : Limits) (lines : List Text)
    {stack : Stack M} (hstack : Scan.Settled g (Scan.start stack)) :
    (g'.tokenizeLines limits lines (stack.renumber φ)).results =
        (g.tokenizeLines limits lines stack).results.map (LineResult.renumber φ) ∧
      (g'.tokenizeLines limits lines (stack.renumber φ)).fault =
        (g.tokenizeLines limits lines stack).fault :=
  tokenizeLines_embeds h coherent hcount.ge limits lines hstack fun _ => hcount

end Grammar

end LineScope
