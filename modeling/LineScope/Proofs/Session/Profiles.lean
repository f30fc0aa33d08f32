import Mathlib.Algebra.BigOperators.Ring.List
import Mathlib.Algebra.Order.BigOperators.Group.List
import Mathlib.Algebra.Order.Ring.Nat
import Mathlib.Data.List.Forall2
import LineScope.Session
import LineScope.Proofs.Scan.Work

/-!
Profiles of a session. Every opening of a profile begins a block, which its closing ends; a call
belongs to the innermost block that is open. What a profile counts is the work of the calls that
belong to its block, and no call does anything else for that.
-/

namespace LineScope

/-- The scan of a line in a session, with what came of it. -/
structure Call where
  M : Type
  grammar : Grammar M
  limits : Limits
  line : Text
  stack : Stack M
  run : LineRun M

namespace Call

def returns (c : Call) : Bool := c.run.result.isOk

def tokens (c : Call) : Nat :=
  match c.run.result with
  | .ok r => r.tokens.length
  | .error _ => 0

def Genuine (c : Call) : Prop := c.run = c.grammar.tokenizeLine c.limits c.line c.stack

def Involves (c : Call) (context : Context c.M) : Prop :=
  c.grammar.Involves c.limits c.line c.stack context

variable {c : Call}

theorem tokens_le (h : c.Genuine) (bounded : c.grammar.engine.InBounds) :
    c.tokens ≤ c.line.size := by
  unfold tokens
  split
  · rename_i r hresult
    rw [h] at hresult
    exact Grammar.tokens_le_size bounded hresult
  · exact Nat.zero_le _

theorem forced_le (h : c.Genuine) (bounded : c.grammar.engine.InBounds) :
    c.run.tally.forced ≤ c.line.size := by
  rw [h]
  exact Grammar.forced_le_size bounded c.limits c.line c.stack

theorem forced_le_iterations (h : c.Genuine) : c.run.tally.forced ≤ c.run.tally.iterations := by
  rw [h]
  exact Grammar.forced_le_iterations c.grammar c.limits c.line c.stack

theorem probes_le {most : Nat} (h : c.Genuine)
    (hmost : ∀ context, c.Involves context → context.rules.length ≤ most) :
    c.run.tally.probes ≤ c.run.tally.iterations * (1 + most) := by
  rw [h]
  exact Grammar.probes_le hmost

end Call

namespace Session

inductive Act : Type 1
  | setLimits (limits : Limits)
  | enterLimits (limits : Limits)
  | exitLimits
  | openProfile
  /-- A profile is closed, with what it has counted. -/
  | closeProfile (p : Profile)
  | call (c : Call)

def Act.isProfile : Act → Bool
  | .openProfile => true
  | .closeProfile _ => true
  | _ => false

/-- A session after what was done in it, the last act first. It begins with no profile open. -/
inductive After : List Act → Session → Prop
  | start {limits : Limits} {saved : List Limits} : After [] ⟨limits, saved, []⟩
  | setLimits {acts : List Act} {s : Session} (limits : Limits) :
      After acts s → After (.setLimits limits :: acts) (s.setLimits limits)
  | enterLimits {acts : List Act} {s : Session} (limits : Limits) :
      After acts s → After (.enterLimits limits :: acts) (s.enterLimits limits)
  | exitLimits {acts : List Act} {s t : Session} :
      After acts s → s.exitLimits = some t → After (.exitLimits :: acts) t
  | openProfile {acts : List Act} {s : Session} :
      After acts s → After (.openProfile :: acts) s.openProfile
  | closeProfile {acts : List Act} {s t : Session} {p : Profile} :
      After acts s → s.closeProfile = some (p, t) → After (.closeProfile p :: acts) t
  | call {acts : List Act} {s : Session} {M : Type} (g : Grammar M) (line : Text)
      (stack : Stack M) :
      After acts s →
        After (.call ⟨M, g, s.limits, line, stack, (s.tokenizeLine g line stack).1⟩ :: acts)
          (s.tokenizeLine g line stack).2

theorem exitLimits_eq_some {s t : Session} (h : s.exitLimits = some t) :
    ∃ limits saved, s.saved = limits :: saved ∧ t = { s with limits, saved } := by
  unfold exitLimits at h
  split at h
  · rename_i limits saved hsaved
    exact ⟨limits, saved, hsaved, (Option.some.inj h).symm⟩
  · cases h

theorem closeProfile_eq_some {s t : Session} {p : Profile} (h : s.closeProfile = some (p, t)) :
    ∃ profiles, s.profiles = p :: profiles ∧ t = { s with profiles } := by
  unfold closeProfile at h
  split at h
  · rename_i profiles hprofiles
    cases h
    exact ⟨profiles, hprofiles, rfl⟩
  · cases h

def unprofiled (s : Session) : Session := { s with profiles := [] }

/-- The blocks that are open, innermost first. A block is named by the number of acts before it. -/
def openBlocks : List Act → List Nat
  | [] => []
  | .openProfile :: earlier => earlier.length :: openBlocks earlier
  | .closeProfile _ :: earlier => (openBlocks earlier).tail
  | _ :: earlier => openBlocks earlier

/-- The calls made while a block was the innermost one, the last first. -/
def callsOf (block : Nat) : List Act → List Call
  | [] => []
  | .call c :: earlier =>
    if (openBlocks earlier).head? = some block then c :: callsOf block earlier
    else callsOf block earlier
  | _ :: earlier => callsOf block earlier

theorem lt_of_mem_openBlocks {acts : List Act} {block : Nat} (h : block ∈ openBlocks acts) :
    block < acts.length := by
  induction acts with
  | nil => cases h
  | cons act earlier ih =>
      rw [List.length_cons]
      cases act with
      | openProfile =>
          rcases List.mem_cons.mp h with rfl | h
          · exact Nat.lt_succ_self _
          · exact Nat.lt_succ_of_lt (ih h)
      | closeProfile => exact Nat.lt_succ_of_lt (ih (List.mem_of_mem_tail h))
      | _ => exact Nat.lt_succ_of_lt (ih h)

theorem nodup_openBlocks (acts : List Act) : (openBlocks acts).Nodup := by
  induction acts with
  | nil => exact List.nodup_nil
  | cons act earlier ih =>
      cases act with
      | openProfile =>
          refine List.nodup_cons.mpr ⟨fun hmem => ?_, ih⟩
          exact Nat.lt_irrefl _ (lt_of_mem_openBlocks hmem)
      | closeProfile => exact ih.tail
      | _ => exact ih

theorem callsOf_eq_nil {acts : List Act} {block : Nat} (h : acts.length ≤ block) :
    callsOf block acts = [] := by
  induction acts with
  | nil => rfl
  | cons act earlier ih =>
      rw [List.length_cons] at h
      have hearlier := ih (Nat.le_of_succ_le h)
      cases act with
      | call c =>
          have hnot : (openBlocks earlier).head? ≠ some block := by
            intro hhead
            have hlt := lt_of_mem_openBlocks (List.mem_of_head? hhead)
            omega
          rw [callsOf, if_neg hnot, hearlier]
      | _ => exact hearlier

theorem callsOf_append {earlier : List Act} {block : Nat} (later : List Act)
    (hlt : block < earlier.length) (hclosed : block ∉ openBlocks earlier) :
    block ∉ openBlocks (later ++ earlier) ∧
      callsOf block (later ++ earlier) = callsOf block earlier := by
  induction later with
  | nil => exact ⟨hclosed, rfl⟩
  | cons act later ih =>
      obtain ⟨hnot, hcalls⟩ := ih
      cases act with
      | openProfile =>
          refine ⟨fun hmem => ?_, hcalls⟩
          rcases List.mem_cons.mp hmem with heq | hmem
          · have hlength : (later ++ earlier).length = later.length + earlier.length :=
              List.length_append
            change block = (later ++ earlier).length at heq
            omega
          · exact hnot hmem
      | closeProfile => exact ⟨fun hmem => hnot (List.mem_of_mem_tail hmem), hcalls⟩
      | call c =>
          refine ⟨hnot, ?_⟩
          have hhead : (openBlocks (later ++ earlier)).head? ≠ some block :=
            fun hhead => hnot (List.mem_of_head? hhead)
          rw [List.cons_append, callsOf, if_neg hhead, hcalls]
      | _ => exact ⟨hnot, hcalls⟩

theorem mem_of_mem_callsOf {acts : List Act} {block : Nat} {c : Call}
    (h : c ∈ callsOf block acts) : .call c ∈ acts := by
  induction acts with
  | nil => cases h
  | cons act earlier ih =>
      cases act with
      | call d =>
          rw [callsOf] at h
          split at h
          · rcases List.mem_cons.mp h with rfl | h
            · exact List.mem_cons_self
            · exact List.mem_cons_of_mem _ (ih h)
          · exact List.mem_cons_of_mem _ (ih h)
      | _ => exact List.mem_cons_of_mem _ (ih h)

end Session

/-- The counts of a profile are sums over calls. Lines, characters and tokens are counted when a
call returns, the rest also when it fails. -/
structure Profile.Sums (p : Profile) (calls : List Call) : Prop where
  lines : p.lines = (calls.filter Call.returns).length
  characters : p.characters = ((calls.filter Call.returns).map fun c => c.line.size).sum
  tokens : p.tokens = ((calls.filter Call.returns).map Call.tokens).sum
  iterations : p.iterations = (calls.map fun c => c.run.tally.iterations).sum
  probes : p.probes = (calls.map fun c => c.run.tally.probes).sum
  forced : p.forced = (calls.map fun c => c.run.tally.forced).sum

/-- A profile counts the work of calls, and the counts are in bounds. -/
structure Profile.Accounts (p : Profile) (calls : List Call) : Prop extends p.Sums calls where
  tokens_le : (∀ c ∈ calls, c.grammar.engine.InBounds) → p.tokens ≤ p.characters
  forced_le_characters : (∀ c ∈ calls, c.grammar.engine.InBounds) →
    (∀ c ∈ calls, c.returns) → p.forced ≤ p.characters
  forced_le_iterations : p.forced ≤ p.iterations
  /-- An iteration searches for the end of a region and the rules of a context. -/
  probes_le : ∀ most, (∀ c ∈ calls, ∀ context, c.Involves context → context.rules.length ≤ most) →
    p.probes ≤ p.iterations * (1 + most)

namespace Profile

variable {p : Profile} {calls : List Call}

theorem sums_empty : empty.Sums [] := ⟨rfl, rfl, rfl, rfl, rfl, rfl⟩

theorem Sums.count (h : p.Sums calls) (c : Call) : (p.count c.line c.run).Sums (c :: calls) := by
  have hlines := h.lines
  have hcharacters := h.characters
  have htokens := h.tokens
  have hiterations := h.iterations
  have hprobes := h.probes
  have hforced := h.forced
  rcases hresult : c.run.result with fault | r
  · have hfails : c.returns = false := by
      simp [Call.returns, hresult, Except.isOk, Except.toBool]
    constructor <;> simp only [Profile.count, hresult, List.filter_cons, hfails, List.map_cons,
      List.sum_cons, Bool.false_eq_true, if_false] <;> omega
  · have hreturns : c.returns = true := by
      simp [Call.returns, hresult, Except.isOk, Except.toBool]
    have htext : c.tokens = r.tokens.length := by simp only [Call.tokens, hresult]
    constructor <;> simp only [Profile.count, hresult, List.filter_cons, hreturns, List.map_cons,
      List.sum_cons, List.length_cons, if_true] <;> omega

theorem Sums.accounts (h : p.Sums calls) (hgenuine : ∀ c ∈ calls, c.Genuine) :
    p.Accounts calls where
  toSums := h
  tokens_le hbounded := by
    rw [h.tokens, h.characters]
    refine List.sum_le_sum fun c hc => ?_
    have hmem := List.mem_of_mem_filter hc
    exact Call.tokens_le (hgenuine c hmem) (hbounded c hmem)
  forced_le_characters hbounded hreturns := by
    rw [h.forced, h.characters, List.filter_eq_self.mpr hreturns]
    exact List.sum_le_sum fun c hc => Call.forced_le (hgenuine c hc) (hbounded c hc)
  forced_le_iterations := by
    rw [h.forced, h.iterations]
    exact List.sum_le_sum fun c hc => Call.forced_le_iterations (hgenuine c hc)
  probes_le most hmost := by
    rw [h.probes, h.iterations, ← List.sum_map_mul_right]
    exact List.sum_le_sum fun c hc => Call.probes_le (hgenuine c hc) (hmost c hc)

end Profile

namespace Session

theorem After.genuine {acts : List Act} {s : Session} (h : After acts s) :
    ∀ c, .call c ∈ acts → c.Genuine := by
  induction h with
  | start => simp
  | call g line stack _ ih =>
      intro c hc
      rcases List.mem_cons.mp hc with heq | hc
      · cases heq
        rfl
      · exact ih c hc
  | setLimits _ _ ih => simpa using ih
  | enterLimits _ _ ih => simpa using ih
  | exitLimits _ _ ih => simpa using ih
  | openProfile _ ih => simpa using ih
  | closeProfile _ _ ih => simpa using ih

theorem sums_call {acts : List Act} {s : Session} (c : Call)
    (h : List.Forall₂ (fun block p => Profile.Sums p (callsOf block acts)) (openBlocks acts)
      s.profiles) :
    List.Forall₂ (fun block p => Profile.Sums p (callsOf block (.call c :: acts)))
      (openBlocks (.call c :: acts)) (s.countLine c.line c.run).profiles := by
  have hnodup := nodup_openBlocks acts
  change List.Forall₂ _ (openBlocks acts) _
  simp only [callsOf]
  unfold countLine
  generalize openBlocks acts = blocks at h hnodup
  generalize hprofiles : s.profiles = profiles at h
  cases h with
  | nil =>
      simp only [hprofiles]
      exact .nil
  | @cons block p blocks _ hp hrest =>
      obtain ⟨hnot, -⟩ := List.nodup_cons.mp hnodup
      refine .cons ?_ ?_
      · rw [List.head?_cons, if_pos rfl]
        exact hp.count c
      · have hothers : ∀ other ∈ blocks, (block :: blocks).head? ≠ some other := by
          rintro other hother heq
          cases heq
          exact hnot hother
        refine ((List.forall₂_and_left _ _).mpr ⟨hothers, hrest⟩).imp ?_
        rintro other q ⟨hother, hq⟩
        rwa [if_neg hother]

theorem After.sums {acts : List Act} {s : Session} (h : After acts s) :
    List.Forall₂ (fun block p => Profile.Sums p (callsOf block acts)) (openBlocks acts)
      s.profiles := by
  induction h with
  | start => exact .nil
  | setLimits _ _ ih => exact ih
  | enterLimits _ _ ih => exact ih
  | exitLimits _ hexit ih =>
      obtain ⟨limits, saved, -, rfl⟩ := exitLimits_eq_some hexit
      exact ih
  | @openProfile acts s _ ih =>
      refine .cons ?_ ih
      have hnone : callsOf acts.length acts = [] := callsOf_eq_nil (Nat.le_refl _)
      rw [callsOf, hnone]
      · exact Profile.sums_empty
      · exact nofun
  | @closeProfile acts s t p _ hclose ih =>
      obtain ⟨profiles, hprofiles, rfl⟩ := closeProfile_eq_some hclose
      rw [hprofiles] at ih
      generalize hopen : openBlocks acts = blocks at ih
      cases ih with
      | cons _ hrest =>
          rw [openBlocks, hopen]
          exact hrest
  | @call acts s M g line stack _ ih => exact sums_call ⟨M, g, s.limits, line, stack, _⟩ ih

theorem After.earlier {later earlier : List Act} {s : Session} (h : After (later ++ earlier) s) :
    ∃ t, After earlier t := by
  induction later generalizing s with
  | nil => exact ⟨s, h⟩
  | cons act later ih =>
      cases h with
      | setLimits _ h => exact ih h
      | enterLimits _ h => exact ih h
      | exitLimits h => exact ih h
      | openProfile h => exact ih h
      | closeProfile h => exact ih h
      | call _ _ _ h => exact ih h

theorem unprofiled_countLine {M : Type} (s : Session) (line : Text) (run : LineRun M) :
    (s.countLine line run).unprofiled = s.unprofiled := by
  unfold countLine
  split
  · rfl
  · rfl

/-- Without its profiles, a session makes the same calls and gets the same from each. -/
theorem After.unprofiled {acts : List Act} {s : Session} (h : After acts s) :
    After (acts.filter fun act => !act.isProfile) s.unprofiled := by
  induction h with
  | start => exact .start
  | setLimits limits _ ih => exact .setLimits limits ih
  | enterLimits limits _ ih => exact .enterLimits limits ih
  | exitLimits _ hexit ih =>
      refine .exitLimits ih ?_
      obtain ⟨limits, saved, hsaved, rfl⟩ := exitLimits_eq_some hexit
      simp only [Session.exitLimits, Session.unprofiled, hsaved]
  | openProfile _ ih => exact ih
  | closeProfile _ hclose ih =>
      obtain ⟨profiles, -, rfl⟩ := closeProfile_eq_some hclose
      exact ih
  | @call acts s M g line stack _ ih =>
      have hcall := ih.call g line stack
      simp only [Session.tokenizeLine] at hcall ⊢
      rw [unprofiled_countLine]
      exact hcall

theorem After.sums_closed {later earlier : List Act} {p : Profile} {s : Session}
    (h : After (later ++ .closeProfile p :: earlier) s) :
    ∃ block, (openBlocks earlier).head? = some block ∧
      p.Sums (callsOf block (later ++ .closeProfile p :: earlier)) := by
  obtain ⟨t, hclosed⟩ := h.earlier
  cases hclosed with
  | @closeProfile _ u _ _ hbefore hclose =>
      obtain ⟨profiles, hprofiles, rfl⟩ := closeProfile_eq_some hclose
      have hsums := hbefore.sums
      have hnodup := nodup_openBlocks earlier
      rw [hprofiles] at hsums
      generalize hopen : openBlocks earlier = blocks at hsums hnodup
      cases hsums with
      | @cons block _ blocks _ hp _ =>
          obtain ⟨hnot, -⟩ := List.nodup_cons.mp hnodup
          have hmem : block ∈ openBlocks earlier := hopen ▸ List.mem_cons_self
          have hout : block ∉ openBlocks (.closeProfile p :: earlier) := by
            rw [openBlocks, hopen]
            exact hnot
          obtain ⟨-, hcalls⟩ := callsOf_append later
            (Nat.lt_succ_of_lt (lt_of_mem_openBlocks hmem)) hout
          refine ⟨block, rfl, ?_⟩
          rw [hcalls]
          exact hp

theorem After.accounts {acts : List Act} {s : Session} {p : Profile} {block : Nat}
    (h : After acts s) (hsums : p.Sums (callsOf block acts)) :
    p.Accounts (callsOf block acts) :=
  hsums.accounts fun c hc => h.genuine c (mem_of_mem_callsOf hc)

/-- Profiles only watch. Without them a session makes the same calls, with the same tokens and
stacks from each; and every profile, open or closed, has counted the calls that were made while it
was the innermost one open, and no others. -/
theorem After.profiles_account {acts : List Act} {s : Session} (h : After acts s) :
    After (acts.filter fun act => !act.isProfile) s.unprofiled ∧
    List.Forall₂ (fun block p => Profile.Accounts p (callsOf block acts)) (openBlocks acts)
      s.profiles ∧
    ∀ later earlier p, acts = later ++ .closeProfile p :: earlier →
      ∃ block, (openBlocks earlier).head? = some block ∧ p.Accounts (callsOf block acts) := by
  refine ⟨h.unprofiled, h.sums.imp fun block p hp => h.accounts hp, ?_⟩
  rintro later earlier p rfl
  obtain ⟨block, hblock, hsums⟩ := h.sums_closed
  exact ⟨block, hblock, h.accounts hsums⟩

theorem After.profiles_account_sample :
    let outer : Profile := ⟨2, 5, 2, 4, 8, 0⟩
    let inner : Profile := ⟨1, 2, 1, 2, 5, 0⟩
    ∃ acts, After acts ⟨.default, [], [outer]⟩ ∧ .closeProfile inner ∈ acts ∧
      (callsOf 0 acts).map Call.line = [Text.ofString "<>", Text.ofString "cat"] ∧
      (callsOf 2 acts).map Call.line = [Text.ofString "<b"] ∧
      outer.Accounts (callsOf 0 acts) ∧ inner.Accounts (callsOf 2 acts) := by
  have hnested : ∀ (g : Grammar Matcher) (first second third : Text) (outer inner : Profile),
      (Profile.empty.count first (g.tokenizeLine .default first .initial)).count third
        (g.tokenizeLine .default third .initial) = outer →
      Profile.empty.count second (g.tokenizeLine .default second .initial) = inner →
      ∃ acts, After acts ⟨.default, [], [outer]⟩ ∧ .closeProfile inner ∈ acts ∧
        (callsOf 0 acts).map Call.line = [third, first] ∧
        (callsOf 2 acts).map Call.line = [second] ∧
        outer.Accounts (callsOf 0 acts) ∧ inner.Accounts (callsOf 2 acts) := by
    rintro g first second third _ _ rfl rfl
    have hstart : After [] ⟨.default, [], []⟩ := .start
    have hfirst := hstart.openProfile.call g first .initial
    have hsecond := hfirst.openProfile.call g second .initial
    have hthird := (After.closeProfile hsecond rfl).call g third .initial
    obtain ⟨-, hopen, hclosed⟩ := hthird.profiles_account
    obtain ⟨block, hblock, hinner⟩ := hclosed [_] _ _ rfl
    obtain rfl : 2 = block := Option.some.inj hblock
    refine ⟨_, hthird, ?_, rfl, rfl, (List.forall₂_cons.mp hopen).1, hinner⟩
    exact List.mem_cons_of_mem _ List.mem_cons_self
  exact hnested Grammar.sample (Text.ofString "cat") (Text.ofString "<b") (Text.ofString "<>") _ _
    (by decide +kernel) (by decide +kernel)

end Session

end LineScope
