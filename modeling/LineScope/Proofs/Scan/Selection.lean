import LineScope.Proofs.Grammar.Form
import LineScope.Proofs.Scan.Safety
import LineScope.Proofs.Scan.Validity

/-!
The winner among candidates. A search that breaks off early at a match at the cursor finds the same
as one for every candidate: the earliest match, and of several the one of the candidate that comes
first in the order of precedence.
-/

namespace LineScope.Scan

variable {M : Type} {g : Grammar M} {e : Engine M} {line : Text} {cursor : Int}

/-- The candidates in the order of precedence. The end of the region comes before the rules, or
after them if rules win against it; the rules are in the order of the context. -/
def Candidates.ranked (c : Candidates M) : List (Winner M × M) :=
  let rules := c.rules.map fun r => (.rule r, r.matcher)
  let closer := c.closer.toList.map fun m => (.closer, m)
  if c.endLast then rules ++ closer else closer ++ rules

def hits (e : Engine M) (line : Text) (cursor : Int) (ranked : List (Winner M × M)) :
    List (Found M) :=
  ranked.filterMap fun (w, m) => (e.search m line cursor).map (⟨w, ·⟩)

/-- A match starts before all those listed before it, and not after any listed behind it. -/
def Selected (hits : List (Found M)) (found : Found M) : Prop :=
  ∃ before behind, hits = before ++ found :: behind ∧
    (∀ x ∈ before, found.hit.start < x.hit.start) ∧
    ∀ x ∈ behind, found.hit.start ≤ x.hit.start

/-- Takes a match for the best one if it starts before the best one so far. -/
def pick (best : Option (Found M)) (x : Found M) : Option (Found M) :=
  if better best x.hit then some x else best

theorem foldl_pick_eq_self {b : Found M} {hits : List (Found M)}
    (h : ∀ x ∈ hits, b.hit.start ≤ x.hit.start) : hits.foldl pick (some b) = some b := by
  induction hits with
  | nil => rfl
  | cons x rest ih =>
      obtain ⟨hx, hrest⟩ := List.forall_mem_cons.mp h
      have hpick : pick (some b) x = some b := by
        simp only [pick, better, decide_eq_true_eq]
        exact if_neg (Int.not_lt.mpr hx)
      rw [List.foldl_cons, hpick]
      exact ih hrest

/-- The invariant of picking: the best match so far is the selected one of those seen, so that it
may stand for them at the front of the others. -/
theorem foldl_pick_selected {best : Option (Found M)} {hits : List (Found M)} {found : Found M}
    (h : hits.foldl pick best = some found) : Selected (best.toList ++ hits) found := by
  induction hits generalizing best with
  | nil =>
      have hbest : best = some found := h
      subst hbest
      exact ⟨[], [], rfl, by simp, by simp⟩
  | cons x rest ih =>
      obtain ⟨before, behind, heq, hbefore, hbehind⟩ := ih h
      rcases best with _ | b
      · exact ⟨before, behind, heq, hbefore, hbehind⟩
      · simp only [pick, better, decide_eq_true_eq] at heq
        split at heq
        · rename_i hlt
          -- the best match so far is given up for one that starts before it
          refine ⟨b :: before, behind, congrArg (b :: ·) heq, ?_, hbehind⟩
          refine List.forall_mem_cons.mpr ⟨?_, hbefore⟩
          rcases before with _ | ⟨y, before⟩
          · obtain ⟨rfl, -⟩ := List.cons.inj heq
            exact hlt
          · obtain ⟨rfl, -⟩ := List.cons.inj heq
            have hfound := hbefore x (List.mem_cons_self ..)
            omega
        · rename_i hle
          rcases before with _ | ⟨y, before⟩
          · obtain ⟨rfl, rfl⟩ := List.cons.inj heq
            refine ⟨[], x :: rest, rfl, by simp, ?_⟩
            exact List.forall_mem_cons.mpr ⟨Int.not_lt.mp hle, hbehind⟩
          · obtain ⟨rfl, rfl⟩ := List.cons.inj heq
            have hfound := hbefore b (List.mem_cons_self ..)
            refine ⟨b :: x :: before, behind, rfl, ?_, hbehind⟩
            refine List.forall_mem_cons.mpr ⟨hfound, List.forall_mem_cons.mpr ⟨by omega, ?_⟩⟩
            exact (List.forall_mem_cons.mp hbefore).2

theorem foldl_pick_eq_none_iff {best : Option (Found M)} {hits : List (Found M)} :
    hits.foldl pick best = none ↔ best = none ∧ hits = [] := by
  induction hits generalizing best with
  | nil => simp
  | cons x rest ih =>
      rw [List.foldl_cons, ih]
      rcases best with _ | b
      · simp [pick, better]
      · simp only [pick]
        split <;> simp

theorem Selected.unique {hits : List (Found M)} {found found' : Found M}
    (h : Selected hits found) (h' : Selected hits found') : found = found' := by
  obtain ⟨before, behind, rfl, hbefore, hbehind⟩ := h
  obtain ⟨before', behind', heq, hbefore', hbehind'⟩ := h'
  rcases List.append_eq_append_iff.mp heq with ⟨between, rfl, htail⟩ | ⟨between, rfl, htail⟩
  · rcases between with _ | ⟨x, between⟩
    · exact (List.cons.inj htail).1
    · obtain ⟨rfl, rfl⟩ := List.cons.inj htail
      have hlt := hbefore' found (by simp)
      have hle := hbehind found' (by simp)
      omega
  · rcases between with _ | ⟨x, between⟩
    · exact (List.cons.inj htail).1.symm
    · obtain ⟨rfl, rfl⟩ := List.cons.inj htail
      have hlt := hbefore found' (by simp)
      have hle := hbehind' found (by simp)
      omega

theorem foldl_pick_eq_some_iff {hits : List (Found M)} {found : Found M} :
    hits.foldl pick none = some found ↔ Selected hits found := by
  refine ⟨foldl_pick_selected, fun h => ?_⟩
  rcases hpick : hits.foldl pick none with _ | found'
  · obtain ⟨-, rfl⟩ := foldl_pick_eq_none_iff.mp hpick
    obtain ⟨before, behind, heq, -⟩ := h
    simp at heq
  · rw [h.unique (foldl_pick_selected hpick)]

theorem le_start_of_mem_hits (ahead : ∀ m hit, e.search m line cursor = some hit →
    cursor ≤ hit.start) {ranked : List (Winner M × M)} :
    ∀ x ∈ hits e line cursor ranked, cursor ≤ x.hit.start := by
  intro x hx
  obtain ⟨⟨w, m⟩, -, hsearch⟩ := List.mem_filterMap.mp hx
  obtain ⟨hit, hhit, rfl⟩ := Option.map_eq_some_iff.mp hsearch
  exact ahead m hit hhit

theorem findRule_eq (ahead : ∀ m hit, e.search m line cursor = some hit → cursor ≤ hit.start)
    (rules : List (Rule M)) (best : Option (Found M)) :
    (findRule e line cursor rules best).1 =
      (hits e line cursor (rules.map fun r => (.rule r, r.matcher))).foldl pick best := by
  induction rules generalizing best with
  | nil => rfl
  | cons r rest ih =>
      rcases hsearch : e.search r.matcher line cursor with _ | m
      · have hhits : hits e line cursor ((r :: rest).map fun r => (.rule r, r.matcher)) =
            hits e line cursor (rest.map fun r => (.rule r, r.matcher)) := by
          simp [hits, hsearch]
        simp only [findRule, hsearch, hhits]
        exact ih best
      · have hhits : hits e line cursor ((r :: rest).map fun r => (.rule r, r.matcher)) =
            ⟨.rule r, m⟩ :: hits e line cursor (rest.map fun r => (.rule r, r.matcher)) := by
          simp [hits, hsearch]
        simp only [findRule, hsearch, hhits, List.foldl_cons, pick]
        split
        · split
          · rename_i hstart
            refine (foldl_pick_eq_self fun x hx => ?_).symm
            simp only [hstart]
            exact le_start_of_mem_hits ahead x hx
          · exact ih _
        · exact ih best

theorem choose_eq (ahead : ∀ m hit, e.search m line cursor = some hit → cursor ≤ hit.start)
    (c : Candidates M) :
    (choose e line cursor c).1 = (hits e line cursor c.ranked).foldl pick none := by
  rcases c with ⟨rules, closer?, endLast⟩
  have hrules := findRule_eq ahead rules
  rcases closer? with _ | closer
  · cases endLast <;> simp [choose, Candidates.ranked, hrules]
  · cases endLast with
    | true =>
        rcases hsearch : e.search closer line cursor with _ | m
        · simp [choose, Candidates.ranked, hits, hsearch, hrules]
        · have hranked : hits e line cursor (Candidates.mk rules (some closer) true).ranked =
              hits e line cursor (rules.map fun r => (.rule r, r.matcher)) ++ [⟨.closer, m⟩] := by
            simp [Candidates.ranked, hits, hsearch]
          rw [hranked, List.foldl_append, ← hrules]
          simp only [choose, hsearch, if_true]
          rfl
    | false =>
        rcases hsearch : e.search closer line cursor with _ | m
        · simp [choose, Candidates.ranked, hits, hsearch, hrules]
        · have hranked : hits e line cursor (Candidates.mk rules (some closer) false).ranked =
              ⟨.closer, m⟩ :: hits e line cursor (rules.map fun r => (.rule r, r.matcher)) := by
            simp [Candidates.ranked, hits, hsearch]
          have hpick : pick none (⟨.closer, m⟩ : Found M) = some ⟨.closer, m⟩ := rfl
          rw [hranked, List.foldl_cons, hpick]
          simp only [choose, hsearch, Bool.false_eq_true, if_false]
          split
          · rename_i hstart
            refine (foldl_pick_eq_self fun x hx => ?_).symm
            simp only [hstart]
            exact le_start_of_mem_hits ahead x hx
          · exact hrules _

theorem Selected.le_start {hits : List (Found M)} {found : Found M} (h : Selected hits found) :
    ∀ x ∈ hits, found.hit.start ≤ x.hit.start := by
  obtain ⟨before, behind, rfl, hbefore, hbehind⟩ := h
  refine List.forall_mem_append.mpr ⟨fun x hx => Int.le_of_lt (hbefore x hx), ?_⟩
  exact List.forall_mem_cons.mpr ⟨Int.le_refl _, hbehind⟩

theorem mem_hits {ranked : List (Winner M × M)} {w : Winner M} {m : M} {hit : Match}
    (hranked : (w, m) ∈ ranked) (hsearch : e.search m line cursor = some hit) :
    ⟨w, hit⟩ ∈ hits e line cursor ranked :=
  List.mem_filterMap.mpr ⟨(w, m), hranked, by simp [hsearch]⟩

theorem exists_choose (ahead : ∀ m hit, e.search m line cursor = some hit → cursor ≤ hit.start)
    {c : Candidates M} {w : Winner M} {m : M} {hit : Match} (hranked : (w, m) ∈ c.ranked)
    (hsearch : e.search m line cursor = some hit) :
    ∃ found, (choose e line cursor c).1 = some found ∧ found.hit.start ≤ hit.start := by
  have hmem := mem_hits hranked hsearch
  rcases hchoose : (choose e line cursor c).1 with _ | found
  · rw [choose_eq ahead, foldl_pick_eq_none_iff] at hchoose
    rw [hchoose.2] at hmem
    cases hmem
  · rw [choose_eq ahead, foldl_pick_eq_some_iff] at hchoose
    exact ⟨found, rfl, hchoose.le_start _ hmem⟩

theorem Candidates.rule_mem_ranked {c : Candidates M} {r : Rule M} (hr : r ∈ c.rules) :
    (.rule r, r.matcher) ∈ c.ranked := by
  have hmem : (Winner.rule r, r.matcher) ∈ c.rules.map fun r => (Winner.rule r, r.matcher) :=
    List.mem_map.mpr ⟨r, hr, rfl⟩
  unfold ranked
  split
  · exact List.mem_append_left _ hmem
  · exact List.mem_append_right _ hmem

theorem Candidates.closer_mem_ranked {c : Candidates M} {m : M} (hcloser : c.closer = some m) :
    (.closer, m) ∈ c.ranked := by
  have hmem : (Winner.closer, m) ∈ c.closer.toList.map fun m => (Winner.closer (M := M), m) := by
    simp [hcloser]
  unfold ranked
  split
  · exact List.mem_append_right _ hmem
  · exact List.mem_append_left _ hmem

/-- Candidates that are those of the innermost region: the rules of its context, and its end, for
which the matcher is the one of the grammar. If no region is open, they are the rules of the root
context. -/
structure Candidates.Of (g : Grammar M) (stack : Stack M) (c : Candidates M) : Prop where
  rules : ∃ context, g.context? stack.context = some context ∧ c.rules = context.rules
  outside : stack.top? = none → c.closer = none
  inside : ∀ f, stack.top? = some f → ∃ r m, g.region? f.rule = some r ∧
    f.context = r.inner.text ∧ Stack.closerFor g f = .ok (some m) ∧
    c.closer = some m ∧ c.endLast = r.endLast

theorem endLast_of_candidates {stack : Stack M} {c : Candidates M} {f : Frame M}
    {r : RegionRule M} (h : candidates g stack = .ok c) (htop : stack.top? = some f)
    (hr : g.region? f.rule = some r) : c.endLast = r.endLast := by
  unfold candidates at h
  simp only [htop, Grammar.rule?_of_region? hr] at h
  rcases hcontext : g.context? f.context with _ | context
  · simp only [hcontext, reduceCtorEq] at h
  · simp only [hcontext] at h
    cases h
    rfl

theorem candidates_of_valid (coherent : g.Coherent) {stack : Stack M} (valid : stack.Valid g) :
    ∃ c, candidates g stack = .ok c ∧ c.Of g stack := by
  have hframed : Framed g stack.depth (start stack) :=
    ⟨fun f hf => (valid f hf).belongs, Nat.le_refl _⟩
  obtain ⟨c, hc⟩ := hframed.candidates_ok coherent
  have hcloser := candidates_closer hc
  refine ⟨c, hc, candidates_context hc, fun htop => ?_, fun f htop => ?_⟩
  · rw [hcloser, show (start stack).stack.top? = none from htop, Option.bind_none]
  · have hf := valid f (List.mem_of_mem_head? htop)
    obtain ⟨r, hr, hcontext⟩ := hf.region
    obtain ⟨m, hm, hmatcher⟩ := hf.closer
    refine ⟨r, m, hr, hcontext, hm, ?_, endLast_of_candidates hc htop hr⟩
    rw [hcloser, show (start stack).stack.top? = some f from htop, Option.bind_some, hmatcher]

end LineScope.Scan

namespace LineScope.Grammar

open Scan

variable {M : Type}

/-- The scan goes on with what a search for every candidate would select: the earliest match, and of
several the one of the candidate of the highest precedence, if the engine finds no match before the
cursor. -/
theorem choose_selects {e : Engine M} {document : Json} {g : Grammar M}
    (compiled : ofJson e document = .ok g) {line : Text} {cursor : Int}
    (ahead : ∀ m hit, e.search m line cursor = some hit → cursor ≤ hit.start)
    {stack : Stack M} (valid : stack.Valid g) :
    ∃ c, candidates g stack = .ok c ∧ c.Of g stack ∧
      (∀ found, (choose g.engine line cursor c).1 = some found ↔
        Selected (hits e line cursor c.ranked) found) ∧
      ((choose g.engine line cursor c).1 = none ↔
        ∀ candidate ∈ c.ranked, e.search candidate.2 line cursor = none) := by
  obtain ⟨coherent, rfl⟩ := ofJson_coherent compiled
  obtain ⟨c, hc, hof⟩ := candidates_of_valid coherent valid
  refine ⟨c, hc, hof, fun found => ?_, ?_⟩
  · rw [choose_eq ahead]
    exact foldl_pick_eq_some_iff
  · rw [choose_eq ahead, foldl_pick_eq_none_iff]
    simp [hits]

theorem choose_selects_sample :
    ∃ stack c found, stack.depth = 1 ∧ candidates sample stack = .ok c ∧ c.Of sample stack ∧
      (choose sample.engine (.ofString "a <> cat") 0 c).1 = some found ∧
      found.hit = ⟨2, 4, [some ⟨2, 4⟩]⟩ ∧
      Selected (hits sampleEngine (.ofString "a <> cat") 0 c.ranked) found := by
  have hchosen : ((Stack.resumeAll sample [⟨⟨1, "@1", "<>", ["text", "quote"], []⟩, none⟩]
      ).toOption.bind fun stack => (candidates sample stack).toOption.bind fun c =>
        (choose sample.engine (.ofString "a <> cat") 0 c).1.map fun found =>
          (stack.depth, found.hit)) = some (1, ⟨2, 4, [some ⟨2, 4⟩]⟩) := by
    decide +kernel
  obtain ⟨stack, hstack, hchosen⟩ := Option.bind_eq_some_iff.mp hchosen
  obtain ⟨c, hc, hchosen⟩ := Option.bind_eq_some_iff.mp hchosen
  obtain ⟨found, hfound, heq⟩ := Option.map_eq_some_iff.mp hchosen
  obtain ⟨hdepth, hhit⟩ := Prod.mk.inj heq
  have hresumed := toOption_eq_some.mp hstack
  obtain ⟨c', hc', hof, hselects, -⟩ := choose_selects ofJson_sample
    (fun m hit hsearch => (Engine.plain_inBounds _ _ m (.ofString "a <> cat") 0 hit (Int.le_refl 0)
      (Int.natCast_nonneg _) hsearch).1)
    (Stack.accepted_of_resumeAll hresumed).valid
  rw [toOption_eq_some.mp hc] at hc'
  cases hc'
  exact ⟨stack, c, found, hdepth, toOption_eq_some.mp hc, hof, hfound, hhit,
    (hselects found).mp hfound⟩

end LineScope.Grammar
