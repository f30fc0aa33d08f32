import LineScope.Proofs.Engine.Occurrence
import LineScope.Proofs.Grammar.Inclusion
import LineScope.Proofs.Grammar.Inventory
import LineScope.Proofs.Scan.Selection
import LineScope.Proofs.Scan.Shape

/-!
Regions that nest in themselves, from one character to another. How deep a line leaves the stack is
found by counting the two characters, whatever other rules match between them: the scan jumps from
match to match, and over nothing that counts.
-/

namespace LineScope

variable {M : Type} {g : Grammar M} {line : Text} {limits : Limits}

/-- The depth behind a character, if `o` opens a region unless there are as many as the limit, and
`c` closes one if there is one. -/
def depthAfter (o c : Char) (limit : Int) (depth : Nat) (x : Char) : Nat :=
  if x = o then if depth < limit then depth + 1 else depth
  else if x = c then depth - 1
  else depth

@[simp] theorem depthAfter_open (o c : Char) (limit : Int) (depth : Nat) :
    depthAfter o c limit depth o = if depth < limit then depth + 1 else depth := by
  simp [depthAfter]

theorem depthAfter_close {o c : Char} (h : o ≠ c) (limit : Int) (depth : Nat) :
    depthAfter o c limit depth c = depth - 1 := by
  simp [depthAfter, h.symm]

theorem depthAfter_other {o c x : Char} (ho : x ≠ o) (hc : x ≠ c) (limit : Int) (depth : Nat) :
    depthAfter o c limit depth x = depth := by
  simp [depthAfter, ho, hc]

theorem foldl_drop_eq {α β : Type} {f : β → α → β} {l : List α} {b : β} {i j : Nat} (hij : i ≤ j)
    (h : ∀ k a, i ≤ k → k < j → l[k]? = some a → f b a = b) :
    (l.drop i).foldl f b = (l.drop j).foldl f b := by
  induction j, hij using Nat.le_induction with
  | base => rfl
  | succ j hij ih =>
      rw [ih fun k a hik hkj => h k a hik (Nat.lt_succ_of_lt hkj)]
      by_cases hj : j < l.length
      · have hsame := h j l[j] hij (Nat.lt_succ_self j) (List.getElem?_eq_getElem hj)
        rw [List.drop_eq_getElem_cons hj, List.foldl_cons, hsame]
      · rw [List.drop_eq_nil_of_le (Nat.le_of_not_lt hj),
          List.drop_eq_nil_of_le (Nat.le_succ_of_le (Nat.le_of_not_lt hj))]

theorem foldl_drop_cons {α β : Type} (f : β → α → β) {l : List α} {a : α} {i : Nat}
    (h : l[i]? = some a) (b : β) : (l.drop i).foldl f b = (l.drop (i + 1)).foldl f (f b a) := by
  obtain ⟨hi, rfl⟩ := List.getElem?_eq_some_iff.mp h
  rw [List.drop_eq_getElem_cons hi, List.foldl_cons]

theorem foldl_drop_between {o c : Char} {text : Text} {i j : Nat} (hij : i ≤ j)
    (ho : ∀ x, i ≤ x → x < j → text[x]? ≠ some o) (hc : ∀ x, i ≤ x → x < j → text[x]? ≠ some c)
    (limit : Int) (depth : Nat) :
    (text.toList.drop i).foldl (depthAfter o c limit) depth =
      (text.toList.drop j).foldl (depthAfter o c limit) depth := by
  apply foldl_drop_eq hij
  intro x a hlow hhigh hx
  rw [Array.getElem?_toList] at hx
  apply depthAfter_other
  · rintro rfl
    exact ho x hlow hhigh hx
  · rintro rfl
    exact hc x hlow hhigh hx

/-- The root context has one rule for regions, and the context inside these has the same rules as
the root context. The other rules match neither of two characters, nor nothing. -/
structure Grammar.SelfNesting (g : Grammar M) (o c : Char) (r : RegionRule M)
    (rules : List (Rule M)) : Prop where
  coherent : g.Coherent
  root : ∃ context, g.context? ContextName.root.text = some context ∧ context.rules = rules
  inner : ∃ context, g.context? r.inner.text = some context ∧ context.rules = rules
  listed : .region r ∈ rules
  others : ∀ rule ∈ rules, rule = .region r ∨
    ∃ leaf, rule = .leaf leaf ∧ g.engine.Avoids leaf.matcher o ∧ g.engine.Avoids leaf.matcher c

structure Grammar.Brackets (g : Grammar M) (o c : Char) (r : RegionRule M) (rules : List (Rule M))
    (closer : M) : Prop extends g.SelfNesting o c r rules where
  bounded : g.engine.InBounds
  distinct : o ≠ c
  opens : g.engine.Finds r.opener o
  closer_eq : r.closer = some closer
  closes : g.engine.Finds closer c

structure Stack.Only (g : Grammar M) (r : RegionRule M) (stack : Stack M) : Prop where
  valid : stack.Valid g
  rule : ∀ f ∈ stack, f.rule = r.id

variable {s t : Scan M} {o c : Char} {r : RegionRule M} {rules : List (Rule M)} {closer : M}
  {stack : Stack M} {among : Scan.Candidates M} {k : Nat} {found : Scan.Found M}

namespace Grammar.SelfNesting

open Scan

theorem region?_eq (h : g.SelfNesting o c r rules) : g.region? r.id = some r := by
  obtain ⟨context, hcontext, rfl⟩ := h.root
  exact h.coherent.region?_id hcontext h.listed

theorem region?_of_mem (h : g.SelfNesting o c r rules) (only : stack.Only g r) {f : Frame M}
    (hf : f ∈ stack) : g.region? f.rule = some r := by
  rw [only.rule f hf]
  exact h.region?_eq

theorem exists_candidates (h : g.SelfNesting o c r rules) (only : stack.Only g r) :
    ∃ among, candidates g stack = .ok among := by
  obtain ⟨among, hamong, -⟩ := candidates_of_valid h.coherent only.valid
  exact ⟨among, hamong⟩

theorem of_candidates (h : g.SelfNesting o c r rules) (only : stack.Only g r)
    (hamong : candidates g stack = .ok among) : among.Of g stack := by
  obtain ⟨_, hamong', hof⟩ := candidates_of_valid h.coherent only.valid
  cases hamong.symm.trans hamong'
  exact hof

theorem rules_eq (h : g.SelfNesting o c r rules) (only : stack.Only g r)
    (hamong : candidates g stack = .ok among) : among.rules = rules := by
  obtain ⟨context, hcontext, hrules⟩ := (h.of_candidates only hamong).rules
  rw [hrules]
  cases stack with
  | nil =>
      obtain ⟨root, hroot, rfl⟩ := h.root
      rw [show Stack.context [] = ContextName.root.text from rfl, hroot] at hcontext
      rw [Option.some.inj hcontext]
  | cons f outer =>
      obtain ⟨inner, hinner, rfl⟩ := h.inner
      obtain ⟨r', hr', hname⟩ := (only.valid f (List.mem_cons_self ..)).region
      rw [h.region?_of_mem only (List.mem_cons_self ..)] at hr'
      cases hr'
      rw [show Stack.context (f :: outer) = f.context from rfl, hname, hinner] at hcontext
      rw [Option.some.inj hcontext]

theorem eq_of_region_mem (h : g.SelfNesting o c r rules) {r' : RegionRule M}
    (hr' : .region r' ∈ rules) : r' = r := by
  rcases h.others _ hr' with heq | ⟨leaf, heq, -⟩
  · exact Rule.region.inj heq
  · cases heq

theorem avoids_of_leaf_mem (h : g.SelfNesting o c r rules) {leaf : MatchRule M}
    (hleaf : .leaf leaf ∈ rules) :
    g.engine.Avoids leaf.matcher o ∧ g.engine.Avoids leaf.matcher c := by
  rcases h.others _ hleaf with heq | ⟨_, heq, havoids⟩
  · cases heq
  · cases heq
    exact havoids

theorem only_applies (h : g.SelfNesting o c r rules) (only : s.stack.Only g r) {cursor : Int}
    (hamong : candidates g s.stack = .ok among)
    (hoffers : Offers g.engine line cursor among found)
    (happlies : Applies g line limits s found t) : t.stack.Only g r := by
  refine ⟨valid_applies h.coherent only.valid hamong hoffers happlies, ?_⟩
  refine forall_frames_applies h.coherent only.rule hamong hoffers happlies ?_
  intro r' scopes endSource m hr' _ _
  rw [h.rules_eq only hamong] at hr'
  rw [h.eq_of_region_mem hr']
  rfl

theorem only_invariant (h : g.SelfNesting o c r rules) :
    Invariant g line limits fun s => s.stack.Only g r where
  congr only hstack _ := hstack ▸ only
  passTo _ only := by simpa [passTo] using only
  applies only hamong hoffers happlies := h.only_applies only hamong hoffers happlies

theorem only_of_threads (h : g.SelfNesting o c r rules) {most : Int}
    (threads : g.Threads most stack) : Settled g (start stack) ∧ stack.Only g r := by
  induction threads with
  | initial => exact ⟨.initial, ⟨by simp [Stack.Valid, Stack.initial], by simp [Stack.initial]⟩⟩
  | @line _ stack _ limits line _ hline ih =>
      obtain ⟨hsettled, only⟩ := ih
      obtain ⟨s, t, hresume, hfinish, rfl⟩ := tokenizeLine_eq_ok hline
      have haccepted : stack.Accepted g := hsettled.accepted
      rw [haccepted.resume_eq] at hresume
      cases hresume
      exact ⟨((Settled.invariant h.coherent).finish hsettled hfinish).next,
        h.only_invariant.finish (s := start stack) only hfinish⟩

end Grammar.SelfNesting

namespace Grammar.Brackets

open Scan

theorem closer_eq_of_candidates (h : g.Brackets o c r rules closer) (only : stack.Only g r)
    (hamong : candidates g stack = .ok among) :
    among.closer = if stack.depth = 0 then none else some closer := by
  have hof := h.of_candidates only hamong
  cases stack with
  | nil => exact hof.outside rfl
  | cons f outer =>
      obtain ⟨_, m, -, -, hm, hcloser, -⟩ := hof.inside f rfl
      have hregion := h.region?_of_mem only (List.mem_cons_self ..)
      simp only [Stack.closerFor, hregion, h.closer_eq, Except.ok.injEq] at hm
      split at hm
      · cases hm
        rw [hcloser]
        rfl
      · cases hm

theorem exists_choose_of_counts (h : g.Brackets o c r rules closer) (only : stack.Only g r)
    (hamong : candidates g stack = .ok among) {i : Nat} {x : Char} {limit : Int}
    (hk : k ≤ line.size) (hki : k ≤ i) (hx : line.toList[i]? = some x)
    (hcounts : depthAfter o c limit stack.depth x ≠ stack.depth) :
    ∃ found, (choose g.engine line k among).1 = some found ∧ found.hit.start ≤ i := by
  rw [Array.getElem?_toList] at hx
  have hmatch : ∃ w m hit, (w, m) ∈ among.ranked ∧ g.engine.search m line k = some hit ∧
      hit.start ≤ i := by
    unfold depthAfter at hcounts
    split at hcounts
    · rename_i heq
      obtain ⟨hit, hsearch, hle⟩ := h.opens.first line k i hki (heq ▸ hx)
      exact ⟨.rule (.region r), r.opener, hit,
        Candidates.rule_mem_ranked (h.rules_eq only hamong ▸ h.listed), hsearch, hle⟩
    · split at hcounts
      · rename_i heq
        obtain ⟨hit, hsearch, hle⟩ := h.closes.first line k i hki (heq ▸ hx)
        have hdepth : stack.depth ≠ 0 := by omega
        have hcloser := h.closer_eq_of_candidates only hamong
        rw [if_neg hdepth] at hcloser
        exact ⟨.closer, closer, hit, Candidates.closer_mem_ranked hcloser, hsearch, hle⟩
      · exact absurd rfl hcounts
  obtain ⟨w, m, hit, hranked, hsearch, hle⟩ := hmatch
  have ahead : ∀ m hit, g.engine.search m line k = some hit → k ≤ hit.start :=
    fun m hit hsearch =>
      (h.bounded m line k hit (Int.natCast_nonneg k) (Int.ofNat_le.mpr hk) hsearch).1
  obtain ⟨found, hfound, hfirst⟩ := exists_choose ahead hranked hsearch
  exact ⟨found, hfound, Int.le_trans hfirst hle⟩

theorem foldl_gap (h : g.Brackets o c r rules closer) (only : stack.Only g r)
    (hamong : candidates g stack = .ok among) (hk : k ≤ line.size) {i : Nat} (hki : k ≤ i)
    (hfirst : ∀ found, (choose g.engine line k among).1 = some found → i ≤ found.hit.start)
    (limit : Int) :
    (line.toList.drop k).foldl (depthAfter o c limit) stack.depth =
      (line.toList.drop i).foldl (depthAfter o c limit) stack.depth := by
  apply foldl_drop_eq hki
  intro x a hlow hhigh hx
  by_contra hcounts
  obtain ⟨found, hfound, hle⟩ := h.exists_choose_of_counts only hamong hk hlow hx hcounts
  have hge := hfirst found hfound
  omega

theorem apply_ne_error (h : g.Brackets o c r rules closer) (only : s.stack.Only g r)
    (hamong : candidates g s.stack = .ok among) (hoffers : Offers g.engine line k among found)
    (fault : Fault) (u : Scan M) : s.apply g line limits found ≠ .error (fault, u) := by
  intro hfailed
  have hbreaks := apply_breaks hfailed
  cases hoffers with
  | closer hcloser =>
      cases hbreaks with
      | unopened htop =>
          rw [reach_stack] at htop
          rw [(h.of_candidates only hamong).outside htop] at hcloser
          cases hcloser
      | ruleless htop hrule =>
          rw [reach_stack] at htop
          have hregion := h.region?_of_mem only (List.mem_of_mem_head? htop)
          rw [rule?_of_region? hregion] at hrule
          cases hrule
  | @rule rule hit hr =>
      rcases rule with leaf | r'
      · cases hbreaks
      · obtain rfl := h.eq_of_region_mem (h.rules_eq only hamong ▸ hr)
        have hcloser := h.closer_eq
        rw [hbreaks.closer_eq_none] at hcloser
        cases hcloser

/-- A match counts for what it takes: an end for the closing character, a begin for the opening one,
and any other match for nothing. -/
theorem exists_counts (h : g.Brackets o c r rules closer) (only : s.stack.Only g r)
    (hamong : candidates g s.stack = .ok among) (hk : k ≤ line.size)
    (hoffers : Offers g.engine line k among found) (hahead : k ≤ found.hit.start)
    (happlies : Applies g line limits s found t) :
    ∃ i j : Nat, found.hit.start = i ∧ found.hit.stop = j ∧ i < j ∧
      (line.toList.drop i).foldl (depthAfter o c limits.depth) s.stack.depth =
        (line.toList.drop j).foldl (depthAfter o c limits.depth) t.stack.depth := by
  cases hoffers with
  | @closer m hit hcloser hsearch =>
      rw [h.closer_eq_of_candidates only hamong] at hcloser
      split at hcloser
      · cases hcloser
      · cases hcloser
        obtain ⟨i, hstart, hstop, hx⟩ := h.closes.hits line k hit hk hsearch
        rw [← Array.getElem?_toList] at hx
        refine ⟨i, i + 1, hstart, hstop, Nat.lt_succ_self i, ?_⟩
        rw [foldl_drop_cons _ hx, depthAfter_close h.distinct]
        cases happlies with
        | closed =>
            have hlength : s.stack.pop.depth = s.stack.depth - 1 := List.length_tail
            simp only [hlength]
  | @rule rule hit hr hsearch =>
      rw [h.rules_eq only hamong] at hr
      rcases rule with leaf | r'
      · obtain ⟨havoids, havoids'⟩ := h.avoids_of_leaf_mem hr
        obtain ⟨hlt, hfree⟩ := havoids line k hit hk hsearch
        obtain ⟨-, hfree'⟩ := havoids' line k hit hk hsearch
        simp only at hahead
        obtain ⟨i, hstart⟩ := Int.eq_ofNat_of_zero_le (a := hit.start) (by omega)
        obtain ⟨j, hstop⟩ := Int.eq_ofNat_of_zero_le (a := hit.stop) (by omega)
        have hdepth : t.stack.depth = s.stack.depth := by
          cases happlies with
          | skipped => rfl
          | covered => rw [cover_stack]
        refine ⟨i, j, hstart, hstop, by omega, ?_⟩
        rw [hdepth]
        apply foldl_drop_between (by omega)
        · exact fun x hlow hhigh => hfree x (by omega) (by omega)
        · exact fun x hlow hhigh => hfree' x (by omega) (by omega)
      · obtain rfl := h.eq_of_region_mem hr
        obtain ⟨i, hstart, hstop, hx⟩ := h.opens.hits line k hit hk hsearch
        rw [← Array.getElem?_toList] at hx
        refine ⟨i, i + 1, hstart, hstop, Nat.lt_succ_self i, ?_⟩
        rw [foldl_drop_cons _ hx, depthAfter_open]
        cases happlies with
        | capped hdepth => rw [if_neg (Int.not_lt.mpr hdepth), record, cover_stack]
        | opened hdepth =>
            rw [if_pos hdepth]
            rfl
        | bound _ hcloser =>
            rw [h.closer_eq] at hcloser
            cases hcloser
        | blanked _ hcloser =>
            rw [h.closer_eq] at hcloser
            cases hcloser

/-- The scan is at a place in a line, and all regions are those of the rule. -/
structure At (g : Grammar M) (line : Text) (r : RegionRule M) (k : Nat) (s : Scan M) : Prop where
  only : s.stack.Only g r
  cursor : s.cursor = k
  le_size : k ≤ line.size

theorem apply_counts (h : g.Brackets o c r rules closer) (hs : At g line r k s)
    (hamong : candidates g s.stack = .ok among) {probes : Nat}
    (hchoose : choose g.engine line s.cursor among = (some found, probes))
    (happly : (s.counted probes).apply g line limits found = .ok t) :
    ∃ j, k < j ∧ At g line r j t ∧
      (line.toList.drop k).foldl (depthAfter o c limits.depth) s.stack.depth =
        (line.toList.drop j).foldl (depthAfter o c limits.depth) t.stack.depth := by
  rw [hs.cursor] at hchoose
  obtain ⟨hahead, -, hsize⟩ :=
    choose_bounds h.bounded (Int.natCast_nonneg k) (Int.ofNat_le.mpr hs.le_size) hchoose
  have hoffers : Offers g.engine line k among found := choose_offers (by rw [hchoose])
  -- the match is applied to a scan with the stack of the iteration
  have hreach : ((s.counted probes).reach g found.hit.start).stack = s.stack := by
    rw [reach_stack, counted_stack]
  have happlies := apply_applies happly
  have honly : t.stack.Only g r :=
    h.only_applies (hreach ▸ hs.only) (hreach ▸ hamong) hoffers happlies
  obtain ⟨i, j, hstart, hstop, hij, hcounts⟩ :=
    h.exists_counts (hreach ▸ hs.only) (hreach ▸ hamong) hs.le_size hoffers hahead happlies
  have hcursor : t.cursor = found.hit.stop :=
    happlies.cursor_eq (reach_cursor (by rwa [counted_cursor, hs.cursor]))
  have hfirst : ∀ other, (choose g.engine line k among).1 = some other → i ≤ other.hit.start := by
    intro other hother
    rw [hchoose] at hother
    cases hother
    exact Int.le_of_eq hstart.symm
  refine ⟨j, by omega, ⟨honly, hcursor.trans hstop, by omega⟩, ?_⟩
  rw [hreach] at hcounts
  rw [← hcounts]
  exact h.foldl_gap hs.only hamong hs.le_size (by omega) hfirst limits.depth

/-- How an iteration goes: the rest of the line counts for nothing, or the scan moves on to a place
from which it counts for the same. -/
inductive Counted (g : Grammar M) (line : Text) (f : Nat → Char → Nat) (r : RegionRule M)
    (k : Nat) (s : Scan M) : Step M → Prop
  | finished {t : Scan M} :
      (line.toList.drop k).foldl f s.stack.depth = t.stack.depth →
        Counted g line f r k s (.finished t)
  | going {t : Scan M} {j : Nat} :
      k < j → At g line r j t →
      (line.toList.drop k).foldl f s.stack.depth = (line.toList.drop j).foldl f t.stack.depth →
        Counted g line f r k s (.going t)

theorem step_counted (h : g.Brackets o c r rules closer) (limits : Limits)
    (hs : At g line r k s) :
    Counted g line (depthAfter o c limits.depth) r k s (step g line limits s) := by
  -- no match leaves the cursor where it is
  have hmoves : ∀ {among found probes t}, candidates g s.stack = .ok among →
      choose g.engine line s.cursor among = (some found, probes) →
      (s.counted probes).apply g line limits found = .ok t → ¬ t.cursor ≤ s.cursor := by
    intro among found probes t hamong hchoose happly hle
    obtain ⟨j, hj, ht, -⟩ := h.apply_counts hs hamong hchoose happly
    rw [ht.cursor, hs.cursor] at hle
    omega
  have hiteration := step_iteration g line limits s
  generalize step g line limits s = next at hiteration ⊢
  cases hiteration with
  | lost hlost =>
      obtain ⟨among, hamong⟩ := h.exists_candidates hs.only
      rw [hamong] at hlost
      cases hlost
  | unmatched hamong hchoose =>
      rw [hs.cursor] at hchoose
      refine .finished ?_
      rw [h.foldl_gap hs.only hamong hs.le_size hs.le_size (by simp [hchoose]),
        List.drop_eq_nil_of_le (Nat.le_of_eq Array.length_toList)]
      simp [passTo]
  | broken hamong hchoose happly =>
      rw [hs.cursor] at hchoose
      have hoffers := choose_offers (congrArg Prod.fst hchoose)
      exact absurd happly (h.apply_ne_error (s := s.counted _) hs.only hamong hoffers _ _)
  | moved hamong hchoose happly =>
      obtain ⟨j, hj, ht, hcounts⟩ := h.apply_counts hs hamong hchoose happly
      exact .going hj ⟨ht.only, ht.cursor, ht.le_size⟩ hcounts
  | noted hamong hchoose happly hle => exact absurd hle (hmoves hamong hchoose happly)
  | forced hamong hchoose happly hle => exact absurd hle (hmoves hamong hchoose happly)
  | stopped hamong hchoose happly hle => exact absurd hle (hmoves hamong hchoose happly)

/-- From a place in a line the scan ends, with no more iterations than characters are left, and one,
and the depth is that which the rest of the line counts up to. -/
theorem ends_counted (h : g.Brackets o c r rules closer) (limits : Limits)
    (hs : At g line r k s) :
    ∃ n t, Ends g line limits s n (.ok t) ∧ n ≤ line.size - k + 1 ∧
      t.stack.depth = (line.toList.drop k).foldl (depthAfter o c limits.depth) s.stack.depth := by
  generalize hleft : line.size - k = left
  induction left using Nat.strongRecOn generalizing s k with
  | ind left ih =>
      subst hleft
      have hcounted := h.step_counted limits hs
      generalize hstep : step g line limits s = next at hcounted
      cases hcounted with
      | @finished t hcounts => exact ⟨1, t, .finished hstep, by omega, hcounts.symm⟩
      | @going t j hj ht hcounts =>
          have hle := ht.le_size
          obtain ⟨n, u, hends, hn, hdepth⟩ := ih _ (by omega) ht rfl
          exact ⟨n + 1, u, .going hstep hends, by omega, hdepth.trans hcounts.symm⟩

theorem tokenizeLine_depth (h : g.Brackets o c r rules closer) {most : Int}
    (threads : g.Threads most stack) (limits : Limits) (hlength : limits.length = none)
    (line : Text) :
    ∃ result, (g.tokenizeLine limits line stack).result = .ok result ∧
      result.stack.depth = line.toList.foldl (depthAfter o c limits.depth) stack.depth := by
  obtain ⟨hsettled, only⟩ := h.only_of_threads threads
  have haccepted : stack.Accepted g := hsettled.accepted
  have hstart : At g line r 0 (start stack) := ⟨only, rfl, Nat.zero_le _⟩
  obtain ⟨n, t, hends, hn, hdepth⟩ := h.ends_counted limits hstart
  exact ⟨_, tokenizeLine_of_ends haccepted.resume_eq hlength hends (by omega), hdepth⟩

end Grammar.Brackets

theorem BackReference.occursIn_singleton (c : Char) : occursIn (String.singleton c) = false := by
  unfold occursIn pieces
  by_cases hc : c = '\\'
  · subst hc
    decide
  · simp [piecesFrom, hc, Piece.isReference]

namespace Grammar

open Expansion

/-- The root context of a document has one rule for regions, from one character to another, and
inside these the document as a whole. Its other rules match neither of the characters, nor
nothing. -/
structure DeclaresBrackets (g : Grammar M) (document : Json) (o c : Char) (r : RegionRule M) :
    Prop where
  begins : r.beginSource = String.singleton o
  ends : r.endSource = String.singleton c
  root : ∃ context, g.context? ContextName.root.text = some context ∧ .region r ∈ context.rules ∧
    ∀ rule ∈ context.rules, rule = .region r ∨
      ∃ leaf, rule = .leaf leaf ∧ g.engine.Avoids leaf.matcher o ∧ g.engine.Avoids leaf.matcher c
  inside : ∃ b drafts rules, Blueprint.ofJson document = .ok b ∧
    b.draft g.engine = .ok (drafts, rules) ∧ entriesOf drafts r.inner = [.include .root]

theorem DeclaresBrackets.selfNesting {document : Json} (h : g.DeclaresBrackets document o c r)
    (compiled : ofJson g.engine document = .ok g) : ∃ rules, g.SelfNesting o c r rules := by
  obtain ⟨coherent, -⟩ := ofJson_coherent compiled
  obtain ⟨root, hroot, hlisted, hothers⟩ := h.root
  obtain ⟨b, drafts, rules, declared, drafted, hentries⟩ := h.inside
  have hr := coherent.listed root (List.mem_of_find?_eq_some hroot) _ hlisted
  obtain ⟨inner, hinner⟩ :=
    Option.isSome_iff_exists.mp (Coherent.context?_isSome (coherent.inner r hr))
  refine ⟨root.rules, coherent, ⟨root, hroot, rfl⟩, ⟨inner, hinner, ?_⟩, hlisted, hothers⟩
  have hflat := flattens_of_context? compiled declared drafted hinner
  rw [hentries] at hflat
  have hself := Flattens.splice (flattens_of_context? compiled declared drafted hroot) .nil
  rw [hflat.unique hself, List.append_nil]

theorem DeclaresBrackets.brackets {document : Json} (h : g.DeclaresBrackets document o c r)
    (compiled : ofJson g.engine document = .ok g) (bounded : g.engine.InBounds)
    (distinct : o ≠ c) (opens : g.engine.FindsChar o) (closes : g.engine.FindsChar c) :
    ∃ rules closer, g.Brackets o c r rules closer := by
  obtain ⟨rules, nesting⟩ := h.selfNesting compiled
  have hr := region?_mem nesting.region?_eq
  have hopener := ofJson_opener compiled hr
  rw [h.begins] at hopener
  have hcompiled := nesting.coherent.compiled r hr
  unfold RegionRule.EndCompiled at hcompiled
  split at hcompiled
  · rename_i closer hcloser
    rw [h.ends] at hcompiled
    exact ⟨rules, closer, nesting, bounded, distinct, opens _ hopener, hcloser,
      closes _ hcompiled.2⟩
  · rw [h.ends, BackReference.occursIn_singleton] at hcompiled
    cases hcompiled.1

/-- The depth of the stack that a line leaves is found by counting brackets, from the depth of the
stack before. Whatever the other rules match between the brackets does not matter, nor does it
whether they come before the end of a region. -/
theorem Threads.depth_counts_brackets {e : Engine M} {document : Json}
    (compiled : ofJson e document = .ok g) (bounded : e.InBounds) (distinct : o ≠ c)
    (opens : e.FindsChar o) (closes : e.FindsChar c) (declares : g.DeclaresBrackets document o c r)
    {most : Int} {stack : Stack M} (threads : g.Threads most stack) (limits : Limits)
    (hlength : limits.length = none) (line : Text) :
    ∃ result, (g.tokenizeLine limits line stack).result = .ok result ∧
      result.stack.depth = line.toList.foldl (depthAfter o c limits.depth) stack.depth := by
  obtain ⟨-, rfl⟩ := ofJson_coherent compiled
  obtain ⟨rules, closer, brackets⟩ := declares.brackets compiled bounded distinct opens closes
  exact brackets.tokenizeLine_depth threads limits hlength line

def bracketSource : Json := .obj [
  ("scopeName", .str "text"),
  ("patterns", .arr [
    .obj [("match", .str "cat")],
    .obj [
      ("begin", .str "("),
      ("end", .str ")"),
      ("patterns", .arr [.obj [("include", .str "$self")]])]])]

def bracketRule : RegionRule Matcher where
  id := 1
  beginSource := "("
  opener := .plain #['(']
  endSource := ")"
  closer := some (.plain #[')'])
  scope := none
  contentScope := none
  beginCaptures := []
  endCaptures := []
  endLast := false

def bracketRules : List (Rule Matcher) :=
  [.leaf ⟨0, "cat", .plain #['c', 'a', 't'], none, []⟩, .region bracketRule]

def bracketGrammar : Grammar Matcher where
  scopeName := "text"
  name := none
  contexts := [⟨.root, bracketRules⟩, ⟨.inside 1, bracketRules⟩]
  rules := bracketRules
  engine := sampleEngine

theorem ofJson_bracketSource : ofJson sampleEngine bracketSource = .ok bracketGrammar := by rfl

theorem bracketGrammar_declares :
    bracketGrammar.DeclaresBrackets bracketSource '(' ')' bracketRule where
  begins := rfl
  ends := rfl
  root := by
    refine ⟨⟨.root, bracketRules⟩, by rfl, by simp [bracketRules], ?_⟩
    intro rule hrule
    rcases List.mem_pair.mp hrule with rfl | rfl
    · exact .inr ⟨_, rfl, Engine.plain_avoids (by decide) (by simp),
        Engine.plain_avoids (by decide) (by simp)⟩
    · exact .inl rfl
  inside := ⟨_, _, _, by rfl, by rfl, by rfl⟩

theorem Threads.depth_counts_brackets_sample :
    ∃ first second : LineResult Matcher,
      (bracketGrammar.tokenizeLine .default (Text.ofString "(cat(") .initial).result = .ok first ∧
      first.stack.depth = 2 ∧
      (bracketGrammar.tokenizeLine ⟨1, none⟩ (Text.ofString "(c)at)))((") first.stack).result =
        .ok second ∧
      second.stack.depth = 1 := by
  have opens := Engine.plain_findsChar (· == '!') "a reserved character" '('
  have closes := Engine.plain_findsChar (· == '!') "a reserved character" ')'
  have bounded := Engine.plain_inBounds (· == '!') "a reserved character"
  have distinct : '(' ≠ ')' := by decide
  obtain ⟨first, hfirst, hdepth⟩ := Threads.depth_counts_brackets ofJson_bracketSource bounded
    distinct opens closes bracketGrammar_declares .initial .default rfl (Text.ofString "(cat(")
  obtain ⟨second, hsecond, hdepth'⟩ := Threads.depth_counts_brackets ofJson_bracketSource bounded
    distinct opens closes bracketGrammar_declares (.line .default _ .initial hfirst)
    ⟨1, none⟩ rfl (Text.ofString "(c)at)))((")
  have htwo : first.stack.depth = 2 := hdepth.trans (by decide)
  rw [htwo] at hdepth'
  exact ⟨first, second, hfirst, htwo, hsecond, hdepth'.trans (by decide)⟩

end Grammar

end LineScope
