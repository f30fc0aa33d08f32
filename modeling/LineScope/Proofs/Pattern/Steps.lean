import LineScope.Pattern.Matching

/-!
What a matcher keeps on its way. An action that keeps an invariant and moves along a reflexive and
transitive relation does so when it is repeated, in whatever greed.
-/

namespace LineScope.Pattern

/-- What an action gives is what the way to go on gives from a place that the relation leads to and
where the invariant holds again. -/
def Action.Keeps (I : Progress → Prop) (R : Progress → Progress → Prop) (action : Action) : Prop :=
  ∀ p next r, I p → action p next = some r → ∃ q, I q ∧ R p q ∧ next q = some r

def Progress.skip (p : Progress) (count : Nat) : Progress := { p with pos := p.pos + count }

theorem Progress.skip_skip (p : Progress) (a b : Nat) : (p.skip a).skip b = p.skip (a + b) := by
  rw [skip, skip, skip, Nat.add_assoc]

variable {I : Progress → Prop} {R : Progress → Progress → Prop}

theorem takeOne_eq_some {text : Text} {test : CharTest} {p q : Progress}
    (h : takeOne text test p = some q) : p.pos + 1 ≤ text.size ∧ q = p.skip 1 := by
  unfold takeOne at h
  split at h
  · rename_i c hc
    obtain ⟨hlt, -⟩ := Array.getElem?_eq_some_iff.mp hc
    split at h
    · cases h
      exact ⟨hlt, rfl⟩
    · cases h
  · cases h

theorem runLength_le (text : Text) (test : CharTest) (limit pos : Nat) :
    runLength text test limit pos ≤ limit := by
  induction limit generalizing pos with
  | zero => exact Nat.le_refl 0
  | succ limit ih =>
      simp only [runLength]
      split
      · split
        · exact Nat.succ_le_succ (ih (pos + 1))
        · exact Nat.zero_le _
      · exact Nat.zero_le _

theorem giveBack_eq_some {p r : Progress} {next : Next} {min count : Nat}
    (h : giveBack p next min count = some r) : ∃ n ≤ count, next (p.skip n) = some r := by
  induction count with
  | zero =>
      simp only [giveBack] at h
      split at h
      · exact ⟨0, Nat.le_refl 0, h⟩
      · cases h
  | succ count ih =>
      simp only [giveBack] at h
      split at h
      · cases h
      · split at h
        · rename_i r' hr
          cases h
          exact ⟨count + 1, Nat.le_refl _, hr⟩
        · obtain ⟨n, hn, hnext⟩ := ih h
          exact ⟨n, Nat.le_succ_of_le hn, hnext⟩

theorem takeMore_eq_some {p r : Progress} {next : Next} {count : Nat}
    (h : takeMore p next count = some r) : ∃ n ≤ count, next (p.skip n) = some r := by
  induction count generalizing p with
  | zero => exact ⟨0, Nat.le_refl 0, h⟩
  | succ count ih =>
      simp only [takeMore] at h
      split at h
      · rename_i r' hr
        cases h
        exact ⟨0, Nat.zero_le _, hr⟩
      · obtain ⟨n, hn, hnext⟩ := ih h
        have hskip : ({ p with pos := p.pos + 1 } : Progress).skip n = p.skip (1 + n) :=
          p.skip_skip 1 n
        rw [hskip] at hnext
        exact ⟨1 + n, by omega, hnext⟩

theorem loopOne_eq_some {text : Text} {test : CharTest} {greed : Greed} {min : Nat}
    {max : Option Nat} {p r : Progress} {next : Next}
    (h : loopOne text test greed min max p next = some r) :
    ∃ count, min ≤ count ∧ count ≤ text.size - p.pos ∧
      (greed = .greedy → giveBack p next min count = some r) ∧
      (greed = .lazy → takeMore (p.skip min) next (count - min) = some r) ∧
      (greed = .possessive → next (p.skip count) = some r) := by
  have hroom : ∀ limit, limit ≤ text.size - p.pos →
      runLength text test limit p.pos ≤ text.size - p.pos :=
    fun limit hlimit => Nat.le_trans (runLength_le text test limit p.pos) hlimit
  cases max with
  | none =>
      obtain ⟨hmin, h⟩ := Option.ite_none_left_eq_some.mp h
      refine ⟨_, Nat.not_lt.mp hmin, hroom _ (Nat.le_refl _), ?_, ?_, ?_⟩
      all_goals
        rintro rfl
        exact h
  | some m =>
      obtain ⟨hmin, h⟩ := Option.ite_none_left_eq_some.mp h
      refine ⟨_, Nat.not_lt.mp hmin, hroom _ (Nat.min_le_right ..), ?_, ?_, ?_⟩
      all_goals
        rintro rfl
        exact h

theorem exists_skip_of_loopOne {text : Text} {test : CharTest} {greed : Greed} {min : Nat}
    {max : Option Nat} {p r : Progress} {next : Next}
    (h : loopOne text test greed min max p next = some r) :
    ∃ count ≤ text.size - p.pos, next (p.skip count) = some r := by
  obtain ⟨count, hmin, hcount, hgreedy, hlazy, hpossessive⟩ := loopOne_eq_some h
  cases greed with
  | greedy =>
      obtain ⟨n, hn, hnext⟩ := giveBack_eq_some (hgreedy rfl)
      exact ⟨n, Nat.le_trans hn hcount, hnext⟩
  | lazy =>
      obtain ⟨n, hn, hnext⟩ := takeMore_eq_some (hlazy rfl)
      rw [Progress.skip_skip] at hnext
      exact ⟨min + n, by omega, hnext⟩
  | possessive => exact ⟨count, hcount, hpossessive rfl⟩

theorem loopGreedy_keeps (hrefl : ∀ p, R p p) (htrans : ∀ {p q r}, R p q → R q r → R p r)
    {body : Action} (hbody : body.Keeps I R) (min : Nat) (max : Option Nat) (fuel count : Nat)
    (last : Option Nat) :
    Action.Keeps I R fun p next => loopGreedy body min max next fuel count last p := by
  induction fuel generalizing count last with
  | zero =>
      intro p next r hp h
      exact ⟨p, hp, hrefl p, h⟩
  | succ fuel ih =>
      intro p next r hp h
      -- one repetition, and then the rest of them
      have hmore : ∀ {last'},
          body p (loopGreedy body min max next fuel (count + 1) last') = some r →
          ∃ q, I q ∧ R p q ∧ next q = some r := by
        intro last' hr
        obtain ⟨q, hq, hpq, hrest⟩ := hbody p _ r hp hr
        obtain ⟨q', hq', hqq', hnext⟩ := ih (count + 1) last' q next r hq hrest
        exact ⟨q', hq', htrans hpq hqq', hnext⟩
      simp only [loopGreedy] at h
      split at h
      · exact hmore h
      · split at h
        · split at h
          · rename_i r' hr
            cases h
            exact hmore hr
          · exact ⟨p, hp, hrefl p, h⟩
        · exact ⟨p, hp, hrefl p, h⟩

theorem loopLazy_keeps (hrefl : ∀ p, R p p) (htrans : ∀ {p q r}, R p q → R q r → R p r)
    {body : Action} (hbody : body.Keeps I R) (min : Nat) (max : Option Nat) (fuel count : Nat)
    (last : Option Nat) :
    Action.Keeps I R fun p next => loopLazy body min max next fuel count last p := by
  induction fuel generalizing count last with
  | zero =>
      intro p next r hp h
      exact ⟨p, hp, hrefl p, h⟩
  | succ fuel ih =>
      intro p next r hp h
      have hmore : ∀ {last'}, body p (loopLazy body min max next fuel (count + 1) last') = some r →
          ∃ q, I q ∧ R p q ∧ next q = some r := by
        intro last' hr
        obtain ⟨q, hq, hpq, hrest⟩ := hbody p _ r hp hr
        obtain ⟨q', hq', hqq', hnext⟩ := ih (count + 1) last' q next r hq hrest
        exact ⟨q', hq', htrans hpq hqq', hnext⟩
      simp only [loopLazy] at h
      split at h
      · exact hmore h
      · split at h
        · rename_i r' hr
          cases h
          exact ⟨p, hp, hrefl p, hr⟩
        · split at h
          · exact hmore h
          · cases h

theorem loopPossessive_keeps (hrefl : ∀ p, R p p) (htrans : ∀ {p q r}, R p q → R q r → R p r)
    {body : Action} (hbody : body.Keeps I R) (min : Nat) (max : Option Nat) (fuel count : Nat)
    (last : Option Nat) :
    Action.Keeps I R fun p next => loopPossessive body min max next fuel count last p := by
  induction fuel generalizing count last with
  | zero =>
      intro p next r hp h
      exact ⟨p, hp, hrefl p, h⟩
  | succ fuel ih =>
      intro p next r hp h
      have hmore : ∀ {q last'}, body p some = some q →
          loopPossessive body min max next fuel (count + 1) last' q = some r →
          ∃ q', I q' ∧ R p q' ∧ next q' = some r := by
        intro q last' hone hrest
        obtain ⟨_, hq, hpq, heq⟩ := hbody p _ q hp hone
        cases heq
        obtain ⟨q', hq', hqq', hnext⟩ := ih (count + 1) last' q next r hq hrest
        exact ⟨q', hq', htrans hpq hqq', hnext⟩
      simp only [loopPossessive] at h
      split at h
      · split at h
        · exact hmore ‹_› h
        · cases h
      · split at h
        · split at h
          · exact hmore ‹_› h
          · exact ⟨p, hp, hrefl p, h⟩
        · exact ⟨p, hp, hrefl p, h⟩

/-- A node repeated moves as its body does, or over characters of the text. -/
theorem Node.run_loop_keeps {text : Text} {a : Node} (hrefl : ∀ p, R p p)
    (htrans : ∀ {p q r}, R p q → R q r → R p r)
    (hskip : ∀ p count, I p → count ≤ text.size - p.pos → I (p.skip count) ∧ R p (p.skip count))
    (hbody : Action.Keeps I R (a.run text)) (greed : Greed) (min : Nat) (max : Option Nat) :
    Action.Keeps I R ((Node.loop greed min max a).run text) := by
  intro p next r hp h
  cases a with
  | one test =>
      obtain ⟨count, hcount, hnext⟩ := exists_skip_of_loopOne (by simpa only [Node.run] using h)
      obtain ⟨hq, hpq⟩ := hskip p count hp hcount
      exact ⟨_, hq, hpq, hnext⟩
  | _ =>
      cases greed with
      | greedy => exact loopGreedy_keeps hrefl htrans hbody min max _ 0 none p next r hp h
      | lazy => exact loopLazy_keeps hrefl htrans hbody min max _ 0 none p next r hp h
      | possessive => exact loopPossessive_keeps hrefl htrans hbody min max _ 0 none p next r hp h

/-- A match is what the pattern gives at one of the places of the search. -/
theorem firstMatch_eq_some {pattern : Pattern} {text : Text} {count pos place : Nat} {r : Progress}
    (h : firstMatch pattern text count pos = some (place, r)) :
    pos ≤ place ∧ place < pos + count ∧
      pattern.root.run text (.start place pattern.groups) some = some r := by
  induction count generalizing pos with
  | zero => cases h
  | succ count ih =>
      simp only [firstMatch] at h
      split at h
      · rename_i hr
        cases h
        exact ⟨Nat.le_refl _, by omega, hr⟩
      · obtain ⟨hlow, hhigh, hr⟩ := ih h
        exact ⟨by omega, by omega, hr⟩

theorem firstMatch_of_run {pattern : Pattern} {text : Text} {count pos : Nat} {r : Progress}
    (h : pattern.root.run text (.start pos pattern.groups) some = some r) :
    firstMatch pattern text (count + 1) pos = some (pos, r) := by
  simp only [firstMatch, h]

theorem firstMatch_eq_none {pattern : Pattern} {text : Text} {count pos : Nat}
    (h : ∀ place, pos ≤ place →
      pattern.root.run text (.start place pattern.groups) some = none) :
    firstMatch pattern text count pos = none := by
  refine Option.eq_none_iff_forall_ne_some.mpr fun ⟨place, r⟩ hfirst => ?_
  obtain ⟨hlow, -, hr⟩ := firstMatch_eq_some hfirst
  rw [h place hlow] at hr
  cases hr

end LineScope.Pattern
