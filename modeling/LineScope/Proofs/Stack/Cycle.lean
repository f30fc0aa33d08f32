/-!
Moves of a stack that depend on nothing but its depth and what is on top. A run that comes back to
a depth and a top that it had before has come into a cycle, whatever has changed further down: the
stack that it comes back to leads to itself.
-/

namespace LineScope

/-- What can happen to a stack at once. -/
inductive Move (K : Type) where
  | stay
  | push (k : K)
  | pop

namespace Move

variable {K : Type}

def apply : Move K → List K → List K
  | .stay, stack => stack
  | .push k, stack => k :: stack
  | .pop, stack => stack.tail

theorem apply_append (m : Move K) {upper : List K} (hupper : upper ≠ []) (lower : List K) :
    m.apply (upper ++ lower) = m.apply upper ++ lower := by
  obtain ⟨k, upper, rfl⟩ := List.exists_cons_of_ne_nil hupper
  cases m <;> rfl

/-- A number of moves, each one that is possible with the top and the depth at hand. -/
inductive Runs (moves : Option K → Nat → Move K → Prop) : Nat → List K → List K → Prop
  | refl {stack : List K} : Runs moves 0 stack stack
  | move {stack last : List K} {m : Move K} {n : Nat} :
      moves stack.head? stack.length m → Runs moves n (m.apply stack) last →
        Runs moves (n + 1) stack last

namespace Runs

variable {moves : Option K → Nat → Move K → Prop} {n k : Nat} {first between last : List K}

theorem trans (h : Runs moves n first between) (h' : Runs moves k between last) :
    Runs moves (n + k) first last := by
  induction h with
  | refl => simpa using h'
  | move hmove _ ih =>
      rw [Nat.add_right_comm]
      exact .move hmove (ih h')

theorem snoc (h : Runs moves n first between) {m : Move K}
    (hmove : moves between.head? between.length m) :
    Runs moves (n + 1) first (m.apply between) :=
  h.trans (.move hmove .refl)

theorem split (h : Runs moves (n + k) first last) :
    ∃ between, Runs moves n first between ∧ Runs moves k between last := by
  induction n generalizing first with
  | zero => exact ⟨first, .refl, by simpa using h⟩
  | succ n ih =>
      rw [Nat.add_right_comm] at h
      cases h with
      | move hmove hrest =>
          obtain ⟨between, hfirst, hlast⟩ := ih hrest
          exact ⟨between, .move hmove hfirst, hlast⟩

/-- What is below either stays there to the end, or is uncovered on the way. Up to then the moves do
not depend on it, but for its depth. -/
theorem below_stays_or_uncovered {upper lower : List K} (hupper : upper ≠ [])
    (h : Runs moves n (upper ++ lower) last) :
    (∃ upper', upper' ≠ [] ∧ last = upper' ++ lower) ∨
      ∃ i j, i + j = n ∧ 0 < i ∧ Runs moves j lower last ∧
        ∀ lower', lower'.length = lower.length → Runs moves i (upper ++ lower') lower' := by
  induction n generalizing upper with
  | zero =>
      cases h
      exact .inl ⟨upper, hupper, rfl⟩
  | succ n ih =>
      cases h with
      | @move _ _ m _ hmove hrest =>
          -- the move is possible over anything of the same depth
          have hanywhere : ∀ lower', lower'.length = lower.length →
              moves (upper ++ lower').head? (upper ++ lower').length m := by
            intro lower' hlength
            obtain ⟨k, upper, rfl⟩ := List.exists_cons_of_ne_nil hupper
            simpa [hlength] using hmove
          rw [apply_append m hupper] at hrest
          by_cases hempty : m.apply upper = []
          · refine .inr ⟨1, n, by omega, Nat.one_pos, ?_, fun lower' hlength => ?_⟩
            · rwa [hempty, List.nil_append] at hrest
            · refine .move (hanywhere lower' hlength) ?_
              rw [apply_append m hupper, hempty, List.nil_append]
              exact .refl
          · rcases ih hempty hrest with hstays | ⟨i, j, hn, -, hlast, huncovered⟩
            · exact .inl hstays
            · refine .inr ⟨i + 1, j, by omega, Nat.succ_pos i, hlast, fun lower' hlength => ?_⟩
              refine .move (hanywhere lower' hlength) ?_
              rw [apply_append m hupper]
              exact huncovered lower' hlength

theorem from_below {top : K} {below : List K} (h : Runs moves n first (top :: below))
    (hlength : first.length ≤ below.length) :
    ∃ k, 0 < k ∧ Runs moves k below (top :: below) := by
  induction n using Nat.strongRecOn generalizing first with
  | ind n ih =>
      cases h with
      | refl => exact absurd hlength (Nat.not_succ_le_self _)
      | @move _ _ m n hmove hrest =>
          by_cases hle : (m.apply first).length ≤ below.length
          · exact ih n (Nat.lt_succ_self n) hrest hle
          · cases m with
            | stay => exact absurd hlength hle
            | pop =>
                simp only [apply, List.length_tail] at hle
                omega
            | push k =>
                simp only [apply, List.length_cons] at hle
                have hsame : first.length = below.length := by omega
                rcases below_stays_or_uncovered (List.cons_ne_nil k []) hrest with
                  ⟨upper, -, hlast⟩ | ⟨i, j, hn, hi, hlast, -⟩
                · have hupper : upper.length = 1 := by
                    have hlengths := congrArg List.length hlast
                    simp only [List.length_cons, List.length_append] at hlengths
                    omega
                  obtain ⟨k', rfl⟩ := List.length_eq_one_iff.mp hupper
                  obtain ⟨-, rfl⟩ := List.cons.inj hlast
                  exact ⟨n + 1, Nat.succ_pos n, .move hmove hrest⟩
                · exact ih j (by omega) hlast hlength

/-- A run that comes back to the depth and the top that it started with ends with a stack that leads
to itself. -/
theorem cycle (h : Runs moves n first last) (hn : 0 < n) (hlength : first.length = last.length)
    (htop : first.head? = last.head?) : ∃ k, 0 < k ∧ Runs moves k last last := by
  rcases first with _ | ⟨top, below⟩
  · rw [List.eq_nil_of_length_eq_zero hlength.symm] at h ⊢
    exact ⟨n, hn, h⟩
  · rcases last with _ | ⟨top', below'⟩
    · cases hlength
    · obtain rfl : top = top' := Option.some.inj htop
      have hlength : below.length = below'.length := Nat.succ.inj hlength
      rcases below_stays_or_uncovered (List.cons_ne_nil top []) h with
        ⟨upper, -, hlast⟩ | ⟨i, j, -, hi, hlast, huncovered⟩
      · -- nothing below the top was touched, so that it is the same stack
        have hupper : upper.length = 1 := by
          have hlengths := congrArg List.length hlast
          simp only [List.length_cons, List.length_append] at hlengths
          omega
        obtain ⟨k', rfl⟩ := List.length_eq_one_iff.mp hupper
        obtain ⟨-, rfl⟩ := List.cons.inj hlast
        exact ⟨n, hn, h⟩
      · -- the top goes away as it did the first time, and what is below leads back
        obtain ⟨k, -, hback⟩ := from_below hlast (Nat.le_of_eq hlength)
        exact ⟨i + k, by omega, (huncovered below' hlength.symm).trans hback⟩

theorem forever (hk : 0 < k) (h : Runs moves k last last) (n : Nat) :
    ∃ stack, Runs moves n last stack := by
  have hmany : ∀ c, Runs moves (k * c) last last := by
    intro c
    induction c with
    | zero => exact .refl
    | succ c ih => exact ih.trans h
  have hlong : n + (k * n - n) = k * n := Nat.add_sub_of_le (Nat.le_mul_of_pos_left n hk)
  obtain ⟨stack, hstack, -⟩ := split (hlong ▸ hmany n)
  exact ⟨stack, hstack⟩

end Runs

end Move

end LineScope
