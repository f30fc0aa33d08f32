import LineScope.Engine
import LineScope.Proofs.Pattern.Steps

namespace LineScope.Pattern

/-- What an action gives is what the way to go on gives from a place in the text at or after the
one that the action starts from. -/
def Action.Advances (text : Text) (action : Action) : Prop :=
  ∀ p next r, p.pos ≤ text.size → action p next = some r →
    ∃ q, p.pos ≤ q.pos ∧ q.pos ≤ text.size ∧ next q = some r

theorem advances_iff_keeps {text : Text} {action : Action} :
    action.Advances text ↔ action.Keeps (·.pos ≤ text.size) (·.pos ≤ ·.pos) := by
  constructor
  · intro h p next r hp hr
    obtain ⟨q, hlow, hhigh, hnext⟩ := h p next r hp hr
    exact ⟨q, hhigh, hlow, hnext⟩
  · intro h p next r hp hr
    obtain ⟨q, hhigh, hlow, hnext⟩ := h p next r hp hr
    exact ⟨q, hlow, hhigh, hnext⟩

theorem repeatsAt_fits {text : Text} {letters : Letters} {a b i : Nat} (hi : i ≤ text.size)
    (h : repeatsAt text letters a b i = true) : i + (b - a) ≤ text.size := by
  rcases Nat.eq_zero_or_pos (b - a) with hzero | hpos
  · omega
  · have hlast := List.all_eq_true.mp h (b - a - 1) (List.mem_range.mpr (by omega))
    by_cases hin : i + (b - a - 1) < text.size
    · omega
    · rw [Array.getElem?_eq_none (by omega : text.size ≤ i + (b - a - 1))] at hlast
      split at hlast
      · rename_i heq
        cases heq
      · cases hlast

/-- A place that a lookaround has been at does not matter: the match goes on where it stood. -/
theorem Node.run_advances (text : Text) (node : Node) : Action.Advances text (node.run text) := by
  induction node with
  | empty =>
      intro p next r hp h
      exact ⟨p, Nat.le_refl _, hp, by simpa [Node.run] using h⟩
  | one test =>
      intro p next r hp h
      obtain ⟨q, hq, hnext⟩ := Option.bind_eq_some_iff.mp (by simpa [Node.run] using h)
      obtain ⟨hroom, rfl⟩ := takeOne_eq_some hq
      exact ⟨_, Nat.le_add_right _ _, hroom, hnext⟩
  | anchor a =>
      intro p next r hp h
      simp only [Node.run] at h
      split at h
      · exact ⟨p, Nat.le_refl _, hp, h⟩
      · cases h
  | seq a b iha ihb =>
      intro p next r hp h
      obtain ⟨q, hq, hqsize, hrest⟩ := iha p _ r hp (by simpa [Node.run] using h)
      obtain ⟨q', hq', hqsize', hnext⟩ := ihb q next r hqsize hrest
      exact ⟨q', Nat.le_trans hq hq', hqsize', hnext⟩
  | alt a b iha ihb =>
      intro p next r hp h
      simp only [Node.run] at h
      split at h
      · rename_i hr
        cases h
        exact iha p next r hp hr
      · exact ihb p next r hp h
  | capture group a ih =>
      intro p next r hp h
      obtain ⟨q, hq, hqsize, hnext⟩ := ih (p.enter group) _ r hp (by simpa [Node.run] using h)
      exact ⟨q.leave group, hq, hqsize, hnext⟩
  | again group letters _ =>
      intro p next r hp h
      simp only [Node.run] at h
      split at h
      · rename_i a b _
        split at h
        · rename_i hrepeats
          exact ⟨_, Nat.le_add_right _ _, repeatsAt_fits hp hrepeats, h⟩
        · cases h
      · cases h
  | loop greed min max a ih =>
      apply advances_iff_keeps.mpr
      apply run_loop_keeps
      · exact fun p => Nat.le_refl p.pos
      · exact fun hpq hqr => Nat.le_trans hpq hqr
      · intro p count hp hcount
        simp only [Progress.skip]
        omega
      · exact advances_iff_keeps.mp ih
  | ahead negated a =>
      intro p next r hp h
      simp only [Node.run] at h
      split at h
      · rename_i q _
        split at h
        · cases h
        · exact ⟨{ q with pos := p.pos }, Nat.le_refl _, hp, h⟩
      · split at h
        · exact ⟨p, Nat.le_refl _, hp, h⟩
        · cases h
  | behind negated width a =>
      intro p next r hp h
      simp only [Node.run] at h
      split at h
      · split at h
        · exact ⟨p, Nat.le_refl _, hp, h⟩
        · cases h
      · split at h
        · rename_i q _
          split at h
          · cases h
          · exact ⟨{ q with pos := p.pos }, Nat.le_refl _, hp, h⟩
        · split at h
          · exact ⟨p, Nat.le_refl _, hp, h⟩
          · cases h
  | atomic a ih =>
      intro p next r hp h
      simp only [Node.run] at h
      split at h
      · rename_i q hq
        obtain ⟨_, hlow, hhigh, heq⟩ := ih p some q hp hq
        cases heq
        exact ⟨q, hlow, hhigh, h⟩
      · cases h
  | ifGroup group yes no ihyes ihno =>
      intro p next r hp h
      simp only [Node.run] at h
      split at h
      · exact ihyes p next r hp h
      · exact ihno p next r hp h

theorem firstMatch_bounds {pattern : Pattern} {text : Text} {count pos place : Nat}
    {r : Progress} (hcount : pos + count ≤ text.size + 1)
    (h : firstMatch pattern text count pos = some (place, r)) :
    pos ≤ place ∧ place ≤ r.pos ∧ r.pos ≤ text.size := by
  obtain ⟨hplace, hlt, hr⟩ := firstMatch_eq_some h
  have hpos : (Progress.start place pattern.groups).pos ≤ text.size := by
    change place ≤ text.size
    omega
  obtain ⟨_, hlow, hhigh, heq⟩ := Node.run_advances text pattern.root _ some _ hpos hr
  cases heq
  exact ⟨hplace, hlow, hhigh⟩

theorem firstMatch_lt {test : CharTest} {a : Node} {groups : Nat} {text : Text}
    {count pos place : Nat} {r : Progress}
    (h : firstMatch ⟨.seq (.one test) a, groups⟩ text count pos = some (place, r)) :
    place < r.pos := by
  obtain ⟨-, -, hr⟩ := firstMatch_eq_some h
  simp only [Node.run] at hr
  obtain ⟨q, hq, hrest⟩ := Option.bind_eq_some_iff.mp hr
  obtain ⟨hroom, rfl⟩ := takeOne_eq_some hq
  obtain ⟨_, hlow, -, heq⟩ := Node.run_advances text a _ some _ hroom hrest
  cases heq
  exact hlow

end LineScope.Pattern
