import LineScope.Engine
import LineScope.Proofs.Pattern.Numbering
import LineScope.Proofs.Pattern.Steps

/-!
How captured groups lie. While no condition on the text around a place captures, a group with a
greater number never encloses one with a smaller number, however often the two are repeated: what
is captured while a group is open lies within it, and all else lies before it.
-/

namespace LineScope.Pattern

namespace Progress

/-- From one place to another at or after it, only some groups are captured, and these between the
two places. -/
structure Within (groups : List Nat) (p q : Progress) : Prop where
  le : p.pos ≤ q.pos
  kept : ∀ k, k + 1 ∉ groups → q.marks[k]? = p.marks[k]?
  fresh : ∀ k : Nat, q.marks[k]? = p.marks[k]? ∨
    ∃ a b, q.marks[k]? = some (Mark.mk (some a) (some b)) ∧ p.pos ≤ a ∧ a ≤ b ∧ b ≤ q.pos

/-- Groups are closed at or before the place, and where one encloses a group with a smaller number,
the two are the same text. -/
structure Tidy (p : Progress) : Prop where
  closed : ∀ {k b : Nat} {m : Mark}, p.marks[k]? = some m → m.closed = some b → b ≤ p.pos
  nested : ∀ {i j a b c d : Nat}, i < j → p.marks[i]? = some (Mark.mk (some c) (some d)) →
    p.marks[j]? = some (Mark.mk (some a) (some b)) → c < d → a ≤ c → d ≤ b → a = c ∧ b = d

def Moves (groups : List Nat) (p q : Progress) : Prop := Within groups p q ∧ (p.Tidy → q.Tidy)

variable {groups groups' : List Nat} {p q r : Progress}

theorem Within.refl (p : Progress) : Within groups p p :=
  ⟨Nat.le_refl _, fun _ _ => rfl, fun _ => .inl rfl⟩

theorem Within.trans (h : Within groups p q) (h' : Within groups q r) : Within groups p r := by
  refine ⟨Nat.le_trans h.le h'.le, fun k hk => (h'.kept k hk).trans (h.kept k hk), fun k => ?_⟩
  rcases h'.fresh k with hsame | ⟨a, b, hmark, ha, hab, hb⟩
  · rcases h.fresh k with hsame' | ⟨a, b, hmark, ha, hab, hb⟩
    · exact .inl (hsame.trans hsame')
    · exact .inr ⟨a, b, hsame.trans hmark, ha, hab, Nat.le_trans hb h'.le⟩
  · exact .inr ⟨a, b, hmark, Nat.le_trans h.le ha, hab, hb⟩

theorem Within.mono (hgroups : ∀ g ∈ groups, g ∈ groups') (h : Within groups p q) :
    Within groups' p q :=
  ⟨h.le, fun k hk => h.kept k (mt (hgroups _) hk), h.fresh⟩

theorem Within.skip (p : Progress) (count : Nat) : Within groups p (p.skip count) :=
  ⟨Nat.le_add_right _ _, fun _ _ => rfl, fun _ => .inl rfl⟩

theorem Tidy.skip (h : p.Tidy) (count : Nat) : (p.skip count).Tidy :=
  ⟨fun hm hb => Nat.le_trans (h.closed hm hb) (Nat.le_add_right _ _), h.nested⟩

theorem Moves.refl (p : Progress) : Moves groups p p := ⟨.refl p, id⟩

theorem Moves.trans (h : Moves groups p q) (h' : Moves groups q r) : Moves groups p r :=
  ⟨h.1.trans h'.1, h'.2 ∘ h.2⟩

theorem Moves.mono (hgroups : ∀ g ∈ groups, g ∈ groups') (h : Moves groups p q) :
    Moves groups' p q :=
  ⟨h.1.mono hgroups, h.2⟩

theorem Moves.skip (p : Progress) (count : Nat) : Moves groups p (p.skip count) :=
  ⟨.skip p count, fun h => h.skip count⟩

theorem Within.back {pos : Nat} (h : Within [] { p with pos } q) : { q with pos := p.pos } = p := by
  have hmarks : q.marks = p.marks := List.ext_getElem? fun k => h.kept k List.not_mem_nil
  rw [hmarks]

theorem marks_enter (p : Progress) (k i : Nat) :
    (p.enter (k + 1)).marks[i]? =
      p.marks[i]?.map fun m => if k = i then { m with opened := some p.pos } else m := by
  rw [enter, Nat.add_sub_cancel, List.getElem?_modify]
  rfl

theorem marks_leave (p : Progress) (k i : Nat) :
    (p.leave (k + 1)).marks[i]? =
      p.marks[i]?.map fun m => if k = i then { m with closed := some p.pos } else m := by
  rw [leave, Nat.add_sub_cancel, List.getElem?_modify]
  rfl

theorem marks_enter_of_ne {k i : Nat} (h : k ≠ i) :
    (p.enter (k + 1)).marks[i]? = p.marks[i]? := by
  simp [marks_enter, h]

theorem marks_leave_of_ne {k i : Nat} (h : k ≠ i) :
    (p.leave (k + 1)).marks[i]? = p.marks[i]? := by
  simp [marks_leave, h]

theorem marks_leave_self {k : Nat} (hk : k + 1 ∉ groups)
    (h : Within groups (p.enter (k + 1)) q) :
    (q.leave (k + 1)).marks[k]? = p.marks[k]?.map fun _ => Mark.mk (some p.pos) (some q.pos) := by
  rw [marks_leave, h.kept k hk, marks_enter, Option.map_map]
  simp [Function.comp_def]

theorem Within.capture {k : Nat} (hk : k + 1 ∉ groups)
    (h : Within groups (p.enter (k + 1)) q) :
    Within ((k + 1) :: groups) p (q.leave (k + 1)) := by
  refine ⟨h.le, fun i hi => ?_, fun i => ?_⟩
  · obtain ⟨hne, hi⟩ := not_or.mp (mt List.mem_cons.mpr hi)
    have hki : k ≠ i := by omega
    rw [marks_leave_of_ne hki, h.kept i hi, marks_enter_of_ne hki]
  · by_cases hki : k = i
    · subst hki
      rw [marks_leave_self hk h]
      rcases p.marks[k]? with _ | m
      · exact .inl rfl
      · exact .inr ⟨p.pos, q.pos, rfl, Nat.le_refl _, h.le, Nat.le_refl _⟩
    · have hfresh := h.fresh i
      rw [marks_enter_of_ne hki] at hfresh
      rw [marks_leave_of_ne hki]
      exact hfresh

/-- A group that is entered again is no group that encloses or is enclosed: it would end before it
begins. -/
theorem Tidy.enter (h : p.Tidy) (k : Nat) : (p.enter (k + 1)).Tidy := by
  have hmark : ∀ {i : Nat} {m : Mark}, (p.enter (k + 1)).marks[i]? = some m →
      (k ≠ i ∧ p.marks[i]? = some m) ∨
        (m.opened = some p.pos ∧ ∀ b, m.closed = some b → b ≤ p.pos) := by
    intro i m hm
    by_cases hki : k = i
    · subst hki
      rw [marks_enter] at hm
      obtain ⟨m, hold, rfl⟩ := Option.map_eq_some_iff.mp hm
      rw [if_pos rfl]
      exact .inr ⟨rfl, fun b hb => h.closed hold hb⟩
    · rw [marks_enter_of_ne hki] at hm
      exact .inl ⟨hki, hm⟩
  refine ⟨?_, ?_⟩
  · intro i b m hm hb
    rcases hmark hm with ⟨-, hm⟩ | ⟨-, hclosed⟩
    · exact h.closed hm hb
    · exact hclosed b hb
  · intro i j a b c d hij hi hj hcd hac hdb
    rcases hmark hi with ⟨-, hi⟩ | ⟨hopened, hclosed⟩
    · rcases hmark hj with ⟨-, hj⟩ | ⟨hopened, hclosed⟩
      · exact h.nested hij hi hj hcd hac hdb
      · have hb := hclosed b rfl
        cases hopened
        omega
    · have hd := hclosed d rfl
      cases hopened
      omega

theorem Tidy.leave {k : Nat} (hgroups : ∀ g ∈ groups, k + 1 < g) (hp : p.Tidy) (hq : q.Tidy)
    (h : Within groups (p.enter (k + 1)) q) : (q.leave (k + 1)).Tidy := by
  have hk : k + 1 ∉ groups := fun hmem => Nat.lt_irrefl _ (hgroups _ hmem)
  have hself : ∀ {m : Mark}, (q.leave (k + 1)).marks[k]? = some m →
      m = ⟨some p.pos, some q.pos⟩ := by
    intro m hm
    rw [marks_leave_self hk h] at hm
    obtain ⟨_, -, rfl⟩ := Option.map_eq_some_iff.mp hm
    rfl
  refine ⟨?_, ?_⟩
  · intro i b m hm hb
    by_cases hki : k = i
    · subst hki
      rw [hself hm] at hb
      cases hb
      exact Nat.le_refl _
    · rw [marks_leave_of_ne hki] at hm
      exact hq.closed hm hb
  · intro i j a b c d hij hi hj hcd hac hdb
    by_cases hki : k = i
    · -- the group that was left is the smaller one: what encloses it would have to be from within
      subst hki
      have hkj : k ≠ j := Nat.ne_of_lt hij
      cases hself hi
      rw [marks_leave_of_ne hkj] at hj
      have hfresh := h.fresh j
      rw [marks_enter_of_ne hkj, hj] at hfresh
      rcases hfresh with hsame | ⟨a', b', hmark, ha, -, hb⟩
      · have hb := hp.closed hsame.symm rfl
        omega
      · cases hmark
        have ha : p.pos ≤ a := ha
        omega
    · by_cases hkj : k = j
      · -- the group that was left is the greater one: the smaller one was captured before it
        subst hkj
        cases hself hj
        have hout : i + 1 ∉ groups := fun hmem => by
          have hlt := hgroups _ hmem
          omega
        rw [marks_leave_of_ne hki, h.kept i hout, marks_enter_of_ne hki] at hi
        have hd := hp.closed hi rfl
        omega
      · rw [marks_leave_of_ne hki] at hi
        rw [marks_leave_of_ne hkj] at hj
        exact hq.nested hij hi hj hcd hac hdb

theorem Moves.capture {k : Nat} (hgroups : ∀ g ∈ groups, k + 1 < g)
    (h : Moves groups (p.enter (k + 1)) q) : Moves ((k + 1) :: groups) p (q.leave (k + 1)) := by
  have hk : k + 1 ∉ groups := fun hmem => Nat.lt_irrefl _ (hgroups _ hmem)
  refine ⟨h.1.capture hk, fun hp => ?_⟩
  exact hp.leave hgroups (h.2 (hp.enter k)) h.1

end Progress

open Progress in
/-- Every node captures its groups between the places that it leads from and to, and keeps them
tidy. -/
theorem Node.run_moves (text : Text) {node : Node} (hordered : node.Ordered)
    (hlooks : node.looksCapture = false) :
    Action.Keeps (fun _ => True) (Moves node.captures) (node.run text) := by
  induction node with
  | empty =>
      intro p next r _ h
      exact ⟨p, trivial, .refl p, by simpa only [Node.run] using h⟩
  | one test =>
      intro p next r _ h
      obtain ⟨q, hq, hnext⟩ := Option.bind_eq_some_iff.mp (by simpa only [Node.run] using h)
      obtain ⟨-, rfl⟩ := takeOne_eq_some hq
      exact ⟨_, trivial, .skip p 1, hnext⟩
  | anchor a =>
      intro p next r _ h
      simp only [Node.run] at h
      split at h
      · exact ⟨p, trivial, .refl p, h⟩
      · cases h
  | seq a b iha ihb =>
      intro p next r _ h
      obtain ⟨hlooks, hlooks'⟩ := Bool.or_eq_false_iff.mp hlooks
      obtain ⟨q, -, hq, hrest⟩ :=
        iha hordered.1 hlooks p _ r trivial (by simpa only [Node.run] using h)
      obtain ⟨q', -, hq', hnext⟩ := ihb hordered.2 hlooks' q next r trivial hrest
      refine ⟨q', trivial, .trans (hq.mono ?_) (hq'.mono ?_), hnext⟩
      · exact fun _ hg => List.mem_append_left _ hg
      · exact fun _ hg => List.mem_append_right _ hg
  | alt a b iha ihb =>
      intro p next r _ h
      obtain ⟨hlooks, hlooks'⟩ := Bool.or_eq_false_iff.mp hlooks
      simp only [Node.run] at h
      split at h
      · rename_i hr
        cases h
        obtain ⟨q, -, hq, hnext⟩ := iha hordered.1 hlooks p next r trivial hr
        exact ⟨q, trivial, hq.mono fun _ hg => List.mem_append_left _ hg, hnext⟩
      · obtain ⟨q, -, hq, hnext⟩ := ihb hordered.2 hlooks' p next r trivial h
        exact ⟨q, trivial, hq.mono fun _ hg => List.mem_append_right _ hg, hnext⟩
  | capture number a ih =>
      intro p next r _ h
      obtain ⟨hpos, hinner, hbody⟩ := hordered
      obtain ⟨k, rfl⟩ := Nat.exists_eq_succ_of_ne_zero (Nat.ne_of_gt hpos)
      obtain ⟨q, -, hq, hnext⟩ :=
        ih hbody hlooks (p.enter (k + 1)) _ r trivial (by simpa only [Node.run] using h)
      exact ⟨q.leave (k + 1), trivial, hq.capture hinner, hnext⟩
  | again group letters _ =>
      intro p next r _ h
      simp only [Node.run] at h
      split at h
      · split at h
        · exact ⟨_, trivial, .skip p _, h⟩
        · cases h
      · cases h
  | loop greed min max a ih =>
      apply run_loop_keeps
      · exact .refl
      · exact fun hpq hqr => hpq.trans hqr
      · exact fun p count _ _ => ⟨trivial, .skip p count⟩
      · exact ih hordered hlooks
  | ahead negated a ih =>
      intro p next r _ h
      have hnone : a.captures = [] := by simpa [looksCapture] using hlooks
      have hbody := ih hordered (looksCapture_of_captures_eq_nil hnone)
      rw [hnone] at hbody
      simp only [Node.run] at h
      split at h
      · rename_i q hq
        obtain ⟨_, -, hmoves, heq⟩ := hbody p some q trivial hq
        cases heq
        split at h
        · cases h
        · have hback : ({ q with pos := p.pos } : Progress) = p := hmoves.1.back
          rw [hback] at h
          exact ⟨p, trivial, .refl p, h⟩
      · split at h
        · exact ⟨p, trivial, .refl p, h⟩
        · cases h
  | behind negated width a ih =>
      intro p next r _ h
      have hnone : a.captures = [] := by simpa [looksCapture] using hlooks
      have hbody := ih hordered (looksCapture_of_captures_eq_nil hnone)
      rw [hnone] at hbody
      simp only [Node.run] at h
      split at h
      · split at h
        · exact ⟨p, trivial, .refl p, h⟩
        · cases h
      · split at h
        · rename_i q hq
          obtain ⟨_, -, hmoves, heq⟩ := hbody _ some q trivial hq
          cases heq
          split at h
          · cases h
          · have hback : ({ q with pos := p.pos } : Progress) = p := hmoves.1.back
            rw [hback] at h
            exact ⟨p, trivial, .refl p, h⟩
        · split at h
          · exact ⟨p, trivial, .refl p, h⟩
          · cases h
  | atomic a ih =>
      intro p next r _ h
      simp only [Node.run] at h
      split at h
      · rename_i q hq
        obtain ⟨_, -, hmoves, heq⟩ := ih hordered hlooks p some q trivial hq
        cases heq
        exact ⟨q, trivial, hmoves, h⟩
      · cases h
  | ifGroup group yes no ihyes ihno =>
      intro p next r _ h
      obtain ⟨hlooks, hlooks'⟩ := Bool.or_eq_false_iff.mp hlooks
      simp only [Node.run] at h
      split at h
      · obtain ⟨q, -, hq, hnext⟩ := ihyes hordered.1 hlooks p next r trivial h
        exact ⟨q, trivial, hq.mono fun _ hg => List.mem_append_left _ hg, hnext⟩
      · obtain ⟨q, -, hq, hnext⟩ := ihno hordered.2 hlooks' p next r trivial h
        exact ⟨q, trivial, hq.mono fun _ hg => List.mem_append_right _ hg, hnext⟩

theorem Progress.start_tidy (pos groups : Nat) : (Progress.start pos groups).Tidy := by
  have hmark : ∀ {k : Nat} {m : Mark}, (Progress.start pos groups).marks[k]? = some m →
      m = ⟨none, none⟩ :=
    fun h => List.eq_of_mem_replicate (List.mem_of_getElem? h)
  refine ⟨fun hm hclosed => ?_, fun _ hi => ?_⟩
  · cases hmark hm
    cases hclosed
  · cases hmark hi

open Progress in
theorem firstMatch_moves {pattern : Pattern} {text : Text} {count pos place : Nat} {r : Progress}
    (hordered : pattern.root.Ordered) (hlooks : pattern.root.looksCapture = false)
    (h : firstMatch pattern text count pos = some (place, r)) :
    Moves pattern.root.captures (.start place pattern.groups) r := by
  obtain ⟨-, -, hr⟩ := firstMatch_eq_some h
  obtain ⟨_, -, hmoves, heq⟩ := Node.run_moves text hordered hlooks _ some _ trivial hr
  cases heq
  exact hmoves

end LineScope.Pattern

namespace LineScope.Matcher

open Pattern Progress

theorem groupsOf_succ {place k : Nat} {r : Progress} {s : Span}
    (h : (groupsOf place r)[k + 1]? = some (some s)) :
    ∃ a b : Nat, r.marks[k]? = some (Mark.mk (some a) (some b)) ∧ s = ⟨a, b⟩ := by
  rw [groupsOf, List.getElem?_cons_succ, List.getElem?_map, Option.map_eq_some_iff] at h
  obtain ⟨m, hm, hspan⟩ := h
  split at hspan
  · cases hspan
    exact ⟨_, _, hm, rfl⟩
  · cases hspan

theorem groupsOf_within {place i : Nat} {count : Nat} {groups : List Nat} {r : Progress} {s : Span}
    (h : Within groups (.start place count) r) (hs : (groupsOf place r)[i]? = some (some s)) :
    (place : Int) ≤ s.start ∧ s.stop ≤ r.pos := by
  cases i with
  | zero =>
      cases hs
      exact ⟨Int.le_refl _, Int.le_refl _⟩
  | succ k =>
      obtain ⟨a, b, hmark, rfl⟩ := groupsOf_succ hs
      rcases h.fresh k with hsame | ⟨a', b', hmark', ha, -, hb⟩
      · have hstart := List.eq_of_mem_replicate (List.mem_of_getElem? (hsame.symm.trans hmark))
        cases hstart
      · cases hmark.symm.trans hmark'
        have ha : place ≤ a := ha
        exact ⟨Int.ofNat_le.mpr ha, Int.ofNat_le.mpr hb⟩

theorem groupsOf_nested {place i j : Nat} {count : Nat} {groups : List Nat} {r : Progress}
    {s t : Span} (h : Moves groups (.start place count) r) (hij : i < j)
    (hs : (groupsOf place r)[i]? = some (some s)) (ht : (groupsOf place r)[j]? = some (some t))
    (hlt : s.start < s.stop) (hstart : t.start ≤ s.start) (hstop : s.stop ≤ t.stop) : s = t := by
  obtain ⟨l, rfl⟩ := Nat.exists_eq_succ_of_ne_zero (Nat.ne_of_gt (Nat.zero_lt_of_lt hij))
  cases i with
  | zero =>
      obtain ⟨hlow, hhigh⟩ := groupsOf_within h.1 ht
      cases hs
      obtain ⟨a, b⟩ := t
      simp only at hstart hstop hlow hhigh
      rw [Int.le_antisymm hstart hlow, Int.le_antisymm hstop hhigh]
  | succ k =>
      obtain ⟨c, d, hinner, rfl⟩ := groupsOf_succ hs
      obtain ⟨a, b, houter, rfl⟩ := groupsOf_succ ht
      have htidy := h.2 (Progress.start_tidy place count)
      obtain ⟨rfl, rfl⟩ := htidy.nested (Nat.lt_of_succ_lt_succ hij) hinner houter
        (Int.ofNat_lt.mp hlt) (Int.ofNat_le.mp hstart) (Int.ofNat_le.mp hstop)
      rfl

end LineScope.Matcher
