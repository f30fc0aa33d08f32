import Mathlib.Order.Bounds.Basic
import LineScope.Proofs.Document.Editing

/-!
The range of an edit: the lines that it reports are those that it tokenizes again, and they are as
few as its rule for stopping lets them be.
-/

namespace LineScope

variable {M : Type}

namespace Document

/-- A line has a new result that ends with the same stack as its old one. -/
def Agree (old : List (Option (LineResult M))) (new : List (LineResult M)) (j : Nat) : Prop :=
  ∃ before after, old[j]? = some (some before) ∧ new[j]? = some after ∧
    before.stack.same after.stack = true

theorem agree_zero {before after : LineResult M} {old : List (Option (LineResult M))}
    {new : List (LineResult M)} :
    Agree (some before :: old) (after :: new) 0 ↔ before.stack.same after.stack = true := by
  simp [Agree]

theorem agree_succ {before : Option (LineResult M)} {after : LineResult M}
    {old : List (Option (LineResult M))} {new : List (LineResult M)} {j : Nat} :
    Agree (before :: old) (after :: new) (j + 1) ↔ Agree old new j := by
  simp [Agree]

theorem not_agree_of_length_le {old : List (Option (LineResult M))} {new : List (LineResult M)}
    {j : Nat} (h : new.length ≤ j) : ¬ Agree old new j := by
  rintro ⟨before, after, -, hafter, -⟩
  rw [List.getElem?_eq_none h] at hafter
  cases hafter

/-- Where the tokenizing of lines that have results ends: with the first that agrees with its old
result, or with the last if none does. The others keep what they have. -/
def Stops (lines : List Text) (old : List (Option (LineResult M))) (new : List (LineResult M))
    (rest : Option (List (Option (LineResult M)))) : Prop :=
  (rest = none ∧ new.length = lines.length ∧ ∀ j, ¬ Agree old new j) ∨
    ∃ j, rest = some (old.drop (j + 1)) ∧ new.length = j + 1 ∧ j < lines.length ∧
      IsLeast {j | Agree old new j} j

theorem Stops.zero {line : Text} {lines : List Text} {before after : LineResult M}
    {old : List (Option (LineResult M))} (hsame : before.stack.same after.stack = true) :
    Stops (line :: lines) (some before :: old) [after] (some old) :=
  .inr ⟨0, rfl, rfl, Nat.succ_pos _, agree_zero.mpr hsame, fun j _ => Nat.zero_le j⟩

theorem Stops.succ {line : Text} {lines : List Text} {before after : LineResult M}
    {old : List (Option (LineResult M))} {new : List (LineResult M)}
    {rest : Option (List (Option (LineResult M)))}
    (hsame : ¬ before.stack.same after.stack = true) (h : Stops lines old new rest) :
    Stops (line :: lines) (some before :: old) (after :: new) rest := by
  have hfirst : ¬ Agree (some before :: old) (after :: new) 0 := by
    rwa [agree_zero]
  rcases h with ⟨hrest, hlength, hnone⟩ | ⟨j, hrest, hlength, hj, hleast, hlower⟩
  · refine .inl ⟨hrest, congrArg (· + 1) hlength, ?_⟩
    rintro (_ | i)
    · exact hfirst
    · rw [agree_succ]
      exact hnone i
  · refine .inr ⟨j + 1, hrest, congrArg (· + 1) hlength, Nat.succ_lt_succ hj,
      agree_succ.mpr hleast, ?_⟩
    rintro (_ | i) hi
    · exact absurd hi hfirst
    · exact Nat.succ_le_succ (hlower (agree_succ.mp hi))

theorem Stops.getElem?_append {lines : List Text} {old : List (Option (LineResult M))}
    {new : List (LineResult M)} {rest : Option (List (Option (LineResult M)))}
    (h : Stops lines old new rest) {i : Nat} (hi : new.length ≤ i) (hlines : i < lines.length) :
    (new.map some ++ rest.getD [])[i]? = old[i]? := by
  rcases h with ⟨-, hlength, -⟩ | ⟨j, rfl, hlength, -, -⟩
  · omega
  · rw [List.getElem?_append_right (by rwa [List.length_map]), List.length_map, hlength,
      Option.getD_some, List.getElem?_drop, Nat.add_sub_cancel' (by omega)]

theorem catchUp_of_ok {g : Grammar M} {limits : Limits} {lines : List Text}
    {old : List (Option (LineResult M))} {stack : Stack M}
    {rest : Option (List (Option (LineResult M)))}
    (h : (catchUp g limits lines old stack).rest = .ok rest) :
    let caught := catchUp g limits lines old stack
    g.tokenizeLines limits (lines.take caught.results.length) stack =
        ⟨caught.results, none, caught.events⟩ ∧
      Stops lines old caught.results rest := by
  induction lines generalizing old stack with
  | nil =>
      cases h
      exact ⟨rfl, .inl ⟨rfl, rfl, fun _ => not_agree_of_length_le (Nat.zero_le _)⟩⟩
  | cons line lines ih =>
      rcases hline : (g.tokenizeLine limits line stack).result with fault | r
      · simp [catchUp, hline] at h
      · rcases old with _ | ⟨_ | before, old⟩
        · simp [catchUp, hline] at h
        · simp [catchUp, hline] at h
        · by_cases hsame : before.stack.same r.stack = true
          · have hcaught : catchUp g limits (line :: lines) (some before :: old) stack =
                ⟨[r], (g.tokenizeLine limits line stack).events, .ok (some old)⟩ := by
              simp only [catchUp, hline, hsame, if_true]
            rw [hcaught] at h ⊢
            cases h
            refine ⟨?_, .zero hsame⟩
            simp only [List.length_singleton, List.take_succ_cons, List.take_zero,
              Grammar.tokenizeLines, Grammar.lineRuns, LinesRun.ofRuns, hline, List.append_nil]
          · have hcaught : catchUp g limits (line :: lines) (some before :: old) stack =
                ⟨r :: (catchUp g limits lines old r.stack).results,
                  (g.tokenizeLine limits line stack).events ++
                    (catchUp g limits lines old r.stack).events,
                  (catchUp g limits lines old r.stack).rest⟩ := by
              simp only [catchUp, hline, hsame, Bool.false_eq_true, if_false]
            rw [hcaught] at h ⊢
            obtain ⟨hrun, hstops⟩ := ih h
            refine ⟨?_, hstops.succ hsame⟩
            simp only [Grammar.tokenizeLines] at hrun ⊢
            simp only [List.length_cons, List.take_succ_cons, Grammar.lineRuns, hline,
              LinesRun.ofRuns, hrun]

variable {d edited : Document M} {limits : Limits}

theorem endStack_eq_ok_iff {i : Nat} {s : Stack M} :
    d.endStack i = .ok s ↔ ∃ r, d.results[i]? = some (some r) ∧ r.stack = s := by
  have hat : atSigned? d.results (i : Int) = d.results[i]? := by
    rw [atSigned?, if_neg (by omega), Int.toNat_natCast]
  rw [endStack, resultAt, hat]
  rcases d.results[i]? with _ | _ | r <;> simp [Except.map]

def EndsAlike (d edited : Document M) (i j : Nat) : Prop :=
  ∃ before after, d.endStack i = .ok before ∧ edited.endStack j = .ok after ∧
    before.same after = true

theorem endsAlike_iff {i j : Nat} :
    EndsAlike d edited i j ↔ ∃ before after, d.results[i]? = some (some before) ∧
      edited.results[j]? = some (some after) ∧ before.stack.same after.stack = true := by
  simp only [EndsAlike, endStack_eq_ok_iff]
  constructor
  · rintro ⟨_, _, ⟨before, hbefore, rfl⟩, ⟨after, hafter, rfl⟩, hsame⟩
    exact ⟨before, after, hbefore, hafter, hsame⟩
  · rintro ⟨before, after, hbefore, hafter, hsame⟩
    exact ⟨_, _, ⟨before, hbefore, rfl⟩, ⟨after, hafter, rfl⟩, hsame⟩

theorem endsAlike_iff_agree {kept rest : List (Option (LineResult M))}
    {caught : List (LineResult M)} {b j : Nat}
    (hresults : edited.results = kept ++ caught.map some ++ rest)
    (hj : j < caught.length ∨ rest = []) :
    EndsAlike d edited (b + j) (kept.length + j) ↔ Agree (d.results.drop b) caught j := by
  have hat : edited.results[kept.length + j]? = (caught.map some)[j]? := by
    rw [hresults, List.append_assoc, List.getElem?_append_right (Nat.le_add_right _ _),
      Nat.add_sub_cancel_left]
    rcases hj with hj | rfl
    · exact List.getElem?_append_left (by rwa [List.length_map])
    · rw [List.append_nil]
  rw [endsAlike_iff, Agree, hat]
  simp only [List.getElem?_drop, List.getElem?_map, Option.map_eq_some_iff, Option.some.injEq,
    exists_eq_right]

theorem Stops.length_eq {lines : List Text} {kept : List (Option (LineResult M))} {b : Nat}
    {caught : List (LineResult M)} {rest : Option (List (Option (LineResult M)))}
    (hresults : edited.results = kept ++ caught.map some ++ rest.getD [])
    (h : Stops lines (d.results.drop b) caught rest) :
    (∀ j, IsLeast {j | EndsAlike d edited (b + j) (kept.length + j)} j → caught.length = j + 1) ∧
      ((∀ j, ¬ EndsAlike d edited (b + j) (kept.length + j)) → caught.length = lines.length) := by
  rcases h with ⟨rfl, hlength, hnone⟩ | ⟨i, -, hlength, -, hfirst, hlower⟩
  · have hnone' : ∀ j, ¬ EndsAlike d edited (b + j) (kept.length + j) := by
      intro j
      rw [endsAlike_iff_agree hresults (.inr rfl)]
      exact hnone j
    exact ⟨fun j hleast => absurd hleast.1 (hnone' j), fun _ => hlength⟩
  · have hagree : ∀ j ≤ i,
        (EndsAlike d edited (b + j) (kept.length + j) ↔ Agree (d.results.drop b) caught j) :=
      fun j hj => endsAlike_iff_agree hresults (.inl (by omega))
    have halike := (hagree i (Nat.le_refl i)).mpr hfirst
    refine ⟨?_, fun hnone => absurd halike (hnone i)⟩
    intro j hleast
    have hj : j ≤ i := hleast.2 halike
    rw [hlength, Nat.le_antisymm hj (hlower ((hagree j hj).mp hleast.1))]

theorem edit_of_ok {start stop : Int} {new : List Text} {range : Nat × Nat}
    (h : (d.edit limits start stop new).outcome = .ok range) :
    ∃ a b : Nat, start = a ∧ stop = b ∧ a ≤ b ∧ b ≤ d.lines.length ∧ a ≤ d.results.length ∧
      ∃ stack, d.startStack start = .ok stack ∧
        d.edit limits start stop new = d.replace limits a b new stack := by
  by_cases hrange : start < 0 ∨ stop < start ∨ d.lines.length < stop
  · simp [edit, hrange] at h
  · obtain ⟨a, rfl⟩ : ∃ a : Nat, start = a := Int.eq_ofNat_of_zero_le (by omega)
    obtain ⟨b, rfl⟩ : ∃ b : Nat, stop = b := Int.eq_ofNat_of_zero_le (by omega)
    refine ⟨a, b, rfl, rfl, by omega, by omega, ?_⟩
    rw [edit, if_neg hrange] at h ⊢
    simp only [Int.toNat_natCast] at h ⊢
    generalize hspliced : ({
      d with
      lines := d.lines.take a ++ new ++ d.lines.drop b
      results := d.results.take a ++ List.replicate new.length none } : Document M) = spliced at h ⊢
    rcases hstack : spliced.startStack a with fault | stack
    · simp only [hstack, reduceCtorEq] at h
    · rcases a with _ | a
      · exact ⟨Nat.zero_le _, stack, hstack, rfl⟩
      · -- the line before has a result, so it is one of those kept
        have hcast : ((a + 1 : Nat) : Int) - 1 = (a : Nat) := by omega
        have hpos : (0 : Int) < (a + 1 : Nat) := by omega
        rw [startStack, if_pos hpos, hcast, endStack_eq_ok_iff] at hstack
        obtain ⟨r, hr, rfl⟩ := hstack
        rw [← hspliced, List.getElem?_append] at hr
        split at hr
        · rename_i hlt
          rw [List.length_take] at hlt
          rw [List.getElem?_take_of_lt (Nat.lt_succ_self a)] at hr
          refine ⟨by omega, r.stack, ?_, rfl⟩
          rw [startStack, if_pos hpos, hcast, endStack_eq_ok_iff]
          exact ⟨r, hr, rfl⟩
        · rw [List.getElem?_replicate] at hr
          split at hr <;> cases hr

theorem replace_eq_of_ok {a b : Nat} {new : List Text} {stack : Stack M} {range : Nat × Nat}
    (h : (d.replace limits a b new stack).outcome = .ok range) :
    ∃ (fresh caught : List (LineResult M)) (rest : Option (List (Option (LineResult M))))
        (events : List Event),
      d.grammar.tokenizeLines limits (new ++ (d.lines.drop b).take caught.length) stack =
        ⟨fresh ++ caught, none, events⟩ ∧
      new.length = fresh.length ∧ Stops (d.lines.drop b) (d.results.drop b) caught rest ∧
      d.replace limits a b new stack = ⟨{
        d with
        lines := d.lines.take a ++ new ++ d.lines.drop b
        results := d.results.take a ++ fresh.map some ++ caught.map some ++ rest.getD [] },
        .ok (a, a + new.length + caught.length),
        events ++ [.retokenized a ((a + new.length + caught.length : Nat) - 1)]⟩ := by
  unfold replace at h ⊢
  rcases hfault : (d.grammar.tokenizeLines limits new stack).fault with _ | fault
  · simp only [hfault] at h ⊢
    rw [LinesRun.endStack_eq_lastStack] at h ⊢
    rcases hrest : (catchUp d.grammar limits (d.lines.drop b) (d.results.drop b)
      (LineResult.lastStack stack (d.grammar.tokenizeLines limits new stack).results)).rest
      with fault | rest
    · simp only [hrest, reduceCtorEq] at h
    · obtain ⟨hcaught, hstops⟩ := catchUp_of_ok hrest
      refine ⟨_, _, rest, _, ?_, ?_, hstops, rfl⟩
      · rw [Grammar.tokenizeLines_append _ hfault, hcaught]
      · exact ((d.grammar.scans_iff limits).mpr ⟨hfault, rfl⟩).length_eq
  · simp only [hfault, reduceCtorEq] at h

theorem take_drop_append {α : Type} {front mid back : List α} {a : Nat}
    (h : front.length = a) (n : Nat) :
    ((front ++ mid ++ back).take (a + mid.length + n)).drop a = mid ++ back.take n := by
  subst h
  rw [List.append_assoc, Nat.add_assoc, List.take_length_add_append, List.drop_left,
    List.take_length_add_append]

/-- An edit within the lines replaces them, and reports the lines from the first replaced one up to
the first behind them that ends with the stack that it ended with before, or up to the last line if
there is none. Those lines are tokenized from the end of the line before, each once and none
besides; the results of all others are what they were. -/
theorem edit_range {start stop : Int} {new : List Text} {first reached : Nat}
    (h : (d.edit limits start stop new).outcome = .ok (first, reached)) :
    ∃ (a b : Nat) (edited : Document M) (stack : Stack M),
    (start = a ∧ stop = b ∧ a ≤ b ∧ b ≤ d.lines.length) ∧
    (d.edit limits start stop new).document = edited ∧
    edited.grammar = d.grammar ∧
    edited.lines = d.lines.take a ++ new ++ d.lines.drop b ∧
    first = a ∧
    (∀ j, IsLeast {j | EndsAlike d edited (b + j) (a + new.length + j)} j →
      reached = a + new.length + j + 1) ∧
    ((∀ j, ¬ EndsAlike d edited (b + j) (a + new.length + j)) → reached = edited.lines.length) ∧
    d.startStack start = .ok stack ∧
    (let run := d.grammar.tokenizeLines limits ((edited.lines.take reached).drop a) stack
     run.fault = none ∧ (edited.results.take reached).drop a = run.results.map some ∧
      a + run.results.length = reached ∧
      (d.edit limits start stop new).events = run.events ++ [.retokenized a (reached - 1)]) ∧
    edited.results.take a = d.results.take a ∧
    ∀ i, reached ≤ i → i < edited.lines.length →
      edited.results[i]? = d.results[b + (i - (a + new.length))]? := by
  obtain ⟨a, b, rfl, rfl, hab, hb, ha, stack, hstack, hreplace⟩ := edit_of_ok h
  rw [hreplace] at h
  obtain ⟨fresh, caught, rest, events, hrun, hfresh, hstops, heq⟩ := replace_eq_of_ok h
  rw [heq] at h hreplace
  rw [hreplace]
  obtain ⟨rfl, rfl⟩ : a = first ∧ a + new.length + caught.length = reached := by
    simpa only [Except.ok.injEq, Prod.mk.injEq] using h
  have hkept : (d.results.take a ++ fresh.map some).length = a + new.length := by
    rw [List.length_append, List.length_take, Nat.min_eq_left ha, List.length_map, hfresh]
  have hlines : (d.lines.take a).length = a := List.length_take_of_le (hab.trans hb)
  have hresults : (d.results.take a).length = a := List.length_take_of_le ha
  generalize hdocument : ({
    d with
    lines := d.lines.take a ++ new ++ d.lines.drop b
    results := d.results.take a ++ fresh.map some ++ caught.map some ++ rest.getD [] } :
      Document M) = edited
  have hedited : edited.results =
      d.results.take a ++ fresh.map some ++ caught.map some ++ rest.getD [] := by
    rw [← hdocument]
  have hall : edited.lines = d.lines.take a ++ new ++ d.lines.drop b := by
    rw [← hdocument]
  obtain ⟨hleast, hnone⟩ := hstops.length_eq hedited
  rw [hkept] at hleast hnone
  refine ⟨a, b, edited, stack, ⟨rfl, rfl, hab, hb⟩, rfl, ?_, hall, rfl, ?_, ?_, hstack, ?_, ?_, ?_⟩
  · rw [← hdocument]
  · intro j hj
    rw [hleast j hj]
    omega
  · intro hj
    rw [hnone hj, hall, List.length_append, List.length_append, hlines]
  · rw [hall, take_drop_append hlines, hrun]
    refine ⟨rfl, ?_, ?_, rfl⟩
    · have hmap : new.length = (fresh.map some).length := hfresh.trans (List.length_map some).symm
      rw [hedited, List.append_assoc, hmap, take_drop_append hresults]
      simp
    · rw [List.length_append, ← hfresh, Nat.add_assoc]
  · rw [hedited, List.append_assoc, List.append_assoc, List.take_left' hresults]
  · intro i hi hlt
    rw [hall, List.length_append, List.length_append, hlines, Nat.add_assoc] at hlt
    rw [hedited, List.append_assoc, List.getElem?_append_right (by omega), hkept,
      hstops.getElem?_append (by omega) (by omega), List.getElem?_drop]

theorem edit_range_sample :
    let d := ((empty Grammar.sample).setText .default "<<b\nc\n<>d\ncat".toList).document
    let change := d.edit .default 0 1 [.ofString "cat"]
    change.outcome = .ok (0, 3) ∧ change.document.lines.length = 4 ∧
      (∃ j, EndsAlike d change.document (1 + j) (0 + 1 + j)) ∧
      change.document.results[3]? = d.results[3]? := by
  intro d
  have hchange : (d.edit .default 0 1 [.ofString "cat"]).outcome = .ok (0, 3) := by
    decide +kernel
  have hlength : (d.edit .default 0 1 [.ofString "cat"]).document.lines.length = 4 := by
    decide +kernel
  clear_value d
  obtain ⟨a, b, edited, stack, ⟨ha, hb, -, -⟩, rfl, -, -, -, -, hnone, -, -, -, hback⟩ :=
    edit_range hchange
  obtain rfl : a = 0 := by
    omega
  obtain rfl : b = 1 := by
    omega
  refine ⟨hchange, hlength, ?_, hback 3 (Nat.le_refl 3) (by rw [hlength]; decide)⟩
  by_contra hnot
  have hreached := hnone (not_exists.mp hnot)
  omega

end Document

end LineScope
