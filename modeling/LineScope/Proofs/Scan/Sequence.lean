import LineScope.Proofs.Scan.Resumption

namespace LineScope

variable {M : Type}

/-- Every line is scanned to its result, the first from the given stack and each other one from the
stack that the line before ends with; the limits for each are some of those allowed. -/
inductive Grammar.Scans (g : Grammar M) (allowed : Limits → Prop) :
    Stack M → List Text → List (LineResult M) → Prop
  | nil {stack : Stack M} : Scans g allowed stack [] []
  | cons {limits : Limits} {stack : Stack M} {line : Text} {lines : List Text} {r : LineResult M}
      {results : List (LineResult M)} :
      allowed limits → (g.tokenizeLine limits line stack).result = .ok r →
        Scans g allowed r.stack lines results →
        Scans g allowed stack (line :: lines) (r :: results)

def LineResult.lastStack (start : Stack M) : List (LineResult M) → Stack M
  | [] => start
  | r :: rest => lastStack r.stack rest

theorem LineResult.lastStack_append (start : Stack M) (first second : List (LineResult M)) :
    lastStack start (first ++ second) = lastStack (lastStack start first) second := by
  induction first generalizing start with
  | nil => rfl
  | cons r rest ih => exact ih r.stack

theorem LineResult.lastStack_concat (start : Stack M) (results : List (LineResult M))
    (r : LineResult M) : lastStack start (results ++ [r]) = r.stack :=
  lastStack_append start results [r]

theorem LinesRun.endStack_eq_lastStack (run : LinesRun M) (start : Stack M) :
    run.endStack start = LineResult.lastStack start run.results := by
  rcases List.eq_nil_or_concat run.results with h | ⟨results, r, h⟩
  · simp only [endStack, h, List.getLast?_nil, LineResult.lastStack]
  · rw [List.concat_eq_append] at h
    simp only [endStack, h, List.getLast?_concat, LineResult.lastStack_concat]

namespace Grammar

theorem tokenizeLines_of_ok (g : Grammar M) (limits : Limits) {line : Text} (lines : List Text)
    {stack : Stack M} {r : LineResult M}
    (h : (g.tokenizeLine limits line stack).result = .ok r) :
    (g.tokenizeLines limits (line :: lines) stack).results =
        r :: (g.tokenizeLines limits lines r.stack).results ∧
      (g.tokenizeLines limits (line :: lines) stack).fault =
        (g.tokenizeLines limits lines r.stack).fault := by
  simp only [tokenizeLines, lineRuns, LinesRun.ofRuns, h, and_self]

theorem tokenizeLines_of_error (g : Grammar M) (limits : Limits) {line : Text} (lines : List Text)
    {stack : Stack M} {fault : Fault}
    (h : (g.tokenizeLine limits line stack).result = .error fault) :
    (g.tokenizeLines limits (line :: lines) stack).results = [] ∧
      (g.tokenizeLines limits (line :: lines) stack).fault = some fault := by
  simp only [tokenizeLines, lineRuns, LinesRun.ofRuns, h, and_self]

theorem tokenizeLines_append {g : Grammar M} {limits : Limits} {lines : List Text}
    {stack : Stack M} (more : List Text)
    (h : (g.tokenizeLines limits lines stack).fault = none) :
    let run := g.tokenizeLines limits lines stack
    let rest := g.tokenizeLines limits more (LineResult.lastStack stack run.results)
    g.tokenizeLines limits (lines ++ more) stack =
      ⟨run.results ++ rest.results, rest.fault, run.events ++ rest.events⟩ := by
  induction lines generalizing stack with
  | nil => rfl
  | cons line lines ih =>
      rcases hline : (g.tokenizeLine limits line stack).result with fault | r
      · rw [(tokenizeLines_of_error g limits lines hline).2] at h
        cases h
      · rw [(tokenizeLines_of_ok g limits lines hline).2] at h
        have hmore := ih h
        simp only [tokenizeLines] at hmore ⊢
        simp only [List.cons_append, lineRuns, hline, LinesRun.ofRuns, hmore,
          LineResult.lastStack, List.append_assoc]

/-- The relation holds of what a run without a fault gives, and of nothing else. -/
theorem scans_iff (g : Grammar M) (limits : Limits) {stack : Stack M} {lines : List Text}
    {results : List (LineResult M)} :
    g.Scans (· = limits) stack lines results ↔
      (g.tokenizeLines limits lines stack).fault = none ∧
        (g.tokenizeLines limits lines stack).results = results := by
  constructor
  · intro h
    induction h with
    | nil => exact ⟨rfl, rfl⟩
    | cons hallowed hline _ ih =>
        subst hallowed
        obtain ⟨hresults, hfault⟩ := tokenizeLines_of_ok g _ _ hline
        exact ⟨hfault.trans ih.1, by rw [hresults, ih.2]⟩
  · induction lines generalizing stack results with
    | nil =>
        rintro ⟨-, rfl⟩
        exact .nil
    | cons line lines ih =>
        rintro ⟨hfault, rfl⟩
        rcases hline : (g.tokenizeLine limits line stack).result with fault | r
        · rw [(tokenizeLines_of_error g limits lines hline).2] at hfault
          exact absurd hfault (by simp)
        · obtain ⟨hresults, hfault'⟩ := tokenizeLines_of_ok g limits lines hline
          rw [hresults]
          exact .cons rfl hline (ih ⟨hfault' ▸ hfault, rfl⟩)

/-- The lines before the one that fails are scanned all the same. -/
theorem tokenizeLines_scans (g : Grammar M) (limits : Limits) (lines : List Text)
    (stack : Stack M) :
    let results := (g.tokenizeLines limits lines stack).results
    g.Scans (· = limits) stack (lines.take results.length) results := by
  induction lines generalizing stack with
  | nil => exact .nil
  | cons line lines ih =>
      rcases hline : (g.tokenizeLine limits line stack).result with fault | r
      · rw [(tokenizeLines_of_error g limits lines hline).1]
        exact .nil
      · rw [(tokenizeLines_of_ok g limits lines hline).1]
        exact .cons rfl hline (ih r.stack)

theorem exists_line_of_fault {g : Grammar M} {limits : Limits} {lines : List Text}
    {stack : Stack M} {fault : Fault}
    (h : (g.tokenizeLines limits lines stack).fault = some fault) :
    ∃ line ∈ lines, ∃ stack, (g.tokenizeLine limits line stack).result = .error fault := by
  induction lines generalizing stack with
  | nil => cases h
  | cons line lines ih =>
      rcases hline : (g.tokenizeLine limits line stack).result with fault' | r
      · rw [(tokenizeLines_of_error g limits lines hline).2] at h
        cases h
        exact ⟨line, List.mem_cons_self, stack, hline⟩
      · rw [(tokenizeLines_of_ok g limits lines hline).2] at h
        obtain ⟨line', hmem, hfault⟩ := ih h
        exact ⟨line', List.mem_cons_of_mem _ hmem, hfault⟩

namespace Scans

variable {g : Grammar M} {allowed : Limits → Prop} {stack : Stack M} {lines lines' : List Text}
  {results results' : List (LineResult M)}

theorem length_eq (h : g.Scans allowed stack lines results) : lines.length = results.length := by
  induction h with
  | nil => rfl
  | cons _ _ _ ih => simp [ih]

theorem append (h : g.Scans allowed stack lines results)
    (h' : g.Scans allowed (LineResult.lastStack stack results) lines' results') :
    g.Scans allowed stack (lines ++ lines') (results ++ results') := by
  induction h with
  | nil => exact h'
  | cons hallowed hline _ ih => exact .cons hallowed hline (ih h')

theorem take (h : g.Scans allowed stack lines results) (n : Nat) :
    g.Scans allowed stack (lines.take n) (results.take n) := by
  induction h generalizing n with
  | nil => simpa using Scans.nil
  | cons hallowed hline _ ih =>
      rcases n with _ | n
      · exact .nil
      · exact .cons hallowed hline (ih n)

theorem drop (h : g.Scans allowed stack lines results) (n : Nat) :
    ∃ between, g.Scans allowed between (lines.drop n) (results.drop n) := by
  induction h generalizing n with
  | nil => exact ⟨stack, by simpa using Scans.nil⟩
  | cons hallowed hline hrest ih =>
      rcases n with _ | n
      · exact ⟨_, .cons hallowed hline hrest⟩
      · exact ih n

theorem congr {stack' : Stack M} (hsame : stack.same stack' = true)
    (h : g.Scans allowed stack lines results) : g.Scans allowed stack' lines results := by
  cases h with
  | nil => exact .nil
  | cons hallowed hline hrest =>
      exact .cons hallowed (g.tokenizeLine_congr _ _ hsame ▸ hline) hrest

theorem mono {allowed' : Limits → Prop} (hallowed : ∀ limits, allowed limits → allowed' limits)
    (h : g.Scans allowed stack lines results) : g.Scans allowed' stack lines results := by
  induction h with
  | nil => exact .nil
  | cons hlimits hline _ ih => exact .cons (hallowed _ hlimits) hline ih

end Scans

end Grammar

end LineScope
