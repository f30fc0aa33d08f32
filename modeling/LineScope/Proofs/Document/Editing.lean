import Mathlib.Control.Monad.Basic
import LineScope.Document
import LineScope.Proofs.Grammar.Tables
import LineScope.Proofs.Scan.Sequence

namespace LineScope.Document

variable {M : Type}

/-- Each line has the result of a scan of all lines from the initial stack, under limits that are
allowed. -/
def Current (allowed : Limits → Prop) (d : Document M) : Prop :=
  ∃ results, d.grammar.Scans allowed .initial d.lines results ∧ d.results = results.map some

/-- The documents for a grammar that one comes to by changes that all succeed. -/
inductive Reached (g : Grammar M) (limits : Limits) : Document M → Prop
  | opened (text : List Char) :
      ((empty g).setText limits text).outcome = .ok () →
        Reached g limits ((empty g).setText limits text).document
  | renewed {d : Document M} (text : List Char) :
      Reached g limits d → (d.setText limits text).outcome = .ok () →
        Reached g limits (d.setText limits text).document
  | edited {d : Document M} (start stop : Int) (new : List Text) {range : Nat × Nat} :
      Reached g limits d → (d.edit limits start stop new).outcome = .ok range →
        Reached g limits (d.edit limits start stop new).document

variable {allowed : Limits → Prop}

theorem setText_current {d : Document M} {limits : Limits} {text : List Char}
    (hallowed : allowed limits) (h : (d.setText limits text).outcome = .ok ()) :
    (d.setText limits text).document.grammar = d.grammar ∧
      Current allowed (d.setText limits text).document := by
  unfold setText at h ⊢
  generalize (Text.lines text).map List.toArray = lines at h ⊢
  rcases hfault : (d.grammar.tokenizeLines limits lines .initial).fault with _ | fault
  · simp only [hfault]
    have hscans := (d.grammar.scans_iff limits).mpr ⟨hfault, rfl⟩
    have hmono : ∀ other : Limits, other = limits → allowed other := by
      rintro _ rfl
      exact hallowed
    exact ⟨trivial, _, hscans.mono hmono, rfl⟩
  · simp [hfault] at h

/-- Tokenizing goes on until a line ends as before. From there on the old results are those of the
new stack too, as the two stacks are equal. -/
theorem catchUp_scans {g : Grammar M} {limits : Limits} {lines : List Text}
    {old : List (LineResult M)} {between stack : Stack M}
    {rest : Option (List (Option (LineResult M)))} (hallowed : allowed limits)
    (hold : g.Scans allowed between lines old)
    (h : (catchUp g limits lines (old.map some) stack).rest = .ok rest) :
    ∃ results, g.Scans allowed stack lines results ∧
      (catchUp g limits lines (old.map some) stack).results.map some ++ rest.getD [] =
        results.map some := by
  induction hold generalizing stack rest with
  | nil =>
      have hrest : rest = none := by simpa [catchUp] using h.symm
      subst hrest
      exact ⟨[], .nil, rfl⟩
  | @cons _ between line lines before old _ _ hbehind ih =>
      rcases hline : (g.tokenizeLine limits line stack).result with fault | r
      · simp [catchUp, hline] at h
      · by_cases hsame : before.stack.same r.stack = true
        · have hrest : rest = some (old.map some) := by
            simpa [catchUp, hline, hsame] using h.symm
          subst hrest
          refine ⟨r :: old, .cons hallowed hline (hbehind.congr hsame), ?_⟩
          simp [catchUp, hline, hsame]
        · have hmore : (catchUp g limits lines (old.map some) r.stack).rest = .ok rest := by
            simpa [catchUp, hline, hsame] using h
          obtain ⟨results, hscans, hresults⟩ := ih hmore
          refine ⟨r :: results, .cons hallowed hline hscans, ?_⟩
          simpa [catchUp, hline, hsame] using hresults

theorem startStack_spliced (d : Document M) (results : List (LineResult M)) {start : Int}
    (missing : List (Option (LineResult M))) (hstart : 0 ≤ start)
    (hlength : start.toNat ≤ results.length)
    (hresults : d.results = (results.map some).take start.toNat ++ missing) :
    d.startStack start = .ok (LineResult.lastStack .initial (results.take start.toNat)) := by
  obtain ⟨a, rfl⟩ := Int.eq_ofNat_of_zero_le hstart
  rcases a with _ | a
  · rfl
  · have hlast : a < results.length := Nat.lt_of_succ_le hlength
    have hat : atSigned? d.results ((a + 1 : Nat) - 1 : Int) = some (some results[a]) := by
      rw [hresults, atSigned?, if_neg (by omega),
        show ((a + 1 : Nat) - 1 : Int).toNat = a by omega,
        List.getElem?_append_left (by simp; omega)]
      simp [hlast]
    rw [startStack, if_pos (by omega), endStack, resultAt, hat, Int.toNat_natCast,
      List.take_add_one, List.getElem?_eq_getElem hlast, Option.toList_some,
      LineResult.lastStack_concat]
    rfl

theorem replace_of_ok {d : Document M} {limits : Limits} {a b : Nat} {new : List Text}
    {stack : Stack M} {range : Nat × Nat}
    (h : (d.replace limits a b new stack).outcome = .ok range) :
    ∃ fresh behind rest,
      d.grammar.Scans (· = limits) stack new fresh ∧
      catchUp d.grammar limits (d.lines.drop b) (d.results.drop b)
        (LineResult.lastStack stack fresh) = behind ∧
      behind.rest = .ok rest ∧
      range = (a, a + new.length + behind.results.length) ∧
      (d.replace limits a b new stack).document = {
        d with
        lines := d.lines.take a ++ new ++ d.lines.drop b
        results := d.results.take a ++ fresh.map some ++ behind.results.map some ++
          rest.getD [] } := by
  unfold replace at h ⊢
  rcases hfault : (d.grammar.tokenizeLines limits new stack).fault with _ | fault
  · simp only [hfault] at h ⊢
    rw [LinesRun.endStack_eq_lastStack] at h ⊢
    rcases hrest : (catchUp d.grammar limits (d.lines.drop b) (d.results.drop b)
      (LineResult.lastStack stack (d.grammar.tokenizeLines limits new stack).results)).rest
      with fault | rest
    · simp only [hrest, reduceCtorEq] at h
    · simp only [hrest, Except.ok.injEq] at h ⊢
      exact ⟨_, _, rest, (d.grammar.scans_iff limits).mpr ⟨hfault, rfl⟩, rfl, hrest, h.symm, rfl⟩
  · simp only [hfault, reduceCtorEq] at h

theorem replace_current {d : Document M} {limits : Limits} {results : List (LineResult M)}
    {a b : Nat} {new : List Text} {range : Nat × Nat}
    (hallowed : allowed limits) (hscans : d.grammar.Scans allowed .initial d.lines results)
    (hresults : d.results = results.map some)
    (h : (d.replace limits a b new
      (LineResult.lastStack .initial (results.take a))).outcome = .ok range) :
    (d.replace limits a b new
        (LineResult.lastStack .initial (results.take a))).document.grammar = d.grammar ∧
      Current allowed
        (d.replace limits a b new (LineResult.lastStack .initial (results.take a))).document := by
  obtain ⟨fresh, behind, rest, hfresh, hbehind, hrest, -, hdocument⟩ := replace_of_ok h
  obtain ⟨between, hold⟩ := hscans.drop b
  rw [hresults, ← List.map_drop] at hbehind
  obtain ⟨tail, htail, heq⟩ := catchUp_scans hallowed hold (hbehind ▸ hrest)
  rw [hdocument]
  refine ⟨rfl, results.take a ++ fresh ++ tail, ?_, ?_⟩
  · have hfresh := hfresh.mono fun _ hlimits => hlimits ▸ hallowed
    apply ((hscans.take a).append hfresh).append
    rw [LineResult.lastStack_append]
    exact htail
  · rw [hbehind] at heq
    simp only [hresults, List.map_append, List.map_take, List.append_assoc, ← heq]

theorem edit_eq_replace {d : Document M} {results : List (LineResult M)} {start stop : Int}
    (limits : Limits) (new : List Text) (hlength : d.lines.length = results.length)
    (hresults : d.results = results.map some)
    (hrange : ¬ (start < 0 ∨ stop < start ∨ d.lines.length < stop)) :
    d.edit limits start stop new = d.replace limits start.toNat stop.toNat new
      (LineResult.lastStack .initial (results.take start.toNat)) := by
  have hstack := startStack_spliced
    { d with
      lines := d.lines.take start.toNat ++ new ++ d.lines.drop stop.toNat
      results := d.results.take start.toNat ++ List.replicate new.length none }
    results (List.replicate new.length none) (Int.not_lt.mp (not_or.mp hrange).1)
    (by omega) (by rw [hresults])
  simp only [edit, if_neg hrange, hstack]

theorem edit_current {d : Document M} {limits : Limits} {start stop : Int} {new : List Text}
    {range : Nat × Nat} (hallowed : allowed limits) (hd : Current allowed d)
    (h : (d.edit limits start stop new).outcome = .ok range) :
    (d.edit limits start stop new).document.grammar = d.grammar ∧
      Current allowed (d.edit limits start stop new).document := by
  obtain ⟨results, hscans, hresults⟩ := hd
  by_cases hrange : start < 0 ∨ stop < start ∨ d.lines.length < stop
  · simp [edit, hrange] at h
  · rw [edit_eq_replace limits new hscans.length_eq hresults hrange] at h ⊢
    exact replace_current hallowed hscans hresults h

theorem Reached.current {g : Grammar M} {limits : Limits} {d : Document M}
    (h : Reached g limits d) : d.grammar = g ∧ Current (· = limits) d := by
  induction h with
  | opened text hok => exact setText_current rfl hok
  | renewed text _ hok ih =>
      exact And.imp_left (fun hgrammar => hgrammar.trans ih.1) (setText_current rfl hok)
  | edited start stop new _ hok ih =>
      exact And.imp_left (fun hgrammar => hgrammar.trans ih.1) (edit_current rfl ih.2 hok)

/-- After any changes that succeeded, every line has a result, and the results are those of the
whole text tokenized from its start. -/
theorem results_eq_full_scan {g : Grammar M} {limits : Limits} {d : Document M}
    (h : Reached g limits d) :
    d.lines.length = d.results.length ∧
      (g.tokenizeLines limits d.lines .initial).fault = none ∧
      d.results = (g.tokenizeLines limits d.lines .initial).results.map some := by
  obtain ⟨rfl, results, hscans, hresults⟩ := h.current
  obtain ⟨hfault, rfl⟩ := (d.grammar.scans_iff limits).mp hscans
  refine ⟨?_, hfault, hresults⟩
  rw [hresults, List.length_map, hscans.length_eq]

theorem results_eq_full_scan_sample :
    let opened := (empty Grammar.sample).setText .default "cat <b\nc\n cat <>d\ncat".toList
    let d := (opened.document.edit .default 1 2 [.ofString "x", .ofString "cat"]).document
    Reached Grammar.sample .default d ∧ d.lines.length = 5 ∧ d.results.length = 5 ∧
      d.results = (Grammar.sample.tokenizeLines .default d.lines .initial).results.map some := by
  intro opened d
  have hopened : opened.outcome = .ok () := by
    decide +kernel
  have hedited : (opened.document.edit .default 1 2 [.ofString "x", .ofString "cat"]).outcome =
      .ok (1, 4) := by
    decide +kernel
  have hd : Reached Grammar.sample .default d := .edited 1 2 _ (.opened _ hopened) hedited
  obtain ⟨hlength, -, hresults⟩ := results_eq_full_scan hd
  have hlines : d.lines.length = 5 := by
    decide +kernel
  exact ⟨hd, hlines, hlength ▸ hlines, hresults⟩

end LineScope.Document
