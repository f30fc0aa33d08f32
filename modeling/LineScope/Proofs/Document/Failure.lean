import LineScope.Proofs.Document.Editing
import LineScope.Proofs.Scan.Safety

/-!
Changes that fail. A change whose range is refused leaves the document as it is. A change that a
line stops has replaced the lines by then: the old text is lost, and the results are no longer
those of the lines.
-/

namespace LineScope.Document

variable {M : Type}

/-- The lines up to some place have the results of a scan from the initial stack, and the others
have none. -/
def Partial (d : Document M) : Prop :=
  ∃ front back results missing,
    d.lines = front ++ back ∧ d.grammar.Scans (fun _ => True) .initial front results ∧
      d.results = results.map some ++ List.replicate missing none

/-- The documents for a grammar that one comes to by any changes, whether they fail or not, once
there is a document. -/
inductive Operated (g : Grammar M) : Document M → Prop
  | opened (limits : Limits) (text : List Char) :
      ((empty g).setText limits text).outcome = .ok () →
        Operated g ((empty g).setText limits text).document
  | renewed {d : Document M} (limits : Limits) (text : List Char) :
      Operated g d → Operated g (d.setText limits text).document
  | edited {d : Document M} (limits : Limits) (start stop : Int) (new : List Text) :
      Operated g d → Operated g (d.edit limits start stop new).document

/-- The documents whose text was set without a fault, and that no line has stopped an edit of
since. -/
inductive Unbroken (g : Grammar M) : Document M → Prop
  | renewed {d : Document M} (limits : Limits) (text : List Char) :
      d.grammar = g → (d.setText limits text).outcome = .ok () →
        Unbroken g (d.setText limits text).document
  | edited {d : Document M} (limits : Limits) (start stop : Int) (new : List Text) :
      Unbroken g d → (∀ fault, (d.edit limits start stop new).outcome ≠ .error (.scan fault)) →
        Unbroken g (d.edit limits start stop new).document

variable {g : Grammar M} {d : Document M} {limits : Limits}

def LineFault (g : Grammar M) (limits : Limits) (fault : LineScope.Fault) : Prop :=
  ∃ line stack, (g.tokenizeLine limits line stack).result = .error fault

theorem setText_of_error {text : List Char} {fault : Fault}
    (h : (d.setText limits text).outcome = .error fault) :
    (d.setText limits text).document =
        { d with lines := (Text.lines text).map List.toArray } ∧
      ∃ cause, fault = .scan cause ∧ LineFault d.grammar limits cause := by
  unfold setText at h ⊢
  rcases hfault : (d.grammar.tokenizeLines limits ((Text.lines text).map List.toArray)
    .initial).fault with _ | cause
  · simp [hfault] at h
  · simp only [hfault] at h ⊢
    cases h
    obtain ⟨line, -, stack, hline⟩ := Grammar.exists_line_of_fault hfault
    exact ⟨trivial, cause, rfl, line, stack, hline⟩

theorem catchUp_scans_front (g : Grammar M) (limits : Limits) (lines : List Text)
    (old : List (Option (LineResult M))) (stack : Stack M) :
    let results := (catchUp g limits lines old stack).results
    g.Scans (· = limits) stack (lines.take results.length) results := by
  induction lines generalizing old stack with
  | nil => exact .nil
  | cons line lines ih =>
      simp only [catchUp]
      rcases hline : (g.tokenizeLine limits line stack).result with fault | r
      · exact .nil
      · rcases old with _ | ⟨_ | before, old⟩
        · exact .nil
        · exact .nil
        · by_cases hsame : before.stack.same r.stack = true
          · simp only [hsame, if_true]
            exact .cons rfl hline .nil
          · simp only [hsame, Bool.false_eq_true, if_false]
            exact .cons rfl hline (ih old r.stack)

theorem lineFault_of_catchUp {stack : Stack M} {lines : List Text}
    {old : List (LineResult M)} {fault : Fault}
    (hlength : lines.length = old.length)
    (h : (catchUp g limits lines (old.map some) stack).rest = .error fault) :
    ∃ cause, fault = .scan cause ∧ LineFault g limits cause := by
  induction lines generalizing old stack with
  | nil => cases h
  | cons line lines ih =>
      rcases old with _ | ⟨before, old⟩
      · cases hlength
      · rcases hline : (g.tokenizeLine limits line stack).result with cause | r
        · simp only [catchUp, hline] at h
          cases h
          exact ⟨cause, rfl, line, stack, hline⟩
        · by_cases hsame : before.stack.same r.stack = true
          · simp [catchUp, hline, hsame] at h
          · have hmore : (catchUp g limits lines (old.map some) r.stack).rest = .error fault := by
              simpa [catchUp, hline, hsame] using h
            exact ih (Nat.succ.inj hlength) hmore

theorem replace_of_error {old : List (LineResult M)} {a b : Nat} {new : List Text}
    {stack : Stack M} {fault : Fault} (hlength : (d.lines.drop b).length = old.length)
    (hold : d.results.drop b = old.map some)
    (h : (d.replace limits a b new stack).outcome = .error fault) :
    ∃ front back placed missing,
      new ++ d.lines.drop b = front ++ back ∧
      d.grammar.Scans (fun _ => True) stack front placed ∧
      (d.replace limits a b new stack).document = {
        d with
        lines := d.lines.take a ++ new ++ d.lines.drop b
        results := d.results.take a ++ placed.map some ++ List.replicate missing none } ∧
      ∃ cause, fault = .scan cause ∧ LineFault d.grammar limits cause := by
  unfold replace at h ⊢
  rcases hfault : (d.grammar.tokenizeLines limits new stack).fault with _ | cause
  · have hnew : d.grammar.Scans (fun _ => True) stack new _ :=
      ((d.grammar.scans_iff limits).mpr ⟨hfault, rfl⟩).mono fun _ _ => trivial
    simp only [hfault, LinesRun.endStack_eq_lastStack] at h ⊢
    generalize (d.grammar.tokenizeLines limits new stack).results = fresh at h hnew ⊢
    have hbehind := (catchUp_scans_front d.grammar limits (d.lines.drop b) (d.results.drop b)
      (LineResult.lastStack stack fresh)).mono fun _ _ => trivial
    rcases hcatchup : catchUp d.grammar limits (d.lines.drop b) (d.results.drop b)
      (LineResult.lastStack stack fresh) with ⟨caught, events, fault' | rest⟩
    · simp only [hcatchup] at h hbehind ⊢
      cases h
      refine ⟨_, (d.lines.drop b).drop caught.length, _, 0, ?_, hnew.append hbehind, ?_, ?_⟩
      · rw [List.append_assoc, List.take_append_drop]
      · simp only [List.map_append, List.append_assoc, List.replicate_zero, List.append_nil]
      · rw [hold] at hcatchup
        exact lineFault_of_catchUp hlength (by rw [hcatchup])
    · simp only [hcatchup, reduceCtorEq] at h
  · -- a new line fails: those behind it are not reached, and their places stay empty
    simp only [hfault] at h ⊢
    cases h
    have hnew := (d.grammar.tokenizeLines_scans limits new stack).mono fun _ _ => trivial
    generalize (d.grammar.tokenizeLines limits new stack).results = fresh at hnew
    obtain ⟨line, -, before, hline⟩ := Grammar.exists_line_of_fault hfault
    refine ⟨new.take fresh.length, new.drop fresh.length ++ d.lines.drop b, fresh,
      new.length - fresh.length, ?_, hnew, ?_, cause, rfl, line, before, hline⟩
    · rw [← List.append_assoc, List.take_append_drop]
    · rw [List.length_map]

theorem edit_of_error {start stop : Int} {new : List Text} {fault : Fault}
    (hd : d.Current fun _ => True)
    (h : (d.edit limits start stop new).outcome = .error fault) :
    ((d.edit limits start stop new).document = d ∧
        fault = .outside start stop d.lines.length) ∨
      ((d.edit limits start stop new).document.lines =
          d.lines.take start.toNat ++ new ++ d.lines.drop stop.toNat ∧
        (d.edit limits start stop new).document.Partial ∧
        ∃ cause, fault = .scan cause ∧ LineFault d.grammar limits cause) := by
  obtain ⟨results, hscans, hresults⟩ := hd
  by_cases hrange : start < 0 ∨ stop < start ∨ d.lines.length < stop
  · simp only [edit, hrange, if_true] at h ⊢
    cases h
    exact .inl ⟨trivial, rfl⟩
  · rw [edit_eq_replace limits new hscans.length_eq hresults hrange] at h ⊢
    have hlength : (d.lines.drop stop.toNat).length = (results.drop stop.toNat).length := by
      rw [List.length_drop, List.length_drop, hscans.length_eq]
    obtain ⟨front, back, placed, missing, hsplit, hfront, hdocument, hcause⟩ :=
      replace_of_error hlength (by rw [hresults, List.map_drop]) h
    have hkept := (hscans.take start.toNat).append hfront
    rw [hdocument]
    refine .inr ⟨rfl, ⟨_, back, _, missing, ?_, hkept, ?_⟩, hcause⟩
    · rw [List.append_assoc, hsplit, ← List.append_assoc]
    · rw [hresults, List.map_append, List.map_take]

theorem setText_grammar (d : Document M) (limits : Limits) (text : List Char) :
    (d.setText limits text).document.grammar = d.grammar := by
  simp only [setText]
  split <;> rfl

theorem edit_grammar (d : Document M) (limits : Limits) (start stop : Int) (new : List Text) :
    (d.edit limits start stop new).document.grammar = d.grammar := by
  simp only [edit]
  split
  · rfl
  · split
    · rfl
    · simp only [replace]
      split
      · rfl
      · split <;> rfl

theorem Operated.grammar_eq (h : Operated g d) : d.grammar = g := by
  induction h with
  | opened limits text _ => exact setText_grammar (empty g) limits text
  | renewed limits text _ ih => exact (setText_grammar _ limits text).trans ih
  | edited limits start stop new _ ih => exact (edit_grammar _ limits start stop new).trans ih

theorem Unbroken.current (h : Unbroken g d) : d.Current fun _ => True := by
  induction h with
  | renewed limits text _ hok => exact (setText_current trivial hok).2
  | @edited d limits start stop new _ hscan ih =>
      rcases houtcome : (d.edit limits start stop new).outcome with fault | range
      · rcases edit_of_error ih houtcome with ⟨hdocument, -⟩ | ⟨-, -, cause, rfl, -⟩
        · rw [hdocument]
          exact ih
        · exact absurd houtcome (hscan cause)
      · exact (edit_current trivial ih houtcome).2

theorem Operated.unbroken (hclear : ∀ limits cause, ¬ LineFault g limits cause)
    (h : Operated g d) : Unbroken g d := by
  induction h with
  | opened limits text hok => exact .renewed limits text rfl hok
  | @renewed d limits text hd ih =>
      rcases houtcome : (d.setText limits text).outcome with fault | _
      · obtain ⟨-, cause, -, hcause⟩ := setText_of_error houtcome
        exact absurd (hd.grammar_eq ▸ hcause) (hclear limits cause)
      · exact .renewed limits text hd.grammar_eq houtcome
  | @edited d limits start stop new hd ih =>
      refine .edited limits start stop new ih ?_
      intro fault houtcome
      rcases edit_of_error ih.current houtcome with ⟨-, hfault⟩ | ⟨-, -, cause, -, hcause⟩
      · cases hfault
      · exact absurd (hd.grammar_eq ▸ hcause) (hclear limits cause)

/-- As long as no line breaks a document, it has a result for each line, which belongs to the line;
a failing edit leaves it as it is, unless the end pattern of a region that a line opens cannot be
built. A failing text is there all the same, beside the old results. With end patterns that can be
built, nothing breaks the document, whatever the changes before, failing ones included. -/
theorem failing_change {e : Engine M} {document : Json}
    (compiled : Grammar.ofJson e document = .ok g) (bounded : e.InBounds) (limits : Limits)
    (hd : Operated g d) :
    (Unbroken g d →
      d.lines.length = d.results.length ∧ d.Current (fun _ => True) ∧
      ∀ start stop new fault, (d.edit limits start stop new).outcome = .error fault →
        (d.edit limits start stop new).document = d ∨
          (∃ cause, fault = .scan cause ∧ g.Unbuilt cause) ∧
            (d.edit limits start stop new).document.Partial) ∧
    (∀ text fault, (d.setText limits text).outcome = .error fault →
      (∃ cause, fault = .scan cause ∧ g.Unbuilt cause) ∧
        (d.setText limits text).document =
          { d with lines := (Text.lines text).map List.toArray }) ∧
    (e.Decides → (∀ source ∈ g.endSources, BackReference.Readable source) →
      Unbroken g d ∧
      (∀ text, (d.setText limits text).outcome = .ok ()) ∧
      ∀ start stop new fault, (d.edit limits start stop new).outcome = .error fault →
        (d.edit limits start stop new).document = d) := by
  have hgrammar := hd.grammar_eq
  have hunbuilt : ∀ limits cause, LineFault g limits cause → g.Unbuilt cause := by
    rintro limits cause ⟨line, stack, hline⟩
    exact Grammar.unbuilt_of_tokenizeLine compiled bounded hline
  refine ⟨?_, ?_, ?_⟩
  · intro hwhole
    have hcurrent := hwhole.current
    refine ⟨?_, hcurrent, ?_⟩
    · obtain ⟨results, hscans, hresults⟩ := hcurrent
      rw [hresults, List.length_map, hscans.length_eq]
    · intro start stop new fault houtcome
      rcases edit_of_error hcurrent houtcome with
        ⟨hdocument, -⟩ | ⟨-, hpartial, cause, hfault, hcause⟩
      · exact .inl hdocument
      · exact .inr ⟨⟨cause, hfault, hunbuilt _ _ (hgrammar ▸ hcause)⟩, hpartial⟩
  · intro text fault houtcome
    obtain ⟨hdocument, cause, hfault, hcause⟩ := setText_of_error houtcome
    exact ⟨⟨cause, hfault, hunbuilt _ _ (hgrammar ▸ hcause)⟩, hdocument⟩
  · intro decides readable
    obtain ⟨-, rfl⟩ := Grammar.ofJson_coherent compiled
    have hclear : ∀ limits cause, ¬ LineFault g limits cause := by
      intro limits cause hcause
      exact Grammar.not_unbuilt decides readable cause (hunbuilt limits cause hcause)
    have hwhole := hd.unbroken hclear
    refine ⟨hwhole, ?_, ?_⟩
    · intro text
      rcases houtcome : (d.setText limits text).outcome with fault | _
      · obtain ⟨-, cause, -, hcause⟩ := setText_of_error houtcome
        exact absurd (hgrammar ▸ hcause) (hclear limits cause)
      · rfl
    · intro start stop new fault houtcome
      rcases edit_of_error hwhole.current houtcome with ⟨hdocument, -⟩ | ⟨-, -, cause, -, hcause⟩
      · exact hdocument
      · exact absurd (hgrammar ▸ hcause) (hclear limits cause)

theorem failing_change_sample :
    let d := ((empty Grammar.sample).setText .default "cat <b\nc".toList).document
    (d.edit .default 1 4 []).outcome = .error (.outside 1 4 2) ∧
      (d.edit .default 1 4 []).document = d ∧ d.lines.length = d.results.length := by
  intro d
  have hopened : ((empty Grammar.sample).setText .default "cat <b\nc".toList).outcome = .ok () := by
    decide +kernel
  have hreadable : ∀ source ∈ Grammar.sample.endSources, BackReference.Readable source := by
    decide +kernel
  have hedited : (d.edit .default 1 4 []).outcome = .error (.outside 1 4 2) := by
    decide +kernel
  obtain ⟨hwhole, -, hclear⟩ := failing_change Grammar.ofJson_sample (Engine.plain_inBounds _ _)
    .default (.opened .default _ hopened)
  obtain ⟨hunbroken, -, hkept⟩ := hclear (Engine.plain_decides _ _) hreadable
  exact ⟨hedited, hkept _ _ _ _ hedited, (hwhole hunbroken).1⟩

end LineScope.Document

namespace LineScope.Grammar

def regionSource (ending : String) : Json := .obj [
  ("scopeName", .str "text"),
  ("patterns", .arr [.obj [("begin", .str "<"), ("end", .str ending)]])]

def boundRegion (ending : String) : RegionRule Matcher where
  id := 0
  beginSource := "<"
  opener := .plain #['<']
  endSource := ending
  closer := none
  scope := none
  contentScope := none
  beginCaptures := []
  endCaptures := []
  endLast := false

def boundGrammar (ending : String) : Grammar Matcher where
  scopeName := "text"
  name := none
  contexts := [⟨.root, [.region (boundRegion ending)]⟩, ⟨.inside 0, []⟩]
  rules := [.region (boundRegion ending)]
  engine := sampleEngine

theorem ofJson_regionSource {ending : String} (hoccurs : BackReference.occursIn ending = true)
    (hblank : BackReference.blank ending = "(?:)") :
    ofJson sampleEngine (regionSource ending) = .ok (boundGrammar ending) := by
  have hcloser : Draft.closer sampleEngine (.ofRule .root 0) ending = .ok none := by
    rw [Draft.closer, if_pos hoccurs, hblank]
    rfl
  have hregion : Draft.region sampleEngine (.ofRule .root 0) 0
      ⟨.str "<", .str ending, .null, .null, .null, .null, false⟩ = .ok (boundRegion ending) := by
    change ((Draft.closer sampleEngine (.ofRule .root 0) ending).bind fun closer =>
      .ok { boundRegion ending with closer }) = _
    rw [hcloser]
    rfl
  have hblueprint : Blueprint.ofJson (regionSource ending) = .ok ⟨"text", none, [⟨.root,
      [.region ⟨.str "<", .str ending, .null, .null, .null, .null, false⟩ (some [])]⟩]⟩ := by
    rfl
  have hdraft : Blueprint.draft sampleEngine ⟨"text", none, [⟨.root,
      [.region ⟨.str "<", .str ending, .null, .null, .null, .null, false⟩ (some [])]⟩]⟩ =
      .ok ([⟨.root, [.rule (.region (boundRegion ending))]⟩, ⟨.inside 0, []⟩],
        [.region (boundRegion ending)]) := by
    change Draft.contexts sampleEngine _ 2 _ = _
    simp [Draft.contexts, Draft.members, Draft.declaration, hregion, Draft.listed,
      Draft.addRegion, RegionRule.inner, boundRegion, pure, Except.pure, bind, Except.bind]
  rw [ofJson, hblueprint]
  change (Blueprint.draft sampleEngine _).bind _ = _
  rw [hdraft]
  rfl

theorem tokenizeLine_boundGrammar {ending : String} {tooLong : BackReference.TooLong}
    (hresolve : ∀ line groups, BackReference.resolve ending line groups = .error tooLong) :
    ((boundGrammar ending).tokenizeLine .default (.ofString "<") .initial).result =
      .error (.longReference tooLong.digits) := by
  have hcandidates : Scan.candidates (boundGrammar ending) .initial =
      .ok ⟨[.region (boundRegion ending)], none, false⟩ := by
    rfl
  have hchoose : Scan.choose sampleEngine (.ofString "<") 0
      ⟨[.region (boundRegion ending)], none, false⟩ =
      (some ⟨.rule (.region (boundRegion ending)), ⟨0, 1, [some ⟨0, 1⟩]⟩⟩, 1) := by
    rfl
  have hdepth : ((Scan.start (.initial : Stack Matcher)).stack.depth : Int) <
      Limits.default.depth := by
    decide
  obtain ⟨t, hstep⟩ := Scan.step_unbound (s := .start .initial) hcandidates hchoose hdepth rfl
    (hresolve _ _)
  change (Scan.lineRun (Scan.run (boundGrammar ending) (.ofString "<") .default 204
    (.start .initial))).result = _
  rw [Scan.run, hstep]
  rfl

end LineScope.Grammar

namespace LineScope.Document

/-- Neither the lines nor the results are kept. -/
theorem failing_change_loses :
    ∃ ending g d, ending = String.ofList ('\\' :: List.replicate 4301 '1') ∧
      Grammar.ofJson Grammar.sampleEngine (Grammar.regionSource ending) = .ok g ∧ Operated g d ∧
      Unbroken g d ∧ d.lines = [.ofString "a"] ∧ d.results.length = 1 ∧
      (d.setText .default "<\n".toList).outcome = .error (.scan (.longReference 4301)) ∧
      (d.setText .default "<\n".toList).document.lines = [.ofString "<", .ofString ""] ∧
      (d.setText .default "<\n".toList).document.results = d.results ∧
      (d.edit .default 0 1 [.ofString "<"]).outcome = .error (.scan (.longReference 4301)) ∧
      (d.edit .default 0 1 [.ofString "<"]).document.lines = [.ofString "<"] ∧
      (d.edit .default 0 1 [.ofString "<"]).document.results.map Option.isSome = [false] := by
  obtain ⟨ending, hending⟩ : ∃ ending, ending = String.ofList ('\\' :: List.replicate 4301 '1') :=
    ⟨_, rfl⟩
  have hpieces : BackReference.pieces ending = [.reference (List.replicate 4301 '1')] := by
    rw [hending]
    apply BackReference.pieces_reference
    · rw [Ne, List.replicate_eq_nil_iff]
      decide
    · intro d hd
      rw [List.eq_of_mem_replicate hd]
      decide
  have hoccurs : BackReference.occursIn ending = true := by
    rw [BackReference.occursIn, hpieces]
    rfl
  have hblank : BackReference.blank ending = "(?:)" := by
    rw [BackReference.blank, hpieces]
    rfl
  have hlong : Text.digitLimit < (List.replicate 4301 '1').length := by
    rw [List.length_replicate]
    decide
  have hline := Grammar.tokenizeLine_boundGrammar (BackReference.resolve_reference hpieces hlong)
  rw [List.length_replicate] at hline
  have hrun := fun rest =>
    Grammar.tokenizeLines_of_error (Grammar.boundGrammar ending) .default rest hline
  have hlines :
      (Text.lines "<\n".toList).map List.toArray = [Text.ofString "<", Text.ofString ""] := by
    rfl
  have hok :
      ((empty (Grammar.boundGrammar ending)).setText .default "a".toList).outcome = .ok () := by
    rfl
  obtain ⟨d, hd⟩ : ∃ d,
      d = ((empty (Grammar.boundGrammar ending)).setText .default "a".toList).document :=
    ⟨_, rfl⟩
  have hgrammar : d.grammar = Grammar.boundGrammar ending := by
    rw [hd, setText_grammar]
    rfl
  have hbefore : d.lines = [.ofString "a"] ∧ d.results.length = 1 := by
    rw [hd]
    exact ⟨rfl, rfl⟩
  have hedit : d.edit .default 0 1 [.ofString "<"] =
      d.replace .default 0 1 [.ofString "<"] .initial := by
    rw [hd]
    rfl
  refine ⟨ending, _, d, hending, Grammar.ofJson_regionSource hoccurs hblank,
    hd ▸ .opened .default "a".toList hok, hd ▸ .renewed _ _ rfl hok, hbefore.1, hbefore.2,
    ?_, ?_, ?_, ?_, ?_, ?_⟩
  · simp only [setText, hlines, hgrammar, hrun]
  · simp only [setText, hlines, hgrammar, hrun]
  · simp only [setText, hlines, hgrammar, hrun]
  · simp only [hedit, replace, hgrammar, hrun]
  · simp [hedit, replace, hgrammar, hrun, hbefore]
  · simp [hedit, replace, hgrammar, hrun, hbefore]

end LineScope.Document
