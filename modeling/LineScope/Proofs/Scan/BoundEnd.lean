import LineScope.Proofs.Pattern.Literal
import LineScope.Proofs.Scan.Acceptance
import LineScope.Proofs.Scan.Selection
import LineScope.Proofs.Scan.Sequence

/-!
Regions that end at a line which repeats what the begin match captured. Such a region stays open
over every other line, whatever characters the captured text is made of, and the first line that is
the text closes it.
-/

namespace LineScope

def Token.whole (line : Text) (scopes : ScopePath) : List Token :=
  if line.size = 0 then [] else [⟨0, line.size, scopes⟩]

theorem Capture.project_nil {start stop : Int} (h : start < stop) (groups : List (Option Span))
    (base : ScopePath) : project start stop groups [] base = [⟨start, stop, base⟩] := by
  simp [project, cuts, insertCut, pieces, scopesOf, Token.merge, Token.consMerged, h]

variable {M : Type} {g : Grammar M} {line : Text} {limits : Limits}

namespace Scan

variable {s : Scan M}

theorem passTo_stack (s : Scan M) (g : Grammar M) (stop : Int) :
    (s.passTo g stop).stack = s.stack := emit_stack ..

theorem passTo_tokens (line : Text) (hcursor : s.cursor = 0) (htokens : s.tokens = []) :
    (s.passTo g line.size).tokens.reverse = Token.whole line (s.stack.scopes g.scopeName) := by
  rcases Nat.eq_zero_or_pos line.size with hsize | hsize
  · simp [passTo, emit, Token.whole, hcursor, htokens, hsize]
  · have hne : line.size ≠ 0 := Nat.ne_of_gt hsize
    have hlt : ¬ (line.size : Int) ≤ 0 := by omega
    simp [passTo, emit, addToken, Token.whole, hcursor, htokens, hne]

theorem passTo_eq_self (hcursor : s.cursor = line.size) : s.passTo g line.size = s := by
  rcases s with ⟨cursor, stack, tokens, seen, tally, events⟩
  have hcursor : cursor = line.size := hcursor
  subst hcursor
  simp [passTo, emit]

theorem cover_tokens (line : Text) (htokens : s.tokens = []) (groups : List (Option Span))
    (scopes : ScopePath) :
    (s.cover ⟨0, line.size, groups⟩ [] scopes).tokens.reverse = Token.whole line scopes := by
  rcases Nat.eq_zero_or_pos line.size with hsize | hsize
  · simp [cover, emitAll, Capture.project, Token.whole, htokens, hsize]
  · have hlt : (0 : Int) < line.size := by omega
    have hne : line.size ≠ 0 := Nat.ne_of_gt hsize
    simp [cover, emitAll, Capture.project_nil hlt, emit, addToken, Token.whole, htokens, hne]

theorem candidates_initial {c : Context M} (hc : g.context? ContextName.root.text = some c) :
    candidates g .initial = .ok ⟨c.rules, none, false⟩ := by
  simp only [candidates, Stack.initial, Stack.top?, List.head?_nil, hc]

theorem step_idle {c : Context M} (limits : Limits)
    (hc : g.context? ContextName.root.text = some c) (hstack : s.stack = .initial)
    (hnone : ∀ rule ∈ c.rules, g.engine.search rule.matcher line s.cursor = none) :
    ∃ probes, step g line limits s = .finished ((s.counted probes).passTo g line.size) := by
  have hcandidates := hstack ▸ candidates_initial hc
  rcases hchoose : choose g.engine line s.cursor ⟨c.rules, none, false⟩ with ⟨found?, probes⟩
  rcases found? with _ | found
  · exact ⟨probes, by rw [step_eq hcandidates, hchoose]⟩
  · have hoffers := choose_offers (congrArg Prod.fst hchoose)
    cases hoffers with
    | closer hcloser => cases hcloser
    | rule hr hsearch =>
        rw [hnone _ hr] at hsearch
        cases hsearch

theorem choose_only {c : Context M} {r : RegionRule M} {hit : Match} {cursor : Int} {e : Engine M}
    (hlisted : .region r ∈ c.rules) (honly : ∀ rule ∈ c.rules, rule = .region r)
    (ahead : ∀ m hit, e.search m line cursor = some hit → cursor ≤ hit.start)
    (hsearch : e.search r.opener line cursor = some hit) :
    (choose e line cursor ⟨c.rules, none, false⟩).1 = some ⟨.rule (.region r), hit⟩ := by
  rcases hchoose : (choose e line cursor ⟨c.rules, none, false⟩).1 with _ | found
  · rw [choose_eq ahead, foldl_pick_eq_none_iff] at hchoose
    have hmem : (⟨.rule (.region r), hit⟩ : Found M) ∈
        hits e line cursor (Candidates.mk c.rules none false).ranked := by
      refine List.mem_filterMap.mpr ⟨(.rule (.region r), r.opener), ?_, ?_⟩
      · exact List.mem_map.mpr ⟨.region r, hlisted, rfl⟩
      · exact Option.map_eq_some_iff.mpr ⟨hit, hsearch, rfl⟩
    rw [hchoose.2] at hmem
    cases hmem
  · cases choose_offers hchoose with
    | closer hcloser => cases hcloser
    | rule hr hfound =>
        rw [honly _ hr] at hfound ⊢
        have hfound : e.search r.opener line cursor = some _ := hfound
        rw [hsearch] at hfound
        cases hfound
        rfl

theorem openRegion_bound {r : RegionRule M} {hit : Match} {endSource : String} {m : M}
    (hdepth : s.stack.depth < limits.depth) (hcloser : r.closer = none)
    (hresolve : BackReference.resolve r.endSource line hit.groups = .ok endSource)
    (hcompile : g.engine.compile endSource = .ok m) :
    s.openRegion g line limits r hit = .ok
      { s.cover hit r.beginCaptures ((s.stack.scopes g.scopeName).extend r.scope) with
        stack := s.stack.push
          (frameFor r ((s.stack.scopes g.scopeName).extend r.scope) endSource m) } := by
  simp only [openRegion, cover_stack, if_neg (Int.not_le.mpr hdepth), hcloser, bindEnd, hresolve,
    hcompile]

theorem step_opened {c : Context M} {r : RegionRule M} {hit : Match} {endSource : String} {m : M}
    (hc : g.context? ContextName.root.text = some c) (hlisted : .region r ∈ c.rules)
    (honly : ∀ rule ∈ c.rules, rule = .region r)
    (ahead : ∀ m hit, g.engine.search m line s.cursor = some hit → s.cursor ≤ hit.start)
    (hstack : s.stack = .initial) (hsearch : g.engine.search r.opener line s.cursor = some hit)
    (hmoves : s.cursor < hit.stop) (hdepth : 1 ≤ limits.depth) (hcloser : r.closer = none)
    (hresolve : BackReference.resolve r.endSource line hit.groups = .ok endSource)
    (hcompile : g.engine.compile endSource = .ok m) :
    ∃ t, step g line limits s = .going t ∧
      t.stack = [frameFor r (ScopePath.extend [g.scopeName] r.scope) endSource m] ∧
      t.cursor = hit.stop := by
  have hcandidates := hstack ▸ candidates_initial hc
  have hchosen := choose_only hlisted honly ahead hsearch
  rcases hchoose : choose g.engine line s.cursor ⟨c.rules, none, false⟩ with ⟨found?, probes⟩
  rw [hchoose] at hchosen
  have hchosen : found? = some ⟨.rule (.region r), hit⟩ := hchosen
  subst hchosen
  have hreached : ((s.counted probes).reach g hit.start).stack = .initial := by
    rw [reach_stack, counted_stack, hstack]
  have hroom : (((s.counted probes).reach g hit.start).stack.depth : Int) < limits.depth := by
    rw [hreached]
    exact hdepth
  have hopen := openRegion_bound (g := g) hroom hcloser hresolve hcompile
  rw [hreached] at hopen
  obtain ⟨t, happly, hframe, hcursor⟩ : ∃ t,
      (s.counted probes).apply g line limits ⟨.rule (.region r), hit⟩ = .ok t ∧
        t.stack = [frameFor r (ScopePath.extend [g.scopeName] r.scope) endSource m] ∧
        t.cursor = hit.stop := ⟨_, hopen, rfl, rfl⟩
  have hmoved : s.cursor < t.cursor := by
    rw [hcursor]
    exact hmoves
  rw [step_eq hcandidates, hchoose]
  simp only [happly, if_pos hmoved]
  exact ⟨_, rfl, hframe, hcursor⟩

theorem guard_closer (hseen : s.seen = []) :
    ∃ seen, s.guard g line .closer = .going { s with seen := seen } :=
  ⟨[s.state], by simp [guard, Winner.isLeaf, hseen]⟩

/-- The frame of a region that holds no rules, with the matcher for its end. -/
structure Bare (g : Grammar M) (f : Frame M) (r : RegionRule M) (closer : M) : Prop where
  region : g.region? f.rule = some r
  inside : ∃ c, g.context? f.context = some c ∧ c.rules = []
  closer : f.closer = some closer

namespace Bare

variable {f : Frame M} {r : RegionRule M} {closer : M} {outer : Stack M}

theorem candidates_eq (h : Bare g f r closer) (outer : Stack M) :
    candidates g (f :: outer) = .ok ⟨[], some closer, r.endLast⟩ := by
  obtain ⟨c, hc, hrules⟩ := h.inside
  have hrule := Grammar.rule?_of_region? h.region
  simp only [candidates, Stack.top?, List.head?_cons, hc, hrule, hrules, h.closer]

theorem choose_eq (e : Engine M) (line : Text) (cursor : Int) (closer : M) (endLast : Bool) :
    choose e line cursor ⟨[], some closer, endLast⟩ =
      ((e.search closer line cursor).map (⟨.closer, ·⟩), 1) := by
  rcases hsearch : e.search closer line cursor with _ | hit
  · cases endLast <;> simp [choose, findRule, hsearch]
  · cases endLast <;> simp [choose, findRule, hsearch, better]

theorem step_kept (h : Bare g f r closer) (limits : Limits) (hstack : s.stack = f :: outer)
    (hsearch : g.engine.search closer line s.cursor = none) :
    step g line limits s = .finished ((s.counted 1).passTo g line.size) := by
  have hcandidates := hstack ▸ h.candidates_eq outer
  rw [step_eq hcandidates, choose_eq, hsearch]
  rfl

/-- The end is applied at the cursor. Whether the match has characters or not, the scan goes on. -/
theorem step_closed {hit : Match} (h : Bare g f r closer) (limits : Limits)
    (hstack : s.stack = f :: outer) (hseen : s.seen = [])
    (hsearch : g.engine.search closer line s.cursor = some hit)
    (hstart : s.cursor = hit.start) :
    ∃ seen, step g line limits s = .going
      { (s.counted 1).cover hit r.endCaptures f.nameScopes with stack := outer, seen := seen } := by
  have hcandidates := hstack ▸ h.candidates_eq outer
  have hrule := Grammar.rule?_of_region? h.region
  have happly : (s.counted 1).apply g line limits ⟨.closer, hit⟩ =
      .ok { (s.counted 1).cover hit r.endCaptures f.nameScopes with stack := outer } := by
    have hreach : ¬ (s.counted 1).cursor < hit.start := by
      rw [counted_cursor, hstart]
      exact Int.lt_irrefl _
    have htop : s.stack.top? = some f := by rw [hstack]; rfl
    have hpop : s.stack.pop = outer := by rw [hstack]; rfl
    simp only [apply, if_neg hreach, closeRegion, counted_stack, htop, hrule, hpop]
  rw [step_eq hcandidates, choose_eq, hsearch]
  simp only [Option.map_some, happly]
  split
  · exact ⟨[], rfl⟩
  · have hfresh : ((s.counted 1).cover hit r.endCaptures f.nameScopes).seen = [] := by
      rw [cover_seen, counted_seen, hseen]
    exact guard_closer (s := { (s.counted 1).cover hit r.endCaptures f.nameScopes with
      stack := outer }) hfresh

end Bare

/-- The end of a region that opens is looked for in the rest of the line. -/
theorem tokenizeLine_opened {c : Context M} {r : RegionRule M} {hit : Match} {endSource : String}
    {m : M} (hc : g.context? ContextName.root.text = some c) (hlisted : .region r ∈ c.rules)
    (honly : ∀ rule ∈ c.rules, rule = .region r) (bounded : g.engine.InBounds)
    (hbegin : g.engine.search r.opener line 0 = some hit) (hstop : 0 < hit.stop)
    (hdepth : 1 ≤ limits.depth) (hlength : limits.length = none) (hcloser : r.closer = none)
    (hresolve : BackReference.resolve r.endSource line hit.groups = .ok endSource)
    (hcompile : g.engine.compile endSource = .ok m)
    (hbare : Bare g (frameFor r (ScopePath.extend [g.scopeName] r.scope) endSource m) r m)
    (hrest : g.engine.search m line hit.stop = none) :
    ∃ tokens, (g.tokenizeLine limits line .initial).result =
      .ok ⟨tokens, [frameFor r (ScopePath.extend [g.scopeName] r.scope) endSource m]⟩ := by
  have hresume : resume g .initial = .ok (start .initial) := rfl
  have ahead : ∀ m hit, g.engine.search m line 0 = some hit → 0 ≤ hit.start :=
    fun m hit h => (bounded m line 0 hit (Int.le_refl 0) (Int.natCast_nonneg _) h).1
  obtain ⟨t, hopened, hstack, hcursor⟩ := step_opened (s := start .initial) hc hlisted
    honly ahead rfl hbegin hstop hdepth hcloser hresolve hcompile
  have hkept := hbare.step_kept limits hstack (hcursor ▸ hrest)
  have hresult := tokenizeLine_of_ends hresume hlength (.going hopened (.finished hkept)) (by omega)
  rw [passTo_stack, counted_stack, hstack] at hresult
  exact ⟨_, hresult⟩

namespace Bare

variable {f : Frame M} {r : RegionRule M} {closer : M}

theorem tokenizeLine_kept (h : Bare g f r closer) (accepted : Stack.Accepted g [f])
    (hlength : limits.length = none) (hsearch : g.engine.search closer line 0 = none) :
    (g.tokenizeLine limits line [f]).result = .ok ⟨Token.whole line f.scopes, [f]⟩ := by
  have hkept := h.step_kept (s := start [f]) limits rfl hsearch
  have htokens := passTo_tokens (g := g) (s := (start [f]).counted 1) line rfl rfl
  rw [tokenizeLine_of_ends accepted.resume_eq hlength (.finished hkept) (by omega), htokens,
    passTo_stack]
  rfl

theorem tokenizeLine_closed {c : Context M} {groups : List (Option Span)} (h : Bare g f r closer)
    (accepted : Stack.Accepted g [f]) (hlength : limits.length = none)
    (hcaptures : r.endCaptures = [])
    (hsearch : g.engine.search closer line 0 = some ⟨0, line.size, groups⟩)
    (hc : g.context? ContextName.root.text = some c)
    (hnone : ∀ rule ∈ c.rules, g.engine.search rule.matcher line line.size = none) :
    (g.tokenizeLine limits line [f]).result =
      .ok ⟨Token.whole line f.nameScopes, .initial⟩ := by
  obtain ⟨seen, hclosed⟩ := h.step_closed (s := start [f]) limits rfl rfl hsearch rfl
  rw [hcaptures] at hclosed
  obtain ⟨probes, hidle⟩ := step_idle limits
    (s := { ((start [f]).counted 1).cover ⟨0, line.size, groups⟩ [] f.nameScopes with
      stack := .initial, seen := seen }) hc rfl hnone
  have hresult := tokenizeLine_of_ends accepted.resume_eq hlength
    (.going hclosed (.finished hidle)) (by omega)
  rw [hresult, passTo_eq_self rfl]
  have htokens := cover_tokens (s := (start [f]).counted 1) line rfl groups f.nameScopes
  exact congrArg (fun tokens => Except.ok (LineResult.mk tokens .initial)) htokens

end Bare

end Scan

namespace BackReference

theorem resolve_repeat {line : Text} {groups : List (Option Span)} {span : Span}
    (hgroup : groups[1]? = some (some span)) :
    resolve "^\\1$" line groups = .ok (String.ofList
      ('^' :: (escape (line.slice span.start span.stop).toList ++ ['$']))) := by
  have hpieces : pieces "^\\1$" = [.char '^', .reference ['1'], .char '$'] := by decide +kernel
  have hvalue : Text.digitsValue ['1'] = 1 := by decide +kernel
  have htext : Piece.resolved line groups (.reference ['1']) =
      .ok (escape (line.slice span.start span.stop).toList) := by
    have hshort : ¬ Text.digitLimit < ['1'].length := by decide
    simp only [Piece.resolved, if_neg hshort, hvalue, groupText, hgroup]
  have hchars : resolvedChars line groups [.char '^', .reference ['1'], .char '$'] =
      .ok ('^' :: (escape (line.slice span.start span.stop).toList ++ ['$'])) := by
    simp only [resolvedChars, htext]
    rfl
  rw [resolve, hpieces, hchars]
  rfl

end BackReference

theorem Engine.compile_exactly (cs : List Char) :
    Engine.pattern.compile (String.ofList ('^' :: (BackReference.escape cs ++ ['$']))) =
      .ok (.pattern (Pattern.exactly cs)) := by
  simp only [Engine.pattern, Matcher.ofPattern, String.toList_ofList, Pattern.ofChars_exactly]

namespace Grammar

/-- A grammar whose one rule is for regions that end at a line that is the text of the first group
of the begin match. Begin matches have characters, and nothing applies inside. -/
structure EndsAtRepeat (g : Grammar Matcher) (r : RegionRule Matcher) : Prop where
  rules : g.rules = [.region r]
  listed : ∃ c, g.context? ContextName.root.text = some c ∧ .region r ∈ c.rules
  inside : ∀ c, g.context? r.inner.text = some c → c.rules = []
  endSource : r.endSource = "^\\1$"
  contentScope : r.contentScope = none
  endCaptures : r.endCaptures = []
  begins : ∀ text start hit, r.opener.search text start = some hit → hit.start < hit.stop

def frameUntil (g : Grammar Matcher) (r : RegionRule Matcher) (text : Text) : Frame Matcher :=
  Scan.frameFor r (ScopePath.extend [g.scopeName] r.scope)
    (String.ofList ('^' :: (BackReference.escape text.toList ++ ['$'])))
    (.pattern (Pattern.exactly text.toList))

namespace EndsAtRepeat

variable {g : Grammar Matcher} {r : RegionRule Matcher} {limits : Limits} {line : Text}

theorem closer_eq_none (h : g.EndsAtRepeat r) (coherent : g.Coherent) : r.closer = none := by
  have hcompiled := coherent.compiled r (h.rules ▸ List.mem_singleton_self _)
  have hoccurs : BackReference.occursIn "^\\1$" = true := by decide +kernel
  unfold RegionRule.EndCompiled at hcompiled
  split at hcompiled
  · rw [h.endSource, hoccurs] at hcompiled
    cases hcompiled.1
  · assumption

theorem frameUntil_scopes (h : g.EndsAtRepeat r) (text : Text) :
    (g.frameUntil r text).scopes = ScopePath.extend [g.scopeName] r.scope := by
  simp [frameUntil, Scan.frameFor, h.contentScope]

theorem region?_eq (h : g.EndsAtRepeat r) (coherent : g.Coherent) :
    g.region? r.id = some r := by
  obtain ⟨c, hc, hlisted⟩ := h.listed
  exact coherent.region?_id hc hlisted

theorem eq_of_mem (h : g.EndsAtRepeat r) (coherent : g.Coherent) {name : String}
    {c : Context Matcher} (hc : g.context? name = some c) :
    ∀ rule ∈ c.rules, rule = .region r := by
  intro rule hrule
  have hmem := coherent.listed c (List.mem_of_find?_eq_some hc) rule hrule
  rw [h.rules] at hmem
  exact List.mem_singleton.mp hmem

theorem bare (h : g.EndsAtRepeat r) (coherent : g.Coherent) (text : Text) :
    Scan.Bare g (g.frameUntil r text) r (.pattern (Pattern.exactly text.toList)) := by
  refine ⟨h.region?_eq coherent, ?_, rfl⟩
  have hinner : (g.context? r.inner.text).isSome :=
    Coherent.context?_isSome (coherent.inner r (region?_mem (h.region?_eq coherent)))
  obtain ⟨c, hc⟩ := Option.isSome_iff_exists.mp hinner
  exact ⟨c, hc, h.inside c hc⟩

theorem accepted (h : g.EndsAtRepeat r) (coherent : g.Coherent) (hengine : g.engine = .pattern)
    (text : Text) : Stack.Accepted g [g.frameUntil r text] := by
  have hcompile := hengine ▸ Engine.compile_exactly text.toList
  have hroot : (ScopePath.extend [g.scopeName] r.scope).head? = some g.scopeName :=
    ScopePath.head?_of_prefix (ScopePath.prefix_extend ..) rfl
  refine List.forall_mem_singleton.mpr ?_
  exact Stack.resumeFrame_frameFor coherent (h.region?_eq coherent)
    (Stack.closerFor_bound (h.region?_eq coherent) (h.closer_eq_none coherent) hcompile _) hroot

/-- The begin match is behind the start of the line when the region is open, so that its own line
does not close it. -/
theorem tokenizeLine_opened (h : g.EndsAtRepeat r) (coherent : g.Coherent)
    (hengine : g.engine = .pattern) (hdepth : 1 ≤ limits.depth) (hlength : limits.length = none)
    {hit : Match} {span : Span} (hbegin : r.opener.search line 0 = some hit)
    (hgroup : hit.groups[1]? = some (some span)) :
    ∃ tokens, (g.tokenizeLine limits line .initial).result =
      .ok ⟨tokens, [g.frameUntil r (line.slice span.start span.stop)]⟩ := by
  obtain ⟨c, hc, hlisted⟩ := h.listed
  have hbounds : 0 ≤ hit.start ∧ hit.start ≤ hit.stop ∧ hit.stop ≤ line.size :=
    Engine.pattern_inBounds r.opener line 0 hit (Int.le_refl 0) (Int.natCast_nonneg _) hbegin
  have hstop : 0 < hit.stop := by
    have hlt := h.begins line 0 hit hbegin
    omega
  have hbehind : 0 < Matcher.startIn line hit.stop := by
    unfold Matcher.startIn
    omega
  have hrest : Engine.pattern.search (.pattern (Pattern.exactly
      (line.slice span.start span.stop).toList)) line hit.stop = none :=
    Matcher.search_exactly_eq_none (.inl hbehind)
  refine Scan.tokenizeLine_opened hc hlisted (h.eq_of_mem coherent hc) ?_ ?_ hstop hdepth hlength
    (h.closer_eq_none coherent) ?_ ?_ (h.bare coherent _) ?_
  · rw [hengine]
    exact Engine.pattern_inBounds
  · rw [hengine]
    exact hbegin
  · rw [h.endSource]
    exact BackReference.resolve_repeat hgroup
  · rw [hengine]
    exact Engine.compile_exactly _
  · rw [hengine]
    exact hrest

theorem tokenizeLine_kept (h : g.EndsAtRepeat r) (coherent : g.Coherent)
    (hengine : g.engine = .pattern) (hlength : limits.length = none) {text : Text}
    (hfree : '\n' ∉ line) (hne : line ≠ text) :
    (g.tokenizeLine limits line [g.frameUntil r text]).result =
      .ok ⟨Token.whole line (ScopePath.extend [g.scopeName] r.scope), [g.frameUntil r text]⟩ := by
  have hsearch : Engine.pattern.search (.pattern (Pattern.exactly text.toList)) line 0 = none :=
    Matcher.search_exactly_eq_none (.inr ⟨hfree, fun heq => hne (Array.toList_inj.mp heq)⟩)
  rw [← h.frameUntil_scopes text]
  exact (h.bare coherent text).tokenizeLine_kept (h.accepted coherent hengine text) hlength
    (hengine ▸ hsearch)

theorem tokenizeLine_closed (h : g.EndsAtRepeat r) (coherent : g.Coherent)
    (hengine : g.engine = .pattern) (hlength : limits.length = none) (text : Text) :
    (g.tokenizeLine limits text [g.frameUntil r text]).result =
      .ok ⟨Token.whole text (ScopePath.extend [g.scopeName] r.scope), .initial⟩ := by
  obtain ⟨c, hc, -⟩ := h.listed
  have hsearch : Engine.pattern.search (.pattern (Pattern.exactly text.toList)) text 0 = some _ :=
    Matcher.search_exactly_self text
  refine (h.bare coherent text).tokenizeLine_closed (h.accepted coherent hengine text) hlength
    h.endCaptures (hengine ▸ hsearch) hc ?_
  -- a match at the end of the line would have no characters
  intro rule hrule
  rw [h.eq_of_mem coherent hc rule hrule, hengine]
  refine Option.eq_none_iff_forall_ne_some.mpr fun hit hhit => ?_
  have hbounds : text.size ≤ hit.start ∧ hit.start ≤ hit.stop ∧ hit.stop ≤ text.size :=
    Engine.pattern_inBounds _ _ _ _ (Int.natCast_nonneg _) (Int.le_refl _) hhit
  have hlt := h.begins text _ hit hhit
  omega

theorem scans_kept (h : g.EndsAtRepeat r) (coherent : g.Coherent) (hengine : g.engine = .pattern)
    (hlength : limits.length = none) {text : Text} {body lines : List Text}
    {results : List (LineResult Matcher)} (hbody : ∀ line ∈ body, '\n' ∉ line ∧ line ≠ text)
    (hlines : g.Scans (· = limits) [g.frameUntil r text] lines results) :
    g.Scans (· = limits) [g.frameUntil r text] (body ++ lines)
      (body.map (fun line => ⟨Token.whole line (ScopePath.extend [g.scopeName] r.scope),
        [g.frameUntil r text]⟩) ++ results) := by
  induction body with
  | nil => exact hlines
  | cons line body ih =>
      obtain ⟨⟨hfree, hne⟩, hbody⟩ := List.forall_mem_cons.mp hbody
      exact .cons rfl (h.tokenizeLine_kept coherent hengine hlength hfree hne) (ih hbody)

end EndsAtRepeat

/-- A region whose end pattern repeats the first group of the begin match is open from the begin
match to the first line that is the captured text, whatever characters that has. The lines in
between and the last one are inside the region as a whole, and behind it the scan is back at the
start. -/
theorem tokenizeLines_until_repeat {document : Json} {g : Grammar Matcher}
    {r : RegionRule Matcher} (compiled : ofJson .pattern document = .ok g)
    (only : g.EndsAtRepeat r) {limits : Limits} (hdepth : 1 ≤ limits.depth)
    (hlength : limits.length = none) {line : Text} {hit : Match} {span : Span}
    (hbegin : r.opener.search line 0 = some hit) (hgroup : hit.groups[1]? = some (some span)) :
    let text := line.slice span.start span.stop
    let path := ScopePath.extend [g.scopeName] r.scope
    ∃ (f : Frame Matcher) (tokens : List Token),
      f.rule = r.id ∧ f.nameScopes = path ∧ f.scopes = path ∧
      (g.tokenizeLine limits line .initial).result = .ok ⟨tokens, [f]⟩ ∧
      ∀ body : List Text, (∀ l ∈ body, '\n' ∉ l ∧ l ≠ text) →
        let kept := body.map fun l => LineResult.mk (Token.whole l path) [f]
        ((g.tokenizeLines limits (line :: body) .initial).fault = none ∧
          (g.tokenizeLines limits (line :: body) .initial).results = ⟨tokens, [f]⟩ :: kept) ∧
        ∀ rest,
          let run := g.tokenizeLines limits (line :: (body ++ text :: rest)) .initial
          let more := g.tokenizeLines limits rest .initial
          run.fault = more.fault ∧ run.results =
            ⟨tokens, [f]⟩ :: (kept ++ ⟨Token.whole text path, .initial⟩ :: more.results) := by
  intro text path
  obtain ⟨coherent, hengine⟩ := ofJson_coherent compiled
  obtain ⟨tokens, hopened⟩ :=
    only.tokenizeLine_opened coherent hengine hdepth hlength hbegin hgroup
  have hclosed := only.tokenizeLine_closed coherent hengine hlength text
  refine ⟨g.frameUntil r text, tokens, rfl, rfl, only.frameUntil_scopes text, hopened, ?_⟩
  intro body hbody kept
  constructor
  · have hkept := only.scans_kept coherent hengine hlength hbody .nil
    rw [List.append_nil, List.append_nil] at hkept
    exact (g.scans_iff limits).mp (.cons rfl hopened hkept)
  · intro rest run more
    have hkept := only.scans_kept coherent hengine hlength hbody (.cons rfl hclosed .nil)
    obtain ⟨hfault, hresults⟩ := (g.scans_iff limits).mp (.cons rfl hopened hkept)
    have hlast : LineResult.lastStack .initial
        (g.tokenizeLines limits (line :: (body ++ [text])) .initial).results = .initial := by
      rw [hresults]
      exact LineResult.lastStack_concat .initial (⟨tokens, _⟩ :: kept) ⟨_, .initial⟩
    have hlines : line :: (body ++ text :: rest) = line :: (body ++ [text]) ++ rest := by simp
    have hrun := tokenizeLines_append rest hfault
    simp only [hlast, ← hlines] at hrun
    have hrun : run = ⟨_ ++ more.results, more.fault, _⟩ := hrun
    rw [hrun, hresults]
    refine ⟨rfl, ?_⟩
    simp only [List.cons_append, List.append_assoc, List.nil_append]
    rfl

def heredocOpener : Matcher :=
  .pattern ⟨.seq (.char '<') (.seq (.char '<')
    (.capture 1 (.loop .greedy 0 none (.one .notNewline)))), 1⟩

def heredocRule : RegionRule Matcher where
  id := 0
  beginSource := "<<(.*)"
  opener := heredocOpener
  endSource := "^\\1$"
  closer := none
  scope := some "here"
  contentScope := none
  beginCaptures := []
  endCaptures := []
  endLast := false

def heredoc : Grammar Matcher where
  scopeName := "text"
  name := none
  contexts := [⟨.root, [.region heredocRule]⟩, ⟨.inside 0, []⟩]
  rules := [.region heredocRule]
  engine := .pattern

def heredocSource : Json := .obj [("scopeName", .str "text"), ("patterns", .arr
  [.obj [("begin", .str "<<(.*)"), ("end", .str "^\\1$"), ("name", .str "here")]])]

theorem ofJson_heredoc : ofJson .pattern heredocSource = .ok heredoc := by rfl

theorem heredoc_endsAtRepeat : heredoc.EndsAtRepeat heredocRule where
  rules := rfl
  listed := ⟨_, by rfl, List.mem_singleton_self _⟩
  inside c hc := by
    have hinner : heredoc.context? heredocRule.inner.text = some ⟨.inside 0, []⟩ := by rfl
    rw [hinner] at hc
    cases hc
    rfl
  endSource := rfl
  contentScope := rfl
  endCaptures := rfl
  begins _ _ _ h := Matcher.search_lt h

/-- Neither the empty line nor one that the captured text matches as a pattern closes the region. -/
theorem tokenizeLines_until_repeat_heredoc :
    ∃ (f : Frame Matcher) (tokens : List Token), f.scopes = ["text", "here"] ∧
      (heredoc.tokenizeLines .default
        (["a<<+b", "", "bb", "+b", "+b"].map Text.ofString) .initial).results =
        [⟨tokens, [f]⟩, ⟨[], [f]⟩, ⟨[⟨0, 2, ["text", "here"]⟩], [f]⟩,
          ⟨[⟨0, 2, ["text", "here"]⟩], .initial⟩, ⟨[⟨0, 2, ["text"]⟩], .initial⟩] := by
  have hbegin : heredocRule.opener.search (.ofString "a<<+b") 0 =
      some ⟨1, 5, [some ⟨1, 5⟩, some ⟨3, 5⟩]⟩ := by decide +kernel
  have hdepth : 1 ≤ Limits.default.depth := by decide
  have hbody : ∀ line ∈ [Text.ofString "", .ofString "bb"],
      '\n' ∉ line ∧ line ≠ (Text.ofString "a<<+b").slice 3 5 := by decide +kernel
  have hmore : (heredoc.tokenizeLines .default [.ofString "+b"] .initial).results =
      [⟨[⟨0, 2, ["text"]⟩], .initial⟩] := by rfl
  obtain ⟨f, tokens, -, -, hscopes, -, hlines⟩ :=
    tokenizeLines_until_repeat ofJson_heredoc heredoc_endsAtRepeat hdepth rfl hbegin rfl
  obtain ⟨-, hresults⟩ := (hlines _ hbody).2 [.ofString "+b"]
  refine ⟨f, tokens, hscopes, hresults.trans ?_⟩
  rw [hmore]
  rfl

end Grammar

end LineScope
