import LineScope.Proofs.Scan.Progress

/-!
Nothing goes wrong in a scan. Resuming takes every stack, as frames that do not fit are given up;
from then on all frames belong to the grammar, so that what is looked up for them is there, and an
end pattern that is refused can be compiled without its references, as it was with the grammar.
-/

namespace LineScope

variable {M : Type}

/-- An engine that compiles a source or rejects it, and that no number in it is too large for. -/
def Engine.Decides (e : Engine M) : Prop :=
  ∀ source reason, e.compile source ≠ .error (.overflow reason)

theorem Engine.plain_decides (reserved : Char → Bool) (reason : String) :
    (Engine.plain reserved reason).Decides := by
  intro source overflow h
  simp only [Engine.plain] at h
  split at h <;> cases h

namespace BackReference

def Piece.readable : Piece → Bool
  | .char _ => true
  | .reference digits => digits.length ≤ Text.digitLimit

def Readable (source : String) : Prop := ∀ p ∈ pieces source, p.readable = true

instance : DecidablePred Readable := fun source =>
  inferInstanceAs (Decidable (∀ p ∈ pieces source, p.readable = true))

theorem resolvedChars_of_readable (line : Text) (groups : List (Option Span)) {ps : List Piece}
    (h : ∀ p ∈ ps, p.readable = true) : ∃ cs, resolvedChars line groups ps = .ok cs := by
  induction ps with
  | nil => exact ⟨[], rfl⟩
  | cons p rest ih =>
      obtain ⟨hp, hrest⟩ := List.forall_mem_cons.mp h
      obtain ⟨more, hmore⟩ := ih hrest
      have hfirst : ∃ cs, p.resolved line groups = .ok cs := by
        rcases p with c | digits
        · exact ⟨[c], rfl⟩
        · exact ⟨_, if_neg (Nat.not_lt.mpr (of_decide_eq_true hp))⟩
      obtain ⟨cs, hcs⟩ := hfirst
      exact ⟨cs ++ more, bind_eq_ok.mpr ⟨cs, hcs, bind_eq_ok.mpr ⟨more, hmore, rfl⟩⟩⟩

theorem resolve_of_readable {source : String} (h : Readable source) (line : Text)
    (groups : List (Option Span)) : ∃ bound, resolve source line groups = .ok bound := by
  obtain ⟨cs, hcs⟩ := resolvedChars_of_readable line groups h
  exact ⟨String.ofList cs, by rw [resolve, hcs]; rfl⟩

theorem resolve_ne_error {source : String} (h : Readable source) {line : Text}
    {groups : List (Option Span)} {tooLong : TooLong} :
    resolve source line groups ≠ .error tooLong := by
  obtain ⟨bound, hbound⟩ := resolve_of_readable h line groups
  rw [hbound]
  exact nofun

theorem piecesFrom_digits {ds cs : List Char} (h : ∀ c ∈ cs, Unicode.isDecimal c = true) :
    piecesFrom (.digits ds) cs = [.reference (ds.reverse ++ cs)] := by
  induction cs generalizing ds with
  | nil => rw [piecesFrom, List.append_nil]
  | cons c rest ih =>
      obtain ⟨hc, hrest⟩ := List.forall_mem_cons.mp h
      rw [piecesFrom, if_pos hc, ih hrest, List.reverse_cons, List.append_assoc]
      rfl

theorem pieces_reference {digits : List Char} (hne : digits ≠ [])
    (h : ∀ d ∈ digits, Unicode.isDecimal d = true) :
    pieces (String.ofList ('\\' :: digits)) = [.reference digits] := by
  obtain ⟨c, cs, rfl⟩ := List.exists_cons_of_ne_nil hne
  obtain ⟨hc, hcs⟩ := List.forall_mem_cons.mp h
  rw [pieces, String.toList_ofList, piecesFrom, if_pos (beq_self_eq_true _), piecesFrom, if_pos hc,
    piecesFrom_digits hcs]
  rfl

theorem resolve_reference {source : String} {digits : List Char}
    (hpieces : pieces source = [.reference digits]) (h : Text.digitLimit < digits.length)
    (line : Text) (groups : List (Option Span)) :
    resolve source line groups = .error ⟨digits.length⟩ := by
  have hlong : Piece.resolved line groups (.reference digits) = .error ⟨digits.length⟩ := if_pos h
  rw [resolve, hpieces, resolvedChars, hlong]
  rfl

end BackReference

def Rule.endSource? : Rule M → Option String
  | .leaf _ => none
  | .region r => some r.endSource

def Grammar.endSources (g : Grammar M) : List String := g.rules.filterMap Rule.endSource?

theorem Grammar.mem_endSources {g : Grammar M} {r : RegionRule M} (h : .region r ∈ g.rules) :
    r.endSource ∈ g.endSources :=
  List.mem_filterMap.mpr ⟨_, h, rfl⟩

/-- How an end pattern may fail to be built: it refers to a group by a number with too many digits,
or holds a number that is too large for the engine. -/
inductive Grammar.Unbuilt (g : Grammar M) : Fault → Prop
  | unreadable {r : RegionRule M} {line : Text} {groups : List (Option Span)}
      {tooLong : BackReference.TooLong} :
      .region r ∈ g.rules → BackReference.resolve r.endSource line groups = .error tooLong →
        Unbuilt g (.longReference tooLong.digits)
  | overflow {source reason : String} :
      g.engine.compile source = .error (.overflow reason) → Unbuilt g (.overflow reason)

variable {g : Grammar M} {line : Text} {limits : Limits}

theorem Grammar.not_unbuilt (decides : g.engine.Decides)
    (readable : ∀ source ∈ g.endSources, BackReference.Readable source) (fault : Fault) :
    ¬ g.Unbuilt fault := by
  rintro (⟨hr, hresolve⟩ | hcompile)
  · exact BackReference.resolve_ne_error (readable _ (mem_endSources hr)) hresolve
  · exact decides _ _ hcompile

namespace Stack

theorem unbuilt_of_closerFor {f : Frame M} {reason : String}
    (h : closerFor g f = .error (.overflow reason)) : g.Unbuilt (.overflow reason) := by
  unfold closerFor at h
  split at h
  · cases h
  · split at h
    · cases h
    · split at h
      · cases h
      · cases h
      · rename_i hcompile
        cases h
        exact .overflow hcompile

theorem unbuilt_of_resumeFrame {f : Frame M} {reason : String}
    (h : resumeFrame g f = .error (.overflow reason)) : g.Unbuilt (.overflow reason) := by
  rcases bind_eq_error.mp h with hcloser | ⟨closer?, -, h⟩
  · exact unbuilt_of_closerFor hcloser
  · rcases closer? with _ | closer
    · cases h
    · simp only at h
      split at h <;> cases h

theorem unbuilt_of_resumeAll {s : Stack M} {reason : String}
    (h : resumeAll g s = .error (.overflow reason)) : g.Unbuilt (.overflow reason) := by
  induction s with
  | nil => cases h
  | cons f outer ih =>
      rcases bind_eq_error.mp h with houter | ⟨resumed, -, h⟩
      · exact ih houter
      · rcases bind_eq_error.mp h with hframe | ⟨f', -, h⟩
        · exact unbuilt_of_resumeFrame hframe
        · cases h

end Stack

namespace Scan

variable {s t : Scan M}

/-- Every stack is resumed, or given up for the initial one, unless an end pattern cannot be
built. -/
theorem resume_or_unbuilt (g : Grammar M) (stack : Stack M) :
    (∃ s, resume g stack = .ok s) ∨
      ∃ reason, resume g stack = .error (.overflow reason, start .initial) ∧
        g.Unbuilt (.overflow reason) := by
  unfold resume
  split
  · exact .inl ⟨_, rfl⟩
  · exact .inl ⟨_, rfl⟩
  · rename_i reason hresume
    exact .inr ⟨reason, rfl, Stack.unbuilt_of_resumeAll hresume⟩

/-- Where all that the next iteration needs is at hand. -/
structure Safe (g : Grammar M) (line : Text) (limits : Limits) (s : Scan M) : Prop where
  /-- The rule and the context of the innermost region are there, and so is the matcher for its
  end. -/
  frame : ∀ f, s.stack.top? = some f →
    (∃ r, g.rule? f.rule = some (.region r)) ∧ (g.context? f.context).isSome ∧ f.closer.isSome
  /-- In a region, the end is among the candidates. -/
  candidates : ∃ c, candidates g s.stack = .ok c ∧
    ∀ f, s.stack.top? = some f → c.closer = f.closer
  /-- An end wins only in a region. -/
  closer : ∀ c hit probes, Scan.candidates g s.stack = .ok c →
    choose g.engine line s.cursor c = (some ⟨.closer, hit⟩, probes) → (s.stack.top?).isSome
  step : ∀ fault t, step g line limits s ≠ .failed fault t

theorem candidates_closer {stack : Stack M} {c : Candidates M} (h : candidates g stack = .ok c) :
    c.closer = stack.top?.bind Frame.closer := by
  unfold candidates at h
  split at h
  · rename_i htop
    split at h
    · cases h
      rw [htop, Option.bind_none]
    · cases h
  · rename_i f htop
    rw [htop, Option.bind_some]
    split at h
    · cases h
    · cases h
    · cases h
      rfl
    · cases h
      rfl

theorem top?_isSome_of_closer {c : Candidates M} {hit : Match} {probes : Nat}
    (hcandidates : candidates g s.stack = .ok c)
    (hchoose : choose g.engine line s.cursor c = (some ⟨.closer, hit⟩, probes)) :
    (s.stack.top?).isSome := by
  have hoffers : Offers g.engine line s.cursor c ⟨.closer, hit⟩ :=
    choose_offers (by rw [hchoose])
  cases hoffers with
  | closer hcloser =>
      rw [candidates_closer hcandidates] at hcloser
      obtain ⟨f, htop, -⟩ := Option.bind_eq_some_iff.mp hcloser
      rw [htop]
      rfl

theorem region_mem_of_winner (coherent : g.Coherent) {c : Candidates M} {r : RegionRule M}
    {hit : Match} {probes : Nat} (hcandidates : candidates g s.stack = .ok c)
    (hchoose : choose g.engine line s.cursor c = (some ⟨.rule (.region r), hit⟩, probes)) :
    .region r ∈ g.rules := by
  obtain ⟨name, context, hcontext, hr⟩ := winner_listed hcandidates hchoose
  exact coherent.listed context (List.mem_of_find?_eq_some hcontext) _ hr

namespace Framed

variable {most : Nat}

theorem top_belongs (h : Framed g most s) {f : Frame M} (htop : s.stack.top? = some f) :
    f.Belongs g :=
  h.belongs f (List.mem_of_mem_head? htop)

theorem candidates_ok (coherent : g.Coherent) (h : Framed g most s) :
    ∃ c, candidates g s.stack = .ok c := by
  unfold candidates
  rcases htop : s.stack.top? with _ | f
  · obtain ⟨c, hc⟩ := Option.isSome_iff_exists.mp (Grammar.Coherent.context?_isSome coherent.root)
    exact ⟨_, by simp only [hc]; rfl⟩
  · have hf := h.top_belongs htop
    obtain ⟨r, hr, -⟩ := hf.region
    obtain ⟨c, hc⟩ := Option.isSome_iff_exists.mp (coherent.context?_of_belongs hf)
    exact ⟨_, by simp only [hc, Grammar.rule?_of_region? hr]; rfl⟩

/-- Whatever wins can be applied, unless an end pattern cannot be built. The end pattern without its
references is one that the engine has taken with the grammar. -/
theorem unbuilt_of_breaks (coherent : g.Coherent) (h : Framed g most s) {c : Candidates M}
    {found : Found M} {probes : Nat} {fault : Fault} (hcandidates : candidates g s.stack = .ok c)
    (hchoose : choose g.engine line s.cursor c = (some found, probes))
    (hbreaks : Breaks g line limits ((s.counted probes).reach g found.hit.start) found fault t) :
    g.Unbuilt fault := by
  cases hbreaks with
  | unbound _ _ hresolve =>
      exact .unreadable (region_mem_of_winner coherent hcandidates hchoose) hresolve
  | overflow _ _ _ hcompile => exact .overflow hcompile
  | @unblanked r _ _ _ _ _ hcloser _ _ hblank =>
      have hcompiled := coherent.compiled r (region_mem_of_winner coherent hcandidates hchoose)
      rw [RegionRule.EndCompiled, hcloser] at hcompiled
      obtain ⟨-, m, hm⟩ := hcompiled
      rw [hm] at hblank
      cases hblank
  | unopened htop =>
      have hopen := top?_isSome_of_closer hcandidates hchoose
      simp only [reach_stack, counted_stack] at htop
      rw [htop] at hopen
      cases hopen
  | ruleless htop hrule =>
      simp only [reach_stack, counted_stack] at htop
      obtain ⟨r, hr, -⟩ := (h.top_belongs htop).region
      rw [Grammar.rule?_of_region? hr] at hrule
      cases hrule

theorem unbuilt_of_failed (coherent : g.Coherent) (h : Framed g most s) {fault : Fault}
    (hstep : step g line limits s = .failed fault t) : g.Unbuilt fault := by
  cases iteration_of_step hstep with
  | lost hcandidates =>
      obtain ⟨c, hc⟩ := h.candidates_ok coherent
      rw [hc] at hcandidates
      cases hcandidates
  | broken hcandidates hchoose happly =>
      exact h.unbuilt_of_breaks coherent hcandidates hchoose (apply_breaks happly)

theorem safe (coherent : g.Coherent) (decides : g.engine.Decides)
    (readable : ∀ source ∈ g.endSources, BackReference.Readable source)
    (h : Framed g most s) : Safe g line limits s where
  frame f htop := by
    have hf := h.top_belongs htop
    obtain ⟨r, hr, -⟩ := hf.region
    exact ⟨⟨r, Grammar.rule?_of_region? hr⟩, coherent.context?_of_belongs hf, hf.closer⟩
  candidates := by
    obtain ⟨c, hc⟩ := h.candidates_ok coherent
    refine ⟨c, hc, ?_⟩
    intro f htop
    rw [candidates_closer hc, htop, Option.bind_some]
  closer _ _ _ hcandidates hchoose := top?_isSome_of_closer hcandidates hchoose
  step fault t hstep :=
    Grammar.not_unbuilt decides readable fault (h.unbuilt_of_failed coherent hstep)

end Framed

theorem openRegion_unbound {r : RegionRule M} {hit : Match} {tooLong : BackReference.TooLong}
    (hdepth : s.stack.depth < limits.depth) (hcloser : r.closer = none)
    (hresolve : BackReference.resolve r.endSource line hit.groups = .error tooLong) :
    ∃ t, s.openRegion g line limits r hit = .error (.longReference tooLong.digits, t) := by
  simp [openRegion, if_neg (Int.not_le.mpr hdepth), hcloser, bindEnd, hresolve]

theorem step_unbound {c : Candidates M} {r : RegionRule M} {hit : Match} {probes : Nat}
    {tooLong : BackReference.TooLong} (hcandidates : candidates g s.stack = .ok c)
    (hchoose : choose g.engine line s.cursor c = (some ⟨.rule (.region r), hit⟩, probes))
    (hdepth : s.stack.depth < limits.depth) (hcloser : r.closer = none)
    (hresolve : BackReference.resolve r.endSource line hit.groups = .error tooLong) :
    ∃ t, step g line limits s = .failed (.longReference tooLong.digits) t := by
  have hopen : ∃ t, (s.counted probes).apply g line limits ⟨.rule (.region r), hit⟩ =
      .error (.longReference tooLong.digits, t) :=
    openRegion_unbound (s := (s.counted probes).reach g hit.start) (by rwa [reach_stack]) hcloser
      hresolve
  obtain ⟨t, happly⟩ := hopen
  simp only [counted] at happly
  exact ⟨t, by simp only [step, hcandidates, hchoose, happly]⟩

/-- What a run of any length fails with is what an iteration fails with. -/
theorem Ends.fault {P : Fault → Prop} {fault : Fault} {n : Nat} {o : Outcome M}
    (h : Ends g line limits s n o) (ho : o = .error (fault, t))
    (hsteps : ∀ t, Reaches g line limits s t → ∀ fault u,
      step g line limits t = .failed fault u → P fault) : P fault := by
  induction h with
  | finished => cases ho
  | failed hstep =>
      cases ho
      exact hsteps _ .refl _ _ hstep
  | going hstep _ ih => exact ih ho fun t ht => hsteps t (.step hstep ht)

/-- All that can happen to a line, but that its scan does not come to an end, is what can happen to
an iteration. -/
theorem fault_of_finish {P : Fault → Prop} {fault : Fault}
    (h : ∀ t, Reaches g line limits s t → ∀ fault u,
      step g line limits t = .failed fault u → P fault)
    (hfault : (lineRun (finish g line limits s)).result = .error fault) :
    fault = .endless ∨ P fault := by
  rcases finish_cases g line limits s with ⟨limit, hlong⟩ | hrun
  · rw [hlong] at hfault
    cases hfault
  by_cases hendless : fault = .endless
  · exact .inl hendless
  have hne : (lineRun (run g line limits (fuel g line limits s) s)).result ≠ .error .endless := by
    rwa [← hrun, hfault, ne_eq, Except.error.injEq]
  obtain ⟨n, -, hends⟩ := ends_of_run hne
  rw [← hrun] at hends
  rcases hfinish : finish g line limits s with ⟨fault', t⟩ | t
  · rw [hfinish] at hfault
    cases hfault
    exact .inr (hends.fault hfinish h)
  · rw [hfinish] at hfault
    cases hfault

theorem eq_endless_of_safe {fault : Fault}
    (h : ∀ t, Reaches g line limits s t → Safe g line limits t)
    (hfault : (lineRun (finish g line limits s)).result = .error fault) : fault = .endless := by
  have hsteps : ∀ t, Reaches g line limits s t → ∀ fault u,
      step g line limits t = .failed fault u → False :=
    fun t ht fault u hstep => (h t ht).step fault u hstep
  exact (fault_of_finish hsteps hfault).resolve_right id

end Scan

/-- No scan of a line goes wrong, whatever the line, the limits and the stack are, for a grammar
that compiles with an engine that has no faults of its own, and whose references are of a length
that can be read. If the engine finds matches in bounds, the line has a result. -/
theorem Grammar.tokenizeLine_safe {e : Engine M} {document : Json} {g : Grammar M}
    (compiled : Grammar.ofJson e document = .ok g) (decides : e.Decides)
    (readable : ∀ source ∈ g.endSources, BackReference.Readable source)
    (limits : Limits) (line : Text) (stack : Stack M) :
    ∃ s, Scan.resume g stack = .ok s ∧
      (∀ t, Scan.Reaches g line limits s t → Scan.Safe g line limits t) ∧
      (∀ r, .region r ∈ g.rules → r.bindsEnd = true →
        ∃ m, e.compile (BackReference.blank r.endSource) = .ok m) ∧
      (∀ fault, (g.tokenizeLine limits line stack).result = .error fault → fault = .endless) ∧
      (e.InBounds → ∃ r, (g.tokenizeLine limits line stack).result = .ok r) := by
  obtain ⟨coherent, rfl⟩ := ofJson_coherent compiled
  obtain ⟨s, hresume⟩ := (Scan.resume_or_unbuilt g stack).resolve_right
    fun ⟨_, _, hunbuilt⟩ => not_unbuilt decides readable _ hunbuilt
  have hframed := (Scan.resume_framed hresume).mono (Nat.le_max_left _ limits.depth.toNat)
  have hsafe : ∀ t, Scan.Reaches g line limits s t → Scan.Safe g line limits t := by
    intro t hreaches
    have ht := hreaches.keeps
      (fun _ _ hs hstep => hs.going coherent (Nat.le_max_right ..) hstep) hframed
    exact ht.safe coherent decides readable
  have hendless : ∀ fault, (g.tokenizeLine limits line stack).result = .error fault →
      fault = .endless := by
    intro fault hfault
    rw [tokenizeLine_of_resume hresume] at hfault
    exact Scan.eq_endless_of_safe hsafe hfault
  refine ⟨s, hresume, hsafe, ?_, hendless, ?_⟩
  · intro r hr hbinds
    have hcompiled := coherent.compiled r hr
    rw [RegionRule.EndCompiled, Option.isNone_iff_eq_none.mp hbinds] at hcompiled
    exact hcompiled.2
  · intro bounded
    obtain ⟨n, o, hends, hn⟩ := Scan.resume_ends coherent bounded limits line hresume
    have hended := hends.finish_ne_endless hn
    rw [← tokenizeLine_of_resume hresume] at hended
    rcases hresult : (g.tokenizeLine limits line stack).result with fault | r
    · rw [hresult, hendless fault hresult] at hended
      exact absurd rfl hended
    · exact ⟨r, rfl⟩

theorem Grammar.tokenizeLine_safe_sample :
    ∃ s r, Scan.resume sample [⟨⟨-1, "$self", "(", [], []⟩, none⟩] = .ok s ∧
      Scan.Safe sample (Text.ofString "cat <b <> <") .default s ∧
      (sample.tokenizeLine .default (Text.ofString "cat <b <> <")
        [⟨⟨-1, "$self", "(", [], []⟩, none⟩]).result = .ok r := by
  have hreadable : ∀ source ∈ sample.endSources, BackReference.Readable source := by
    decide +kernel
  obtain ⟨s, hresume, hsafe, -, -, hresult⟩ := tokenizeLine_safe ofJson_sample
    (Engine.plain_decides _ _) hreadable .default (Text.ofString "cat <b <> <")
    [⟨⟨-1, "$self", "(", [], []⟩, none⟩]
  obtain ⟨r, hr⟩ := hresult (Engine.plain_inBounds _ _)
  exact ⟨s, r, hresume, hsafe s .refl, hr⟩

/-- Nothing but an end pattern that cannot be built stops the scan of a line. -/
theorem Grammar.unbuilt_of_tokenizeLine {e : Engine M} {document : Json} {g : Grammar M}
    (compiled : Grammar.ofJson e document = .ok g) (bounded : e.InBounds) {limits : Limits}
    {line : Text} {stack : Stack M} {fault : Fault}
    (h : (g.tokenizeLine limits line stack).result = .error fault) : g.Unbuilt fault := by
  obtain ⟨coherent, rfl⟩ := ofJson_coherent compiled
  rcases Scan.resume_or_unbuilt g stack with ⟨s, hresume⟩ | ⟨reason, hresume, hunbuilt⟩
  · rw [tokenizeLine_of_resume hresume] at h
    have hframed := (Scan.resume_framed hresume).mono (Nat.le_max_left _ limits.depth.toNat)
    have hsteps : ∀ t, Scan.Reaches g line limits s t → ∀ fault u,
        Scan.step g line limits t = .failed fault u → g.Unbuilt fault := by
      intro t hreaches fault u hstep
      have ht := hreaches.keeps
        (fun _ _ hs hstep => hs.going coherent (Nat.le_max_right ..) hstep) hframed
      exact ht.unbuilt_of_failed coherent hstep
    rcases Scan.fault_of_finish hsteps h with rfl | hunbuilt
    · obtain ⟨n, o, hends, hn⟩ := Scan.resume_ends coherent bounded limits line hresume
      exact absurd h (hends.finish_ne_endless hn)
    · exact hunbuilt
  · rw [tokenizeLine, hresume] at h
    cases h
    exact hunbuilt

end LineScope
