import LineScope.Proofs.Capture.Projection
import LineScope.Proofs.Scan.Frames
import LineScope.Proofs.Scan.Invariant
import LineScope.Proofs.Scan.Resumption

/-!
A grammar goes on from the stacks that it leaves, also if the lines before were tokenized with other
grammars. Every frame that a scan keeps has been accepted at the start of the line, and every frame
that it pushes would be, so that the next line with this grammar finds all its regions open. For the
scopes, frames kept from another grammar must start with the same root twice: the check at the start
of a line looks at the scopes of the delimiters only, the tokens get those of the content.
-/

namespace LineScope

variable {M : Type} {g : Grammar M} {line : Text} {limits : Limits}

theorem ScopePath.head?_of_prefix {base path : ScopePath} {root : String}
    (hpath : base <+: path) (hbase : base.head? = some root) : path.head? = some root := by
  obtain ⟨more, rfl⟩ := hpath
  rw [List.head?_append, hbase, Option.some_or]

theorem ScopePath.prefix_extend (path : ScopePath) (scope : Option String) :
    path <+: path.extend scope := by
  cases scope with
  | none => exact List.prefix_rfl
  | some scope => exact List.prefix_append ..

namespace Stack

theorem resumeFrame_resumed {f f' : Frame M} (h : resumeFrame g f = .ok f') :
    resumeFrame g f' = .ok f' :=
  (resumeFrame_congr g (resumeFrame_region h)).trans h

/-- A frame is taken over as it is if the grammar has the matcher that it carries. -/
theorem resumeFrame_eq_self_iff {f : Frame M} : resumeFrame g f = .ok f ↔
    ∃ m, closerFor g f = .ok (some m) ∧ f.closer = some m ∧ fits g f = true := by
  rcases f with ⟨region, closer⟩
  constructor
  · intro h
    obtain ⟨closer?, hcloser, h⟩ := bind_eq_ok.mp h
    rcases closer? with _ | m
    · cases h
    · simp only at h
      split at h
      · rename_i hfits
        cases h
        exact ⟨m, hcloser, rfl, hfits⟩
      · cases h
  · rintro ⟨m, hcloser, rfl, hfits⟩
    exact bind_eq_ok.mpr ⟨_, hcloser, if_pos hfits⟩

theorem closerFor_fixed {r : RegionRule M} {m : M} (hr : g.region? r.id = some r)
    (hcloser : r.closer = some m) (scopes : ScopePath) :
    closerFor g (Scan.frameFor r scopes r.endSource m) = .ok (some m) := by
  have hrule : g.region? (Scan.frameFor r scopes r.endSource m).rule = some r := hr
  simp only [closerFor, hrule, hcloser]
  exact congrArg Except.ok (if_pos rfl)

theorem closerFor_bound {r : RegionRule M} {endSource : String} {m : M}
    (hr : g.region? r.id = some r) (hcloser : r.closer = none)
    (hcompile : g.engine.compile endSource = .ok m) (scopes : ScopePath) :
    closerFor g (Scan.frameFor r scopes endSource m) = .ok (some m) := by
  have hrule : g.region? (Scan.frameFor r scopes endSource m).rule = some r := hr
  have hsource : (Scan.frameFor r scopes endSource m).endSource = endSource := rfl
  simp only [closerFor, hrule, hcloser, hsource, hcompile]

theorem resumeFrame_frameFor {r : RegionRule M} {endSource : String} {m : M} {scopes : ScopePath}
    (coherent : g.Coherent) (hr : g.region? r.id = some r)
    (hcloser : closerFor g (Scan.frameFor r scopes endSource m) = .ok (some m))
    (hroot : scopes.head? = some g.scopeName) :
    resumeFrame g (Scan.frameFor r scopes endSource m) =
      .ok (Scan.frameFor r scopes endSource m) := by
  refine resumeFrame_eq_self_iff.mpr ⟨m, hcloser, rfl, ?_⟩
  have hcontext : (g.context? r.inner.text).isSome :=
    Grammar.Coherent.context?_isSome (coherent.inner r (Grammar.region?_mem hr))
  simp [fits, Scan.frameFor, hr, hcontext, hroot]

def Accepted (g : Grammar M) (s : Stack M) : Prop := ∀ f ∈ s, resumeFrame g f = .ok f

theorem Accepted.resumeAll_eq {s : Stack M} (h : s.Accepted g) : resumeAll g s = .ok s := by
  induction s with
  | nil => rfl
  | cons f outer ih =>
      obtain ⟨hf, houter⟩ := List.forall_mem_cons.mp h
      exact bind_eq_ok.mpr ⟨outer, ih houter, bind_eq_ok.mpr ⟨f, hf, rfl⟩⟩

theorem Accepted.resume_eq {s : Stack M} (h : s.Accepted g) :
    Scan.resume g s = .ok (Scan.start s) := by
  rw [Scan.resume, h.resumeAll_eq]

theorem accepted_of_resumeAll {s t : Stack M} (h : resumeAll g s = .ok t) : t.Accepted g := by
  induction s generalizing t with
  | nil =>
      cases h
      simp [Accepted]
  | cons f outer ih =>
      obtain ⟨outer', houter, h⟩ := bind_eq_ok.mp h
      obtain ⟨f', hf, heq⟩ := bind_eq_ok.mp h
      cases heq
      exact List.forall_mem_cons.mpr ⟨resumeFrame_resumed hf, ih houter⟩

theorem root_of_resumeFrame {f f' : Frame M} (h : resumeFrame g f = .ok f') :
    f'.nameScopes.head? = some g.scopeName := by
  obtain ⟨closer?, -, h⟩ := bind_eq_ok.mp h
  rcases closer? with _ | closer
  · cases h
  · simp only at h
    split at h
    · rename_i hfits
      cases h
      unfold fits at hfits
      split at hfits
      · cases hfits
      · simp only [Bool.and_eq_true, beq_iff_eq] at hfits
        exact hfits.2
    · cases h

end Stack

def Region.OneRoot (f : Region) : Prop :=
  ∃ root, f.nameScopes.head? = some root ∧ f.scopes.head? = some root

namespace Scan

variable {s t : Scan M}

/-- What a begin match leads to: its text gets tokens, and its region is pushed with the matcher
that the grammar has for the end pattern, unless the stack is as deep as the limits allow. -/
theorem Applies.region_cases {r : RegionRule M} {hit : Match} (hr : g.region? r.id = some r)
    (h : Applies g line limits s ⟨.rule (.region r), hit⟩ t) :
    t.tokens =
        (s.cover hit r.beginCaptures ((s.stack.scopes g.scopeName).extend r.scope)).tokens ∧
      (t.stack = s.stack ∨ ∃ endSource m,
        t.stack = s.stack.push
          (frameFor r ((s.stack.scopes g.scopeName).extend r.scope) endSource m) ∧
        ∀ scopes, Stack.closerFor g (frameFor r scopes endSource m) = .ok (some m)) := by
  cases h with
  | capped => exact ⟨rfl, .inl (cover_stack ..)⟩
  | opened _ hcloser =>
      exact ⟨rfl, .inr ⟨_, _, rfl, Stack.closerFor_fixed hr hcloser⟩⟩
  | bound _ hcloser _ hcompile =>
      exact ⟨rfl, .inr ⟨_, _, rfl, Stack.closerFor_bound hr hcloser hcompile⟩⟩
  | blanked _ hcloser _ _ hblank =>
      exact ⟨rfl, .inr ⟨_, _, rfl, Stack.closerFor_bound hr hcloser hblank⟩⟩

theorem forall_scopes_addToken {P : ScopePath → Prop} {tokens : List Token} {t : Token}
    (h : ∀ u ∈ tokens, P u.scopes) (ht : P t.scopes) :
    ∀ u ∈ addToken tokens t, P u.scopes := by
  rcases tokens with _ | ⟨u, rest⟩
  · simpa [addToken] using ht
  · simp only [addToken]
    split
    · exact List.forall_mem_cons.mpr ⟨ht, (List.forall_mem_cons.mp h).2⟩
    · exact List.forall_mem_cons.mpr ⟨ht, h⟩

theorem forall_scopes_emit {P : ScopePath → Prop} {t : Token} (h : ∀ u ∈ s.tokens, P u.scopes)
    (ht : P t.scopes) : ∀ u ∈ (s.emit t).tokens, P u.scopes := by
  unfold emit
  split
  · exact h
  · exact forall_scopes_addToken h ht

theorem forall_scopes_emitAll {P : ScopePath → Prop} {tokens : List Token}
    (h : ∀ u ∈ s.tokens, P u.scopes) (htokens : ∀ t ∈ tokens, P t.scopes) :
    ∀ u ∈ (s.emitAll tokens).tokens, P u.scopes := by
  induction tokens generalizing s with
  | nil => exact h
  | cons t rest ih =>
      obtain ⟨ht, hrest⟩ := List.forall_mem_cons.mp htokens
      exact ih (forall_scopes_emit h ht) hrest

/-- The grammar accepts the stack as it is, and its scope name is the root of all scopes. -/
structure Settled (g : Grammar M) (s : Scan M) : Prop where
  accepted : s.stack.Accepted g
  content : ∀ f ∈ s.stack, f.scopes.head? = some g.scopeName
  tokens : ∀ t ∈ s.tokens, t.scopes.head? = some g.scopeName

namespace Settled

theorem scopes_root (h : Settled g s) :
    (s.stack.scopes g.scopeName).head? = some g.scopeName := by
  have hcontent := h.content
  generalize s.stack = stack at hcontent ⊢
  rcases stack with _ | ⟨f, outer⟩
  · rfl
  · exact hcontent f (List.mem_cons_self ..)

theorem extend_root (h : Settled g s) (scope : Option String) :
    ((s.stack.scopes g.scopeName).extend scope).head? = some g.scopeName :=
  ScopePath.head?_of_prefix (ScopePath.prefix_extend ..) h.scopes_root

theorem passTo (h : Settled g s) (stop : Int) : Settled g (s.passTo g stop) := by
  refine ⟨?_, ?_, ?_⟩
  · simpa [Scan.passTo] using h.accepted
  · simpa [Scan.passTo] using h.content
  · exact forall_scopes_emit (P := fun path => path.head? = some g.scopeName) h.tokens
      h.scopes_root

theorem cover (h : Settled g s) (m : Match) (captures : List Capture) {scopes : ScopePath}
    (hscopes : scopes.head? = some g.scopeName) : Settled g (s.cover m captures scopes) := by
  refine ⟨?_, ?_, ?_⟩
  · rw [cover_stack]
    exact h.accepted
  · rw [cover_stack]
    exact h.content
  · refine forall_scopes_emitAll (P := fun path => path.head? = some g.scopeName) h.tokens ?_
    intro t ht
    exact ScopePath.head?_of_prefix (Capture.prefix_of_mem_project ht) hscopes

theorem push {r : RegionRule M} {hit : Match} {endSource : String} {m : M} (coherent : g.Coherent)
    (h : Settled g s) (hr : g.region? r.id = some r)
    (hcloser : ∀ scopes, Stack.closerFor g (frameFor r scopes endSource m) = .ok (some m))
    (hstack : t.stack =
      s.stack.push (frameFor r ((s.stack.scopes g.scopeName).extend r.scope) endSource m))
    (htokens : t.tokens =
      (s.cover hit r.beginCaptures ((s.stack.scopes g.scopeName).extend r.scope)).tokens) :
    Settled g t := by
  have hroot := h.extend_root r.scope
  refine ⟨?_, ?_, ?_⟩
  · rw [hstack]
    exact List.forall_mem_cons.mpr
      ⟨Stack.resumeFrame_frameFor coherent hr (hcloser _) hroot, h.accepted⟩
  · rw [hstack]
    refine List.forall_mem_cons.mpr ⟨?_, h.content⟩
    exact ScopePath.head?_of_prefix (ScopePath.prefix_extend ..) hroot
  · rw [htokens]
    exact (h.cover hit r.beginCaptures hroot).tokens

theorem applies {c : Candidates M} {cursor : Int} {found : Found M} (coherent : g.Coherent)
    (h : Settled g s) (hcandidates : candidates g s.stack = .ok c)
    (hoffers : Offers g.engine line cursor c found)
    (happlies : Applies g line limits s found t) : Settled g t := by
  rcases found with ⟨_ | r | r, hit⟩
  · cases happlies with
    | @closed f r _ captures htop =>
        have hf := List.mem_of_mem_head? htop
        have hcover := h.cover hit captures (Stack.root_of_resumeFrame (h.accepted f hf))
        refine ⟨fun u hu => ?_, fun u hu => ?_, hcover.tokens⟩
        · exact h.accepted u (List.mem_of_mem_tail hu)
        · exact h.content u (List.mem_of_mem_tail hu)
  · cases happlies with
    | skipped => exact h
    | covered => exact h.cover _ _ (h.extend_root _)
  · cases hoffers with
    | rule hr =>
        have hr := region?_id_of_candidates coherent hcandidates hr
        obtain ⟨htokens, hstack | ⟨endSource, m, hstack, hcloser⟩⟩ := happlies.region_cases hr
        · have hcover := h.cover hit r.beginCaptures (h.extend_root r.scope)
          exact ⟨hstack ▸ h.accepted, hstack ▸ h.content, htokens ▸ hcover.tokens⟩
        · exact h.push coherent hr hcloser hstack htokens

theorem invariant (coherent : g.Coherent) : Invariant g line limits (Settled g) where
  congr h hstack htokens :=
    ⟨hstack ▸ h.accepted, hstack ▸ h.content, htokens ▸ h.tokens⟩
  passTo stop h := h.passTo stop
  applies h hcandidates hoffers happlies := h.applies coherent hcandidates hoffers happlies

theorem initial : Settled g (start .initial) := by
  refine ⟨?_, ?_, ?_⟩
  · simp [start, Stack.initial, Stack.Accepted]
  · simp [start, Stack.initial]
  · simp [start]

theorem next (h : Settled g s) : Settled g (start s.stack) :=
  ⟨h.accepted, h.content, by simp [start]⟩

theorem resume {stack : Stack M} (honeRoot : ∀ f ∈ stack.regions, f.OneRoot)
    (hresume : Scan.resume g stack = .ok s) : Settled g s := by
  have htokens : ∀ t ∈ s.tokens, t.scopes.head? = some g.scopeName := by
    rw [(resume_eq_ok hresume).2.1]
    simp
  unfold Scan.resume at hresume
  split at hresume
  · rename_i resumed hresumed
    cases hresume
    have haccepted := Stack.accepted_of_resumeAll hresumed
    refine ⟨haccepted, fun f hf => ?_, htokens⟩
    have hregion : f.toRegion ∈ stack.regions := by
      rw [← Stack.resumeAll_regions hresumed]
      exact List.mem_map_of_mem hf
    obtain ⟨root, hname, hcontent⟩ := honeRoot _ hregion
    rw [hcontent, ← hname]
    exact Stack.root_of_resumeFrame (haccepted f hf)
  · cases hresume
    exact ⟨initial.accepted, initial.content, htokens⟩
  · cases hresume

theorem oneRoot (h : Settled g s) : ∀ f ∈ s.stack.regions, f.OneRoot := by
  intro region hregion
  obtain ⟨f, hf, rfl⟩ := List.mem_map.mp hregion
  exact ⟨g.scopeName, Stack.root_of_resumeFrame (h.accepted f hf), h.content f hf⟩

end Settled

end Scan

/-- The regions that are open after lines that were tokenized one after the other, each with any
grammar, engine and limits. The matchers that the frames carry to the next line may be any. -/
inductive OpenRegions : List Region → Prop
  | initial : OpenRegions []
  | line {M : Type} {e : Engine M} {document : Json} {g : Grammar M} {stack : Stack M}
      {r : LineResult M} (limits : Limits) (line : Text) :
      OpenRegions stack.regions → Grammar.ofJson e document = .ok g →
        (g.tokenizeLine limits line stack).result = .ok r → OpenRegions r.stack.regions

theorem OpenRegions.oneRoot {regions : List Region} (h : OpenRegions regions) :
    ∀ f ∈ regions, f.OneRoot := by
  induction h with
  | initial => simp
  | line limits line _ hcompiled hline ih =>
      obtain ⟨s, t, hresume, hfinish, rfl⟩ := Grammar.tokenizeLine_eq_ok hline
      have hs := Scan.Settled.resume ih hresume
      have coherent := (Grammar.ofJson_coherent hcompiled).1
      exact ((Scan.Settled.invariant coherent).finish hs hfinish).oneRoot

namespace Grammar

/-- All tokens are rooted in the scope of the grammar that they are of, and this grammar goes on
from the stack that it leaves, and from any that it has on the way, without a change to it. -/
theorem tokenizeLine_accepted {e : Engine M} {document : Json}
    (compiled : ofJson e document = .ok g) (limits : Limits) (line : Text) {stack : Stack M}
    (opened : OpenRegions stack.regions) {r : LineResult M}
    (h : (g.tokenizeLine limits line stack).result = .ok r) :
    (∀ t ∈ r.tokens, t.scopes.head? = some g.scopeName) ∧
      Scan.resume g r.stack = .ok (Scan.start r.stack) ∧
      ∀ s t, Scan.resume g stack = .ok s → Scan.Reaches g line limits s t →
        Scan.resume g t.stack = .ok (Scan.start t.stack) := by
  have coherent := (ofJson_coherent compiled).1
  have hinvariant : Scan.Invariant g line limits (Scan.Settled g) :=
    Scan.Settled.invariant coherent
  have hstart : ∀ {s}, Scan.resume g stack = .ok s → Scan.Settled g s :=
    Scan.Settled.resume opened.oneRoot
  obtain ⟨s, t, hresume, hfinish, rfl⟩ := tokenizeLine_eq_ok h
  have ht := hinvariant.finish (hstart hresume) hfinish
  refine ⟨?_, ht.accepted.resume_eq, ?_⟩
  · intro u hu
    exact ht.tokens u (List.mem_reverse.mp hu)
  · intro s' t' hresume' hreaches
    exact (hinvariant.reaches (hstart hresume') hreaches).accepted.resume_eq

theorem tokenizeLine_accepted_sample :
    ∃ first second,
      (sample.tokenizeLine .default (Text.ofString "cat <b <c") .initial).result = .ok first ∧
      (sample.tokenizeLine .default (Text.ofString "d <> cat") first.stack).result = .ok second ∧
      (∀ t ∈ second.tokens, t.scopes.head? = some sample.scopeName) ∧
      Scan.resume sample second.stack = .ok (Scan.start second.stack) := by
  have hok : ((sample.tokenizeLine .default (Text.ofString "cat <b <c") .initial).result.bind
      fun first => (sample.tokenizeLine .default (Text.ofString "d <> cat") first.stack).result
      ).isOk = true := by
    decide +kernel
  rcases hfirst : (sample.tokenizeLine .default (Text.ofString "cat <b <c") .initial).result
    with fault | first
  · rw [hfirst] at hok
    cases hok
  · rcases hsecond : (sample.tokenizeLine .default (Text.ofString "d <> cat") first.stack).result
      with fault | second
    · simp only [hfirst, Except.bind, hsecond] at hok
      cases hok
    · have hinitial : OpenRegions (Stack.initial (M := Matcher)).regions := .initial
      obtain ⟨hroot, hresume, -⟩ := tokenizeLine_accepted ofJson_sample .default _
        (.line .default _ hinitial ofJson_sample hfirst) hsecond
      exact ⟨first, second, rfl, hsecond, hroot, hresume⟩

end Grammar

end LineScope
