import LineScope.Proofs.Scan.Frames
import LineScope.Proofs.Scan.Invariant

namespace LineScope

variable {M : Type} {g : Grammar M} {line : Text} {limits : Limits}

/-- The end pattern of a region that a rule opens: that of the rule, and if this refers to the begin
match, with the texts of a begin match filled in or with the references left out. -/
def RegionRule.Ends (e : Engine M) (r : RegionRule M) (endSource : String) : Prop :=
  if r.bindsEnd then
    (∃ line start hit, e.search r.opener line start = some hit ∧
      BackReference.resolve r.endSource line hit.groups = .ok endSource) ∨
    endSource = BackReference.blank r.endSource
  else endSource = r.endSource

namespace Stack

theorem context_congr {s t : Stack M} (h : s.regions = t.regions) : s.context = t.context := by
  cases s with
  | nil => rw [List.map_eq_nil_iff.mp h.symm]
  | cons f outer =>
      cases t with
      | nil => cases h
      | cons f' outer' => exact congrArg Region.context (List.cons.inj h).1

theorem scopes_congr {s t : Stack M} (h : s.regions = t.regions) (root : String) :
    s.scopes root = t.scopes root := by
  cases s with
  | nil => rw [List.map_eq_nil_iff.mp h.symm]
  | cons f outer =>
      cases t with
      | nil => cases h
      | cons f' outer' => exact congrArg Region.scopes (List.cons.inj h).1

end Stack

/-- A region as a rule opens it inside others. -/
structure Region.OpenedBy (g : Grammar M) (outer : Stack M) (f : Region) (r : RegionRule M) :
    Prop where
  rule : g.region? f.rule = some r
  context : f.context = r.inner.text
  listed : ∃ c, g.context? outer.context = some c ∧ .region r ∈ c.rules
  nameScopes : f.nameScopes = (outer.scopes g.scopeName).extend r.scope
  scopes : f.scopes = f.nameScopes.extend r.contentScope
  endSource : r.Ends g.engine f.endSource

/-- Stacks in which every region is opened by a rule of the context around it. -/
inductive Stack.Shaped (g : Grammar M) : Stack M → Prop
  | initial : Shaped g .initial
  | push {outer : Stack M} {f : Frame M} {r : RegionRule M} :
      Shaped g outer → f.toRegion.OpenedBy g outer r → Shaped g (outer.push f)

namespace Stack.Shaped

theorem congr {s t : Stack M} (h : s.Shaped g) (hregions : t.regions = s.regions) :
    t.Shaped g := by
  induction h generalizing t with
  | initial =>
      rw [List.map_eq_nil_iff.mp hregions]
      exact .initial
  | @push outer f r _ hopened ih =>
      cases t with
      | nil => cases hregions
      | cons f' outer' =>
          obtain ⟨hregion, houter⟩ := List.cons.inj hregions
          refine .push (ih houter) (r := r) ?_
          rw [hregion]
          refine ⟨hopened.rule, hopened.context, ?_, ?_, hopened.scopes, hopened.endSource⟩
          · rw [context_congr houter]
            exact hopened.listed
          · rw [scopes_congr houter]
            exact hopened.nameScopes

theorem pop {s : Stack M} (h : s.Shaped g) : s.pop.Shaped g := by
  cases h with
  | initial => exact .initial
  | push houter _ => exact houter

end Stack.Shaped

namespace Scan

/-- The stack has the shape that the grammar gives it, and is not deeper than `most`. -/
structure Shaped (g : Grammar M) (most : Int) (s : Scan M) : Prop where
  shaped : s.stack.Shaped g
  depth_le : s.stack.depth ≤ most

namespace Shaped

variable {s t : Scan M} {most : Int}

theorem push {c : Candidates M} {r : RegionRule M} {endSource : String} {m : M}
    (coherent : g.Coherent) (h : Shaped g most s) (hmost : limits.depth ≤ most)
    (hdepth : s.stack.depth < limits.depth) (hcandidates : candidates g s.stack = .ok c)
    (hr : .region r ∈ c.rules) (hends : r.Ends g.engine endSource)
    (hstack : t.stack =
      s.stack.push (frameFor r ((s.stack.scopes g.scopeName).extend r.scope) endSource m)) :
    Shaped g most t := by
  obtain ⟨context, hcontext, hrules⟩ := candidates_context hcandidates
  rw [hrules] at hr
  constructor
  · rw [hstack]
    refine .push h.shaped (r := r) ⟨?_, rfl, ⟨context, hcontext, hr⟩, rfl, rfl, hends⟩
    exact coherent.region?_id hcontext hr
  · rw [hstack]
    simp only [Stack.depth, Stack.push, List.length_cons] at hdepth ⊢
    omega

theorem applies {c : Candidates M} {cursor : Int} {found : Found M} (coherent : g.Coherent)
    (hmost : limits.depth ≤ most) (h : Shaped g most s) (hcandidates : candidates g s.stack = .ok c)
    (hoffers : Offers g.engine line cursor c found) (happlies : Applies g line limits s found t) :
    Shaped g most t := by
  have hsame : ∀ {u : Scan M}, u.stack = s.stack → Shaped g most u := by
    intro u hstack
    exact ⟨hstack ▸ h.shaped, hstack ▸ h.depth_le⟩
  cases happlies with
  | skipped => exact h
  | covered => exact hsame (cover_stack ..)
  | capped => exact hsame (cover_stack ..)
  | @opened r hit m hdepth hcloser =>
      cases hoffers with
      | rule hr =>
          refine h.push coherent hmost hdepth hcandidates hr ?_ rfl
          rw [RegionRule.Ends, RegionRule.bindsEnd, hcloser]
          rfl
  | @bound r hit endSource m hdepth hcloser hresolve =>
      cases hoffers with
      | rule hr hsearch =>
          refine h.push coherent hmost hdepth hcandidates hr ?_ rfl
          rw [RegionRule.Ends, RegionRule.bindsEnd, hcloser]
          exact .inl ⟨line, cursor, hit, hsearch, hresolve⟩
  | @blanked r hit endSource reason m hdepth hcloser =>
      cases hoffers with
      | rule hr =>
          refine h.push coherent hmost hdepth hcandidates hr ?_ rfl
          rw [RegionRule.Ends, RegionRule.bindsEnd, hcloser]
          exact .inr rfl
  | closed =>
      refine ⟨h.shaped.pop, ?_⟩
      have hlength : s.stack.pop.depth = s.stack.depth - 1 := List.length_tail
      have hdepth := h.depth_le
      simp only [hlength]
      omega

theorem resume {stack : Stack M} (hshaped : stack.Shaped g) (hdepth : stack.depth ≤ most)
    (hresume : Scan.resume g stack = .ok s) : Shaped g most s := by
  rcases resume_regions hresume with hregions | hinitial
  · have hlength : s.stack.depth = stack.depth := by
      simpa [Stack.regions, Stack.depth] using congrArg List.length hregions
    exact ⟨hshaped.congr hregions, hlength ▸ hdepth⟩
  · constructor
    · rw [hinitial]
      exact .initial
    · rw [hinitial]
      exact Int.le_trans (Int.natCast_nonneg _) hdepth

theorem invariant (coherent : g.Coherent) (hmost : limits.depth ≤ most) :
    Invariant g line limits (Shaped g most) where
  congr h hstack _ := ⟨hstack ▸ h.shaped, hstack ▸ h.depth_le⟩
  passTo _ h := ⟨by simpa [passTo] using h.shaped, by simpa [passTo] using h.depth_le⟩
  applies h hcandidates hoffers happlies :=
    h.applies coherent hmost hcandidates hoffers happlies

end Shaped

end Scan

namespace Grammar

/-- The stacks that lines end with, each tokenized from the stack of the one before and with limits
of its own. `most` is the highest limit on the depth so far, or zero if none is higher. -/
inductive Threads (g : Grammar M) : Int → Stack M → Prop
  | initial : Threads g 0 .initial
  | line {most : Int} {stack : Stack M} {r : LineResult M} (limits : Limits) (line : Text) :
      Threads g most stack → (g.tokenizeLine limits line stack).result = .ok r →
        Threads g (max most limits.depth) r.stack

/-- Whatever the lines and the limits are, the stacks that lines end with have the shape that the
grammar gives them, and are no deeper than the highest limit. -/
theorem Threads.stack_shaped {e : Engine M} {document : Json} (compiled : ofJson e document = .ok g)
    {most : Int} {stack : Stack M} (h : g.Threads most stack) :
    stack.Shaped g ∧ stack.depth ≤ most := by
  obtain ⟨coherent, -⟩ := ofJson_coherent compiled
  induction h with
  | initial => exact ⟨.initial, Int.le_refl 0⟩
  | @line most stack r limits line _ hline ih =>
      obtain ⟨s, t, hresume, hfinish, rfl⟩ := tokenizeLine_eq_ok hline
      have hs : Scan.Shaped g (max most limits.depth) s :=
        .resume ih.1 (Int.le_trans ih.2 (Int.le_max_left ..)) hresume
      have ht := (Scan.Shaped.invariant coherent (Int.le_max_right ..)).finish hs hfinish
      exact ⟨ht.shaped, ht.depth_le⟩

theorem Threads.stack_shaped_sample :
    ∃ r, (sample.tokenizeLine .default (Text.ofString "cat <b <c") .initial).result = .ok r ∧
      r.stack.depth = 2 ∧ r.stack.Shaped sample ∧ r.stack.depth ≤ (100 : Int) := by
  have hdepth : (sample.tokenizeLine .default (Text.ofString "cat <b <c")
      .initial).result.toOption.map (·.stack.depth) = some 2 := by
    decide +kernel
  rcases hline : (sample.tokenizeLine .default (Text.ofString "cat <b <c") .initial).result
    with fault | r
  · rw [hline] at hdepth
    cases hdepth
  · rw [hline] at hdepth
    obtain ⟨hshaped, hmost⟩ := Threads.stack_shaped ofJson_sample (.line .default _ .initial hline)
    exact ⟨r, rfl, Option.some.inj hdepth, hshaped, hmost⟩

end Grammar

end LineScope
