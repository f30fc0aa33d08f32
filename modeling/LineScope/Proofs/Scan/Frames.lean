import LineScope.Proofs.Grammar.Tables
import LineScope.Proofs.Scan.Run

/-!
The frames on the stack of a scan. A resumed stack has only frames that belong to the grammar, and
every frame that a scan pushes belongs to it as well; so each look-up of the rule or the context of
a frame succeeds, and there is a matcher for its end.
-/

namespace LineScope

variable {M : Type} {g : Grammar M} {line : Text} {limits : Limits}

/-- A frame that the grammar can go on from: its rule is one for regions, its context is the one
inside them, and the matcher for the end is at hand. -/
structure Frame.Belongs (g : Grammar M) (f : Frame M) : Prop where
  region : ∃ r, g.region? f.rule = some r ∧ f.context = r.inner.text
  closer : f.closer.isSome

namespace Grammar

theorem rule?_of_region? {id : Int} {r : RegionRule M} (h : g.region? id = some r) :
    g.rule? id = some (.region r) := by
  unfold region? at h
  split at h
  · rename_i r' hrule
    cases h
    exact hrule
  · cases h

namespace Coherent

theorem id_eq (h : g.Coherent) {id : Int} {r : RegionRule M} (hr : g.region? id = some r) :
    (r.id : Int) = id := by
  have hrule := rule?_of_region? hr
  unfold rule? at hrule
  split at hrule
  · cases hrule
  · have hid : r.id = id.toNat := h.numbered _ _ hrule
    omega

theorem context?_of_belongs (h : g.Coherent) {f : Frame M} (hf : f.Belongs g) :
    (g.context? f.context).isSome := by
  obtain ⟨r, hr, hcontext⟩ := hf.region
  rw [hcontext]
  exact context?_isSome (h.inner r (region?_mem hr))

end Coherent

end Grammar

namespace Stack

def context : Stack M → String
  | [] => ContextName.root.text
  | f :: _ => f.context

theorem resumeFrame_belongs {f f' : Frame M} (h : resumeFrame g f = .ok f') : f'.Belongs g := by
  obtain ⟨closer?, -, h⟩ := bind_eq_ok.mp h
  rcases closer? with _ | closer
  · cases h
  · simp only at h
    split at h
    · rename_i hfits
      cases h
      refine ⟨?_, rfl⟩
      unfold fits at hfits
      split at hfits
      · cases hfits
      · rename_i r hr
        simp only [Bool.and_eq_true, beq_iff_eq] at hfits
        exact ⟨r, hr, hfits.1.1.symm⟩
    · cases h

theorem resumeAll_belongs {s t : Stack M} (h : resumeAll g s = .ok t) :
    ∀ f ∈ t, f.Belongs g := by
  induction s generalizing t with
  | nil =>
      cases h
      simp
  | cons f outer ih =>
      obtain ⟨outer', houter, h⟩ := bind_eq_ok.mp h
      obtain ⟨f', hf, heq⟩ := bind_eq_ok.mp h
      cases heq
      exact List.forall_mem_cons.mpr ⟨resumeFrame_belongs hf, ih houter⟩

theorem resumeFrame_region {f f' : Frame M} (h : resumeFrame g f = .ok f') :
    f'.toRegion = f.toRegion := by
  obtain ⟨closer?, -, h⟩ := bind_eq_ok.mp h
  rcases closer? with _ | closer
  · cases h
  · simp only at h
    split at h
    · cases h
      rfl
    · cases h

theorem resumeAll_regions {s t : Stack M} (h : resumeAll g s = .ok t) : t.regions = s.regions := by
  induction s generalizing t with
  | nil =>
      cases h
      rfl
  | cons f outer ih =>
      obtain ⟨outer', houter, h⟩ := bind_eq_ok.mp h
      obtain ⟨f', hf, heq⟩ := bind_eq_ok.mp h
      cases heq
      change f'.toRegion :: regions outer' = f.toRegion :: regions outer
      rw [resumeFrame_region hf, ih houter]

end Stack

namespace Scan

variable {s t : Scan M}

/-- All frames belong to the grammar, and there are no more than a number of them. -/
structure Framed (g : Grammar M) (most : Nat) (s : Scan M) : Prop where
  belongs : ∀ f ∈ s.stack, f.Belongs g
  depth_le : s.stack.depth ≤ most

theorem resume_framed {stack : Stack M} (h : resume g stack = .ok s) :
    Framed g s.stack.depth s := by
  refine ⟨?_, Nat.le_refl _⟩
  unfold resume at h
  split at h
  · rename_i resumed hresume
    cases h
    exact Stack.resumeAll_belongs hresume
  · cases h
    simp [record, start, Stack.initial]
  · cases h

theorem resume_regions {stack : Stack M} (h : resume g stack = .ok s) :
    s.stack.regions = stack.regions ∨ s.stack = .initial := by
  unfold resume at h
  split at h
  · rename_i resumed hresume
    cases h
    exact .inl (Stack.resumeAll_regions hresume)
  · cases h
    exact .inr rfl
  · cases h

theorem candidates_context {stack : Stack M} {c : Candidates M} (h : candidates g stack = .ok c) :
    ∃ context, g.context? stack.context = some context ∧ c.rules = context.rules := by
  unfold candidates at h
  cases stack with
  | nil =>
      simp only [Stack.top?, List.head?_nil] at h
      split at h
      · rename_i context hcontext
        cases h
        exact ⟨context, hcontext, rfl⟩
      · cases h
  | cons f outer =>
      simp only [Stack.top?, List.head?_cons] at h
      split at h
      · cases h
      · cases h
      · rename_i context _ hcontext _
        cases h
        exact ⟨context, hcontext, rfl⟩
      · rename_i context _ hcontext _
        cases h
        exact ⟨context, hcontext, rfl⟩

theorem region?_id_of_candidates (coherent : g.Coherent) {stack : Stack M} {c : Candidates M}
    {r : RegionRule M} (h : candidates g stack = .ok c) (hr : .region r ∈ c.rules) :
    g.region? r.id = some r := by
  obtain ⟨context, hcontext, hrules⟩ := candidates_context h
  exact coherent.region?_id hcontext (hrules ▸ hr)

theorem winner_listed {c : Candidates M} {r : Rule M} {hit : Match} {probes : Nat}
    (hcandidates : candidates g s.stack = .ok c)
    (hchoose : choose g.engine line s.cursor c = (some ⟨.rule r, hit⟩, probes)) :
    ∃ name context, g.context? name = some context ∧ r ∈ context.rules := by
  have hoffers : Offers g.engine line s.cursor c ⟨.rule r, hit⟩ := choose_offers (by rw [hchoose])
  obtain ⟨context, hcontext, hrules⟩ := candidates_context hcandidates
  cases hoffers with
  | rule hr => exact ⟨_, context, hcontext, hrules ▸ hr⟩

namespace Framed

variable {most : Nat}

theorem mono {more : Nat} (h : Framed g most s) (hmore : most ≤ more) : Framed g more s :=
  ⟨h.belongs, Nat.le_trans h.depth_le hmore⟩

theorem of_stack_eq (h : Framed g most s) (hstack : t.stack = s.stack) : Framed g most t := by
  constructor
  · rw [hstack]
    exact h.belongs
  · rw [hstack]
    exact h.depth_le

theorem push {r : RegionRule M} {scopes : ScopePath} {endSource : String} {m : M}
    (h : Framed g most s) (hr : g.region? r.id = some r) (hdepth : s.stack.depth < most)
    (hstack : t.stack = s.stack.push (frameFor r scopes endSource m)) : Framed g most t := by
  constructor
  · rw [hstack]
    exact List.forall_mem_cons.mpr ⟨⟨⟨r, hr, rfl⟩, rfl⟩, h.belongs⟩
  · rw [hstack]
    exact hdepth

theorem pop (h : Framed g most s) (hstack : t.stack = s.stack.pop) : Framed g most t := by
  constructor
  · rw [hstack]
    exact fun f hf => h.belongs f (List.mem_of_mem_tail hf)
  · have hlength : s.stack.pop.depth = s.stack.depth - 1 := List.length_tail
    rw [hstack, hlength]
    exact Nat.le_trans (Nat.sub_le ..) h.depth_le

theorem applies {found : Found M} (h : Framed g most s) (hmost : limits.depth.toNat ≤ most)
    (hrule : ∀ r, found.winner = .rule (.region r) → g.region? r.id = some r)
    (happlies : Applies g line limits s found t) : Framed g most t := by
  cases happlies with
  | skipped => exact h
  | covered => exact h.of_stack_eq (cover_stack ..)
  | capped => exact h.of_stack_eq (cover_stack ..)
  | opened hdepth => exact h.push (hrule _ rfl) (by omega) rfl
  | bound hdepth => exact h.push (hrule _ rfl) (by omega) rfl
  | blanked hdepth => exact h.push (hrule _ rfl) (by omega) rfl
  | closed => exact h.pop rfl

theorem apply {c : Candidates M} {found : Found M} {probes : Nat} (coherent : g.Coherent)
    (h : Framed g most s) (hmost : limits.depth.toNat ≤ most)
    (hcandidates : candidates g s.stack = .ok c)
    (hchoose : choose g.engine line s.cursor c = (some found, probes))
    (happly : (s.counted probes).apply g line limits found = .ok t) : Framed g most t := by
  have hreach : Framed g most ((s.counted probes).reach g found.hit.start) :=
    h.of_stack_eq (reach_stack ..)
  refine hreach.applies hmost ?_ (apply_applies happly)
  intro r hwinner
  rcases found with ⟨winner, hit⟩
  cases hwinner
  obtain ⟨name, context, hcontext, hr⟩ := winner_listed hcandidates hchoose
  exact coherent.region?_id hcontext hr

theorem going (coherent : g.Coherent) (h : Framed g most s) (hmost : limits.depth.toNat ≤ most)
    (hstep : step g line limits s = .going t) : Framed g most t := by
  cases iteration_of_step hstep with
  | moved hcandidates hchoose happly =>
      have ht := h.apply coherent hmost hcandidates hchoose happly
      exact ht.of_stack_eq rfl
  | noted hcandidates hchoose happly =>
      have ht := h.apply coherent hmost hcandidates hchoose happly
      exact ht.of_stack_eq rfl
  | forced hcandidates hchoose happly =>
      have ht := h.apply coherent hmost hcandidates hchoose happly
      exact ht.of_stack_eq (emit_stack ..)

end Framed

end Scan

end LineScope
