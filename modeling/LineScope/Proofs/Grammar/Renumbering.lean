import Mathlib.Data.Set.Function
import Mathlib.Order.Interval.Set.Defs
import LineScope.Proofs.Grammar.Blueprint

/-!
Grammars that differ in the numbers of their rules. If the same contexts are drafted in two orders,
a rule is found in both by its site; the contexts inside regions go with the numbers of their rules,
and all else stays.
-/

namespace LineScope

variable {M : Type} {φ : Nat → Nat}

def ContextName.renumber (φ : Nat → Nat) : ContextName → ContextName
  | .inside i => .inside (φ i)
  | name => name

def Rule.renumber (φ : Nat → Nat) (r : Rule M) : Rule M := r.withId (φ r.id)

def Context.renumber (φ : Nat → Nat) (c : Context M) : Context M :=
  ⟨c.name.renumber φ, c.rules.map (Rule.renumber φ)⟩

def Entry.renumber (φ : Nat → Nat) : Entry M → Entry M
  | .rule r => .rule (r.renumber φ)
  | .include target => .include (target.renumber φ)

/-- The second grammar is the first with the number `φ i` for every number `i` of a rule. -/
structure Grammar.Renumbered (φ : Nat → Nat) (g g' : Grammar M) : Prop where
  scopeName : g'.scopeName = g.scopeName
  name : g'.name = g.name
  engine : g'.engine = g.engine
  bijective : Set.BijOn φ (Set.Iio g.rules.length) (Set.Iio g'.rules.length)
  rules : ∀ i r, g.rules[i]? = some r → g'.rules[φ i]? = some (r.withId (φ i))
  contexts : g'.contexts.Perm (g.contexts.map (Context.renumber φ))

/-- The second grammar has all that the first has, under the number `φ i` for every number `i` of a
rule; it may have more. -/
structure Grammar.Embeds (φ : Nat → Nat) (g g' : Grammar M) : Prop where
  scopeName : g'.scopeName = g.scopeName
  engine : g'.engine = g.engine
  injective : Set.InjOn φ (Set.Iio g.rules.length)
  rules : ∀ i r, g.rules[i]? = some r → g'.rules[φ i]? = some (r.withId (φ i))
  contexts : ∀ (name : ContextName) c, g.context? name.text = some c →
    g'.context? (name.renumber φ).text = some (c.renumber φ)

theorem ContextName.renumber_of_not_inside {name : ContextName} (h : ∀ i, name ≠ .inside i) :
    name.renumber φ = name := by
  cases name with
  | inside i => exact absurd rfl (h i)
  | _ => rfl

namespace Seat

variable {seats seats' : List (Seat M)}

def renumbering (seats seats' : List (Seat M)) (i : Nat) : Nat :=
  match seats[i]? with
  | some s => (seats'.map Seat.site).idxOf s.site
  | none => i

theorem eq_of_site (hnodup : (seats.map Seat.site).Nodup) {i j : Nat} {s s' : Seat M}
    (hi : seats[i]? = some s) (hj : seats[j]? = some s') (hsite : s.site = s'.site) : i = j := by
  obtain ⟨hlt, -⟩ := List.getElem?_eq_some_iff.mp hi
  have hlt : i < (seats.map Seat.site).length := by rwa [List.length_map]
  apply (List.getElem?_inj hlt hnodup).mp
  rw [List.getElem?_map, List.getElem?_map, hi, hj, Option.map_some, Option.map_some, hsite]

theorem renumbering_eq (hnodup : (seats'.map Seat.site).Nodup) {i j : Nat} {s : Seat M}
    (hi : seats[i]? = some s) (hj : seats'[j]? = some s) : renumbering seats seats' i = j := by
  have hmem : s.site ∈ seats'.map Seat.site := List.mem_map_of_mem (List.mem_of_getElem? hj)
  have hidx : (seats'.map Seat.site)[(seats'.map Seat.site).idxOf s.site]? = some s.site :=
    List.getElem?_idxOf hmem
  have hj : (seats'.map Seat.site)[j]? = some s.site := by rw [List.getElem?_map, hj]; rfl
  simp only [renumbering, hi]
  exact (List.getElem?_inj (List.idxOf_lt_length_of_mem hmem) hnodup).mp (hidx.trans hj.symm)

theorem getElem?_renumbering (hnodup : (seats'.map Seat.site).Nodup)
    (hsub : seats ⊆ seats') {i : Nat} {s : Seat M} (hi : seats[i]? = some s) :
    seats'[renumbering seats seats' i]? = some s := by
  obtain ⟨j, hj⟩ := List.mem_iff_getElem?.mp (hsub (List.mem_of_getElem? hi))
  rwa [renumbering_eq hnodup hi hj]

theorem renumbering_injOn (hnodup : (seats.map Seat.site).Nodup)
    (hnodup' : (seats'.map Seat.site).Nodup) (hsub : seats ⊆ seats') :
    Set.InjOn (renumbering seats seats') (Set.Iio seats.length) := by
  intro i hi j hj heq
  have hat := getElem?_renumbering hnodup' hsub (List.getElem?_eq_getElem hi)
  have hat' := getElem?_renumbering hnodup' hsub (List.getElem?_eq_getElem hj)
  rw [heq, hat'] at hat
  refine eq_of_site hnodup (List.getElem?_eq_getElem hi) (List.getElem?_eq_getElem hj) ?_
  rw [Option.some.inj hat]

theorem renumbering_bijOn (hnodup : (seats.map Seat.site).Nodup) (hperm : seats.Perm seats') :
    Set.BijOn (renumbering seats seats') (Set.Iio seats.length) (Set.Iio seats'.length) := by
  have hnodup' : (seats'.map Seat.site).Nodup := (hperm.map _).nodup_iff.mp hnodup
  have hsub : seats ⊆ seats' := hperm.subset
  refine ⟨?_, renumbering_injOn hnodup hnodup' hsub, ?_⟩
  · intro i hi
    exact (List.getElem?_eq_some_iff.mp
      (getElem?_renumbering hnodup' hsub (List.getElem?_eq_getElem hi))).1
  · intro j hj
    obtain ⟨i, hi⟩ := List.mem_iff_getElem?.mp (hperm.mem_iff.mpr (List.getElem_mem hj))
    refine ⟨i, (List.getElem?_eq_some_iff.mp hi).1, ?_⟩
    exact renumbering_eq hnodup' hi (List.getElem?_eq_getElem hj)

theorem withId_withId (i j : Nat) (r : Rule M) : (r.withId i).withId j = r.withId j := by
  cases r <;> rfl

theorem plot?_renumber {s : Seat M} {i : Nat} {p : Plot M} (h : s.plot? i = some p) :
    s.plot? (φ i) = some { p with name := p.name.renumber φ } := by
  unfold plot? at h ⊢
  split at h
  · cases h
  · cases h
    rfl

theorem names_plots {n : Nat} {p : Plot M} (h : p ∈ plots n seats) :
    ∃ i, p.name = .inside (n + i) := by
  obtain ⟨i, s, -, hplot⟩ := mem_plots.mp h
  unfold plot? at hplot
  split at hplot
  · cases hplot
  · cases hplot
    exact ⟨i, rfl⟩

theorem plots_cons (n : Nat) (s : Seat M) (rest : List (Seat M)) :
    plots n (s :: rest) = (s.plot? n).toList ++ plots (n + 1) rest := by
  rw [plots, List.zipIdx_cons, List.filterMap_cons]
  rcases s.plot? n with _ | p
  · rfl
  · rfl

theorem nodup_names_plots (n : Nat) (seats : List (Seat M)) :
    ((plots n seats).map Plot.name).Nodup := by
  induction seats generalizing n with
  | nil => exact List.nodup_nil
  | cons s rest ih =>
      rw [plots_cons]
      rcases hplot : s.plot? n with _ | p
      · exact ih (n + 1)
      · refine List.nodup_cons.mpr ⟨?_, ih (n + 1)⟩
        intro hmem
        obtain ⟨q, hq, hname⟩ := List.mem_map.mp hmem
        obtain ⟨i, hi⟩ := names_plots hq
        unfold plot? at hplot
        split at hplot
        · cases hplot
        · cases hplot
          rw [hi] at hname
          have hsame : n + 1 + i = n := ContextName.inside.inj hname
          omega

end Seat

theorem Form.entries_renumber {site : Site} {k k' place : Nat} {forms : List (Form M)}
    (hnumbers : ∀ (j : Nat) (s : Seat M), (seats site place forms)[j]? = some s →
      φ (k + j) = k' + j)
    (hleads : LeadAll (fun target => ∀ i, target ≠ .inside i) forms) :
    entries k' forms = (entries k forms).map (Entry.renumber φ) := by
  induction forms generalizing k k' place with
  | nil => rfl
  | cons f rest ih =>
      rcases f with target | ⟨r, inner⟩
      · have htarget : target.renumber φ = target := ContextName.renumber_of_not_inside hleads.1
        rw [entries, entries, List.map_cons, Entry.renumber, htarget, ih hnumbers hleads.2]
      · have hfirst : φ k = k' := hnumbers 0 _ rfl
        have hshift : ∀ (j : Nat) (s : Seat M), (seats site (place + 1) rest)[j]? = some s →
            φ (k + 1 + j) = k' + 1 + j := by
          intro j s hs
          have hj := hnumbers (j + 1) s hs
          rw [Nat.add_right_comm, Nat.add_assoc, hj]
          omega
        have hrest := ih hshift hleads.2
        rw [entries, entries, List.map_cons, Entry.renumber, Rule.renumber, Rule.withId_id, hfirst,
          Seat.withId_withId, hrest]

structure Layout (forms : List (ContextName × List (Form M))) (laid : List (Nat × Plot M)) :
    Prop where
  laid : Laid 0 (forms.map Plot.declared) laid
  distinct : (forms.map Prod.fst).Nodup
  declared : ∀ f ∈ forms, ∀ i, f.1 ≠ .inside i
  targets : ∀ f ∈ forms, Form.LeadAll (· ∈ forms.map Prod.fst) f.2

namespace Layout

variable {forms forms' : List (ContextName × List (Form M))} {laid laid' : List (Nat × Plot M)}

theorem mem_seats (h : Layout forms laid) {s : Seat M} :
    s ∈ Laid.seats laid ↔ ∃ f ∈ forms, s ∈ (Plot.declared f).allSeats := by
  rw [h.laid.seats_perm.mem_iff, List.mem_flatMap]
  simp only [List.mem_map, exists_exists_and_eq_and]

theorem nodup_sites (h : Layout forms laid) : ((Laid.seats laid).map Seat.site).Nodup := by
  refine (h.laid.seats_perm.map Seat.site).nodup_iff.mpr (Plot.nodup_sites ?_)
  rw [List.map_map]
  exact h.distinct

theorem mem_plots (h : Layout forms laid) {p : Plot M} :
    (∃ k, (k, p) ∈ laid) ↔ (∃ f ∈ forms, Plot.declared f = p) ∨
      ∃ (i : Nat) (s : Seat M), (Laid.seats laid)[i]? = some s ∧ s.plot? i = some p := by
  have hmem : (∃ k, (k, p) ∈ laid) ↔ p ∈ laid.map Prod.snd := by simp
  rw [hmem, h.laid.plots_eq, List.mem_append, List.mem_map, Seat.mem_plots]
  simp only [Nat.zero_add]

theorem nodup_names (h : Layout forms laid) : (laid.map fun x => x.2.name).Nodup := by
  have heq : (laid.map fun x => x.2.name) = (laid.map Prod.snd).map Plot.name := by
    rw [List.map_map]
    rfl
  rw [heq, h.laid.plots_eq, List.map_append, List.nodup_append]
  refine ⟨?_, Seat.nodup_names_plots 0 _, ?_⟩
  · rw [List.map_map]
    exact h.distinct
  · rintro _ hfirst _ hsecond rfl
    obtain ⟨p, hp, hname⟩ := List.mem_map.mp hfirst
    obtain ⟨f, hf, rfl⟩ := List.mem_map.mp hp
    obtain ⟨q, hq, hname'⟩ := List.mem_map.mp hsecond
    obtain ⟨i, hi⟩ := Seat.names_plots hq
    exact h.declared f hf _ (hname.trans (hname'.symm.trans hi))

theorem leadAll (h : Layout forms laid) :
    ∀ x ∈ laid, Form.LeadAll (· ∈ forms.map Prod.fst) x.2.forms := by
  apply h.laid.leadAll
  intro p hp
  obtain ⟨f, hf, rfl⟩ := List.mem_map.mp hp
  exact h.targets f hf

theorem names_drafts (laid : List (Nat × Plot M)) :
    (Laid.drafts laid).map DraftContext.name = laid.map fun x => x.2.name := by
  rw [Laid.drafts, List.map_map]
  rfl

theorem entriesOf_eq (h : Layout forms laid) {k : Nat} {p : Plot M} (hp : (k, p) ∈ laid) :
    Expansion.entriesOf (Laid.drafts laid) p.name = Form.entries k p.forms := by
  have hnodup : ((Laid.drafts laid).map DraftContext.name).Nodup := by
    rw [names_drafts]
    exact h.nodup_names
  exact Expansion.entriesOf_of_mem hnodup (List.mem_map_of_mem hp)

theorem seats_subset (h : Layout forms laid) (h' : Layout forms' laid') (hsub : forms ⊆ forms') :
    Laid.seats laid ⊆ Laid.seats laid' := by
  intro s hs
  obtain ⟨f, hf, hs⟩ := h.mem_seats.mp hs
  exact h'.mem_seats.mpr ⟨f, hsub hf, hs⟩

/-- The numbers of rules go with the sites. -/
abbrev renumbering (laid laid' : List (Nat × Plot M)) : Nat → Nat :=
  Seat.renumbering (Laid.seats laid) (Laid.seats laid')

theorem exists_renumbered (h : Layout forms laid) (h' : Layout forms' laid')
    (hsub : forms ⊆ forms') {k : Nat} {p : Plot M} (hp : (k, p) ∈ laid) :
    ∃ k', (k', { p with name := p.name.renumber (renumbering laid laid') }) ∈ laid' ∧
      ∀ j s, p.seats[j]? = some s → renumbering laid laid' (k + j) = k' + j := by
  obtain ⟨k', hk'⟩ :
      ∃ k', (k', { p with name := p.name.renumber (renumbering laid laid') }) ∈ laid' := by
    apply h'.mem_plots.mpr
    rcases h.mem_plots.mp ⟨k, hp⟩ with ⟨f, hf, rfl⟩ | ⟨i, s, hs, hplot⟩
    · refine .inl ⟨f, hsub hf, ?_⟩
      have hname : f.1.renumber (renumbering laid laid') = f.1 :=
        ContextName.renumber_of_not_inside (h.declared f hf)
      simp only [Plot.declared, hname]
    · -- the region that opens the context stands among the other rules, too
      refine .inr ⟨renumbering laid laid' i, s, ?_, Seat.plot?_renumber hplot⟩
      exact Seat.getElem?_renumbering h'.nodup_sites (h.seats_subset h' hsub) hs
  refine ⟨k', hk', fun j s hs => ?_⟩
  obtain ⟨i, rfl, hat⟩ := h.laid.getElem?_seats hp
  obtain ⟨i', rfl, hat'⟩ := h'.laid.getElem?_seats hk'
  rw [Nat.zero_add, Nat.zero_add]
  exact Seat.renumbering_eq h'.nodup_sites (hat j s hs) (hat' j s hs)

theorem exists_of_declared (h : Layout forms laid) {name : ContextName}
    (hname : name ∈ forms.map Prod.fst) :
    ∃ x ∈ laid, x.2.name = name := by
  obtain ⟨f, hf, rfl⟩ := List.mem_map.mp hname
  obtain ⟨k, hk⟩ := h.mem_plots.mpr (.inl ⟨f, hf, rfl⟩)
  exact ⟨_, hk, rfl⟩

theorem renumber_declared (h : Layout forms laid) {name : ContextName}
    (hname : name ∈ forms.map Prod.fst) : name.renumber φ = name := by
  obtain ⟨f, hf, rfl⟩ := List.mem_map.mp hname
  exact ContextName.renumber_of_not_inside (h.declared f hf)

theorem entriesOf_renumber (h : Layout forms laid) (h' : Layout forms' laid')
    (hsub : forms ⊆ forms') {x : Nat × Plot M} (hx : x ∈ laid) :
    Expansion.entriesOf (Laid.drafts laid') (x.2.name.renumber (renumbering laid laid')) =
      (Expansion.entriesOf (Laid.drafts laid) x.2.name).map
        (Entry.renumber (renumbering laid laid')) := by
  obtain ⟨k', hk', hnumbers⟩ := h.exists_renumbered h' hsub hx
  have hleads : Form.LeadAll (fun target => ∀ i, target ≠ .inside i) x.2.forms := by
    refine Form.LeadAll.imp (fun target htarget => ?_) (h.leadAll x hx)
    obtain ⟨f, hf, rfl⟩ := List.mem_map.mp htarget
    exact h.declared f hf
  rw [h.entriesOf_eq hx, ← Form.entries_renumber hnumbers hleads]
  exact h'.entriesOf_eq hk'

theorem flattens_renumber (h : Layout forms laid) (h' : Layout forms' laid')
    (hsub : forms ⊆ forms') {entries : List (Entry M)} {rules : List (Rule M)}
    (hrules : Expansion.Flattens (Laid.drafts laid) entries rules)
    (htargets : ∀ target, .include target ∈ entries → target ∈ forms.map Prod.fst) :
    Expansion.Flattens (Laid.drafts laid') (entries.map (Entry.renumber (renumbering laid laid')))
      (rules.map (Rule.renumber (renumbering laid laid'))) := by
  induction hrules with
  | nil => exact .nil
  | rule _ ih =>
      exact .rule (ih fun target htarget => htargets target (List.mem_cons_of_mem _ htarget))
  | @splice target _ _ _ _ _ ihTarget ihRest =>
      obtain ⟨x, hx, rfl⟩ := h.exists_of_declared (htargets _ (List.mem_cons_self ..))
      have hrest := ihRest fun target htarget => htargets target (List.mem_cons_of_mem _ htarget)
      rw [List.map_cons, List.map_append]
      refine .splice ?_ hrest
      rw [h.entriesOf_renumber h' hsub hx]
      apply ihTarget
      intro target htarget
      rw [h.entriesOf_eq hx, Form.include_mem_entries] at htarget
      exact Form.leadAll_iff.mp (h.leadAll x hx) _ htarget

theorem renumber_mem_all (h : Layout forms laid) (h' : Layout forms' laid')
    (hsub : forms ⊆ forms') {found found' : List (Context M)}
    (hfound : Expansion.all (Laid.drafts laid) = .ok found)
    (hfound' : Expansion.all (Laid.drafts laid') = .ok found') :
    ∀ c ∈ found, c.renumber (renumbering laid laid') ∈ found' := by
  intro c hc
  obtain ⟨name, hname, hnamed, hrules⟩ := exists_of_mem_forall₂ (Expansion.all_expanded hfound) hc
  rw [names_drafts] at hname
  obtain ⟨x, hx, rfl⟩ := List.mem_map.mp hname
  obtain ⟨k', hk', -⟩ := h.exists_renumbered h' hsub hx
  have hname' : x.2.name.renumber (renumbering laid laid') ∈
      (Laid.drafts laid').map DraftContext.name := by
    rw [names_drafts]
    exact List.mem_map_of_mem (f := fun x : Nat × Plot M => x.2.name) hk'
  obtain ⟨c', hc', hnamed', hrules'⟩ :=
    exists_of_mem_forall₂ (Expansion.all_expanded hfound').flip hname'
  have htargets : ∀ target, .include target ∈ Expansion.entriesOf (Laid.drafts laid) x.2.name →
      target ∈ forms.map Prod.fst := by
    intro target htarget
    rw [h.entriesOf_eq hx, Form.include_mem_entries] at htarget
    exact Form.leadAll_iff.mp (h.leadAll x hx) _ htarget
  have hsame := h.flattens_renumber h' hsub hrules htargets
  rw [← h.entriesOf_renumber h' hsub hx] at hsame
  have heq : c' = c.renumber (renumbering laid laid') := by
    rw [Context.renumber, hnamed, hsame.unique hrules', ← hnamed']
  rwa [← heq]

theorem renumber_back (h : Layout forms laid) (h' : Layout forms' laid')
    (hsub : forms ⊆ forms') {x : Nat × Plot M} (hx : x ∈ laid) :
    (x.2.name.renumber (renumbering laid laid')).renumber (renumbering laid' laid) = x.2.name := by
  rcases h.mem_plots.mp ⟨x.1, hx⟩ with ⟨f, hf, hplot⟩ | ⟨i, s, hs, hplot⟩
  · have hname : x.2.name ∈ forms.map Prod.fst := by
      rw [← hplot]
      exact List.mem_map_of_mem hf
    rw [h.renumber_declared hname, h.renumber_declared hname]
  · have hs' := Seat.getElem?_renumbering h'.nodup_sites (h.seats_subset h' hsub) hs
    have hname : x.2.name = .inside i := by
      unfold Seat.plot? at hplot
      split at hplot
      · cases hplot
      · rw [← Option.some.inj hplot]
    rw [hname]
    exact congrArg ContextName.inside (Seat.renumbering_eq h.nodup_sites hs' hs)

theorem names_all {found : List (Context M)}
    (hfound : Expansion.all (Laid.drafts laid) = .ok found) :
    found.map Context.name = laid.map fun x => x.2.name := by
  rw [(Expansion.all_drawn hfound).1, names_drafts]

/-- Two orders of the same contexts lead to the same contexts, but for the numbers. -/
theorem all_perm (h : Layout forms laid) (h' : Layout forms' laid') (hperm : forms'.Perm forms)
    {found found' : List (Context M)} (hfound : Expansion.all (Laid.drafts laid) = .ok found)
    (hfound' : Expansion.all (Laid.drafts laid') = .ok found') :
    found'.Perm (found.map (Context.renumber (renumbering laid laid'))) := by
  have hsub : forms ⊆ forms' := hperm.symm.subset
  have hsub' : forms' ⊆ forms := hperm.subset
  have hnodup : (found.map Context.name).Nodup := names_all hfound ▸ h.nodup_names
  have hnodup' : (found'.map Context.name).Nodup := names_all hfound' ▸ h'.nodup_names
  have hback : ∀ c ∈ found, (c.name.renumber (renumbering laid laid')).renumber
      (renumbering laid' laid) = c.name := by
    intro c hc
    have hname : c.name ∈ laid.map fun x => x.2.name :=
      names_all hfound ▸ List.mem_map_of_mem hc
    obtain ⟨x, hx, hname⟩ := List.mem_map.mp hname
    rw [← hname]
    exact h.renumber_back h' hsub hx
  have hinj : ∀ c ∈ found, ∀ d ∈ found, c.renumber (renumbering laid laid') =
      d.renumber (renumbering laid laid') → c = d := by
    intro c hc d hd heq
    have hname := congrArg (ContextName.renumber (renumbering laid' laid))
      (congrArg Context.name heq)
    simp only [Context.renumber, hback c hc, hback d hd] at hname
    exact List.inj_on_of_nodup_map hnodup hc hd hname
  -- contexts of either side are distinct, so that it is enough to find each on the other side
  apply (List.perm_ext_iff_of_nodup (List.Nodup.of_map _ hnodup')
    (List.Nodup.map_on hinj (List.Nodup.of_map _ hnodup))).mpr
  intro c'
  rw [List.mem_map]
  constructor
  · intro hc'
    have hc := h'.renumber_mem_all h hsub' hfound' hfound c' hc'
    refine ⟨_, hc, ?_⟩
    have hname : c'.name ∈ laid'.map fun x => x.2.name :=
      names_all hfound' ▸ List.mem_map_of_mem hc'
    obtain ⟨x, hx, hname⟩ := List.mem_map.mp hname
    refine List.inj_on_of_nodup_map hnodup' (h.renumber_mem_all h' hsub hfound hfound' _ hc) hc' ?_
    have hback := h'.renumber_back h hsub' hx
    rwa [hname] at hback
  · rintro ⟨c, hc, rfl⟩
    exact h.renumber_mem_all h' hsub hfound hfound' c hc

theorem rules_renumber (h : Layout forms laid) (h' : Layout forms' laid')
    (hsub : forms ⊆ forms') {i : Nat} {r : Rule M}
    (hr : (Seat.numbered 0 (Laid.seats laid))[i]? = some r) :
    (Seat.numbered 0 (Laid.seats laid'))[renumbering laid laid' i]? =
      some (r.withId (renumbering laid laid' i)) := by
  rw [Seat.getElem?_numbered] at hr ⊢
  obtain ⟨s, hs, rfl⟩ := Option.map_eq_some_iff.mp hr
  rw [Seat.getElem?_renumbering h'.nodup_sites (h.seats_subset h' hsub) hs, Option.map_some,
    Seat.withId_withId, Nat.zero_add]

theorem seats_perm (h : Layout forms laid) (h' : Layout forms' laid') (hperm : forms'.Perm forms) :
    (Laid.seats laid).Perm (Laid.seats laid') := by
  refine h.laid.seats_perm.trans (.trans ?_ h'.laid.seats_perm.symm)
  exact (hperm.symm.map Plot.declared).flatMap_right _

end Layout

theorem Seat.length_numbered (n : Nat) (seats : List (Seat M)) :
    (numbered n seats).length = seats.length := by
  rw [numbered, List.length_map, List.length_zipIdx]

theorem Seat.countP_numbered (n : Nat) (seats : List (Seat M)) :
    (numbered n seats).countP Rule.isRegion = seats.countP fun s => s.rule.isRegion := by
  have hregion : ∀ (i : Nat) (r : Rule M), (r.withId i).isRegion = r.isRegion := by
    intro i r
    cases r <;> rfl
  induction seats generalizing n with
  | nil => rfl
  | cons s rest ih =>
      have hcons : numbered n (s :: rest) = s.rule.withId n :: numbered (n + 1) rest := rfl
      rw [hcons, List.countP_cons, List.countP_cons, ih (n + 1), hregion]

namespace Blueprint

open Json GrammarDocument

variable {e : Engine M} {members : Members} {b : Blueprint}
  {forms : List (ContextName × List (Form M))}

theorem Formed.names (h : b.Formed e forms) :
    forms.map Prod.fst = b.contexts.map DeclaredContext.name := by
  unfold Formed at h
  generalize b.contexts = contexts at h
  induction h with
  | nil => rfl
  | cons hc _ ih => rw [List.map_cons, List.map_cons, ih, hc.name]

theorem names_contexts (hb : ofJson (.obj members) = .ok b) :
    b.contexts.map DeclaredContext.name =
      .root :: (repositoryOf members).map fun m => .entry m.1 := by
  obtain ⟨_, root, cs, -, -, hcs, rfl⟩ := ofJson_eq_ok.mp hb
  exact congrArg _ (names_of_entries (entries_eq_ok.mp (repository_eq_ok.mp hcs).2))

theorem Formed.layout (h : b.Formed e forms) (hb : ofJson (.obj members) = .ok b)
    (hkeys : ((repositoryOf members).map Prod.fst).Nodup) {laid : List (Nat × Plot M)}
    (hlaid : Laid 0 (forms.map Plot.declared) laid) : Layout forms laid := by
  have hnames : forms.map Prod.fst = .root :: (repositoryOf members).map fun m => .entry m.1 :=
    h.names.trans (names_contexts hb)
  refine ⟨hlaid, ?_, ?_, ?_⟩
  · rw [hnames]
    refine List.nodup_cons.mpr ⟨by simp, ?_⟩
    have hentries := hkeys.map (f := ContextName.entry) fun _ _ => ContextName.entry.inj
    rwa [List.map_map] at hentries
  · rintro f hf i heq
    have hname : f.1 ∈ forms.map Prod.fst := List.mem_map_of_mem hf
    rw [hnames, heq] at hname
    simp at hname
  · intro f hf
    obtain ⟨c, -, hc⟩ := exists_of_mem_forall₂ h hf
    refine Declaration.leadAll_formsAmong (fun reference target htarget => ?_) c.members hc.forms
    rw [h.names]
    exact target?_mem hb htarget

end Blueprint

namespace Grammar

open Json GrammarDocument

variable {e : Engine M} {members : Members} {g : Grammar M}

/-- What a grammar is made of: a blueprint, the forms of its contexts, and all contexts in order. -/
structure Built (e : Engine M) (b : Blueprint) (forms : List (ContextName × List (Form M)))
    (laid : List (Nat × Plot M)) (g : Grammar M) : Prop where
  formed : b.Formed e forms
  layout : Layout forms laid
  scopeName : g.scopeName = b.scopeName
  name : g.name = b.name
  engine : g.engine = e
  contexts : Expansion.all (Laid.drafts laid) = .ok g.contexts
  rules : g.rules = Seat.numbered 0 (Laid.seats laid)

theorem exists_built (hkeys : ((repositoryOf members).map Prod.fst).Nodup)
    (h : ofJson e (.obj members) = .ok g) :
    ∃ b forms laid, Blueprint.ofJson (.obj members) = .ok b ∧ Built e b forms laid g := by
  obtain ⟨b, hb, h⟩ := bind_eq_ok.mp h
  obtain ⟨⟨drafts, rules⟩, hdraft, h⟩ := bind_eq_ok.mp h
  obtain ⟨contexts, hcontexts, heq⟩ := bind_eq_ok.mp h
  cases heq
  obtain ⟨forms, laid, hforms, hlaid, rfl, rfl⟩ := Blueprint.exists_laid hdraft
  exact ⟨b, forms, laid, hb, hforms, hforms.layout hb hkeys hlaid, rfl, rfl, rfl, hcontexts, rfl⟩

theorem context?_eq_some {name : ContextName} {c : Context M} (h : g.context? name.text = some c) :
    c ∈ g.contexts ∧ c.name = name := by
  refine ⟨List.mem_of_find?_eq_some h, ContextName.text_inj.mp ?_⟩
  simpa using List.find?_some h

theorem context?_of_mem (hnodup : (g.contexts.map Context.name).Nodup) {c : Context M}
    (hc : c ∈ g.contexts) : g.context? c.name.text = some c := by
  obtain ⟨d, hd⟩ : ∃ d, g.context? c.name.text = some d :=
    Option.isSome_iff_exists.mp (Coherent.context?_isSome ⟨c, hc, rfl⟩)
  obtain ⟨hmem, hname⟩ := context?_eq_some hd
  rw [hd, List.inj_on_of_nodup_map hnodup hmem hc hname]

namespace Built

variable {g' : Grammar M} {b b' : Blueprint} {forms forms' : List (ContextName × List (Form M))}
  {laid laid' : List (Nat × Plot M)}

theorem nodup_names (h : Built e b forms laid g) : (g.contexts.map Context.name).Nodup := by
  rw [Layout.names_all h.contexts]
  exact h.layout.nodup_names

/-- More declared contexts, in whatever order, make a grammar that has all of the first. -/
theorem embeds (h : Built e b forms laid g) (h' : Built e b' forms' laid' g')
    (hsub : forms ⊆ forms') (hscopeName : b'.scopeName = b.scopeName) :
    Embeds (Layout.renumbering laid laid') g g' where
  scopeName := by rw [h'.scopeName, hscopeName, h.scopeName]
  engine := h'.engine.trans h.engine.symm
  injective := by
    rw [h.rules, Seat.length_numbered]
    exact Seat.renumbering_injOn h.layout.nodup_sites h'.layout.nodup_sites
      (h.layout.seats_subset h'.layout hsub)
  rules i r hr := by
    rw [h.rules] at hr
    rw [h'.rules]
    exact h.layout.rules_renumber h'.layout hsub hr
  contexts name c hc := by
    obtain ⟨hmem, rfl⟩ := context?_eq_some hc
    exact context?_of_mem h'.nodup_names
      (h.layout.renumber_mem_all h'.layout hsub h.contexts h'.contexts c hmem)

theorem renumbered (h : Built e b forms laid g) (h' : Built e b' forms' laid' g')
    (hperm : forms'.Perm forms) (hscopeName : b'.scopeName = b.scopeName)
    (hname : b'.name = b.name) : Renumbered (Layout.renumbering laid laid') g g' := by
  have hembeds := h.embeds h' hperm.symm.subset hscopeName
  refine ⟨hembeds.scopeName, ?_, hembeds.engine, ?_, hembeds.rules, ?_⟩
  · rw [h'.name, hname, h.name]
  · rw [h.rules, h'.rules, Seat.length_numbered, Seat.length_numbered]
    exact Seat.renumbering_bijOn h.layout.nodup_sites (h.layout.seats_perm h'.layout hperm)
  · exact h.layout.all_perm h'.layout hperm h.contexts h'.contexts

theorem regionCount_le (h : Built e b forms laid g) (h' : Built e b' forms' laid' g')
    (hsub : forms ⊆ forms') : g.regionCount ≤ g'.regionCount := by
  have hnodup : (Laid.seats laid).Nodup := List.Nodup.of_map _ h.layout.nodup_sites
  have hsubperm := List.subperm_of_subset hnodup (h.layout.seats_subset h'.layout hsub)
  rw [regionCount, regionCount, h.rules, h'.rules, Seat.countP_numbered, Seat.countP_numbered]
  exact hsubperm.countP_le _

theorem regionCount_eq (h : Built e b forms laid g) (h' : Built e b' forms' laid' g')
    (hperm : forms'.Perm forms) : g'.regionCount = g.regionCount := by
  rw [regionCount, regionCount, h.rules, h'.rules, Seat.countP_numbered, Seat.countP_numbered]
  exact ((h.layout.seats_perm h'.layout hperm).countP_eq _).symm

end Built

end Grammar

end LineScope
