import LineScope.Proofs.Grammar.Form

/-!
The numbers that rules get. Contexts are drafted in the order in which they come up, so that the
number of a rule depends on all contexts before its own; but where it stands in the document does
not, and no two rules stand at the same site. The rules that come up in the end are those found by
going down into every region at once.
-/

namespace LineScope

variable {M : Type}

/-- Where a rule stands: the declared context that it is in, and the places of the rule and of the
rules for the regions around it in the lists of their contexts, its own place first. What is inside
the regions of a rule has the site of the rule. -/
structure Site where
  root : ContextName
  path : List Nat
deriving DecidableEq

structure Seat (M : Type) where
  site : Site
  rule : Rule M
  inner : List (Form M)

structure Plot (M : Type) where
  name : ContextName
  site : Site
  forms : List (Form M)

def Plot.named (p : Plot M) : ContextName × List (Form M) := (p.name, p.forms)

def Plot.declared (c : ContextName × List (Form M)) : Plot M := ⟨c.1, ⟨c.1, []⟩, c.2⟩

def Site.push (s : Site) (place : Nat) : Site := ⟨s.root, place :: s.path⟩

def Form.seats (site : Site) : Nat → List (Form M) → List (Seat M)
  | _, [] => []
  | place, .include _ :: rest => seats site (place + 1) rest
  | place, .rule r inner :: rest => ⟨site.push place, r, inner⟩ :: seats site (place + 1) rest

def Plot.seats (p : Plot M) : List (Seat M) := Form.seats p.site 0 p.forms

def Seat.plot? (s : Seat M) (n : Nat) : Option (Plot M) :=
  match s.rule with
  | .leaf _ => none
  | .region _ => some ⟨.inside n, s.site, s.inner⟩

namespace Seat

def numbered (n : Nat) (seats : List (Seat M)) : List (Rule M) :=
  (seats.zipIdx n).map fun s => s.1.rule.withId s.2

def plots (n : Nat) (seats : List (Seat M)) : List (Plot M) :=
  (seats.zipIdx n).filterMap fun s => s.1.plot? s.2

theorem numbered_append (n : Nat) (first second : List (Seat M)) :
    numbered n (first ++ second) = numbered n first ++ numbered (n + first.length) second := by
  rw [numbered, List.zipIdx_append, List.map_append]
  rfl

theorem plots_append (n : Nat) (first second : List (Seat M)) :
    plots n (first ++ second) = plots n first ++ plots (n + first.length) second := by
  rw [plots, List.zipIdx_append, List.filterMap_append]
  rfl

theorem getElem?_numbered (n i : Nat) (seats : List (Seat M)) :
    (numbered n seats)[i]? = seats[i]?.map fun s => s.rule.withId (n + i) := by
  rw [numbered, List.getElem?_map, List.getElem?_zipIdx, Option.map_map]
  rfl

theorem mem_plots {n : Nat} {seats : List (Seat M)} {p : Plot M} :
    p ∈ plots n seats ↔
      ∃ (i : Nat) (s : Seat M), seats[i]? = some s ∧ s.plot? (n + i) = some p := by
  simp only [plots, List.mem_filterMap, Prod.exists]
  constructor
  · rintro ⟨s, i, hs, hp⟩
    obtain ⟨hle, hs⟩ := List.mk_mem_zipIdx_iff_le_and_getElem?_sub.mp hs
    exact ⟨i - n, s, hs, by rwa [Nat.add_sub_cancel' hle]⟩
  · rintro ⟨i, s, hs, hp⟩
    refine ⟨s, n + i, List.mk_mem_zipIdx_iff_le_and_getElem?_sub.mpr ⟨by omega, ?_⟩, hp⟩
    rwa [Nat.add_sub_cancel_left]

end Seat

namespace Form

theorem rules_eq_numbered (site : Site) (n place : Nat) (forms : List (Form M)) :
    rules n forms = Seat.numbered n (seats site place forms) := by
  induction forms generalizing n place with
  | nil => rfl
  | cons f rest ih =>
      rcases f with target | ⟨r, inner⟩
      · exact ih n (place + 1)
      · exact congrArg (r.withId n :: ·) (ih (n + 1) (place + 1))

theorem inside_eq_plots (site : Site) (n place : Nat) (forms : List (Form M)) :
    inside n forms = (Seat.plots n (seats site place forms)).map Plot.named := by
  induction forms generalizing n place with
  | nil => rfl
  | cons f rest ih =>
      rcases f with target | ⟨r | r, inner⟩
      · exact ih n (place + 1)
      · exact ih (n + 1) (place + 1)
      · exact congrArg ((ContextName.inside n, inner) :: ·) (ih (n + 1) (place + 1))

theorem leadAll_inner {P : ContextName → Prop} {site : Site} {place : Nat} {forms : List (Form M)}
    (h : LeadAll P forms) : ∀ s ∈ seats site place forms, LeadAll P s.inner := by
  induction forms generalizing place with
  | nil => simp [seats]
  | cons f rest ih =>
      rcases f with target | ⟨r, inner⟩
      · exact ih h.2
      · exact List.forall_mem_cons.mpr ⟨h.1, ih h.2⟩

end Form

/-- Contexts with the numbers of their first rules, in the order in which they are drafted. Those
that wait come first, and every context adds those inside its regions behind them. -/
inductive Laid : Nat → List (Plot M) → List (Nat × Plot M) → Prop
  | nil {n : Nat} : Laid n [] []
  | cons {n : Nat} {p : Plot M} {waiting : List (Plot M)} {rest : List (Nat × Plot M)} :
      Laid (n + p.seats.length) (waiting ++ Seat.plots n p.seats) rest →
        Laid n (p :: waiting) ((n, p) :: rest)

namespace Laid

def seats (laid : List (Nat × Plot M)) : List (Seat M) := laid.flatMap fun x => x.2.seats

def drafts (laid : List (Nat × Plot M)) : List (DraftContext M) :=
  laid.map fun x => ⟨x.2.name, Form.entries x.1 x.2.forms⟩

variable {n : Nat} {waiting : List (Plot M)} {laid : List (Nat × Plot M)}

theorem plots_eq (h : Laid n waiting laid) :
    laid.map Prod.snd = waiting ++ Seat.plots n (seats laid) := by
  induction h with
  | nil => rfl
  | @cons n p waiting rest _ ih =>
      have hseats : seats ((n, p) :: rest) = p.seats ++ seats rest := rfl
      rw [List.map_cons, ih, hseats, Seat.plots_append, List.append_assoc, List.cons_append]

theorem getElem?_seats (h : Laid n waiting laid) {k : Nat} {p : Plot M} (hp : (k, p) ∈ laid) :
    ∃ i, k = n + i ∧ ∀ j s, p.seats[j]? = some s → (seats laid)[i + j]? = some s := by
  induction h with
  | nil => cases hp
  | @cons n q waiting rest _ ih =>
      have hseats : seats ((n, q) :: rest) = q.seats ++ seats rest := rfl
      rw [hseats]
      rcases List.mem_cons.mp hp with heq | hp
      · cases heq
        refine ⟨0, rfl, fun j s hs => ?_⟩
        obtain ⟨hj, -⟩ := List.getElem?_eq_some_iff.mp hs
        rwa [Nat.zero_add, List.getElem?_append_left hj]
      · obtain ⟨i, rfl, hat⟩ := ih hp
        refine ⟨q.seats.length + i, by omega, fun j s hs => ?_⟩
        rw [List.getElem?_append_right (by omega), show q.seats.length + i + j - q.seats.length =
          i + j by omega]
        exact hat j s hs

theorem leadAll {P : ContextName → Prop} (h : Laid n waiting laid)
    (hwaiting : ∀ p ∈ waiting, Form.LeadAll P p.forms) : ∀ x ∈ laid, Form.LeadAll P x.2.forms := by
  induction h with
  | nil => simp
  | @cons n p waiting rest _ ih =>
      obtain ⟨hp, hrest⟩ := List.forall_mem_cons.mp hwaiting
      refine List.forall_mem_cons.mpr ⟨hp, ih (List.forall_mem_append.mpr ⟨hrest, ?_⟩)⟩
      intro q hq
      obtain ⟨i, s, hs, hplot⟩ := Seat.mem_plots.mp hq
      have hinner := Form.leadAll_inner hp s (List.mem_of_getElem? hs)
      unfold Seat.plot? at hplot
      split at hplot
      · cases hplot
      · cases hplot
        exact hinner

end Laid

mutual

def Form.allSeats (site : Site) : Form M → List (Seat M)
  | .include _ => []
  | .rule (.leaf r) inner => [⟨site, .leaf r, inner⟩]
  | .rule (.region r) inner => ⟨site, .region r, inner⟩ :: Form.allSeatsAmong site 0 inner

def Form.allSeatsAmong (site : Site) : Nat → List (Form M) → List (Seat M)
  | _, [] => []
  | place, f :: rest => f.allSeats (site.push place) ++ Form.allSeatsAmong site (place + 1) rest

end

def Plot.allSeats (p : Plot M) : List (Seat M) := Form.allSeatsAmong p.site 0 p.forms

theorem Form.allSeatsAmong_perm (site : Site) (n place : Nat) (forms : List (Form M)) :
    (allSeatsAmong site place forms).Perm (seats site place forms ++
      (Seat.plots n (seats site place forms)).flatMap Plot.allSeats) := by
  induction forms generalizing n place with
  | nil => exact .nil
  | cons f rest ih =>
      rcases f with target | ⟨r | r, inner⟩
      · exact ih n (place + 1)
      · exact (ih (n + 1) (place + 1)).cons _
      · have hrest := ih (n + 1) (place + 1)
        refine List.Perm.cons _ ((hrest.append_left _).trans ?_)
        rw [← List.append_assoc]
        exact (List.perm_append_comm.append_right _).trans (.of_eq (List.append_assoc ..))

theorem Laid.seats_perm {n : Nat} {waiting : List (Plot M)} {laid : List (Nat × Plot M)}
    (h : Laid n waiting laid) : (seats laid).Perm (waiting.flatMap Plot.allSeats) := by
  induction h with
  | nil => exact .nil
  | @cons n p waiting rest _ ih =>
      have hall : p.allSeats.Perm (p.seats ++ (Seat.plots n p.seats).flatMap Plot.allSeats) :=
        Form.allSeatsAmong_perm ..
      calc
        List.Perm (seats ((n, p) :: rest))
            (p.seats ++ (waiting ++ Seat.plots n p.seats).flatMap Plot.allSeats) :=
          ih.append_left _
        List.Perm _ (p.seats ++ (waiting.flatMap Plot.allSeats ++
            (Seat.plots n p.seats).flatMap Plot.allSeats)) := .of_eq (by rw [List.flatMap_append])
        List.Perm _ (p.seats ++ ((Seat.plots n p.seats).flatMap Plot.allSeats ++
            waiting.flatMap Plot.allSeats)) := List.perm_append_comm.append_left _
        List.Perm _ ((p.seats ++ (Seat.plots n p.seats).flatMap Plot.allSeats) ++
            waiting.flatMap Plot.allSeats) := .of_eq (List.append_assoc ..).symm
        List.Perm _ ((p :: waiting).flatMap Plot.allSeats) := hall.symm.append_right _

mutual

theorem Form.site_of_mem_allSeats {s : Seat M} : (f : Form M) → {site : Site} →
    s ∈ f.allSeats site → s.site.root = site.root ∧ site.path <:+ s.site.path
  | .include _, _, h => by cases h
  | .rule (.leaf r) inner, site, h => by
      obtain rfl := List.mem_singleton.mp h
      exact ⟨rfl, List.suffix_rfl⟩
  | .rule (.region r) inner, site, h => by
      rcases List.mem_cons.mp h with rfl | h
      · exact ⟨rfl, List.suffix_rfl⟩
      · obtain ⟨hroot, i, -, hpath⟩ := Form.site_of_mem_allSeatsAmong inner h
        exact ⟨hroot, (List.suffix_cons i _).trans hpath⟩

theorem Form.site_of_mem_allSeatsAmong {s : Seat M} : (forms : List (Form M)) → {site : Site} →
    {place : Nat} → s ∈ Form.allSeatsAmong site place forms →
    s.site.root = site.root ∧ ∃ i, place ≤ i ∧ (i :: site.path) <:+ s.site.path
  | [], _, _, h => by cases h
  | f :: rest, site, place, h => by
      rcases List.mem_append.mp h with h | h
      · obtain ⟨hroot, hpath⟩ := Form.site_of_mem_allSeats f h
        exact ⟨hroot, place, Nat.le_refl _, hpath⟩
      · obtain ⟨hroot, i, hi, hpath⟩ := Form.site_of_mem_allSeatsAmong rest h
        exact ⟨hroot, i, Nat.le_of_succ_le hi, hpath⟩

end

mutual

theorem Form.nodup_allSeats : (f : Form M) → (site : Site) →
    ((f.allSeats site).map Seat.site).Nodup
  | .include _, _ => List.nodup_nil
  | .rule (.leaf r) inner, site => List.pairwise_singleton ..
  | .rule (.region r) inner, site => by
      refine List.nodup_cons.mpr ⟨?_, Form.nodup_allSeatsAmong inner site 0⟩
      intro hsite
      obtain ⟨s, hs, heq⟩ := List.mem_map.mp hsite
      obtain ⟨-, i, -, hpath⟩ := Form.site_of_mem_allSeatsAmong inner hs
      rw [heq] at hpath
      exact Nat.not_succ_le_self _ hpath.length_le

theorem Form.nodup_allSeatsAmong : (forms : List (Form M)) → (site : Site) → (place : Nat) →
    ((Form.allSeatsAmong site place forms).map Seat.site).Nodup
  | [], _, _ => List.nodup_nil
  | f :: rest, site, place => by
      rw [Form.allSeatsAmong, List.map_append, List.nodup_append]
      refine ⟨Form.nodup_allSeats f _, Form.nodup_allSeatsAmong rest site (place + 1), ?_⟩
      rintro _ hfirst _ hrest rfl
      obtain ⟨s, hs, heq⟩ := List.mem_map.mp hfirst
      obtain ⟨s', hs', heq'⟩ := List.mem_map.mp hrest
      obtain ⟨-, hpath⟩ := Form.site_of_mem_allSeats f hs
      obtain ⟨-, i, hi, hpath'⟩ := Form.site_of_mem_allSeatsAmong rest hs'
      rw [heq] at hpath
      rw [heq'] at hpath'
      -- both paths end in the place of the form and the path of the site, which are of one length
      have hlength : (site.push place).path.length = (i :: site.path).length := rfl
      have hsuffix := List.suffix_of_suffix_length_le hpath hpath' (Nat.le_of_eq hlength)
      have hplace : place = i := (List.cons.inj (hsuffix.eq_of_length hlength)).1
      omega

end

/-- No two rules have one site, if the contexts are declared under different names. -/
theorem Plot.nodup_sites {plots : List (Plot M)} (h : (plots.map fun p => p.site.root).Nodup) :
    ((plots.flatMap Plot.allSeats).map Seat.site).Nodup := by
  induction plots with
  | nil => exact List.nodup_nil
  | cons p rest ih =>
      obtain ⟨hnotin, hrest⟩ := List.nodup_cons.mp h
      rw [List.flatMap_cons, List.map_append, List.nodup_append]
      refine ⟨Form.nodup_allSeatsAmong .., ih hrest, ?_⟩
      rintro _ hfirst _ hmore rfl
      obtain ⟨s, hs, heq⟩ := List.mem_map.mp hfirst
      obtain ⟨s', hs', heq'⟩ := List.mem_map.mp hmore
      obtain ⟨q, hq, hs'⟩ := List.mem_flatMap.mp hs'
      have hroot := (Form.site_of_mem_allSeatsAmong p.forms hs).1
      have hroot' := (Form.site_of_mem_allSeatsAmong q.forms hs').1
      refine hnotin (List.mem_map.mpr ⟨q, hq, ?_⟩)
      rw [← hroot', heq', ← heq, hroot]

namespace Draft

open Declaration (formsAmong)

variable {e : Engine M} {b : Blueprint}

theorem grow_inj {d : Draft M} {rules rules' : List (Rule M)}
    {waiting waiting' : List DeclaredContext}
    (h : d.grow rules waiting = d.grow rules' waiting') : rules = rules' ∧ waiting = waiting' := by
  obtain ⟨hrules, hwaiting⟩ := Draft.mk.inj h
  exact ⟨List.append_cancel_left hrules, List.append_cancel_left hwaiting⟩

theorem count_of_members {context : ContextName} {index : Nat} {declared : List Declaration}
    {d : Draft M} {entries : List (Entry M)} {rules : List (Rule M)}
    {added : List DeclaredContext}
    (h : members e b context index declared d = .ok (entries, d.grow rules added)) :
    DeclaredContext.count added = Declaration.regionsAmong declared := by
  obtain ⟨rules', added', heq, hadds⟩ := members_adds h
  rw [(grow_inj heq).2, hadds.counted]

theorem count_step {c : DeclaredContext} {waiting added : List DeclaredContext} {fuel : Nat}
    (hcount : DeclaredContext.count added = Declaration.regionsAmong c.members)
    (hfuel : DeclaredContext.count (c :: waiting) ≤ fuel + 1) :
    DeclaredContext.count (waiting ++ added) ≤ fuel := by
  rw [DeclaredContext.count_append, hcount]
  simp only [DeclaredContext.count] at hfuel
  omega

/-- If the contexts that wait have forms, they are drafted, in the order in which they come up. -/
theorem contexts_laid {fuel : Nat} {d : Draft M} {plots : List (Plot M)}
    (hfuel : DeclaredContext.count d.waiting ≤ fuel)
    (hplots : List.Forall₂ (Sown e b.target?) d.waiting (plots.map Plot.named)) :
    ∃ laid, Laid d.rules.length plots laid ∧ contexts e b fuel d =
      .ok (Laid.drafts laid, d.rules ++ Seat.numbered d.rules.length (Laid.seats laid)) := by
  induction fuel generalizing d plots with
  | zero =>
      rcases hwaiting : d.waiting with _ | ⟨c, waiting⟩
      · rw [hwaiting] at hplots
        obtain rfl := List.map_eq_nil_iff.mp (List.forall₂_nil_left_iff.mp hplots)
        exact ⟨[], .nil, by simp [contexts, Laid.drafts, Laid.seats, Seat.numbered]⟩
      · simp [hwaiting, DeclaredContext.count] at hfuel
  | succ fuel ih =>
      rcases hwaiting : d.waiting with _ | ⟨c, waiting⟩
      · rw [hwaiting] at hplots
        obtain rfl := List.map_eq_nil_iff.mp (List.forall₂_nil_left_iff.mp hplots)
        exact ⟨[], .nil, by simp [contexts, hwaiting, Laid.drafts, Laid.seats, Seat.numbered]⟩
      · rw [hwaiting] at hplots hfuel
        rcases plots with _ | ⟨p, rest⟩
        · cases hplots
        obtain ⟨hp, hrest⟩ := List.forall₂_cons.mp hplots
        obtain ⟨added, hmembers, hsown⟩ : Yields e b.target? { d with waiting } p.forms
            (members e b c.name 0 c.members { d with waiting }) := members_yields hp.forms 0 _
        have hinside : List.Forall₂ (Sown e b.target?) (waiting ++ added)
            ((rest ++ Seat.plots d.rules.length p.seats).map Plot.named) := by
          rw [Form.inside_eq_plots p.site _ 0] at hsown
          rw [List.map_append]
          exact List.rel_append hrest hsown
        have hcount := count_step (count_of_members hmembers) hfuel
        obtain ⟨laid, hlaid, hcontexts⟩ := ih (d := .grow { d with waiting } _ added) hcount hinside
        have hrules : Form.rules d.rules.length p.forms = Seat.numbered d.rules.length p.seats :=
          Form.rules_eq_numbered p.site _ 0 _
        have hlength : (d.rules ++ Form.rules d.rules.length p.forms).length =
            d.rules.length + p.seats.length := by
          simp [hrules, Seat.numbered]
        refine ⟨(d.rules.length, p) :: laid, .cons (hlength ▸ hlaid), ?_⟩
        simp only [contexts, hwaiting]
        refine bind_eq_ok.mpr ⟨_, hmembers, bind_eq_ok.mpr ⟨_, hcontexts, ?_⟩⟩
        have hseats : Laid.seats ((d.rules.length, p) :: laid) = p.seats ++ Laid.seats laid := rfl
        rw [hseats, Seat.numbered_append, ← hrules, ← List.append_assoc, ← hlength, hp.name]
        rfl

theorem allFormed_of_contexts {fuel : Nat} {d : Draft M}
    {o : List (DraftContext M) × List (Rule M)}
    (hfuel : DeclaredContext.count d.waiting ≤ fuel) (h : contexts e b fuel d = .ok o) :
    AllFormed e b.target? d.waiting := by
  induction fuel generalizing d o with
  | zero =>
      rcases hwaiting : d.waiting with _ | ⟨c, waiting⟩
      · simp [AllFormed]
      · simp [hwaiting, DeclaredContext.count] at hfuel
  | succ fuel ih =>
      rcases hwaiting : d.waiting with _ | ⟨c, waiting⟩
      · simp [AllFormed]
      · simp only [contexts, hwaiting] at h
        rw [hwaiting] at hfuel
        obtain ⟨⟨entries, between⟩, hmembers, h⟩ := bind_eq_ok.mp h
        obtain ⟨⟨more, last⟩, hmore, -⟩ := bind_eq_ok.mp h
        obtain ⟨rules, added, rfl, hforms⟩ := members_awaits c.members 0 _ _ _ hmembers
        have hcount := count_step (count_of_members hmembers) hfuel
        obtain ⟨hrest, hadded⟩ := List.forall_mem_append.mp (ih hcount hmore)
        exact List.forall_mem_cons.mpr ⟨hforms hadded, hrest⟩

end Draft

namespace Blueprint

variable {e : Engine M} {b : Blueprint}

def Formed (e : Engine M) (b : Blueprint) (forms : List (ContextName × List (Form M))) : Prop :=
  List.Forall₂ (Draft.Sown e b.target?) b.contexts forms

theorem Formed.unique {forms forms' : List (ContextName × List (Form M))} (h : b.Formed e forms)
    (h' : b.Formed e forms') : forms = forms' := by
  refine List.right_unique_forall₂' (fun c f f' hf hf' => ?_) h h'
  exact Prod.ext (hf.name.symm.trans hf'.name) (Option.some.inj (hf.forms.symm.trans hf'.forms))

theorem exists_formed_iff :
    (∃ forms, b.Formed e forms) ↔ Draft.AllFormed e b.target? b.contexts := by
  refine exists_forall₂_iff.trans (forall₂_congr fun c _ => ?_)
  constructor
  · rintro ⟨⟨name, forms⟩, hc⟩
    exact ⟨forms, hc.forms⟩
  · rintro ⟨forms, hforms⟩
    exact ⟨(c.name, forms), rfl, hforms⟩

theorem Formed.draft_eq {forms : List (ContextName × List (Form M))} (h : b.Formed e forms) :
    ∃ laid, Laid 0 (forms.map Plot.declared) laid ∧
      b.draft e = .ok (Laid.drafts laid, Seat.numbered 0 (Laid.seats laid)) := by
  have hplots : List.Forall₂ (Draft.Sown e b.target?) b.contexts
      ((forms.map Plot.declared).map Plot.named) := by
    rw [List.map_map, show Plot.named ∘ Plot.declared = id from rfl, List.map_id]
    exact h
  obtain ⟨laid, hlaid, hdraft⟩ :=
    Draft.contexts_laid (d := ⟨[], b.contexts⟩) (Nat.le_refl _) hplots
  exact ⟨laid, hlaid, hdraft⟩

/-- A grammar is drafted if and only if all its contexts have forms. -/
theorem exists_draft_iff :
    (∃ o, b.draft e = .ok o) ↔ ∃ forms, b.Formed e forms := by
  constructor
  · rintro ⟨o, hdraft⟩
    exact exists_formed_iff.mpr
      (Draft.allFormed_of_contexts (d := ⟨[], b.contexts⟩) (Nat.le_refl _) hdraft)
  · rintro ⟨forms, hforms⟩
    obtain ⟨laid, -, hdraft⟩ := hforms.draft_eq
    exact ⟨_, hdraft⟩

theorem exists_laid {drafts : List (DraftContext M)} {rules : List (Rule M)}
    (h : b.draft e = .ok (drafts, rules)) :
    ∃ forms laid, b.Formed e forms ∧ Laid 0 (forms.map Plot.declared) laid ∧
      drafts = Laid.drafts laid ∧ rules = Seat.numbered 0 (Laid.seats laid) := by
  obtain ⟨forms, hforms⟩ := exists_draft_iff.mp ⟨_, h⟩
  obtain ⟨laid, hlaid, hdraft⟩ := hforms.draft_eq
  cases h.symm.trans hdraft
  exact ⟨forms, laid, hforms, hlaid, rfl, rfl⟩

end Blueprint

end LineScope
