import LineScope.Grammar.Draft

/-!
What drafting a grammar comes to. Every declaration adds rules, which get the next free numbers, and
for each of them that is for regions a context that waits to be drafted; in the end no context is
left waiting.
-/

namespace LineScope

variable {M : Type}

theorem bind_eq_ok {ε α β : Type} {x : Except ε α} {f : α → Except ε β} {b : β} :
    (x >>= f) = .ok b ↔ ∃ a, x = .ok a ∧ f a = .ok b := by
  rcases x with fault | a
  · simp [bind, Except.bind]
  · simp [bind, Except.bind]

theorem bind_eq_error {ε α β : Type} {x : Except ε α} {f : α → Except ε β} {fault : ε} :
    (x >>= f) = .error fault ↔ x = .error fault ∨ ∃ a, x = .ok a ∧ f a = .error fault := by
  rcases x with fault | a
  · simp [bind, Except.bind]
  · simp [bind, Except.bind]

theorem map_eq_ok {ε α β : Type} {x : Except ε α} {f : α → β} {b : β} :
    x.map f = .ok b ↔ ∃ a, x = .ok a ∧ f a = b := by
  rcases x with fault | a
  · simp [Except.map]
  · simp [Except.map]

theorem toOption_eq_some {ε α : Type} {x : Except ε α} {a : α} :
    x.toOption = some a ↔ x = .ok a := by
  cases x <;> simp [Except.toOption]

def Rule.inner? : Rule M → Option ContextName
  | .leaf _ => none
  | .region r => some r.inner

/-- An engine took the end pattern as it stands, or, if this refers to the begin match, with the
references left out. -/
def RegionRule.EndCompiled (e : Engine M) (r : RegionRule M) : Prop :=
  match r.closer with
  | some m => BackReference.occursIn r.endSource = false ∧ e.compile r.endSource = .ok m
  | none =>
    BackReference.occursIn r.endSource = true ∧
      ∃ m, e.compile (BackReference.blank r.endSource) = .ok m

namespace Draft

open Grammar

theorem pattern_eq_ok {e : Engine M} {place : Place} {source : String} {m : M} :
    pattern e place source = .ok m ↔ e.compile source = .ok m := by
  unfold pattern
  split
  · rename_i m' h
    simp [h]
  · rename_i h
    simp [h]
  · rename_i h
    simp [h]

theorem region_eq_ok {e : Engine M} {place : Place} {id : Nat} {f : RegionFields}
    {r : RegionRule M} (h : region e place id f = .ok r) : r.id = id ∧ r.EndCompiled e := by
  simp only [region, bind_eq_ok] at h
  obtain ⟨_, -, _, -, _, -, endSource, -, closer?, hcloser, _, -, _, -, _, -, _, -, heq⟩ := h
  cases heq
  refine ⟨rfl, ?_⟩
  simp only [closer] at hcloser
  split at hcloser
  · rename_i hoccurs
    obtain ⟨m, hm, heq⟩ := bind_eq_ok.mp hcloser
    cases heq
    exact ⟨hoccurs, m, pattern_eq_ok.mp hm⟩
  · rename_i hoccurs
    obtain ⟨m, hm, heq⟩ := bind_eq_ok.mp hcloser
    cases heq
    exact ⟨Bool.eq_false_iff.mpr hoccurs, pattern_eq_ok.mp hm⟩

theorem leaf_eq_ok {e : Engine M} {place : Place} {id : Nat} {f : MatchFields}
    {r : MatchRule M} (h : leaf e place id f = .ok r) : r.id = id := by
  simp only [leaf, bind_eq_ok] at h
  obtain ⟨_, -, _, -, _, -, _, -, heq⟩ := h
  cases heq
  rfl

end Draft

theorem DeclaredContext.count_append (first second : List DeclaredContext) :
    count (first ++ second) = count first + count second := by
  induction first with
  | nil => simp [count]
  | cons c rest ih => simp only [List.cons_append, count, ih, Nat.add_assoc]

/-- What entries add to a draft with `start` rules: rules and contexts that wait, one for each of
the `regions` declared. -/
structure Addition (e : Engine M) (start : Nat) (entries : List (Entry M)) (regions : Nat)
    (rules : List (Rule M)) (waiting : List DeclaredContext) : Prop where
  numbered : ∀ i r, rules[i]? = some r → r.id = start + i
  listed : ∀ r, .rule r ∈ entries → r ∈ rules
  compiled : ∀ r, .region r ∈ rules → r.EndCompiled e
  inner : waiting.map DeclaredContext.name = rules.filterMap Rule.inner?
  counted : DeclaredContext.count waiting = regions

namespace Addition

variable {e : Engine M} {start : Nat}

theorem none {entries : List (Entry M)} (h : ∀ r, .rule r ∉ entries) :
    Addition e start entries 0 [] [] where
  numbered := by simp
  listed r hr := absurd hr (h r)
  compiled := by simp
  inner := rfl
  counted := rfl

theorem leaf {r : MatchRule M} (hid : r.id = start) :
    Addition e start [.rule (.leaf r)] 0 [.leaf r] [] where
  numbered i r' h := by
    obtain ⟨rfl, rfl⟩ : i = 0 ∧ Rule.leaf r = r' := by
      simpa [List.getElem?_cons, and_comm] using h
    exact hid
  listed := by simp
  compiled := by simp
  inner := rfl
  counted := rfl

theorem region {r : RegionRule M} {inner : List Declaration} (hid : r.id = start)
    (hend : r.EndCompiled e) :
    Addition e start [.rule (.region r)] (Declaration.regionsAmong inner + 1) [.region r]
      [⟨r.inner, inner⟩] where
  numbered i r' h := by
    obtain ⟨rfl, rfl⟩ : i = 0 ∧ Rule.region r = r' := by
      simpa [List.getElem?_cons, and_comm] using h
    exact hid
  listed := by simp
  compiled r' h := by
    obtain rfl : r' = r := by simpa using h
    exact hend
  inner := rfl
  counted := by simp [DeclaredContext.count]

theorem append {entries entries' : List (Entry M)} {regions regions' : Nat}
    {rules rules' : List (Rule M)} {waiting waiting' : List DeclaredContext}
    (h : Addition e start entries regions rules waiting)
    (h' : Addition e (start + rules.length) entries' regions' rules' waiting') :
    Addition e start (entries ++ entries') (regions + regions') (rules ++ rules')
      (waiting ++ waiting') where
  numbered i r hr := by
    rcases Nat.lt_or_ge i rules.length with hi | hi
    · exact h.numbered i r (by rwa [List.getElem?_append_left hi] at hr)
    · rw [List.getElem?_append_right hi] at hr
      have hid := h'.numbered _ r hr
      omega
  listed r hr := by
    rcases List.mem_append.mp hr with hr | hr
    · exact List.mem_append_left _ (h.listed r hr)
    · exact List.mem_append_right _ (h'.listed r hr)
  compiled r hr := by
    rcases List.mem_append.mp hr with hr | hr
    · exact h.compiled r hr
    · exact h'.compiled r hr
  inner := by rw [List.map_append, List.filterMap_append, h.inner, h'.inner]
  counted := by rw [DeclaredContext.count_append, h.counted, h'.counted]

end Addition

namespace Draft

variable {e : Engine M} {b : Blueprint} {context : ContextName}

def grow (d : Draft M) (rules : List (Rule M)) (waiting : List DeclaredContext) : Draft M :=
  ⟨d.rules ++ rules, d.waiting ++ waiting⟩

theorem grow_nil (d : Draft M) : d.grow [] [] = d := by
  simp [grow]

theorem grow_grow (d : Draft M) (rules rules' : List (Rule M))
    (waiting waiting' : List DeclaredContext) :
    (d.grow rules waiting).grow rules' waiting' =
      d.grow (rules ++ rules') (waiting ++ waiting') := by
  simp [grow]

mutual

theorem declaration_adds {index : Nat} :
    (declared : Declaration) → {d d' : Draft M} → {entries : List (Entry M)} →
      declaration e b context index declared d = .ok (entries, d') →
      ∃ rules waiting, d' = d.grow rules waiting ∧
        Addition e d.rules.length entries declared.regions rules waiting
  | .malformed, _, _, _, h => by simp [declaration] at h
  | .empty, _, _, _, h => by simp [declaration] at h
  | .include reference, d, d', entries, h => by
      obtain ⟨entry, hentry, heq⟩ := bind_eq_ok.mp (by simpa only [declaration] using h)
      cases heq
      refine ⟨[], [], d.grow_nil.symm, .none ?_⟩
      intro r hr
      obtain rfl : entry = .rule r := (List.mem_singleton.mp hr).symm
      unfold includeOf at hentry
      split at hentry
      · split at hentry <;> cases hentry
      · cases hentry
  | .leaf fields, d, d', entries, h => by
      obtain ⟨r, hr, heq⟩ := bind_eq_ok.mp (by simpa only [declaration] using h)
      cases heq
      exact ⟨[.leaf r], [], by simp [addLeaf, grow], .leaf (leaf_eq_ok hr)⟩
  | .region fields none, d, d', entries, h => by
      simp [declaration, listed, bind, Except.bind] at h
      split at h <;> cases h
  | .region fields (some inner), d, d', entries, h => by
      obtain ⟨r, hr, h⟩ := bind_eq_ok.mp (by simpa only [declaration] using h)
      obtain ⟨_, hlisted, heq⟩ := bind_eq_ok.mp h
      cases hlisted
      cases heq
      obtain ⟨hid, hend⟩ := region_eq_ok hr
      exact ⟨[.region r], [⟨r.inner, inner⟩], rfl, .region hid hend⟩
  | .group none, _, _, _, h => by simp [declaration] at h
  | .group (some members), _, _, _, h => group_adds members h

theorem group_adds {index : Nat} :
    (members : List Declaration) → {d d' : Draft M} → {entries : List (Entry M)} →
      group e b context index members d = .ok (entries, d') →
      ∃ rules waiting, d' = d.grow rules waiting ∧
        Addition e d.rules.length entries (Declaration.regionsAmong members) rules waiting
  | [], d, d', entries, h => by
      cases h
      exact ⟨[], [], d.grow_nil.symm, .none (by simp)⟩
  | first :: rest, d, d', entries, h => by
      obtain ⟨⟨firstEntries, between⟩, hfirst, h⟩ := bind_eq_ok.mp h
      obtain ⟨⟨restEntries, last⟩, hrest, heq⟩ := bind_eq_ok.mp h
      cases heq
      obtain ⟨rules, waiting, rfl, hadds⟩ := declaration_adds first hfirst
      obtain ⟨rules', waiting', rfl, hadds'⟩ := group_adds rest hrest
      refine ⟨rules ++ rules', waiting ++ waiting', d.grow_grow .., hadds.append ?_⟩
      simpa [grow] using hadds'

end

theorem members_adds {index : Nat} {declared : List Declaration} {d d' : Draft M}
    {entries : List (Entry M)} (h : members e b context index declared d = .ok (entries, d')) :
    ∃ rules waiting, d' = d.grow rules waiting ∧
      Addition e d.rules.length entries (Declaration.regionsAmong declared) rules waiting := by
  induction declared generalizing index d d' entries with
  | nil =>
      cases h
      exact ⟨[], [], d.grow_nil.symm, .none (by simp)⟩
  | cons first rest ih =>
      obtain ⟨⟨firstEntries, between⟩, hfirst, h⟩ := bind_eq_ok.mp h
      obtain ⟨⟨restEntries, last⟩, hrest, heq⟩ := bind_eq_ok.mp h
      cases heq
      obtain ⟨rules, waiting, rfl, hadds⟩ := declaration_adds first hfirst
      obtain ⟨rules', waiting', rfl, hadds'⟩ := ih hrest
      refine ⟨rules ++ rules', waiting ++ waiting', d.grow_grow .., hadds.append ?_⟩
      simpa [grow] using hadds'

end Draft

/-- The drafts that come of contexts that wait, and the rules that come up in them, when there are
`start` rules already. -/
structure Drafted (e : Engine M) (start : Nat) (waiting : List DeclaredContext)
    (drafts : List (DraftContext M)) (rules : List (Rule M)) : Prop where
  numbered : ∀ i r, rules[i]? = some r → r.id = start + i
  listed : ∀ c ∈ drafts, ∀ r, .rule r ∈ c.entries → r ∈ rules
  compiled : ∀ r, .region r ∈ rules → r.EndCompiled e
  /-- No context is left out: those that wait come first, then those inside regions. -/
  names : drafts.map DraftContext.name =
    waiting.map DeclaredContext.name ++ rules.filterMap Rule.inner?

theorem Addition.drafted {e : Engine M} {start : Nat} {c : DeclaredContext}
    {entries : List (Entry M)} {regions : Nat} {rules rules' : List (Rule M)}
    {waiting added : List DeclaredContext} {drafts : List (DraftContext M)}
    (h : Addition e start entries regions rules added)
    (h' : Drafted e (start + rules.length) (waiting ++ added) drafts rules') :
    Drafted e start (c :: waiting) (⟨c.name, entries⟩ :: drafts) (rules ++ rules') where
  numbered i r hr := by
    rcases Nat.lt_or_ge i rules.length with hi | hi
    · exact h.numbered i r (by rwa [List.getElem?_append_left hi] at hr)
    · rw [List.getElem?_append_right hi] at hr
      have hid := h'.numbered _ r hr
      omega
  listed c' hc' r hr := by
    rcases List.mem_cons.mp hc' with rfl | hc'
    · exact List.mem_append_left _ (h.listed r hr)
    · exact List.mem_append_right _ (h'.listed c' hc' r hr)
  compiled r hr := by
    rcases List.mem_append.mp hr with hr | hr
    · exact h.compiled r hr
    · exact h'.compiled r hr
  names := by
    simp only [List.map_cons, List.cons_append, h'.names, List.map_append, List.filterMap_append,
      h.inner, List.append_assoc]

/-- The fuel is spent on contexts only, and it suffices for those that wait and those that they
add. -/
theorem Draft.contexts_drafted {e : Engine M} {b : Blueprint} {fuel : Nat} {d : Draft M}
    {drafts : List (DraftContext M)} {rules : List (Rule M)}
    (hfuel : DeclaredContext.count d.waiting ≤ fuel)
    (h : contexts e b fuel d = .ok (drafts, rules)) :
    ∃ new, rules = d.rules ++ new ∧ Drafted e d.rules.length d.waiting drafts new := by
  induction fuel generalizing d drafts rules with
  | zero =>
      cases h
      rcases hwaiting : d.waiting with _ | ⟨c, waiting⟩
      · exact ⟨[], by simp, ⟨by simp, by simp, by simp, rfl⟩⟩
      · simp [hwaiting, DeclaredContext.count] at hfuel
  | succ fuel ih =>
      simp only [contexts] at h
      rcases hwaiting : d.waiting with _ | ⟨c, waiting⟩
      · rw [hwaiting] at h
        cases h
        exact ⟨[], by simp, ⟨by simp, by simp, by simp, rfl⟩⟩
      · rw [hwaiting] at h hfuel
        obtain ⟨⟨entries, between⟩, hmembers, h⟩ := bind_eq_ok.mp h
        obtain ⟨⟨more, last⟩, hmore, heq⟩ := bind_eq_ok.mp h
        cases heq
        obtain ⟨rules', added, rfl, hadds⟩ := members_adds hmembers
        have hrest : DeclaredContext.count (waiting ++ added) ≤ fuel := by
          rw [DeclaredContext.count_append, hadds.counted]
          simp only [DeclaredContext.count] at hfuel
          omega
        obtain ⟨new, rfl, hdrafted⟩ := ih hrest hmore
        refine ⟨rules' ++ new, by simp [grow], hadds.drafted ?_⟩
        simpa [grow] using hdrafted

theorem Blueprint.draft_drafted {e : Engine M} {b : Blueprint} {drafts : List (DraftContext M)}
    {rules : List (Rule M)} (h : b.draft e = .ok (drafts, rules)) :
    Drafted e 0 b.contexts drafts rules := by
  obtain ⟨new, heq, hdrafted⟩ :=
    Draft.contexts_drafted (d := ⟨[], b.contexts⟩) (Nat.le_refl _) h
  rw [List.nil_append] at heq
  exact heq ▸ hdrafted

end LineScope
