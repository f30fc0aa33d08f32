import LineScope.Proofs.Grammar.Blueprint

/-!
What the drafted contexts list, told of the document. Groups are opened where they stand; then every
object is either an include or a rule, and has one entry. The rules come in the order of their
objects, those of the declared contexts first, then those inside regions.
-/

namespace LineScope

open Json (Members)
open Declaration (field)

variable {M : Type}

namespace GrammarDocument

mutual

/-- The includes and rules that an item holds, also in the patterns of objects with a property. -/
def gathered (into : Members → Bool) : Json → List Members
  | .obj o => (if isRuleEntry o then [o] else []) ++ (if into o then gatheredIn into o else [])
  | _ => []

def gatheredIn (into : Members → Bool) : List (String × Json) → List Members
  | [] => []
  | (key, value) :: rest =>
    if key == "patterns" then gatheredOf into value else gatheredIn into rest

def gatheredOf (into : Members → Bool) : Json → List Members
  | .arr items => gatheredAmong into items
  | _ => []

def gatheredAmong (into : Members → Bool) : List Json → List Members
  | [] => []
  | item :: rest => gathered into item ++ gatheredAmong into rest

end

variable {into : Members → Bool}

theorem gatheredIn_eq (o : Members) :
    gatheredIn into o = gatheredAmong into (patternItems (field o "patterns")) := by
  have hof : ∀ value, gatheredOf into value = gatheredAmong into (patternItems value) := by
    intro value
    cases value <;> rfl
  rw [← hof]
  unfold field Members.get?
  induction o with
  | nil => rfl
  | cons m rest ih =>
      obtain ⟨key, value⟩ := m
      rw [gatheredIn, List.lookup_cons]
      by_cases hkey : key = "patterns"
      · simp [hkey]
      · have hne : ("patterns" == key) = false := by simpa using Ne.symm hkey
        simp [hkey, hne, ih]

theorem gathered_obj (o : Members) :
    gathered into (.obj o) = (if isRuleEntry o then [o] else []) ++
      (if into o then gatheredAmong into (patternItems (field o "patterns")) else []) := by
  rw [gathered, gatheredIn_eq]

def isGroup (o : Members) : Bool := !isRuleEntry o

abbrev openedAmong (items : List Json) : List Members := gatheredAmong isGroup items

theorem opened_entry {o : Members} (h : isRuleEntry o = true) :
    gathered isGroup (.obj o) = [o] := by
  rw [gathered_obj, if_pos h, if_neg (by simp [isGroup, h]), List.append_nil]

theorem opened_group {o : Members} (h : isRuleEntry o = false) :
    gathered isGroup (.obj o) = gatheredAmong isGroup (patternItems (field o "patterns")) := by
  rw [gathered_obj, if_neg (by simp [h]), if_pos (by simp [isGroup, h]), List.nil_append]

def contexts (members : Members) : List (ContextName × List Json) :=
  (.root, patternItems (field members "patterns")) ::
    (repositoryOf members).map fun m => (.entry m.1, entryRules m.2)

end GrammarDocument

open GrammarDocument

namespace Declaration

/-- What an item is read as, by the first that it has of include, match, begin and patterns. -/
inductive Reads : Json → Declaration → Prop
  | malformed {item : Json} : Reads item .malformed
  | empty {o : Members} : Reads (.obj o) .empty
  | include {o : Members} {reference : Json} :
      o.get? "include" = some reference → Reads (.obj o) (.include reference)
  | leaf {o : Members} :
      o.has "include" = false → o.has "match" = true → Reads (.obj o) (.leaf (matchFields o))
  | region {o : Members} {inner : Option (List Declaration)} :
      o.has "include" = false → o.has "match" = false → o.has "begin" = true →
        patternsIn o = inner → Reads (.obj o) (.region (regionFields o) inner)
  | group {o : Members} {patterns : Option (List Declaration)} :
      isRuleEntry o = false → patternsIn o = patterns → Reads (.obj o) (.group patterns)

theorem reads_ofJson (item : Json) : Reads item (ofJson item) := by
  cases item with
  | obj o =>
      rw [ofJson, classify]
      split
      · exact .include ‹_›
      · rename_i hinclude
        rw [← Members.has_eq_false_iff] at hinclude
        split
        · exact .leaf hinclude ‹_›
        · rename_i hmatch
          rw [Bool.not_eq_true] at hmatch
          split
          · exact .region hinclude hmatch ‹_› rfl
          · rename_i hbegin
            split
            · refine .group ?_ rfl
              simp [isRuleEntry, hinclude, hmatch, hbegin]
            · exact .empty
  | _ => exact .malformed

end Declaration

/-- The rule is what an engine makes of the object, apart from its number. -/
inductive Made (e : Engine M) (o : Members) : Rule M → Prop
  | leaf {r : MatchRule M} :
      o.has "include" = false → o.has "match" = true →
        Draft.leaf e .nowhere r.id (Declaration.matchFields o) = .ok r → Made e o (.leaf r)
  | region {r : RegionRule M} :
      o.has "include" = false → o.has "match" = false → o.has "begin" = true →
        Draft.region e .nowhere r.id (Declaration.regionFields o) = .ok r → Made e o (.region r)

/-- The entries that objects have in a context, and the rules among them with their objects. -/
inductive Entered (e : Engine M) (repository : Members) :
    List Members → List (Entry M) → List (Members × Rule M) → Prop
  | nil : Entered e repository [] [] []
  | include {o : Members} {rest : List Members} {reference : String} {target : ContextName}
      {entries : List (Entry M)} {made : List (Members × Rule M)} :
      o.get? "include" = some (.str reference) → Names repository reference target →
        Entered e repository rest entries made →
        Entered e repository (o :: rest) (.include target :: entries) made
  | rule {o : Members} {rest : List Members} {r : Rule M} {entries : List (Entry M)}
      {made : List (Members × Rule M)} :
      Made e o r → Entered e repository rest entries made →
        Entered e repository (o :: rest) (.rule r :: entries) ((o, r) :: made)

theorem Entered.append {e : Engine M} {repository : Members} {objects objects' : List Members}
    {entries entries' : List (Entry M)} {made made' : List (Members × Rule M)}
    (h : Entered e repository objects entries made)
    (h' : Entered e repository objects' entries' made') :
    Entered e repository (objects ++ objects') (entries ++ entries') (made ++ made') := by
  induction h with
  | nil => exact h'
  | «include» hinclude hnames _ ih => exact .include hinclude hnames ih
  | rule hmade _ ih => exact .rule hmade ih

structure Listing (e : Engine M) (repository : Members) where
  name : ContextName
  items : List Json
  entries : List (Entry M)
  made : List (Members × Rule M)
  entered : Entered e repository (openedAmong items) entries made

namespace Listing

variable {e : Engine M} {repository : Members}

def context (l : Listing e repository) : ContextName × List Json := (l.name, l.items)

def draft (l : Listing e repository) : DraftContext M := ⟨l.name, l.entries⟩

def allMade (listings : List (Listing e repository)) : List (Members × Rule M) :=
  listings.flatMap made

end Listing

def insideOf : Members × Rule M → Option (ContextName × List Json)
  | (_, .leaf _) => none
  | (o, .region r) => some (r.inner, patternItems (field o "patterns"))

/-- The drafts of a document and its rules: every declared context is listed, and then every one
inside regions, in the order of the rules. -/
structure Listing.Complete {e : Engine M} {members : Members}
    (listings : List (Listing e (repositoryOf members))) (drafts : List (DraftContext M))
    (rules : List (Rule M)) : Prop where
  drafts : drafts = listings.map draft
  rules : rules = (allMade listings).map Prod.snd
  contexts : listings.map context =
    GrammarDocument.contexts members ++ (allMade listings).filterMap insideOf

def DeclaredContext.ofItems (c : ContextName × List Json) : DeclaredContext :=
  ⟨c.1, c.2.map Declaration.ofJson⟩

namespace Draft

variable {e : Engine M} {b : Blueprint} {members : Members} {context : ContextName}

/-- What an item or several come to in a draft. -/
def Grows (e : Engine M) (repository : Members) (objects : List Members) (d : Draft M)
    (entries : List (Entry M)) (d' : Draft M) : Prop :=
  ∃ made, Entered e repository objects entries made ∧
    d' = d.grow (made.map Prod.snd) ((made.filterMap insideOf).map DeclaredContext.ofItems)

theorem Grows.nil {repository : Members} (d : Draft M) : Grows e repository [] d [] d :=
  ⟨[], .nil, d.grow_nil.symm⟩

theorem Grows.append {repository : Members} {objects objects' : List Members} {d d' d'' : Draft M}
    {entries entries' : List (Entry M)} (h : Grows e repository objects d entries d')
    (h' : Grows e repository objects' d' entries' d'') :
    Grows e repository (objects ++ objects') d (entries ++ entries') d'' := by
  obtain ⟨made, hentered, rfl⟩ := h
  obtain ⟨made', hentered', rfl⟩ := h'
  refine ⟨made ++ made', hentered.append hentered', ?_⟩
  rw [grow_grow, List.map_append, List.filterMap_append, List.map_append]

mutual

theorem declaration_grows (hb : Blueprint.ofJson (.obj members) = .ok b) {index : Nat} :
    (declared : Declaration) → {item : Json} → {d d' : Draft M} → {entries : List (Entry M)} →
      Declaration.Reads item declared →
      declaration e b context index declared d = .ok (entries, d') →
      Grows e (repositoryOf members) (gathered isGroup item) d entries d'
  | .malformed, _, _, _, _, _, h => by simp [declaration] at h
  | .empty, _, _, _, _, _, h => by simp [declaration] at h
  | .include reference, item, d, d', entries, hreads, h => by
      obtain ⟨entry, hentry, heq⟩ := bind_eq_ok.mp (by simpa only [declaration] using h)
      cases heq
      cases hreads with
      | @«include» o _ hinclude =>
          unfold includeOf at hentry
          split at hentry
          · split at hentry
            · rename_i htarget
              cases hentry
              have hhas := Json.Members.has_iff.mpr ⟨_, hinclude⟩
              rw [opened_entry (by simp [isRuleEntry, hhas])]
              have hnames := (Blueprint.target?_eq_some hb).mp htarget
              exact ⟨[], .include hinclude hnames .nil, d.grow_nil.symm⟩
            · cases hentry
          · cases hentry
  | .leaf fields, item, d, d', entries, hreads, h => by
      obtain ⟨r, hr, heq⟩ := bind_eq_ok.mp (by simpa only [declaration] using h)
      cases heq
      cases hreads with
      | @leaf o hinclude hmatch =>
          rw [opened_entry (by simp [isRuleEntry, hmatch])]
          refine ⟨[(o, .leaf r)], .rule (.leaf hinclude hmatch ?_) .nil, ?_⟩
          · exact leaf_congr hr .nowhere r.id
          · simp [addLeaf, grow, insideOf]
  | .region fields none, _, d, d', entries, _, h => by
      simp [declaration, listed, bind, Except.bind] at h
      split at h <;> cases h
  | .region fields (some inner), item, d, d', entries, hreads, h => by
      obtain ⟨r, hr, h⟩ := bind_eq_ok.mp (by simpa only [declaration] using h)
      obtain ⟨_, hlisted, heq⟩ := bind_eq_ok.mp h
      cases hlisted
      cases heq
      cases hreads with
      | @region o _ hinclude hmatch hbegin hinner =>
          rw [opened_entry (by simp [isRuleEntry, hbegin])]
          refine ⟨[(o, .region r)], .rule (.region hinclude hmatch hbegin ?_) .nil, ?_⟩
          · exact region_congr hr .nowhere r.id
          · rw [Blueprint.patternsIn_map hinner]
            rfl
  | .group none, _, _, _, _, _, h => by simp [declaration] at h
  | .group (some declared), item, d, d', entries, hreads, h => by
      cases hreads with
      | @group o _ hrule hpatterns =>
          rw [opened_group hrule]
          exact group_grows hb declared (Blueprint.patternsIn_map hpatterns).symm h

theorem group_grows (hb : Blueprint.ofJson (.obj members) = .ok b) {index : Nat} :
    (declared : List Declaration) → {items : List Json} → {d d' : Draft M} →
      {entries : List (Entry M)} → items.map Declaration.ofJson = declared →
      group e b context index declared d = .ok (entries, d') →
      Grows e (repositoryOf members) (openedAmong items) d entries d'
  | [], items, d, d', entries, hitems, h => by
      cases h
      rw [List.map_eq_nil_iff.mp hitems]
      exact .nil d
  | first :: rest, items, d, d', entries, hitems, h => by
      obtain ⟨item, more, rfl, hfirst, hrest⟩ := List.map_eq_cons_iff.mp hitems
      obtain ⟨⟨firstEntries, between⟩, hdeclaration, h⟩ := bind_eq_ok.mp h
      obtain ⟨⟨restEntries, last⟩, hgroup, heq⟩ := bind_eq_ok.mp h
      cases heq
      have hreads : Declaration.Reads item first := hfirst ▸ Declaration.reads_ofJson item
      have hfirstGrows := declaration_grows hb first hreads hdeclaration
      exact hfirstGrows.append (group_grows hb rest hrest hgroup)

end

theorem members_grows (hb : Blueprint.ofJson (.obj members) = .ok b) {index : Nat}
    {items : List Json} {d d' : Draft M} {entries : List (Entry M)}
    (h : Draft.members e b context index (items.map Declaration.ofJson) d = .ok (entries, d')) :
    Grows e (repositoryOf members) (openedAmong items) d entries d' := by
  induction items generalizing index d d' entries with
  | nil =>
      cases h
      exact .nil d
  | cons item rest ih =>
      obtain ⟨⟨firstEntries, between⟩, hfirst, h⟩ := bind_eq_ok.mp h
      obtain ⟨⟨restEntries, last⟩, hrest, heq⟩ := bind_eq_ok.mp h
      cases heq
      exact (declaration_grows hb _ (Declaration.reads_ofJson item) hfirst).append (ih hrest)

theorem contexts_listed (hb : Blueprint.ofJson (.obj members) = .ok b) {fuel : Nat} {d : Draft M}
    {waiting : List (ContextName × List Json)} {drafts : List (DraftContext M)}
    {rules : List (Rule M)} (hwaiting : d.waiting = waiting.map DeclaredContext.ofItems)
    (hfuel : DeclaredContext.count d.waiting ≤ fuel)
    (h : contexts e b fuel d = .ok (drafts, rules)) :
    ∃ listings : List (Listing e (repositoryOf members)),
      drafts = listings.map Listing.draft ∧
        rules = d.rules ++ (Listing.allMade listings).map Prod.snd ∧
        listings.map Listing.context =
          waiting ++ (Listing.allMade listings).filterMap insideOf := by
  induction fuel generalizing d waiting drafts rules with
  | zero =>
      cases h
      rcases waiting with _ | ⟨c, waiting⟩
      · exact ⟨[], rfl, (List.append_nil _).symm, rfl⟩
      · simp [hwaiting, DeclaredContext.count] at hfuel
  | succ fuel ih =>
      rcases waiting with _ | ⟨⟨name, items⟩, waiting⟩
      · simp only [contexts, hwaiting, List.map_nil] at h
        cases h
        exact ⟨[], rfl, (List.append_nil _).symm, rfl⟩
      · simp only [contexts, hwaiting, List.map_cons] at h
        obtain ⟨⟨entries, between⟩, hmembers, h⟩ := bind_eq_ok.mp h
        obtain ⟨⟨more, last⟩, hmore, heq⟩ := bind_eq_ok.mp h
        cases heq
        obtain ⟨made, hentered, rfl⟩ := members_grows hb hmembers
        have hcount := count_step (count_of_members hmembers)
          (by simpa only [hwaiting, List.map_cons] using hfuel)
        have hadded : waiting.map DeclaredContext.ofItems ++
            (made.filterMap insideOf).map DeclaredContext.ofItems =
              (waiting ++ made.filterMap insideOf).map DeclaredContext.ofItems :=
          List.map_append.symm
        obtain ⟨listings, rfl, rfl, hcontexts⟩ := ih hadded hcount hmore
        refine ⟨⟨name, items, entries, made, hentered⟩ :: listings, rfl, ?_, ?_⟩
        · simp [grow, Listing.allMade]
        · rw [List.map_cons, hcontexts]
          simp [Listing.allMade, Listing.context]

end Draft

namespace Blueprint

variable {e : Engine M} {b : Blueprint} {members : Members}

theorem contexts_of_entries {repository : Members} {cs : List DeclaredContext}
    (h : List.Forall₂ (fun m c => entry m.1 m.2 = .ok c) repository cs) :
    cs = (repository.map fun m => (ContextName.entry m.1, entryRules m.2)).map
      DeclaredContext.ofItems := by
  induction h with
  | nil => rfl
  | cons hentry _ ih =>
      obtain ⟨_, declared, hvalue, hdeclared, rfl⟩ := entry_eq_ok.mp hentry
      rw [List.map_cons, List.map_cons, ← ih, hvalue, DeclaredContext.ofItems,
        ← entryMembers_map hdeclared]

theorem contexts_eq (hb : ofJson (.obj members) = .ok b) :
    b.contexts = (GrammarDocument.contexts members).map DeclaredContext.ofItems := by
  obtain ⟨_, root, cs, -, hroot, hcs, rfl⟩ := ofJson_eq_ok.mp hb
  rw [contexts_of_entries (entries_eq_ok.mp (repository_eq_ok.mp hcs).2), patternsIn_map hroot]
  rfl

theorem draft_listed (hb : ofJson (.obj members) = .ok b) {drafts : List (DraftContext M)}
    {rules : List (Rule M)} (h : b.draft e = .ok (drafts, rules)) :
    ∃ listings : List (Listing e (repositoryOf members)),
      Listing.Complete listings drafts rules := by
  obtain ⟨listings, hdrafts, hrules, hcontexts⟩ :=
    Draft.contexts_listed (d := ⟨[], b.contexts⟩) hb (contexts_eq hb) (Nat.le_refl _) h
  exact ⟨listings, hdrafts, hrules, hcontexts⟩

end Blueprint

end LineScope
