import LineScope.Proofs.Capture.Sorting
import LineScope.Proofs.Grammar.Inclusion

/-!
The tables of a grammar and the document that they come from. Every rule of the document, at any
depth of groups and regions, is compiled once; it stands in the table under its number, and in the
context that lists it, wherever else that context is included.
-/

namespace LineScope

open Json (Members)
open Declaration (field)
open GrammarDocument

variable {M : Type}

namespace GrammarDocument

def isRule (o : Members) : Bool := !o.has "include"

/-- Groups and rules for regions: what is in their patterns belongs to the document. -/
def holdsPatterns (o : Members) : Bool := !o.has "include" && !o.has "match"

def rulesAmong (items : List Json) : List Members :=
  (gatheredAmong holdsPatterns items).filter isRule

def rulesWithin (o : Members) : List Members :=
  if holdsPatterns o then rulesAmong (patternItems (field o "patterns")) else []

def allRules (members : Members) : List Members :=
  (contexts members).flatMap fun c => rulesAmong c.2

/-- The rules at any depth are those that are listed, and those inside their regions. -/
def Nested (deep listed : List Members) : Prop :=
  (deep.filter isRule).Perm (listed.filter isRule ++ (listed.filter isRule).flatMap rulesWithin)

theorem append_append_perm {α : Type} (a b c d : List α) :
    ((a ++ b) ++ (c ++ d)).Perm ((a ++ c) ++ (b ++ d)) := by
  rw [List.append_assoc, List.append_assoc]
  exact (List.perm_append_comm_assoc b c d).append_left a

theorem Nested.append {deep deep' listed listed' : List Members} (h : Nested deep listed)
    (h' : Nested deep' listed') : Nested (deep ++ deep') (listed ++ listed') := by
  unfold Nested
  rw [List.filter_append, List.filter_append, List.flatMap_append]
  exact (List.Perm.append h h').trans (append_append_perm ..)

theorem nested_rule {o : Members} (h : isRuleEntry o = true) :
    Nested (gathered holdsPatterns (.obj o)) [o] := by
  unfold Nested
  rw [gathered_obj, if_pos h, List.filter_append]
  rcases hinclude : o.has "include" with _ | _
  · have hrule : isRule o = true := by simp [isRule, hinclude]
    rw [List.filter_cons_of_pos hrule, List.filter_nil, List.flatMap_cons, List.flatMap_nil,
      List.append_nil, rulesWithin]
    split
    · exact .refl _
    · exact .refl _
  · have hrule : isRule o = false := by simp [isRule, hinclude]
    have hholds : holdsPatterns o = false := by simp [holdsPatterns, hinclude]
    rw [hholds]
    simp [hrule]

mutual

theorem nested_gathered :
    (item : Json) → Nested (gathered holdsPatterns item) (gathered isGroup item)
  | .obj o => by
      rcases h : isRuleEntry o with _ | _
      · have hholds : holdsPatterns o = true := by
          simp only [isRuleEntry, Bool.or_eq_false_iff] at h
          simp [holdsPatterns, h]
        rw [opened_group h, gathered_obj, if_neg (by simp [h]), if_pos hholds, List.nil_append,
          ← gatheredIn_eq, ← gatheredIn_eq]
        exact nested_gatheredIn o
      · rw [opened_entry h]
        exact nested_rule h
  | .null | .bool _ | .int _ | .float _ | .str _ | .arr _ => .nil

theorem nested_gatheredIn :
    (o : List (String × Json)) → Nested (gatheredIn holdsPatterns o) (gatheredIn isGroup o)
  | [] => .nil
  | (key, value) :: rest => by
      rw [gatheredIn, gatheredIn]
      split
      · exact nested_gatheredOf value
      · exact nested_gatheredIn rest

theorem nested_gatheredOf :
    (value : Json) → Nested (gatheredOf holdsPatterns value) (gatheredOf isGroup value)
  | .arr items => nested_gatheredAmong items
  | .null | .bool _ | .int _ | .float _ | .str _ | .obj _ => .nil

theorem nested_gatheredAmong :
    (items : List Json) → Nested (gatheredAmong holdsPatterns items) (gatheredAmong isGroup items)
  | [] => .nil
  | item :: rest => (nested_gathered item).append (nested_gatheredAmong rest)

end

end GrammarDocument

section

variable {e : Engine M} {repository : Members} {objects : List Members}
  {entries : List (Entry M)} {made : List (Members × Rule M)}

theorem Made.isRule {o : Members} {r : Rule M} (h : Made e o r) : isRule o = true := by
  cases h with
  | leaf hinclude => simp [GrammarDocument.isRule, hinclude]
  | region hinclude => simp [GrammarDocument.isRule, hinclude]

theorem Made.rulesWithin_eq {o : Members} {r : Rule M} (h : Made e o r) :
    rulesWithin o = (insideOf (o, r)).elim [] fun c => rulesAmong c.2 := by
  cases h with
  | leaf _ hmatch => exact if_neg (by simp [holdsPatterns, hmatch])
  | region hinclude hmatch => exact if_pos (by simp [holdsPatterns, hinclude, hmatch])

theorem Entered.all_made (h : Entered e repository objects entries made) :
    ∀ x ∈ made, Made e x.1 x.2 := by
  induction h with
  | nil => simp
  | «include» _ _ _ ih => exact ih
  | rule hmade _ ih => exact List.forall_mem_cons.mpr ⟨hmade, ih⟩

theorem Entered.sources (h : Entered e repository objects entries made) :
    made.map Prod.fst = objects.filter isRule := by
  induction h with
  | nil => rfl
  | «include» hinclude _ _ ih =>
      have hhas := Json.Members.has_iff.mpr ⟨_, hinclude⟩
      rw [List.filter_cons_of_neg (by simp [isRule, hhas])]
      exact ih
  | rule hmade _ ih => rw [List.filter_cons_of_pos hmade.isRule, List.map_cons, ih]

theorem Entered.sublist {drafts : List (DraftContext M)} {rules : List (Rule M)}
    (h : Entered e repository objects entries made)
    (hrules : Expansion.Flattens drafts entries rules) : (made.map Prod.snd).Sublist rules := by
  induction h generalizing rules with
  | nil => exact List.nil_sublist _
  | «include» _ _ _ ih =>
      cases hrules with
      | splice _ hrest => exact (ih hrest).trans (List.sublist_append_right ..)
  | rule _ _ ih =>
      cases hrules with
      | rule hrest => exact (ih hrest).cons_cons _

theorem flatMap_insideOf (h : ∀ x ∈ made, Made e x.1 x.2) :
    (made.filterMap insideOf).flatMap (fun c => rulesAmong c.2) =
      (made.map Prod.fst).flatMap rulesWithin := by
  induction made with
  | nil => rfl
  | cons x rest ih =>
      obtain ⟨hx, hrest⟩ := List.forall_mem_cons.mp h
      rw [List.map_cons, List.flatMap_cons, hx.rulesWithin_eq, List.filterMap_cons]
      rcases insideOf x with _ | c
      · exact ih hrest
      · rw [List.flatMap_cons, ih hrest]
        rfl

end

namespace Listing

variable {e : Engine M} {members : Members} {listings : List (Listing e (repositoryOf members))}
  {drafts : List (DraftContext M)} {rules : List (Rule M)}

theorem made_of_mem {x : Members × Rule M} (h : x ∈ allMade listings) : Made e x.1 x.2 := by
  obtain ⟨l, -, hx⟩ := List.mem_flatMap.mp h
  exact l.entered.all_made x hx

theorem rules_perm (listings : List (Listing e (repositoryOf members))) :
    (listings.flatMap fun l => rulesAmong l.items).Perm
      ((allMade listings).map Prod.fst ++
        ((allMade listings).filterMap insideOf).flatMap fun c => rulesAmong c.2) := by
  induction listings with
  | nil => exact .nil
  | cons l rest ih =>
      have hfirst : (rulesAmong l.items).Perm (l.made.map Prod.fst ++
          (l.made.filterMap insideOf).flatMap fun c => rulesAmong c.2) := by
        rw [flatMap_insideOf l.entered.all_made, l.entered.sources]
        exact nested_gatheredAmong l.items
      have hmade : allMade (l :: rest) = l.made ++ allMade rest := rfl
      rw [List.flatMap_cons, hmade, List.map_append, List.filterMap_append, List.flatMap_append]
      exact (hfirst.append ih).trans (append_append_perm ..)

/-- Every rule of the document is compiled once. -/
theorem Complete.sources_perm (h : Complete listings drafts rules) :
    ((allMade listings).map Prod.fst).Perm (allRules members) := by
  -- both sides with what is inside the regions are the rules of all contexts
  have hcontexts : (listings.flatMap fun l => rulesAmong l.items) =
      allRules members ++
        ((allMade listings).filterMap insideOf).flatMap fun c => rulesAmong c.2 := by
    have hitems : (listings.flatMap fun l => rulesAmong l.items) =
        (listings.map context).flatMap fun c => rulesAmong c.2 := by
      rw [List.flatMap_map]
      rfl
    rw [hitems, h.contexts, List.flatMap_append]
    rfl
  exact (List.perm_append_right_iff _).mp ((rules_perm listings).symm.trans (.of_eq hcontexts))

theorem Complete.names (h : Complete listings drafts rules) :
    listings.map (fun l => l.name.text) =
      "$self" :: (repositoryOf members).map (fun m => "#" ++ m.1) ++
        (rules.filter Rule.isRegion).map fun r => "@" ++ toString r.id := by
  have hinside : ((allMade listings).filterMap insideOf).map (fun c => c.1.text) =
      (rules.filter Rule.isRegion).map fun r => "@" ++ toString r.id := by
    rw [h.rules]
    induction allMade listings with
    | nil => rfl
    | cons x rest ih =>
        rcases x with ⟨o, r | r⟩
        · exact ih
        · exact congrArg (_ :: ·) ih
  have hnames : listings.map (fun l => l.name.text) =
      (listings.map context).map fun c => c.1.text := by
    rw [List.map_map]
    rfl
  rw [hnames, h.contexts, List.map_append, hinside, GrammarDocument.contexts, List.map_cons,
    List.map_map]
  rfl

end Listing

def Rule.captureMaps : Rule M → List (List Capture)
  | .leaf r => [r.captures]
  | .region r => [r.beginCaptures, r.endCaptures]

def Rule.captureValues (o : Members) : Rule M → List Json
  | .leaf _ => [(Declaration.matchFields o).captures]
  | .region _ => [(Declaration.regionFields o).beginCaptures,
      (Declaration.regionFields o).endCaptures]

/-- The captures that a capture map of a document lists. -/
def listedCaptures : Json → List Capture
  | .obj members => members.filterMap fun m => Draft.captureOf m.1 m.2
  | _ => []

theorem Draft.captures_spec {j : Json} {found : List Capture}
    (h : captures .nowhere j = .ok found) :
    found.Perm (listedCaptures j) ∧ found.Pairwise fun c d => c.le d = true := by
  cases j with
  | null =>
      cases h
      exact ⟨.nil, .nil⟩
  | obj members =>
      obtain ⟨listed, hlisted, rfl⟩ := map_eq_ok.mp h
      exact captureList_filterMap hlisted ▸ Capture.sort_spec listed
  | _ => cases h

theorem Draft.leaf_captures {e : Engine M} {place : Place} {id : Nat} {f : MatchFields}
    {r : MatchRule M} (h : leaf e place id f = .ok r) :
    captures place f.captures = .ok r.captures := by
  simp only [leaf, bind_eq_ok] at h
  obtain ⟨_, -, _, -, _, -, _, hcaptures, heq⟩ := h
  cases heq
  exact hcaptures

theorem Draft.region_captures {e : Engine M} {place : Place} {id : Nat} {f : RegionFields}
    {r : RegionRule M} (h : region e place id f = .ok r) :
    captures place f.beginCaptures = .ok r.beginCaptures ∧
      captures place f.endCaptures = .ok r.endCaptures := by
  simp only [region, bind_eq_ok] at h
  obtain ⟨_, -, _, -, _, -, _, -, _, -, _, -, _, -, _, hbegin, _, hend, heq⟩ := h
  cases heq
  exact ⟨hbegin, hend⟩

theorem Made.captures {e : Engine M} {o : Members} {r : Rule M} (h : Made e o r) :
    List.Forall₂ (fun value captures => Draft.captures .nowhere value = .ok captures)
      (r.captureValues o) r.captureMaps := by
  cases h with
  | leaf _ _ hleaf => exact .cons (Draft.leaf_captures hleaf) .nil
  | region _ _ _ hregion =>
      obtain ⟨hbegin, hend⟩ := Draft.region_captures hregion
      exact .cons hbegin (.cons hend .nil)

theorem Made.captures_sorted {e : Engine M} {o : Members} {r : Rule M} (h : Made e o r) :
    ∀ captures ∈ r.captureMaps, captures.Pairwise fun c d => c.le d = true := by
  intro captures hcaptures
  obtain ⟨value, -, hvalue⟩ := exists_of_mem_forall₂ h.captures hcaptures
  exact (Draft.captures_spec hvalue).2

theorem Draft.region_opener {e : Engine M} {place : Place} {id : Nat} {f : RegionFields}
    {r : RegionRule M} (h : region e place id f = .ok r) :
    e.compile r.beginSource = .ok r.opener := by
  simp only [region, bind_eq_ok] at h
  obtain ⟨_, -, _, -, _, hopener, _, -, _, -, _, -, _, -, _, -, _, -, heq⟩ := h
  cases heq
  exact pattern_eq_ok.mp hopener

theorem Made.opener {e : Engine M} {o : Members} {r : RegionRule M} (h : Made e o (.region r)) :
    e.compile r.beginSource = .ok r.opener := by
  cases h with
  | region _ _ _ hregion => exact Draft.region_opener hregion

theorem RegionRule.EndCompiled.bindsEnd_eq {e : Engine M} {r : RegionRule M}
    (h : r.EndCompiled e) : r.bindsEnd = BackReference.occursIn r.endSource := by
  unfold EndCompiled at h
  unfold bindsEnd
  split at h
  · rename_i m hcloser
    rw [hcloser, h.1]
    rfl
  · rename_i hcloser
    rw [hcloser, h.1]
    rfl

/-- How the tables of a grammar go with its document and with each other. -/
structure Grammar.Inventory {e : Engine M} {members : Members} (g : Grammar M)
    (listings : List (Listing e (repositoryOf members))) : Prop where
  numbered : ∀ (i : Nat) (r : Rule M), g.rules[i]? = some r → r.id = i
  closed : ∀ c ∈ g.contexts, ∀ r ∈ c.rules, g.rules[r.id]? = some r
  names : g.contexts.map (fun c => c.name.text) =
    "$self" :: (repositoryOf members).map (fun m => "#" ++ m.1) ++
      (g.rules.filter Rule.isRegion).map fun r => "@" ++ toString r.id
  inner : ∀ r, .region r ∈ g.rules → r.inner.text = "@" ++ toString r.id
  /-- The rules in the order of the contexts that list them. -/
  rules : g.rules = (Listing.allMade listings).map Prod.snd
  made : ∀ x ∈ Listing.allMade listings, Made e x.1 x.2
  sources : ((Listing.allMade listings).map Prod.fst).Perm (allRules members)
  contexts : listings.map Listing.context =
    GrammarDocument.contexts members ++ (Listing.allMade listings).filterMap insideOf
  /-- Every context has the rules that it lists. -/
  listed : List.Forall₂ (fun l c => c.name = l.name ∧ (l.made.map Prod.snd).Sublist c.rules)
    listings g.contexts
  captures : ∀ r ∈ g.rules, ∀ captures ∈ r.captureMaps, captures.Pairwise fun c d =>
    c.group < d.group ∨ (c.group = d.group ∧ c.scope ≤ d.scope)
  /-- A capture map has the captures that the object of its rule lists for it, each once. -/
  captured : ∀ x ∈ Listing.allMade listings,
    List.Forall₂ (fun value captures => captures.Perm (listedCaptures value))
      (x.2.captureValues x.1) x.2.captureMaps
  bindsEnd : ∀ r, .region r ∈ g.rules →
    (r.bindsEnd = true ↔ BackReference.occursIn r.endSource = true)

namespace Grammar

theorem Coherent.getElem?_id {g : Grammar M} (h : g.Coherent) {c : Context M}
    (hc : c ∈ g.contexts) {r : Rule M} (hr : r ∈ c.rules) : g.rules[r.id]? = some r := by
  obtain ⟨i, hi⟩ := List.mem_iff_getElem?.mp (h.listed c hc r hr)
  rw [h.numbered i r hi, hi]

theorem ofJson_opener {e : Engine M} {document : Json} {g : Grammar M}
    (compiled : ofJson e document = .ok g) {r : RegionRule M} (hr : .region r ∈ g.rules) :
    e.compile r.beginSource = .ok r.opener := by
  obtain ⟨b, hb, h⟩ := bind_eq_ok.mp compiled
  obtain ⟨⟨drafts, rules⟩, hdraft, h⟩ := bind_eq_ok.mp h
  obtain ⟨contexts, -, heq⟩ := bind_eq_ok.mp h
  cases heq
  cases document with
  | obj members =>
      obtain ⟨listings, hlistings⟩ := Blueprint.draft_listed hb hdraft
      have hmem : .region r ∈ (Listing.allMade listings).map Prod.snd := hlistings.rules ▸ hr
      obtain ⟨⟨o, _⟩, hx, rfl⟩ := List.mem_map.mp hmem
      exact (Listing.made_of_mem hx).opener
  | _ => cases hb

/-- The tables hold what the document declares, each rule once. -/
theorem ofJson_inventory {e : Engine M} {members : Members} {g : Grammar M}
    (compiled : ofJson e (.obj members) = .ok g)
    (distinct : ((repositoryOf members).map Prod.fst).Nodup) :
    (∃ listings : List (Listing e (repositoryOf members)), g.Inventory listings) ∧
      g.rules.length = (allRules members).length := by
  obtain ⟨coherent, -⟩ := ofJson_coherent compiled
  obtain ⟨b, hb, h⟩ := bind_eq_ok.mp compiled
  obtain ⟨⟨drafts, rules⟩, hdraft, h⟩ := bind_eq_ok.mp h
  obtain ⟨contexts, hcontexts, heq⟩ := bind_eq_ok.mp h
  cases heq
  obtain ⟨listings, hlistings⟩ := Blueprint.draft_listed hb hdraft
  have hsources := hlistings.sources_perm
  have hmade : ∀ r ∈ rules, ∃ o, Made e o r := by
    intro r hr
    rw [hlistings.rules] at hr
    obtain ⟨x, hx, rfl⟩ := List.mem_map.mp hr
    exact ⟨x.1, Listing.made_of_mem hx⟩
  have hnames : contexts.map (fun c => c.name.text) = listings.map fun l => l.name.text := by
    have hdrawn := congrArg (List.map ContextName.text) (Expansion.all_drawn hcontexts).1
    rw [hlistings.drafts, List.map_map, List.map_map, List.map_map] at hdrawn
    exact hdrawn
  refine ⟨⟨listings, ?_⟩, ?_⟩
  · exact {
      numbered := coherent.numbered
      closed := fun c hc r hr => coherent.getElem?_id hc hr
      names := hnames.trans hlistings.names
      inner := fun _ _ => rfl
      rules := hlistings.rules
      made := fun _ hx => Listing.made_of_mem hx
      sources := hsources
      contexts := hlistings.contexts
      listed := by
        have hentries := hlistings.entriesOf_eq hb hdraft distinct
        have hexpanded := (List.forall₂_and_left _ _).mpr ⟨hentries, hlistings.expanded hcontexts⟩
        refine hexpanded.imp fun l c h => ⟨h.2.named, ?_⟩
        exact l.entered.sublist (h.1 ▸ h.2.rules)
      captures := by
        intro r hr captures hcaptures
        obtain ⟨o, ho⟩ := hmade r hr
        exact (ho.captures_sorted captures hcaptures).imp Capture.le_iff.mp
      captured := fun _ hx => (Listing.made_of_mem hx).captures.imp fun _ _ h =>
        (Draft.captures_spec h).1
      bindsEnd := by
        intro r hr
        rw [(coherent.compiled r hr).bindsEnd_eq] }
  · change rules.length = _
    rw [← hsources.length_eq, hlistings.rules, List.length_map, List.length_map]

/-- Rules in a group, in a region and in the repository, of which one entry is included twice and
one is a rule itself; the first rule has a begin pattern, which does not count. -/
def catalogue : Members := [
  ("scopeName", .str "text"),
  ("patterns", .arr [
    .obj [("patterns", .arr [
      .obj [("match", .str "cat"), ("begin", .str "c")],
      .obj [("include", .str "#words")]])],
    .obj [
      ("begin", .str "<"),
      ("end", .str "\\0>"),
      ("captures", .obj [("1", .str "one"), ("0", .str "all")]),
      ("patterns", .arr [
        .obj [("include", .str "#words")],
        .obj [("patterns", .arr [.obj [("begin", .str "("), ("end", .str ")")]])]])]]),
  ("repository", .obj [
    ("words", .obj [("patterns", .arr [.obj [("match", .str "dog")]])]),
    ("line", .obj [("match", .str "."), ("include", .str "#words")])])]

theorem ofJson_inventory_catalogue :
    ((repositoryOf catalogue).map Prod.fst).Nodup ∧
      ∃ g, ofJson sampleEngine (.obj catalogue) = .ok g ∧
        (∃ listings : List (Listing sampleEngine (repositoryOf catalogue)), g.Inventory listings) ∧
        g.rules.length = 4 ∧
        g.contexts.map (fun c => c.name.text) = ["$self", "#words", "#line", "@1", "@3"] := by
  have hdistinct : ((repositoryOf catalogue).map Prod.fst).Nodup := by
    decide +kernel
  have hnames : (ofJson sampleEngine (.obj catalogue)).toOption.map
      (fun g => g.contexts.map fun c => c.name.text) =
        some ["$self", "#words", "#line", "@1", "@3"] := by
    decide +kernel
  have hcount : (allRules catalogue).length = 4 := by
    decide +kernel
  rcases hcompiled : ofJson sampleEngine (.obj catalogue) with fault | g
  · rw [hcompiled] at hnames
    cases hnames
  · rw [hcompiled] at hnames
    obtain ⟨hinventory, hlength⟩ := ofJson_inventory hcompiled hdistinct
    exact ⟨hdistinct, g, rfl, hinventory, hlength.trans hcount, Option.some.inj hnames⟩

end Grammar

end LineScope
