import LineScope.Proofs.Grammar.Flattening

/-!
The tables of a compiled grammar. Rules stand at the place of their number, contexts hold rules of
the table only, and the context inside the regions of a rule is one of the grammar.
-/

namespace LineScope

variable {M : Type}

theorem ContextName.text_inj {name name' : ContextName} :
    name.text = name'.text ↔ name = name' := by
  refine ⟨fun h => ?_, congrArg text⟩
  have hchars := congrArg String.toList h
  cases name with
  | root => cases name' <;> simp [text] at hchars ⊢
  | entry key =>
      cases name' with
      | entry key' => exact congrArg entry ((String.append_right_inj "#").mp h)
      | _ => simp [text] at hchars
  | inside rule =>
      cases name' with
      | inside rule' =>
          have hdigits : Nat.toDigits 10 rule = Nat.toDigits 10 rule' := by
            simpa [text] using hchars
          have hvalue := congrArg (Nat.ofDigitChars 10 · 0) hdigits
          simp only [Nat.ofDigitChars_ten_toDigits] at hvalue
          exact congrArg inside hvalue
      | _ => simp [text] at hchars

namespace Expansion

open Grammar

def Drawn (drafts : List (DraftContext M)) (rules : List (Rule M)) : Prop :=
  ∀ r ∈ rules, ∃ c ∈ drafts, .rule r ∈ c.entries

theorem drawn_entriesOf {drafts : List (DraftContext M)} {name : ContextName} {r : Rule M}
    (h : .rule r ∈ entriesOf drafts name) : ∃ c ∈ drafts, .rule r ∈ c.entries := by
  unfold entriesOf at h
  split at h
  · rename_i c hc
    exact ⟨c, List.mem_of_find?_eq_some hc, h⟩
  · cases h

theorem Flattens.drawn {drafts : List (DraftContext M)} {entries : List (Entry M)}
    {rules : List (Rule M)} (h : Flattens drafts entries rules)
    (hentries : ∀ r, .rule r ∈ entries → ∃ c ∈ drafts, .rule r ∈ c.entries) :
    Drawn drafts rules := by
  induction h with
  | nil => simp [Drawn]
  | rule _ ih =>
      have hrest := ih fun r hr => hentries r (List.mem_cons_of_mem _ hr)
      exact List.forall_mem_cons.mpr ⟨hentries _ (List.mem_cons_self ..), hrest⟩
  | splice _ _ ihTarget ihRest =>
      have htarget := ihTarget fun _ hr => drawn_entriesOf hr
      have hrest := ihRest fun r hr => hentries r (List.mem_cons_of_mem _ hr)
      exact List.forall_mem_append.mpr ⟨htarget, hrest⟩

theorem expanded_drawn {drafts : List (DraftContext M)} {names : List ContextName}
    {contexts : List (Context M)} (h : List.Forall₂ (Expanded drafts) names contexts) :
    contexts.map Context.name = names ∧ ∀ c ∈ contexts, Drawn drafts c.rules := by
  induction h with
  | nil => simp
  | cons hc _ ih =>
      refine ⟨by rw [List.map_cons, hc.named, ih.1], List.forall_mem_cons.mpr ⟨?_, ih.2⟩⟩
      exact hc.rules.drawn fun _ hr => drawn_entriesOf hr

theorem all_drawn {drafts : List (DraftContext M)} {contexts : List (Context M)}
    (h : all drafts = .ok contexts) :
    contexts.map Context.name = drafts.map DraftContext.name ∧
      ∀ c ∈ contexts, Drawn drafts c.rules :=
  expanded_drawn (all_expanded h)

end Expansion

namespace Grammar

/-- The tables of a grammar fit together, and its end patterns were taken by its engine. -/
structure Coherent (g : Grammar M) : Prop where
  numbered : ∀ (i : Nat) (r : Rule M), g.rules[i]? = some r → r.id = i
  listed : ∀ c ∈ g.contexts, ∀ r ∈ c.rules, r ∈ g.rules
  compiled : ∀ r, .region r ∈ g.rules → r.EndCompiled g.engine
  root : ∃ c ∈ g.contexts, c.name = .root
  inner : ∀ r, .region r ∈ g.rules → ∃ c ∈ g.contexts, c.name = r.inner

theorem ofJson_coherent {e : Engine M} {document : Json} {g : Grammar M}
    (h : ofJson e document = .ok g) : g.Coherent ∧ g.engine = e := by
  obtain ⟨blueprint, hblueprint, h⟩ := bind_eq_ok.mp h
  obtain ⟨⟨drafts, rules⟩, hdraft, h⟩ := bind_eq_ok.mp h
  obtain ⟨contexts, hcontexts, heq⟩ := bind_eq_ok.mp h
  cases heq
  have hdrafted := Blueprint.draft_drafted hdraft
  obtain ⟨hnames, hdrawn⟩ := Expansion.all_drawn hcontexts
  have hnamed : ∀ name, name ∈ blueprint.contexts.map DeclaredContext.name ++
      rules.filterMap Rule.inner? → ∃ c ∈ contexts, c.name = name := by
    intro name hname
    rw [← hdrafted.names, ← hnames] at hname
    exact List.mem_map.mp hname
  refine ⟨⟨?_, ?_, hdrafted.compiled, ?_, ?_⟩, rfl⟩
  · intro i r hr
    simpa using hdrafted.numbered i r hr
  · intro c hc r hr
    obtain ⟨draft, hdraft, hentry⟩ := hdrawn c hc r hr
    exact hdrafted.listed draft hdraft r hentry
  · apply hnamed
    apply List.mem_append_left
    rcases document with _ | _ | _ | _ | _ | _ | members
    case obj =>
      obtain ⟨scopeName, -, hblueprint⟩ := bind_eq_ok.mp hblueprint
      obtain ⟨root, -, hblueprint⟩ := bind_eq_ok.mp hblueprint
      obtain ⟨entries, -, heq⟩ := bind_eq_ok.mp hblueprint
      cases heq
      exact List.mem_cons_self ..
    all_goals cases hblueprint
  · intro r hr
    apply hnamed
    apply List.mem_append_right
    exact List.mem_filterMap.mpr ⟨_, hr, rfl⟩

namespace Coherent

variable {g : Grammar M}

theorem context?_isSome {name : ContextName} (h : ∃ c ∈ g.contexts, c.name = name) :
    (g.context? name.text).isSome := by
  obtain ⟨c, hc, rfl⟩ := h
  exact List.find?_isSome.mpr ⟨c, hc, beq_self_eq_true _⟩

theorem rule?_id (h : g.Coherent) {name : String} {c : Context M} {r : Rule M}
    (hc : g.context? name = some c) (hr : r ∈ c.rules) : g.rule? r.id = some r := by
  have hmem := h.listed c (List.mem_of_find?_eq_some hc) r hr
  obtain ⟨i, hi, hat⟩ := List.getElem_of_mem hmem
  have hget : g.rules[i]? = some r := by rw [List.getElem?_eq_getElem hi, hat]
  rw [h.numbered i r hget, rule?, if_neg (by omega), Int.toNat_natCast, hget]

theorem region?_id (h : g.Coherent) {name : String} {c : Context M} {r : RegionRule M}
    (hc : g.context? name = some c) (hr : .region r ∈ c.rules) : g.region? r.id = some r := by
  have hrule : g.rule? (Rule.region r).id = some (.region r) := h.rule?_id hc hr
  simp only [region?, show g.rule? r.id = some (.region r) from hrule]

end Coherent

theorem region?_mem {g : Grammar M} {id : Int} {r : RegionRule M} (h : g.region? id = some r) :
    .region r ∈ g.rules := by
  unfold region? at h
  split at h
  · rename_i r' hrule
    cases h
    unfold rule? at hrule
    split at hrule
    · cases hrule
    · exact List.mem_of_getElem? hrule
  · cases h

def sampleEngine : Engine Matcher := .plain (· == '!') "a reserved character"

/-- A word, and quotes, which nest and whose ends repeat their beginnings. -/
def sampleSource : Json := .obj [
  ("scopeName", .str "text"),
  ("patterns", .arr [
    .obj [("match", .str "cat"), ("name", .str "animal")],
    .obj [
      ("begin", .str "<"),
      ("end", .str "\\0>"),
      ("name", .str "quote"),
      ("patterns", .arr [.obj [("include", .str "$self")]])]])]

def sample : Grammar Matcher :=
  match ofJson sampleEngine sampleSource with
  | .ok g => g
  | .error _ => ⟨"", none, [], [], sampleEngine⟩

theorem ofJson_sample : ofJson sampleEngine sampleSource = .ok sample := by
  have hok : (ofJson sampleEngine sampleSource).isOk = true := by decide +kernel
  unfold sample
  rcases hcompiled : ofJson sampleEngine sampleSource with fault | g
  · rw [hcompiled] at hok
    cases hok
  · rfl

end Grammar

end LineScope
