import LineScope.Proofs.Grammar.Expansion

/-!
Includes replaced by what they name, without a table of what has been expanded. The expansion comes
to the same rules, and it succeeds if and only if no context includes itself, be it by way of
others.
-/

namespace LineScope.Expansion

open Grammar

variable {M : Type} {drafts : List (DraftContext M)}

/-- The rules of entries, left to right, with the rules of its context for an include. -/
inductive Flattens (drafts : List (DraftContext M)) : List (Entry M) → List (Rule M) → Prop
  | nil : Flattens drafts [] []
  | rule {r : Rule M} {rest : List (Entry M)} {more : List (Rule M)} :
      Flattens drafts rest more → Flattens drafts (.rule r :: rest) (r :: more)
  | splice {target : ContextName} {rest : List (Entry M)} {rules more : List (Rule M)} :
      Flattens drafts (entriesOf drafts target) rules → Flattens drafts rest more →
        Flattens drafts (.include target :: rest) (rules ++ more)

theorem Flattens.unique {entries : List (Entry M)} {rules rules' : List (Rule M)}
    (h : Flattens drafts entries rules) (h' : Flattens drafts entries rules') : rules = rules' := by
  induction h generalizing rules' with
  | nil =>
      cases h'
      rfl
  | rule _ ih =>
      cases h' with
      | rule hrest => rw [ih hrest]
  | splice _ _ ihTarget ihRest =>
      cases h' with
      | splice htarget hrest => rw [ihTarget htarget, ihRest hrest]

theorem entriesOf_of_mem (hnodup : (drafts.map DraftContext.name).Nodup) {c : DraftContext M}
    (hc : c ∈ drafts) : entriesOf drafts c.name = c.entries := by
  unfold entriesOf
  induction drafts with
  | nil => cases hc
  | cons d rest ih =>
      obtain ⟨hnew, hrest⟩ := List.nodup_cons.mp hnodup
      rw [List.find?_cons]
      rcases List.mem_cons.mp hc with rfl | hc
      · rw [beq_self_eq_true]
      · have hne : (d.name == c.name) = false := by
          rw [beq_eq_false_iff_ne]
          intro heq
          exact hnew (heq ▸ List.mem_map_of_mem hc)
        rw [hne]
        exact ih hrest hc

def Sound (drafts : List (DraftContext M)) (done : Done M) : Prop :=
  ∀ name rules, done.lookup name = some rules → Flattens drafts (entriesOf drafts name) rules

theorem Sound.cons {done : Done M} {name : ContextName} {rules : List (Rule M)}
    (h : Sound drafts done) (hrules : Flattens drafts (entriesOf drafts name) rules) :
    Sound drafts ((name, rules) :: done) := by
  intro other found hlookup
  rw [List.lookup_cons] at hlookup
  split at hlookup
  · rename_i hsame
    cases hlookup
    rwa [beq_iff_eq.mp hsame]
  · exact h other found hlookup

def Task.Flattens (drafts : List (DraftContext M)) (rules : List (Rule M)) : Task M → Prop
  | .context name => Expansion.Flattens drafts (entriesOf drafts name) rules
  | .entries listed => Expansion.Flattens drafts listed rules

theorem Expands.flattens {path : List ContextName} {task : Task M} {done done' : Done M}
    {o : Outcome M} {rules : List (Rule M)} (h : Expands drafts path task done o)
    (hdone : Sound drafts done) (ho : o = .ok (rules, done')) :
    task.Flattens drafts rules ∧ Sound drafts done' := by
  induction h generalizing rules done' with
  | known hlookup =>
      cases ho
      exact ⟨hdone _ _ hlookup, hdone⟩
  | closed => cases ho
  | @opened path name done o _ _ _ ih =>
      rcases o with fault | ⟨found, between⟩
      · cases ho
      · cases ho
        obtain ⟨hrules, hbetween⟩ := ih hdone rfl
        exact ⟨hrules, hbetween.cons hrules⟩
  | nil =>
      cases ho
      exact ⟨.nil, hdone⟩
  | @rule path r rest done o _ ih =>
      rcases o with fault | ⟨more, between⟩
      · cases ho
      · cases ho
        obtain ⟨hrest, hdone'⟩ := ih hdone rfl
        exact ⟨.rule hrest, hdone'⟩
  | @«include» path target rest done between included o _ _ ihTarget ihRest =>
      rcases o with fault | ⟨more, last⟩
      · cases ho
      · cases ho
        obtain ⟨htarget, hbetween⟩ := ihTarget hdone rfl
        obtain ⟨hrest, hdone'⟩ := ihRest hbetween rfl
        exact ⟨.splice htarget hrest, hdone'⟩
  | failed => cases ho

structure Expanded (drafts : List (DraftContext M)) (name : ContextName) (c : Context M) :
    Prop where
  named : c.name = name
  rules : Flattens drafts (entriesOf drafts name) c.rules

theorem contexts_expanded {names : List ContextName} {done : Done M} {found : List (Context M)}
    (hdone : Sound drafts done) (h : contexts drafts names done = .ok found) :
    List.Forall₂ (Expanded drafts) names found := by
  induction names generalizing done found with
  | nil =>
      cases h
      exact .nil
  | cons name rest ih =>
      obtain ⟨⟨rules, between⟩, hcontext, h⟩ := bind_eq_ok.mp h
      obtain ⟨more, hmore, heq⟩ := bind_eq_ok.mp h
      cases heq
      obtain ⟨hrules, hbetween⟩ := (start_expands drafts name done).flattens hdone hcontext
      exact .cons ⟨rfl, hrules⟩ (ih hbetween hmore)

theorem all_expanded {found : List (Context M)} (h : all drafts = .ok found) :
    List.Forall₂ (Expanded drafts) (drafts.map DraftContext.name) found :=
  contexts_expanded (by simp [Sound]) h

/-- No context includes itself, directly or by way of others. -/
def Acyclic (drafts : List (DraftContext M)) : Prop :=
  ∀ name, ¬ Relation.TransGen (Includes drafts) name name

theorem contexts_ok (acyclic : Acyclic drafts) (names : List ContextName) (done : Done M) :
    ∃ found, contexts drafts names done = .ok found := by
  rcases hcontexts : contexts drafts names done with fault | found
  · obtain ⟨chain, -, hcycle⟩ := contexts_isCycle hcontexts
    obtain ⟨name, hname⟩ := hcycle.exists_transGen
    exact absurd hname (acyclic name)
  · exact ⟨found, rfl⟩

theorem Flattens.acc {entries : List (Entry M)} {rules : List (Rule M)}
    (h : Flattens drafts entries rules) :
    ∀ target, .include target ∈ entries → Acc (fun t s => Includes drafts s t) target := by
  induction h with
  | nil => simp
  | rule _ ih =>
      intro target htarget
      exact ih target (by simpa using htarget)
  | splice _ _ ihTarget ihRest =>
      intro target htarget
      rcases List.mem_cons.mp htarget with heq | htarget
      · cases heq
        exact .intro _ fun t ht => ihTarget t ht
      · exact ihRest target htarget

theorem acyclic_of_flattens
    (h : ∀ name ∈ drafts.map DraftContext.name,
      ∃ rules, Flattens drafts (entriesOf drafts name) rules) :
    Acyclic drafts := by
  intro name hcycle
  have hacc : Acc (fun t s => Includes drafts s t) name := by
    obtain ⟨between, hincludes, -⟩ := Relation.TransGen.head'_iff.mp hcycle
    obtain ⟨rules, hrules⟩ := h name hincludes.drafted
    exact .intro _ fun t ht => hrules.acc t ht
  induction hacc with
  | intro name _ ih =>
      obtain ⟨between, hincludes, hback⟩ := Relation.TransGen.head'_iff.mp hcycle
      exact ih between hincludes (.tail' hback hincludes)

theorem exists_all_iff : (∃ found, all drafts = .ok found) ↔ Acyclic drafts := by
  constructor
  · rintro ⟨found, hfound⟩
    apply acyclic_of_flattens
    intro name hname
    obtain ⟨hlength, hexpanded⟩ := List.forall₂_iff_get.mp (all_expanded hfound)
    obtain ⟨i, hi, rfl⟩ := List.getElem_of_mem hname
    exact ⟨_, (hexpanded i hi (hlength ▸ hi)).rules⟩
  · intro acyclic
    exact contexts_ok acyclic _ _

end LineScope.Expansion
