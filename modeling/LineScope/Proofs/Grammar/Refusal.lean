import LineScope.Proofs.Grammar.Expansion
import LineScope.Proofs.Scan.Safety

namespace LineScope

open Json (Members)

variable {M : Type}

namespace Grammar

/-- The document is refused as no grammar; an overflow is the engine's own fault. -/
def Error.IsRefusal : Error → Prop
  | .overflow _ => False
  | _ => True

def Refuses {α : Type} (x : Except Error α) : Prop := ∀ fault, x = .error fault → fault.IsRefusal

theorem refuses_ok {α : Type} (a : α) : Refuses (.ok a) := by
  intro fault h
  cases h

theorem refuses_error {α : Type} {fault : Error} (h : fault.IsRefusal) :
    Refuses (.error fault : Except Error α) := by
  rintro _ ⟨⟩
  exact h

theorem Refuses.bind {α β : Type} {x : Except Error α} {f : α → Except Error β} (h : Refuses x)
    (hf : ∀ a, Refuses (f a)) : Refuses (x >>= f) := by
  intro fault hfault
  rcases bind_eq_error.mp hfault with hx | ⟨a, -, ha⟩
  · exact h fault hx
  · exact hf a fault ha

theorem Refuses.map {α β : Type} {x : Except Error α} {f : α → β} (h : Refuses x) :
    Refuses (x.map f) := by
  rcases x with fault | a
  · exact refuses_error (h fault rfl)
  · exact refuses_ok _

end Grammar

namespace Draft

open Grammar

variable {e : Engine M} {b : Blueprint} {place : Place} {context : ContextName}

theorem pattern_refuses (decides : e.Decides) (source : String) :
    Refuses (pattern e place source) := by
  unfold pattern
  split
  · exact refuses_ok _
  · exact refuses_error trivial
  · rename_i reason h
    exact absurd h (decides source reason)

theorem sourceOf_refuses (j : Json) : Refuses (sourceOf place j) := by
  unfold sourceOf
  split
  · exact refuses_ok _
  · exact refuses_error trivial

theorem closer_refuses (decides : e.Decides) (source : String) :
    Refuses (closer e place source) := by
  unfold closer
  split
  · exact (pattern_refuses decides _).bind fun _ => refuses_ok _
  · exact (pattern_refuses decides _).bind fun _ => refuses_ok _

theorem scope_refuses (j : Json) : Refuses (scope place j) := by
  unfold scope
  split
  · exact refuses_ok _
  · exact refuses_ok _
  · exact refuses_error trivial

theorem captureGroup_refuses (key : String) : Refuses (captureGroup place key) := by
  unfold captureGroup
  split
  · exact refuses_error trivial
  · split
    · exact refuses_error trivial
    · exact refuses_ok _

theorem captureList_refuses (members : List (String × Json)) :
    Refuses (captureList place members) := by
  induction members with
  | nil => exact refuses_ok _
  | cons m rest ih =>
      have hscope : Refuses (captureScope place m.2) := by
        unfold captureScope
        split
        · exact scope_refuses _
        · exact scope_refuses _
      refine (captureGroup_refuses m.1).bind fun _ => ?_
      exact hscope.bind fun _ => ih.bind fun _ => refuses_ok _

theorem captures_refuses (j : Json) : Refuses (captures place j) := by
  unfold captures
  split
  · exact refuses_ok _
  · exact (captureList_refuses _).map
  · exact refuses_error trivial

theorem leaf_refuses (decides : e.Decides) (id : Nat) (fields : MatchFields) :
    Refuses (leaf e place id fields) := by
  refine (sourceOf_refuses _).bind fun source => ?_
  refine (pattern_refuses decides source).bind fun _ => ?_
  refine (scope_refuses _).bind fun _ => ?_
  exact (captures_refuses _).bind fun _ => refuses_ok _

theorem region_refuses (decides : e.Decides) (id : Nat) (fields : RegionFields) :
    Refuses (region e place id fields) := by
  have hend : Refuses (endGiven place fields.endSource) := by
    unfold endGiven
    split
    · exact refuses_error trivial
    · exact refuses_ok _
  refine hend.bind fun _ => ?_
  refine (sourceOf_refuses _).bind fun source => ?_
  refine (pattern_refuses decides source).bind fun _ => ?_
  refine (sourceOf_refuses _).bind fun endSource => ?_
  refine (closer_refuses decides endSource).bind fun _ => ?_
  refine (scope_refuses _).bind fun _ => ?_
  refine (scope_refuses _).bind fun _ => ?_
  refine (captures_refuses _).bind fun _ => ?_
  exact (captures_refuses _).bind fun _ => refuses_ok _

theorem includeOf_refuses (reference : Json) :
    Refuses (includeOf b context reference : Except Error (Entry M)) := by
  unfold includeOf
  split
  · split
    · exact refuses_ok _
    · exact refuses_error trivial
  · exact refuses_error trivial

theorem listed_refuses (inner : Option (List Declaration)) : Refuses (listed context inner) := by
  unfold listed
  split
  · exact refuses_ok _
  · exact refuses_error trivial

mutual

theorem declaration_refuses (decides : e.Decides) {index : Nat} :
    (declared : Declaration) → (d : Draft M) →
      Refuses (declaration e b context index declared d)
  | .malformed, _ => by
      rw [declaration]
      exact refuses_error trivial
  | .empty, _ => by
      rw [declaration]
      exact refuses_error trivial
  | .include reference, d => by
      rw [declaration]
      exact (includeOf_refuses reference).bind fun _ => refuses_ok _
  | .leaf fields, d => by
      rw [declaration]
      exact (leaf_refuses decides _ _).bind fun _ => refuses_ok _
  | .region fields inner, d => by
      rw [declaration]
      refine (region_refuses decides _ _).bind fun r => ?_
      exact (listed_refuses inner).bind fun _ => refuses_ok _
  | .group none, _ => by
      rw [declaration]
      exact refuses_error trivial
  | .group (some members), d => by
      rw [declaration]
      exact group_refuses decides members d

theorem group_refuses (decides : e.Decides) {index : Nat} :
    (members : List Declaration) → (d : Draft M) → Refuses (group e b context index members d)
  | [], _ => refuses_ok _
  | first :: rest, d => by
      refine (declaration_refuses decides first d).bind fun o => ?_
      exact (group_refuses decides rest o.2).bind fun _ => refuses_ok _

end

theorem members_refuses (decides : e.Decides) (index : Nat) (declared : List Declaration)
    (d : Draft M) : Refuses (members e b context index declared d) := by
  induction declared generalizing index d with
  | nil => exact refuses_ok _
  | cons first rest ih =>
      refine (declaration_refuses decides first d).bind fun o => ?_
      exact (ih (index + 1) o.2).bind fun _ => refuses_ok _

theorem contexts_refuses (decides : e.Decides) (fuel : Nat) (d : Draft M) :
    Refuses (contexts e b fuel d) := by
  induction fuel generalizing d with
  | zero => exact refuses_ok _
  | succ fuel ih =>
      rw [contexts]
      split
      · exact refuses_ok _
      · refine (members_refuses decides _ _ _).bind fun o => ?_
        exact (ih o.2).bind fun _ => refuses_ok _

end Draft

namespace Blueprint

open Grammar

theorem patternsOf_refuses (members : Members) (context : ContextName) :
    Refuses (patternsOf members context) := by
  unfold patternsOf
  split
  · exact refuses_ok _
  · exact refuses_error trivial

theorem entries_refuses (found : Members) : Refuses (entries found) := by
  induction found with
  | nil => exact refuses_ok _
  | cons m rest ih =>
      have hentry : Refuses (entry m.1 m.2) := by
        unfold entry
        split
        · split
          · exact refuses_ok _
          · exact (patternsOf_refuses _ _).map
        · exact refuses_error trivial
      exact hentry.bind fun _ => ih.bind fun _ => refuses_ok _

theorem ofJson_refuses (document : Json) : Refuses (ofJson document) := by
  unfold ofJson
  split
  · rename_i members
    have hname : Refuses (scopeNameOf members) := by
      unfold scopeNameOf
      split
      · split
        · exact refuses_error trivial
        · exact refuses_ok _
      · exact refuses_error trivial
    have hrepository : Refuses (repository members) := by
      unfold repository
      simp only
      split
      · split
        · exact entries_refuses _
        · exact refuses_error trivial
      · exact refuses_ok _
    refine hname.bind fun _ => (patternsOf_refuses _ _).bind fun _ => ?_
    exact hrepository.bind fun _ => refuses_ok _
  · exact refuses_error trivial

end Blueprint

namespace Expansion

open Grammar

variable {drafts : List (DraftContext M)}

theorem contexts_refuses (names : List ContextName) (done : Done M) :
    Refuses (contexts drafts names done) := by
  intro fault hfault
  obtain ⟨chain, rfl, -⟩ := contexts_isCycle hfault
  trivial

end Expansion

end LineScope
