import LineScope.Proofs.Registry.Course

namespace LineScope

variable {M : Type}

def Answer.Empty : Answer → Prop
  | .nothing | .document .null => True
  | _ => False

namespace Registry

variable {r : Registry M} {scopeName : String} {a : Answer}

theorem conclude_empty (h : a.Empty) :
    r.conclude scopeName a = (.ok none, r.record (.unknownScope scopeName)) := by
  unfold Answer.Empty at h
  split at h
  · rfl
  · rfl
  · exact absurd h not_false

theorem conclude_document_held {result : Option (Registered M)} (hdocument : ¬ a.Empty)
    (h : (r.conclude scopeName a).1 = .ok result) :
    ∃ g, result = some g ∧ (r.conclude scopeName a).2.get? scopeName = some g := by
  cases a with
  | fails message => cases h
  | nothing => exact absurd trivial hdocument
  | document document =>
      have hnull : document ≠ .null := by
        rintro rfl
        exact hdocument trivial
      rw [conclude_document r scopeName hnull] at h ⊢
      rcases accept_cases r scopeName document with
        ⟨e, r', haccept, -⟩ | ⟨g, r', haccept, hname, hstored⟩
      · rw [haccept] at h
        cases h
      · rw [haccept] at h ⊢
        cases h
        refine ⟨g, rfl, ?_⟩
        have hscope : Json.str scopeName = .str g.grammar.scopeName :=
          hname.symm.trans (scopeNameOf_of_ofJson hstored.compiled)
        rw [hstored.get?_eq, if_pos (Json.str.inj hscope)]

/-- The loader is asked for a scope and gives no document, but has the scope stored by then. -/
structure Overlooked (r : Registry M) (scopeName : String) (script : Script M) : Prop where
  absent : r.get? scopeName = none
  answer : (run script (r.ask scopeName)).1.Empty
  held : (run script (r.ask scopeName)).2.has scopeName = true

theorem load_of_get? {g : Registered M} (h : r.get? scopeName = some g)
    (loader : Option (Script M)) : r.load scopeName loader = (.ok (some g), r) := by
  simp only [load, h]

theorem load_of_absent (h : r.get? scopeName = none) (script : Script M) :
    r.load scopeName (some script) =
      (run script (r.ask scopeName)).2.conclude scopeName (run script (r.ask scopeName)).1 := by
  rw [load, h]

theorem load_without_loader (h : r.get? scopeName = none) :
    r.load scopeName none = (.ok none, r.record (.unknownScope scopeName)) := by
  rw [load, h]
  rfl

/-- The grammar that an overlooked scope has is not returned, but by the next request. -/
theorem Overlooked.load {script : Script M} (h : r.Overlooked scopeName script) :
    (r.load scopeName (some script)).1 = .ok none ∧
      ∃ g, (r.load scopeName (some script)).2.get? scopeName = some g ∧
        ∀ loader, ((r.load scopeName (some script)).2.load scopeName loader).1 = .ok (some g) := by
  obtain ⟨g, hg⟩ := Option.isSome_iff_exists.mp h.held
  rw [load_of_absent h.absent, conclude_empty h.answer]
  have hheld : ((run script (r.ask scopeName)).2.record (.unknownScope scopeName)).get? scopeName =
      some g := hg
  exact ⟨rfl, g, hheld, fun loader => by rw [load_of_get? hheld]⟩

theorem load_held {loader : Option (Script M)} {result : Option (Registered M)}
    (hnot : ∀ script, loader = some script → ¬ r.Overlooked scopeName script)
    (h : (r.load scopeName loader).1 = .ok result) :
    (r.load scopeName loader).2.get? scopeName = result := by
  -- The cases are the ways on which a request ends without a fault.
  rcases hget : r.get? scopeName with _ | g
  · rcases loader with _ | script
    · rw [load_without_loader hget] at h ⊢
      cases h
      exact hget
    · rw [load_of_absent hget] at h ⊢
      by_cases hempty : (run script (r.ask scopeName)).1.Empty
      · rw [conclude_empty hempty] at h ⊢
        cases h
        rcases hheld : (run script (r.ask scopeName)).2.get? scopeName with _ | g
        · exact hheld
        · refine absurd ⟨hget, hempty, ?_⟩ (hnot script rfl)
          rw [has, hheld]
          rfl
      · obtain ⟨g, rfl, hheld⟩ := conclude_document_held hempty h
        exact hheld
  · rw [load_of_get? hget] at h ⊢
    cases h
    exact hget

/-- Whatever the loader does with the registry before it answers, a request that does not fail
returns what the registry then holds exactly if the scope is not overlooked. A grammar that is
returned is the one held in any case. -/
theorem load_held_iff {loader : Option (Script M)} {result : Option (Registered M)}
    (h : (r.load scopeName loader).1 = .ok result) :
    (result = (r.load scopeName loader).2.get? scopeName ↔
        ∀ script, loader = some script → ¬ r.Overlooked scopeName script) ∧
      (∀ g, result = some g → (r.load scopeName loader).2.get? scopeName = some g) ∧
      ∀ script, loader = some script → r.Overlooked scopeName script →
        result = none ∧ ∃ g, (r.load scopeName loader).2.get? scopeName = some g ∧
          ∀ next, ((r.load scopeName loader).2.load scopeName next).1 = .ok (some g) := by
  have hoverlooked : ∀ script, loader = some script → r.Overlooked scopeName script →
      result = none ∧ ∃ g, (r.load scopeName loader).2.get? scopeName = some g ∧
        ∀ next, ((r.load scopeName loader).2.load scopeName next).1 = .ok (some g) := by
    rintro script rfl hscript
    obtain ⟨hnone, hheld⟩ := hscript.load
    rw [hnone] at h
    cases h
    exact ⟨rfl, hheld⟩
  refine ⟨⟨?_, fun hnot => (load_held hnot h).symm⟩, ?_, hoverlooked⟩
  · intro heq script hloader hscript
    obtain ⟨hnone, g, hheld, -⟩ := hoverlooked script hloader hscript
    rw [hheld, hnone] at heq
    cases heq
  · rintro g rfl
    apply load_held (fun script hloader hscript => ?_) h
    cases (hoverlooked script hloader hscript).1

def thoroughLoader : Script Matcher :=
  .load "other" (fun _ => .answer (.document (Request.bareSource "other"))) fun _ =>
    .add (Request.bareSource "text") fun _ => .answer (.document (Request.bareSource "text"))

/-- A loader that adds a document for the scope that it is asked for, and gives none. -/
def secretiveLoader : Script Matcher :=
  .add (Request.bareSource "text") fun _ => .answer .nothing

theorem load_held_iff_sample :
    let loaded := (empty Grammar.sampleEngine).load "text" (some thoroughLoader)
    loaded.1.map (Option.map Registered.serial) = .ok (some 2) ∧
      loaded.2.get? "text" = loaded.1.toOption.join := by
  obtain ⟨result, hresult⟩ : ∃ result,
      ((empty Grammar.sampleEngine).load "text" (some thoroughLoader)).1 = .ok result :=
    ⟨_, rfl⟩
  obtain ⟨hiff, -, -⟩ := load_held_iff hresult
  refine ⟨rfl, ?_⟩
  rw [hresult]
  refine (hiff.mpr ?_).symm
  rintro script ⟨⟩ hscript
  exact hscript.answer

/-- A scope is reported as unknown while its grammar is held, and the next request returns it. -/
theorem load_overlooks :
    let loaded := (empty Grammar.sampleEngine).load "text" (some secretiveLoader)
    loaded.1 = .ok none ∧ loaded.2.has "text" = true ∧
      (loaded.2.load "text" none).1.map (Option.map Registered.serial) = .ok (some 0) :=
  ⟨rfl, rfl, rfl⟩

end Registry

end LineScope
