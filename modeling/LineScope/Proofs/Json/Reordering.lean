import Mathlib.Data.List.Nodup
import LineScope.Grammar.Declaration
import LineScope.Proofs.Grammar.Document

/-!
Documents that are the same up to the order of the members of their objects. The keys of an object
are distinct, so that a member is found by its key wherever it stands.
-/

namespace LineScope.Json

open Declaration (field)

def IsAtom : Json → Prop
  | .arr _ => False
  | .obj _ => False
  | _ => True

/-- Equal up to the order of members, at any depth. -/
inductive Reordered : Json → Json → Prop
  | atom {j : Json} : j.IsAtom → Reordered j j
  | arr {items items' : List Json} : items.length = items'.length →
      (∀ (i : Nat) a a', items[i]? = some a → items'[i]? = some a' → Reordered a a') →
        Reordered (.arr items) (.arr items')
  | obj {members members' : Members} :
      (members.map Prod.fst).Nodup → (members.map Prod.fst).Perm (members'.map Prod.fst) →
      (∀ key a a', (key, a) ∈ members → (key, a') ∈ members' → Reordered a a') →
        Reordered (.obj members) (.obj members')

theorem Members.get?_eq_some_iff {members : Members} (hnodup : (members.map Prod.fst).Nodup)
    {key : String} {value : Json} : members.get? key = some value ↔ (key, value) ∈ members := by
  unfold Members.get?
  induction members with
  | nil => simp
  | cons m rest ih =>
      obtain ⟨hnew, hrest⟩ := List.nodup_cons.mp hnodup
      rw [List.lookup_cons, List.mem_cons]
      by_cases hkey : key = m.1
      · have hnot : (key, value) ∉ rest := by
          intro hmem
          exact hnew (hkey ▸ List.mem_map_of_mem (f := Prod.fst) hmem)
        simp [hkey, Prod.ext_iff, eq_comm] at hnot ⊢
        simp [hnot]
      · have hne : (key == m.1) = false := by simpa using hkey
        rw [hne, ih hrest]
        simp [Prod.ext_iff, hkey]

namespace Reordered

variable {j j' : Json} {members members' : Members}

theorem symm (h : Reordered j j') : Reordered j' j := by
  induction h with
  | atom h => exact .atom h
  | arr hlength _ ih => exact .arr hlength.symm fun i a a' ha ha' => ih i a' a ha' ha
  | obj hnodup hkeys _ ih =>
      exact .obj (hkeys.nodup_iff.mp hnodup) hkeys.symm fun key a a' ha ha' => ih key a' a ha' ha

theorem arr_self {items : List Json} (h : ∀ a ∈ items, Reordered a a) :
    Reordered (.arr items) (.arr items) := by
  refine .arr rfl fun i a a' ha ha' => ?_
  rw [ha, Option.some.injEq] at ha'
  exact ha' ▸ h a (List.mem_of_getElem? ha)

theorem obj_perm (hnodup : (members.map Prod.fst).Nodup) (hperm : members.Perm members')
    (h : ∀ m ∈ members, Reordered m.2 m.2) : Reordered (.obj members) (.obj members') := by
  refine .obj hnodup (hperm.map Prod.fst) fun key a a' ha ha' => ?_
  have heq : (key, a) = (key, a') :=
    List.inj_on_of_nodup_map hnodup ha (hperm.mem_iff.mpr ha') rfl
  cases heq
  exact h _ ha

theorem exists_obj (h : Reordered (.obj members) j') : ∃ members', j' = .obj members' := by
  cases h with
  | atom h => cases h
  | @obj _ members' => exact ⟨members', rfl⟩

theorem exists_item {items items' : List Json} (h : Reordered (.arr items) (.arr items'))
    {item : Json} (hitem : item ∈ items) : ∃ item' ∈ items', Reordered item item' := by
  cases h with
  | atom h => cases h
  | arr hlength hitems =>
      obtain ⟨i, hi, rfl⟩ := List.getElem_of_mem hitem
      have hi' : i < items'.length := hlength ▸ hi
      refine ⟨items'[i], List.getElem_mem hi', ?_⟩
      exact hitems i _ _ (List.getElem?_eq_getElem hi) (List.getElem?_eq_getElem hi')

theorem keys_nodup (h : Reordered (.obj members) (.obj members')) :
    (members.map Prod.fst).Nodup := by
  cases h with
  | atom h => cases h
  | obj hnodup => exact hnodup

theorem keys_perm (h : Reordered (.obj members) (.obj members')) :
    (members.map Prod.fst).Perm (members'.map Prod.fst) := by
  cases h with
  | atom h => cases h
  | obj _ hkeys => exact hkeys

theorem exists_mem (h : Reordered (.obj members) (.obj members')) {key : String} {value : Json}
    (hvalue : (key, value) ∈ members) :
    ∃ value', (key, value') ∈ members' ∧ Reordered value value' := by
  have hkey : key ∈ members.map Prod.fst := List.mem_map_of_mem (f := Prod.fst) hvalue
  obtain ⟨⟨_, value'⟩, hvalue', rfl⟩ := List.mem_map.mp (h.keys_perm.mem_iff.mp hkey)
  cases h with
  | atom h => cases h
  | obj _ _ hvalues => exact ⟨value', hvalue', hvalues _ value value' hvalue hvalue'⟩

theorem get? (h : Reordered (.obj members) (.obj members')) (key : String) :
    Option.Rel Reordered (members.get? key) (members'.get? key) := by
  have hget : ∀ a, members.get? key = some a ↔ (key, a) ∈ members :=
    fun a => Members.get?_eq_some_iff h.keys_nodup
  have hget' : ∀ a, members'.get? key = some a ↔ (key, a) ∈ members' :=
    fun a => Members.get?_eq_some_iff h.symm.keys_nodup
  rcases hfound : members.get? key with _ | a
  · rcases hfound' : members'.get? key with _ | a'
    · exact .none
    · obtain ⟨a, ha, -⟩ := h.symm.exists_mem ((hget' a').mp hfound')
      rw [(hget a).mpr ha] at hfound
      cases hfound
  · obtain ⟨a', ha', hvalue⟩ := h.exists_mem ((hget a).mp hfound)
    rw [(hget' a').mpr ha']
    exact .some hvalue

theorem get?_str (h : Reordered (.obj members) (.obj members')) {key s : String}
    (hvalue : members.get? key = some (.str s)) : members'.get? key = some (.str s) := by
  have hrel := h.get? key
  rw [hvalue] at hrel
  generalize members'.get? key = value' at hrel ⊢
  cases hrel with
  | some hvalue =>
      cases hvalue
      rfl

theorem field (h : Reordered (.obj members) (.obj members')) (key : String) :
    Reordered (field members key) (field members' key) := by
  unfold Declaration.field
  have hvalue := h.get? key
  generalize members.get? key = value at hvalue
  generalize members'.get? key = value' at hvalue
  cases hvalue with
  | some hvalue => exact hvalue
  | none => exact .atom trivial

theorem has_eq (h : Reordered (.obj members) (.obj members')) (key : String) :
    members.has key = members'.has key := by
  have hsome := h.get? key
  rw [Bool.eq_iff_iff, Members.has_iff, Members.has_iff]
  generalize members.get? key = value at hsome
  generalize members'.get? key = value' at hsome
  cases hsome with
  | some _ => simp
  | none => rfl

theorem map_perm {β : Type} {f : String → Json → β}
    (hf : ∀ key {a a' : Json}, Reordered a a' → f key a = f key a')
    (h : Reordered (.obj members) (.obj members')) :
    (members.map fun m => f m.1 m.2).Perm (members'.map fun m => f m.1 m.2) := by
  have hkeys : ∀ {m : Members}, (m.map Prod.fst).Nodup → m.map (fun x => f x.1 x.2) =
      (m.map Prod.fst).map fun key => f key (Declaration.field m key) := by
    intro m hnodup
    rw [List.map_map]
    apply List.map_congr_left
    intro x hx
    have hget : m.get? x.1 = some x.2 := (Members.get?_eq_some_iff hnodup).mpr hx
    simp only [Function.comp_apply, Declaration.field, hget, Option.getD_some]
  rw [hkeys h.keys_nodup, hkeys h.symm.keys_nodup]
  refine .trans (.of_eq ?_) (h.keys_perm.map _)
  exact List.map_congr_left fun key _ => hf key (h.field key)

theorem isTrue_eq (h : Reordered j j') : j.isTrue = j'.isTrue := by
  cases h with
  | atom => rfl
  | arr hlength =>
      rw [Bool.eq_iff_iff]
      simp [isTrue, ← List.length_eq_zero_iff, hlength]
  | @obj members members' _ hkeys =>
      have hlength : members.length = members'.length := by simpa using hkeys.length_eq
      rw [Bool.eq_iff_iff]
      simp [isTrue, ← List.length_eq_zero_iff, hlength]

theorem str?_eq (h : Reordered j j') : j.str? = j'.str? := by
  cases h with
  | atom => rfl
  | arr => rfl
  | obj => rfl

end Reordered

end LineScope.Json
