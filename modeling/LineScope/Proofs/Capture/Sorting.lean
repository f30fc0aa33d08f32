import Mathlib.Data.List.Perm.Basic
import LineScope.Capture

namespace LineScope.Capture

theorem le_iff {c d : Capture} :
    c.le d = true ↔ c.group < d.group ∨ (c.group = d.group ∧ c.scope ≤ d.scope) := by
  simp [le]

theorem le_antisymm {c d : Capture} (h : c.le d = true) (h' : d.le c = true) : c = d := by
  rcases le_iff.mp h with hlt | ⟨hgroup, hscope⟩
  · rcases le_iff.mp h' with hlt' | ⟨hgroup', -⟩
    · omega
    · omega
  · rcases le_iff.mp h' with hlt' | ⟨-, hscope'⟩
    · omega
    · cases c
      cases d
      cases hgroup
      cases String.le_antisymm hscope hscope'
      rfl

theorem le_trans {c d f : Capture} (h : c.le d = true) (h' : d.le f = true) : c.le f = true := by
  rw [le_iff] at h h' ⊢
  rcases h with hlt | ⟨hgroup, hscope⟩
  · left
    omega
  · rcases h' with hlt' | ⟨hgroup', hscope'⟩
    · left
      omega
    · exact .inr ⟨hgroup.trans hgroup', String.le_trans hscope hscope'⟩

theorem le_total (c d : Capture) : c.le d = true ∨ d.le c = true := by
  rw [le_iff, le_iff]
  rcases Nat.lt_trichotomy c.group d.group with hlt | heq | hgt
  · exact .inl (.inl hlt)
  · rcases String.le_total c.scope d.scope with hle | hle
    · exact .inl (.inr ⟨heq, hle⟩)
    · exact .inr (.inr ⟨heq.symm, hle⟩)
  · exact .inr (.inl hgt)

theorem insert_perm (c : Capture) (captures : List Capture) :
    (insert c captures).Perm (c :: captures) := by
  induction captures with
  | nil => exact .refl _
  | cons d rest ih =>
      rw [insert]
      split
      · exact (ih.cons d).trans (.swap c d rest)
      · exact .refl _

theorem insert_sorted {c : Capture} {captures : List Capture}
    (h : captures.Pairwise fun c d => c.le d = true) :
    (insert c captures).Pairwise fun c d => c.le d = true := by
  induction captures with
  | nil => exact List.pairwise_singleton ..
  | cons d rest ih =>
      obtain ⟨hd, hrest⟩ := List.pairwise_cons.mp h
      rw [insert]
      split
      · rename_i hle
        refine List.pairwise_cons.mpr ⟨fun x hx => ?_, ih hrest⟩
        rcases List.mem_cons.mp ((insert_perm c rest).mem_iff.mp hx) with rfl | hx
        · exact hle
        · exact hd x hx
      · rename_i hle
        have hle : c.le d = true := (le_total c d).resolve_right hle
        refine List.pairwise_cons.mpr ⟨fun x hx => ?_, h⟩
        rcases List.mem_cons.mp hx with rfl | hx
        · exact hle
        · exact le_trans hle (hd x hx)

theorem sort_spec (captures : List Capture) :
    (sort captures).Perm captures ∧ (sort captures).Pairwise fun c d => c.le d = true := by
  have hfold : ∀ sorted : List Capture, sorted.Pairwise (fun c d => c.le d = true) →
      (captures.foldl (fun sorted c => insert c sorted) sorted).Perm (sorted ++ captures) ∧
        (captures.foldl (fun sorted c => insert c sorted) sorted).Pairwise
          fun c d => c.le d = true := by
    induction captures with
    | nil =>
        intro sorted hsorted
        exact ⟨.of_eq (List.append_nil sorted).symm, hsorted⟩
    | cons c rest ih =>
        intro sorted hsorted
        obtain ⟨hperm, hpairwise⟩ := ih (insert c sorted) (insert_sorted hsorted)
        refine ⟨hperm.trans ?_, hpairwise⟩
        exact ((insert_perm c sorted).append_right rest).trans List.perm_middle.symm
  exact hfold [] .nil

theorem sort_congr {captures captures' : List Capture} (h : captures.Perm captures') :
    sort captures = sort captures' := by
  obtain ⟨hperm, hsorted⟩ := sort_spec captures
  obtain ⟨hperm', hsorted'⟩ := sort_spec captures'
  exact (hperm.trans (h.trans hperm'.symm)).eq_of_pairwise (fun _ _ _ _ => le_antisymm) hsorted
    hsorted'

end LineScope.Capture
