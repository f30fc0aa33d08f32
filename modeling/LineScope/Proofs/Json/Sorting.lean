import LineScope.Grammar.Declaration
import LineScope.Json.Printer

namespace LineScope.Json

variable {members : Members}

theorem mem_insertMember {m x : String × Json} :
    x ∈ insertMember m members ↔ x = m ∨ x ∈ members := by
  induction members with
  | nil => simp [insertMember]
  | cons first rest ih =>
      rw [insertMember]
      split
      · simp only [List.mem_cons, ih]
        exact or_left_comm
      · simp only [List.mem_cons]

theorem insertMember_sorted {m : String × Json} (h : members.Pairwise (·.1 ≤ ·.1)) :
    (insertMember m members).Pairwise (·.1 ≤ ·.1) := by
  induction members with
  | nil => exact List.pairwise_singleton ..
  | cons first rest ih =>
      obtain ⟨hfirst, hrest⟩ := List.pairwise_cons.mp h
      rw [insertMember]
      split
      · rename_i hle
        refine List.pairwise_cons.mpr ⟨fun x hx => ?_, ih hrest⟩
        rcases mem_insertMember.mp hx with rfl | hx
        · exact hle
        · exact hfirst x hx
      · rename_i hnot
        have hle := (String.le_total m.1 first.1).resolve_right hnot
        refine List.pairwise_cons.mpr ⟨fun x hx => ?_, h⟩
        rcases List.mem_cons.mp hx with rfl | hx
        · exact hle
        · exact String.le_trans hle (hfirst x hx)

theorem lookup_insertMember {name : String} {value : Json} (key : String)
    (h : members.Pairwise (·.1 ≤ ·.1)) :
    (insertMember (name, value) members).lookup key = (members ++ [(name, value)]).lookup key := by
  induction members with
  | nil => rfl
  | cons first rest ih =>
      obtain ⟨hfirst, hrest⟩ := List.pairwise_cons.mp h
      rw [insertMember]
      split
      · rw [List.cons_append, List.lookup_cons, List.lookup_cons, ih hrest]
      · rename_i hnot
        by_cases hkey : key = name
        · -- all names behind the new one are greater
          have hnone : (first :: rest).lookup key = none := by
            rw [List.lookup_eq_none_iff]
            intro x hx
            rw [bne_iff_ne]
            rintro hname
            rcases List.mem_cons.mp hx with rfl | hx
            · exact hnot (hkey ▸ hname ▸ String.le_refl _)
            · exact hnot (hkey ▸ hname ▸ hfirst x hx)
          rw [List.lookup_append, hnone, Option.none_or]
          simp [hkey]
        · have hne : (key == name) = false := by simpa using hkey
          rw [List.lookup_append, List.lookup_cons]
          simp [hne, List.lookup_cons]

theorem lookup_sortMembers (members : Members) (key : String) :
    (sortMembers members).lookup key = members.lookup key := by
  have hfold : ∀ sorted : Members, sorted.Pairwise (·.1 ≤ ·.1) →
      (members.foldl (fun sorted m => insertMember m sorted) sorted).lookup key =
        (sorted ++ members).lookup key := by
    induction members with
    | nil =>
        intro sorted _
        rw [List.foldl_nil, List.append_nil]
    | cons m rest ih =>
        intro sorted hsorted
        rw [List.foldl_cons, ih _ (insertMember_sorted hsorted), List.lookup_append,
          lookup_insertMember key hsorted, ← List.lookup_append, List.append_assoc,
          List.singleton_append]
  exact hfold [] .nil

theorem lookup_sortedMembers (members : Members) (key : String) :
    (sortedMembers members).lookup key = (members.lookup key).map sorted := by
  induction members with
  | nil => rfl
  | cons m rest ih =>
      rw [sortedMembers, List.lookup_cons, List.lookup_cons]
      split
      · rw [Option.map_some]
      · exact ih

/-- Documents with one canonical form have the same text under a name. -/
theorem field_str_of_sorted_eq {members' : Members} {key s : String}
    (h : (Json.obj members).sorted = (Json.obj members').sorted)
    (hfield : Declaration.field members key = .str s) :
    Declaration.field members' key = .str s := by
  have hmembers : sortMembers (sortedMembers members) = sortMembers (sortedMembers members') := by
    simpa [sorted] using h
  have hlookup := congrArg (List.lookup key) hmembers
  rw [lookup_sortMembers, lookup_sortMembers, lookup_sortedMembers, lookup_sortedMembers] at hlookup
  have hfound : members.lookup key = some (.str s) := by
    unfold Declaration.field Members.get? at hfield
    rcases hvalue : members.lookup key with _ | value
    · rw [hvalue] at hfield
      cases hfield
    · rw [hvalue] at hfield
      exact congrArg some hfield
  rw [hfound] at hlookup
  obtain ⟨value, hvalue, hsorted⟩ := Option.map_eq_some_iff.mp hlookup.symm
  have hstr : value = .str s := by
    cases value <;> simp_all [sorted]
  rw [Declaration.field, Members.get?, hvalue, hstr]
  rfl

end LineScope.Json
