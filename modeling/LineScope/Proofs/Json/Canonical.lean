import Mathlib.Data.List.Sort
import LineScope.Json.Fingerprint
import LineScope.Proofs.Json.Reordering
import LineScope.Proofs.Json.RoundTrip
import LineScope.Proofs.Json.Sorting

/-!
The canonical text of a document stands for the document up to the order of members: sorting the
members of every object gives one representative, and its text can be read back. Fingerprints tell
documents apart as far as the digest does.
-/

namespace LineScope.Json

theorem insertMember_perm (m : String × Json) (members : Members) :
    (insertMember m members).Perm (m :: members) := by
  induction members with
  | nil => exact .refl _
  | cons first rest ih =>
      rw [insertMember]
      split
      · exact (ih.cons first).trans (.swap m first rest)
      · exact .refl _

theorem sortMembers_perm (members : Members) : (sortMembers members).Perm members := by
  have hfold : ∀ sorted : Members,
      (members.foldl (fun sorted m => insertMember m sorted) sorted).Perm (members ++ sorted) := by
    induction members with
    | nil => exact fun sorted => .refl _
    | cons m rest ih =>
        intro sorted
        exact (ih _).trans (((insertMember_perm m sorted).append_left rest).trans List.perm_middle)
  simpa [sortMembers] using hfold []

theorem sortMembers_sorted (members : Members) : (sortMembers members).Pairwise (·.1 ≤ ·.1) := by
  have hfold : ∀ sorted : Members, sorted.Pairwise (·.1 ≤ ·.1) →
      (members.foldl (fun sorted m => insertMember m sorted) sorted).Pairwise (·.1 ≤ ·.1) := by
    induction members with
    | nil => exact fun sorted hsorted => hsorted
    | cons m rest ih => exact fun sorted hsorted => ih _ (insertMember_sorted hsorted)
  exact hfold [] .nil

theorem sortMembers_eq_of_perm {members members' : Members}
    (hnodup : (members.map Prod.fst).Nodup) (hperm : members.Perm members') :
    sortMembers members = sortMembers members' := by
  have hsorted : (sortMembers members).Perm (sortMembers members') :=
    (sortMembers_perm members).trans (hperm.trans (sortMembers_perm members').symm)
  refine hsorted.eq_of_pairwise ?_ (sortMembers_sorted members) (sortMembers_sorted members')
  intro m m' hm hm' hle hge
  have hmem : m ∈ members := (sortMembers_perm members).mem_iff.mp hm
  have hmem' : m' ∈ members :=
    hperm.mem_iff.mpr ((sortMembers_perm members').mem_iff.mp hm')
  exact List.inj_on_of_nodup_map hnodup hmem hmem' (String.le_antisymm hle hge)

theorem sortedItems_eq_map (items : List Json) : sortedItems items = items.map sorted := by
  induction items with
  | nil => rfl
  | cons v rest ih => rw [sortedItems, ih, List.map_cons]

theorem sortedMembers_eq_map (members : Members) :
    sortedMembers members = members.map fun m => (m.1, m.2.sorted) := by
  induction members with
  | nil => rfl
  | cons m rest ih => rw [sortedMembers, ih, List.map_cons]

theorem map_fst_sortedMembers (members : Members) :
    (sortedMembers members).map Prod.fst = members.map Prod.fst := by
  rw [sortedMembers_eq_map, List.map_map]
  rfl

theorem mem_sortedMembers {members : Members} {key : String} {value : Json} :
    (key, value) ∈ sortedMembers members ↔ ∃ v, (key, v) ∈ members ∧ v.sorted = value := by
  rw [sortedMembers_eq_map, List.mem_map]
  constructor
  · rintro ⟨⟨name, v⟩, hm, heq⟩
    cases heq
    exact ⟨v, hm, rfl⟩
  · rintro ⟨v, hm, rfl⟩
    exact ⟨(key, v), hm, rfl⟩

theorem Exact.sorted {v : Json} (h : v.Exact) : v.sorted.Exact := by
  induction h with
  | null => exact .null
  | bool b => exact .bool b
  | int hn => exact .int hn
  | str s => exact .str s
  | @arr items _ ih =>
      rw [Json.sorted, sortedItems_eq_map]
      refine .arr fun w hw => ?_
      obtain ⟨v, hv, rfl⟩ := List.mem_map.mp hw
      exact ih v hv
  | @obj members hnodup _ ih =>
      rw [Json.sorted]
      refine .obj ?_ ?_
      · rwa [((sortMembers_perm _).map Prod.fst).nodup_iff, map_fst_sortedMembers]
      · rintro ⟨key, value⟩ hm
        obtain ⟨v, hv, rfl⟩ := mem_sortedMembers.mp ((sortMembers_perm _).mem_iff.mp hm)
        exact ih (key, v) hv

theorem Exact.reordered_sorted {v : Json} (h : v.Exact) : Reordered v v.sorted := by
  induction h with
  | null => exact .atom trivial
  | bool => exact .atom trivial
  | int => exact .atom trivial
  | str => exact .atom trivial
  | @arr items _ ih =>
      rw [Json.sorted, sortedItems_eq_map]
      refine .arr (List.length_map ..).symm fun i a a' ha ha' => ?_
      rw [List.getElem?_map, ha, Option.map_some, Option.some.injEq] at ha'
      exact ha' ▸ ih a (List.mem_of_getElem? ha)
  | @obj members hnodup _ ih =>
      rw [Json.sorted]
      refine .obj hnodup ?_ fun key a a' ha ha' => ?_
      · rw [← map_fst_sortedMembers]
        exact ((sortMembers_perm _).map Prod.fst).symm
      · obtain ⟨v, hv, rfl⟩ := mem_sortedMembers.mp ((sortMembers_perm _).mem_iff.mp ha')
        have heq : (key, a) = (key, v) := List.inj_on_of_nodup_map hnodup ha hv rfl
        cases heq
        exact ih (key, a) ha

namespace Reordered

theorem exists_mem_of_keys_perm {members members' : Members}
    (h : (members.map Prod.fst).Perm (members'.map Prod.fst)) {key : String} {value : Json}
    (hvalue : (key, value) ∈ members) : ∃ value', (key, value') ∈ members' := by
  have hkey : key ∈ members.map Prod.fst := List.mem_map_of_mem (f := Prod.fst) hvalue
  obtain ⟨⟨_, value'⟩, hvalue', rfl⟩ := List.mem_map.mp (h.mem_iff.mp hkey)
  exact ⟨value', hvalue'⟩

theorem trans {a b c : Json} (h : Reordered a b) (h' : Reordered b c) : Reordered a c := by
  induction h generalizing c with
  | atom _ => exact h'
  | arr hlength _ ih =>
      cases h' with
      | atom h => cases h
      | arr hlength' hitems' =>
          refine .arr (hlength.trans hlength') fun i x z hx hz => ?_
          obtain ⟨hi, -⟩ := List.getElem?_eq_some_iff.mp hx
          have hy := List.getElem?_eq_getElem (hlength ▸ hi)
          exact ih i x _ hx hy (hitems' i _ z hy hz)
  | @obj members members' hnodup hkeys _ ih =>
      cases h' with
      | atom h => cases h
      | obj _ hkeys' hvalues' =>
          refine .obj hnodup (hkeys.trans hkeys') fun key x z hx hz => ?_
          obtain ⟨y, hy⟩ := exists_mem_of_keys_perm hkeys hx
          exact ih key x y hx hy (hvalues' key y z hy hz)

theorem sorted_eq {a b : Json} (h : Reordered a b) : a.sorted = b.sorted := by
  induction h with
  | atom _ => rfl
  | @arr items items' hlength _ ih =>
      rw [Json.sorted, Json.sorted, sortedItems_eq_map, sortedItems_eq_map]
      refine congrArg Json.arr (List.ext_getElem? fun i => ?_)
      rw [List.getElem?_map, List.getElem?_map]
      rcases Nat.lt_or_ge i items.length with hi | hi
      · have ha := List.getElem?_eq_getElem hi
        have ha' := List.getElem?_eq_getElem (hlength ▸ hi)
        rw [ha, ha', Option.map_some, Option.map_some, ih i _ _ ha ha']
      · rw [List.getElem?_eq_none hi, List.getElem?_eq_none (hlength ▸ hi)]
  | @obj members members' hnodup hkeys _ ih =>
      rw [Json.sorted, Json.sorted]
      refine congrArg Json.obj (sortMembers_eq_of_perm ?_ ?_)
      · rwa [map_fst_sortedMembers]
      · have hnodup' := hkeys.nodup_iff.mp hnodup
        rw [← map_fst_sortedMembers] at hnodup hnodup'
        rw [List.perm_ext_iff_of_nodup hnodup.of_map hnodup'.of_map]
        rintro ⟨key, value⟩
        rw [mem_sortedMembers, mem_sortedMembers]
        constructor
        · rintro ⟨v, hv, rfl⟩
          obtain ⟨v', hv'⟩ := exists_mem_of_keys_perm hkeys hv
          exact ⟨v', hv', (ih key v v' hv hv').symm⟩
        · rintro ⟨v', hv', rfl⟩
          obtain ⟨v, hv⟩ := exists_mem_of_keys_perm hkeys.symm hv'
          exact ⟨v, hv, ih key v v' hv hv'⟩

end Reordered

theorem reordered_iff_sorted_eq {a b : Json} (ha : a.Exact) (hb : b.Exact) :
    Reordered a b ↔ a.sorted = b.sorted := by
  refine ⟨Reordered.sorted_eq, fun h => ?_⟩
  have hmiddle : Reordered a b.sorted := h ▸ ha.reordered_sorted
  exact hmiddle.trans hb.reordered_sorted.symm

theorem exists_layout (indent : Option Int) :
    ∃ l : Layout, l.Legible ∧ ∀ v : Json, v.print indent = String.ofList (write l 0 v.sorted) := by
  cases indent with
  | none => exact ⟨.spaced, Layout.legible_spaced, fun _ => rfl⟩
  | some width => exact ⟨.indented width.toNat, Layout.legible_indented _, fun _ => rfl⟩

theorem ofChars_print {v : Json} (hv : v.Exact) (indent : Option Int) :
    ofChars (v.print indent).toList = .ok v.sorted := by
  obtain ⟨l, hl, hprint⟩ := exists_layout indent
  rw [hprint, String.toList_ofList, ofChars_write hl hv.sorted]

def canonicalBytes (v : Json) : List UInt8 := (canonical v).toUTF8.toList

theorem toList_loop_eq (bytes : ByteArray) (i : Nat) (read : List UInt8) :
    ByteArray.toList.loop bytes i read = read.reverse ++ bytes.data.toList.drop i := by
  fun_induction ByteArray.toList.loop bytes i read with
  | case1 i read h ih =>
      have hi : i < bytes.data.toList.length := by simpa using h
      rw [ih, List.drop_eq_getElem_cons hi]
      simp [ByteArray.get!, h]
  | case2 i read h =>
      rw [List.drop_eq_nil_of_le (by simpa using Nat.le_of_not_lt h), List.append_nil]

theorem canonicalBytes_inj {a b : Json} (h : canonicalBytes a = canonicalBytes b) :
    canonical a = canonical b := by
  have hdata : (canonical a).toUTF8.data = (canonical b).toUTF8.data := by
    apply Array.toList_inj.mp
    simpa [canonicalBytes, ByteArray.toList, toList_loop_eq] using h
  exact String.toByteArray_inj.mp (ByteArray.ext hdata)

/-- Two messages whose digests begin alike. -/
structure PrefixCollision (length : Int) (bytes bytes' : List UInt8) : Prop where
  bytes_ne : bytes ≠ bytes'
  slice_eq : Text.slice (Digest.hexDigest bytes).toArray 0 length =
    Text.slice (Digest.hexDigest bytes').toArray 0 length

/-- Documents have one canonical text just if they are the same up to the order of members; they
then have one fingerprint, and others share a fingerprint only by a collision of the digest. -/
theorem canonical_eq_iff_reordered {a b : Json} (ha : a.Exact) (hb : b.Exact) :
    (canonical a = canonical b ↔ Reordered a b) ∧
      (Reordered a b → ∀ length, fingerprint a length = fingerprint b length) ∧
      ∀ length, fingerprint a length = fingerprint b length →
        Reordered a b ∨ PrefixCollision length (canonicalBytes a) (canonicalBytes b) := by
  have hcanonical : canonical a = canonical b ↔ Reordered a b := by
    rw [reordered_iff_sorted_eq ha hb, canonical, canonical, String.ofList_inj]
    exact ⟨eq_of_write_eq Layout.legible_compact ha.sorted hb.sorted, fun h => h ▸ rfl⟩
  refine ⟨hcanonical, ?_, ?_⟩
  · intro hreordered length
    rw [fingerprint, fingerprint, digest, digest, hcanonical.mpr hreordered]
  · intro length hfingerprint
    by_cases hbytes : canonicalBytes a = canonicalBytes b
    · exact .inl (hcanonical.mp (canonicalBytes_inj hbytes))
    · refine .inr ⟨hbytes, ?_⟩
      have htext := String.ofList_inj.mp hfingerprint
      exact Array.toList_inj.mp htext

theorem canonical_eq_iff_reordered_sample :
    let a : Json := .obj [("b", .arr [.int 1, .bool true]), ("é😀", .str "1")]
    let b : Json := .obj [("é😀", .str "1"), ("b", .arr [.int 1, .bool true])]
    let c : Json := .obj [("é😀", .str "1"), ("b", .arr [.bool true, .int 1])]
    canonical a = canonical b ∧ fingerprint a 16 = fingerprint b 16 ∧
      canonical a ≠ canonical c := by
  intro a b c
  have hone : (Json.int 1).Exact := .int (by decide)
  have harr : ∀ {v w : Json}, v.Exact → w.Exact → (Json.arr [v, w]).Exact := by
    intro v w hv hw
    exact .arr (List.forall_mem_cons.mpr ⟨hv, List.forall_mem_singleton.mpr hw⟩)
  have hobj : ∀ {m m' : String × Json}, [m.1, m'.1].Nodup → m.2.Exact → m'.2.Exact →
      (Json.obj [m, m']).Exact := by
    intro m m' hnodup hm hm'
    exact .obj hnodup (List.forall_mem_cons.mpr ⟨hm, List.forall_mem_singleton.mpr hm'⟩)
  have ha : a.Exact := hobj (by decide) (harr hone (.bool true)) (.str "1")
  have hb : b.Exact := hobj (by decide) (.str "1") (harr hone (.bool true))
  have hc : c.Exact := hobj (by decide) (.str "1") (harr (.bool true) hone)
  have hreordered : Reordered a b := by
    refine .obj_perm (by decide) (.swap ..) (List.forall_mem_cons.mpr ⟨?_, ?_⟩)
    · refine .arr_self (List.forall_mem_cons.mpr ⟨.atom trivial, ?_⟩)
      exact List.forall_mem_singleton.mpr (.atom trivial)
    · exact List.forall_mem_singleton.mpr (.atom trivial)
  have hdifferent : ¬ Reordered a c := by
    intro h
    have hitems := h.field "b"
    cases hitems with
    | arr _ hitems => cases hitems 0 (.int 1) (.bool true) rfl rfl
  obtain ⟨hcanonical, hfingerprint, -⟩ := canonical_eq_iff_reordered ha hb
  have hother := (canonical_eq_iff_reordered ha hc).1
  exact ⟨hcanonical.mpr hreordered, hfingerprint hreordered 16, fun h => hdifferent (hother.mp h)⟩

end LineScope.Json
