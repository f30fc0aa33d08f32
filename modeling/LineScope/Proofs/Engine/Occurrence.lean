import LineScope.Proofs.Engine.Bounds

/-!
Where a character occurs. A matcher may find its leftmost occurrence, or have matches without it;
the engine that looks for texts has such matchers for every character that it does not reserve.
-/

namespace LineScope

namespace Engine

variable {M : Type} {e : Engine M}

/-- The matches of a matcher are the occurrences of a character, the leftmost one first. -/
structure Finds (e : Engine M) (m : M) (ch : Char) : Prop where
  hits : ∀ (text : Text) (start : Nat) hit, start ≤ text.size →
    e.search m text start = some hit →
    ∃ i : Nat, hit.start = i ∧ hit.stop = (i + 1 : Nat) ∧ text[i]? = some ch
  first : ∀ (text : Text) (start i : Nat), start ≤ i → text[i]? = some ch →
    ∃ hit, e.search m text start = some hit ∧ hit.start ≤ i

def FindsChar (e : Engine M) (ch : Char) : Prop :=
  ∀ m, e.compile (String.singleton ch) = .ok m → e.Finds m ch

/-- The matches of a matcher have characters, but not a given one. -/
def Avoids (e : Engine M) (m : M) (ch : Char) : Prop :=
  ∀ (text : Text) (start : Nat) hit, start ≤ text.size → e.search m text start = some hit →
    hit.start < hit.stop ∧
      ∀ i : Nat, hit.start ≤ i → i < hit.stop → text[i]? ≠ some ch

end Engine

namespace Matcher

variable {wanted text : Text} {count pos place : Nat}

theorem firstPlace_extract (h : firstPlace wanted text count pos = some place) :
    text.extract place (place + wanted.size) = wanted := by
  induction count generalizing pos with
  | zero => cases h
  | succ count ih =>
      simp only [firstPlace] at h
      split at h
      · rename_i heq
        cases h
        exact eq_of_beq heq
      · exact ih h

theorem exists_firstPlace {i : Nat} (hpos : pos ≤ i) (hcount : i < pos + count)
    (h : text.extract i (i + wanted.size) = wanted) :
    ∃ place, firstPlace wanted text count pos = some place ∧ place ≤ i := by
  induction count generalizing pos with
  | zero => omega
  | succ count ih =>
      simp only [firstPlace]
      split
      · exact ⟨pos, rfl, hpos⟩
      · rename_i hne
        have hother : pos ≠ i := by
          rintro rfl
          exact hne (beq_iff_eq.mpr h)
        exact ih (by omega) (by omega)

theorem searchPlain_eq_some {start : Nat} {hit : Match}
    (h : searchPlain wanted text start = some hit) :
    ∃ place : Nat, hit.start = place ∧ hit.stop = (place + wanted.size : Nat) ∧
      text.extract place (place + wanted.size) = wanted := by
  obtain ⟨_, hlifted, rfl⟩ := Option.map_eq_some_iff.mp h
  obtain ⟨place, hplace, heq⟩ := Option.bind_eq_some_iff.mp hlifted
  cases heq
  exact ⟨place, rfl, by simp, firstPlace_extract hplace⟩

theorem exists_searchPlain {start i : Nat} (hstart : start ≤ i) (hi : i ≤ text.size)
    (h : text.extract i (i + wanted.size) = wanted) :
    ∃ hit, searchPlain wanted text start = some hit ∧ hit.start ≤ i := by
  have hcount : i < start + (text.size + 1 - start) := by omega
  obtain ⟨place, hplace, hle⟩ := exists_firstPlace hstart hcount h
  have hnot : ¬ (start : Int) < 0 := Int.not_lt.mpr (Int.natCast_nonneg start)
  refine ⟨⟨place, (place + wanted.size : Nat), [some ⟨place, (place + wanted.size : Nat)⟩]⟩, ?_,
    Int.ofNat_le.mpr hle⟩
  simp [searchPlain, if_neg hnot, hplace]

end Matcher

namespace Engine

variable {reserved : Char → Bool} {reason : String}

theorem plain_findsChar (reserved : Char → Bool) (reason : String) (ch : Char) :
    (plain reserved reason).FindsChar ch := by
  intro m hm
  obtain rfl : m = .plain #[ch] := by
    simp only [plain] at hm
    split at hm
    · cases hm
    · cases hm
      simp [Text.ofString]
  constructor
  · intro text start hit _ hsearch
    obtain ⟨i, hstart, hstop, hextract⟩ := Matcher.searchPlain_eq_some hsearch
    refine ⟨i, hstart, hstop, ?_⟩
    have hat := congrArg (fun t : Text => t[0]?) hextract
    rw [Array.getElem?_extract] at hat
    simp only [List.size_toArray, List.length_singleton, Nat.add_zero] at hat
    split at hat
    · exact hat
    · cases hat
  · intro text start i hstart hi
    obtain ⟨hlt, hat⟩ := Array.getElem?_eq_some_iff.mp hi
    apply Matcher.exists_searchPlain hstart (Nat.le_of_lt hlt)
    apply Array.ext
    · simp only [Array.size_extract, List.size_toArray, List.length_singleton]
      omega
    · intro j hj hj'
      obtain rfl : j = 0 := by simpa using hj'
      simpa [Array.getElem_extract] using hat

theorem plain_avoids {wanted : Text} {ch : Char} (hwanted : 0 < wanted.size) (hch : ch ∉ wanted) :
    (plain reserved reason).Avoids (.plain wanted) ch := by
  intro text start hit _ hsearch
  obtain ⟨place, hstart, hstop, hextract⟩ := Matcher.searchPlain_eq_some hsearch
  refine ⟨by omega, fun i hlow hhigh hi => hch ?_⟩
  obtain ⟨hlt, -⟩ := Array.getElem?_eq_some_iff.mp hi
  have hinside : i - place < min (place + wanted.size) text.size - place := by omega
  have hplace : place + (i - place) = i := by omega
  rw [← hextract, Array.mem_iff_getElem?]
  exact ⟨i - place, by rw [Array.getElem?_extract, if_pos hinside, hplace, hi]⟩

end Engine

end LineScope
