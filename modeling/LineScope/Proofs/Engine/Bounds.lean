import LineScope.Engine
import LineScope.Proofs.Pattern.Bounds

namespace LineScope

/-- Searches from an offset within a text find matches from there to the end of the text. Nothing
is said about the groups of a match. -/
def Engine.InBounds {M : Type} (e : Engine M) : Prop :=
  ∀ matcher text start hit, 0 ≤ start → start ≤ text.size →
    e.search matcher text start = some hit →
    start ≤ hit.start ∧ hit.start ≤ hit.stop ∧ hit.stop ≤ text.size

namespace Matcher

theorem firstPlace_bounds {wanted text : Text} {count pos place : Nat}
    (hcount : pos + count ≤ text.size + 1) (h : firstPlace wanted text count pos = some place) :
    pos ≤ place ∧ place + wanted.size ≤ text.size := by
  induction count generalizing pos with
  | zero => cases h
  | succ count ih =>
      simp only [firstPlace] at h
      split at h
      · rename_i heq
        cases h
        -- the part of the text is as long as what is wanted
        have hsize : (text.extract place (place + wanted.size)).size = wanted.size := by
          rw [eq_of_beq heq]
        rw [Array.size_extract] at hsize
        exact ⟨Nat.le_refl _, by omega⟩
      · obtain ⟨hlow, hhigh⟩ := ih (by omega) h
        exact ⟨by omega, hhigh⟩

theorem searchPlain_bounds {wanted text : Text} {start : Int} {hit : Match} (hstart : 0 ≤ start)
    (h : searchPlain wanted text start = some hit) :
    start ≤ hit.start ∧ hit.start ≤ hit.stop ∧ hit.stop ≤ text.size := by
  simp only [searchPlain, if_neg (Int.not_lt.mpr hstart)] at h
  obtain ⟨_, hlifted, rfl⟩ := Option.map_eq_some_iff.mp h
  obtain ⟨place, hplace, heq⟩ := Option.bind_eq_some_iff.mp hlifted
  cases heq
  have hbounds : start.toNat ≤ place ∧ place + wanted.size ≤ text.size := by
    rcases Nat.le_total start.toNat (text.size + 1) with hle | hle
    · exact firstPlace_bounds (by omega) hplace
    · rw [Nat.sub_eq_zero_of_le hle] at hplace
      cases hplace
  simp only
  omega

theorem searchPattern_bounds {p : Pattern} {text : Text} {start : Int} {hit : Match}
    (hstart : 0 ≤ start) (hsize : start ≤ text.size) (h : searchPattern p text start = some hit) :
    start ≤ hit.start ∧ hit.start ≤ hit.stop ∧ hit.stop ≤ text.size := by
  simp only [searchPattern, startIn] at h
  obtain ⟨⟨place, progress⟩, hfirst, rfl⟩ := Option.map_eq_some_iff.mp h
  have hbounds := Pattern.firstMatch_bounds (by omega) hfirst
  simp only
  omega

theorem search_bounds {m : Matcher} {text : Text} {start : Int} {hit : Match}
    (hstart : 0 ≤ start) (hsize : start ≤ text.size) (h : m.search text start = some hit) :
    start ≤ hit.start ∧ hit.start ≤ hit.stop ∧ hit.stop ≤ text.size := by
  cases m with
  | pattern p => exact searchPattern_bounds hstart hsize h
  | plain wanted => exact searchPlain_bounds hstart h

theorem search_lt {test : Pattern.CharTest} {a : Pattern.Node} {groups : Nat} {text : Text}
    {start : Int} {hit : Match}
    (h : search (.pattern ⟨.seq (.one test) a, groups⟩) text start = some hit) :
    hit.start < hit.stop := by
  obtain ⟨⟨place, r⟩, hfirst, rfl⟩ := Option.map_eq_some_iff.mp h
  exact Int.ofNat_lt.mpr (Pattern.firstMatch_lt hfirst)

end Matcher

namespace Engine

theorem pattern_inBounds : Engine.pattern.InBounds :=
  fun _ _ _ _ hstart hsize h => Matcher.search_bounds hstart hsize h

theorem plain_inBounds (reserved : Char → Bool) (reason : String) :
    (Engine.plain reserved reason).InBounds :=
  fun _ _ _ _ hstart hsize h => Matcher.search_bounds hstart hsize h

end Engine

end LineScope
