import Mathlib.Data.List.Chain
import LineScope.Proofs.Capture.Projection
import LineScope.Proofs.Grammar.Tables
import LineScope.Proofs.Scan.Run

/-!
The tokens of a line tile it. Along a scan, the tokens so far cover the line up to the cursor;
whatever wins, the next ones lead on from there, and a token that would repeat the scopes of the
last one is made part of it.
-/

namespace LineScope

variable {M : Type}

namespace Token

/-- Tokens, the last one first, that cover a line from its start up to an offset. Each is of some
length, and neighbours have different scopes. -/
inductive Covered : Int → List Token → Prop
  | nil : Covered 0 []
  | cons {t : Token} {rest : List Token} :
      Covered t.start rest → t.start < t.stop → (∀ u ∈ rest.head?, u.scopes ≠ t.scopes) →
        Covered t.stop (t :: rest)

theorem Covered.nonneg {stop : Int} {tokens : List Token} (h : Covered stop tokens) :
    0 ≤ stop := by
  induction h with
  | nil => exact Int.le_refl 0
  | cons _ hlt _ ih => omega

theorem Covered.addToken {tokens : List Token} {t : Token} (h : Covered t.start tokens)
    (ht : t.start < t.stop) : Covered t.stop (Scan.addToken tokens t) := by
  rcases tokens with _ | ⟨u, rest⟩
  · exact .cons h ht (by simp)
  · simp only [Scan.addToken]
    generalize hstart : t.start = start at h
    cases h with
    | cons hrest hu hdiffer =>
        split
        · rename_i hmerge
          refine .cons (t := ⟨u.start, t.stop, t.scopes⟩) hrest ?_ ?_
          · simp only
            omega
          · exact fun v hv => hmerge.1 ▸ hdiffer v hv
        · rename_i hseparate
          refine .cons (hstart.symm ▸ .cons hrest hu hdiffer) ht ?_
          intro v hv heq
          cases hv
          exact hseparate ⟨heq, rfl⟩

theorem Covered.flatMap_text {line : Text} {stop : Int} {tokens : List Token}
    (h : Covered stop tokens) (hstop : stop ≤ line.size) :
    tokens.reverse.flatMap (fun t => (t.text line).toList) = line.toList.take stop.toNat := by
  induction h with
  | nil => rfl
  | @cons t rest hrest hlt _ ih =>
      have hlow := hrest.nonneg
      have hclip : ∀ i : Int, 0 ≤ i → i ≤ line.size → clip line.size i = i.toNat := by
        intro i hi hsize
        obtain ⟨k, rfl⟩ := Int.eq_ofNat_of_zero_le hi
        exact clip_ofNat (by omega)
      have htext : (t.text line).toList =
          (line.toList.drop t.start.toNat).take (t.stop.toNat - t.start.toNat) := by
        rw [Token.text, Text.slice, hclip _ hlow (by omega), hclip _ (by omega) hstop,
          Array.toList_extract, List.extract_eq_take_drop]
      have hsplit : t.stop.toNat = t.start.toNat + (t.stop.toNat - t.start.toNat) := by omega
      rw [List.reverse_cons, List.flatMap_append, ih (by omega), List.flatMap_singleton, htext,
        ← List.take_add, ← hsplit]

structure Tiles (line : Text) (tokens : List Token) : Prop where
  nonempty : ∀ t ∈ tokens, t.start < t.stop
  first : ∀ t ∈ tokens.head?, t.start = 0
  neighbours : tokens.IsChain fun t u => t.stop = u.start ∧ t.scopes ≠ u.scopes
  last : ∀ t ∈ tokens.getLast?, t.stop = line.size
  eq_nil_iff : tokens = [] ↔ line.size = 0
  text : tokens.flatMap (fun t => (t.text line).toList) = line.toList

theorem Covered.mem_lt {stop : Int} {tokens : List Token} (h : Covered stop tokens) :
    ∀ t ∈ tokens, t.start < t.stop := by
  induction h with
  | nil => simp
  | cons _ hlt _ ih => exact List.forall_mem_cons.mpr ⟨hlt, ih⟩

theorem Covered.head?_stop {stop : Int} {tokens : List Token} (h : Covered stop tokens) :
    ∀ t ∈ tokens.head?, t.stop = stop := by
  cases h with
  | nil => simp
  | cons => simp

theorem Covered.getLast?_start {stop : Int} {tokens : List Token} (h : Covered stop tokens) :
    ∀ t ∈ tokens.getLast?, t.start = 0 := by
  induction h with
  | nil => simp
  | @cons t rest hrest _ _ ih =>
      rcases rest with _ | ⟨u, rest⟩
      · generalize hstart : t.start = start at hrest
        cases hrest
        simpa using hstart
      · rw [List.getLast?_cons_cons]
        exact ih

theorem Covered.isChain {stop : Int} {tokens : List Token} (h : Covered stop tokens) :
    tokens.IsChain fun t u => u.stop = t.start ∧ u.scopes ≠ t.scopes := by
  induction h with
  | nil => exact .nil
  | @cons t rest hrest _ hdiffer ih =>
      refine List.isChain_cons.mpr ⟨?_, ih⟩
      exact fun u hu => ⟨hrest.head?_stop u hu, hdiffer u hu⟩

theorem Covered.tiles {line : Text} {tokens : List Token} (h : Covered line.size tokens) :
    Tiles line tokens.reverse where
  nonempty t ht := h.mem_lt t (List.mem_reverse.mp ht)
  first t ht := h.getLast?_start t (by simpa using ht)
  neighbours := List.isChain_reverse.mpr h.isChain
  last t ht := h.head?_stop t (by simpa using ht)
  eq_nil_iff := by
    rw [List.reverse_eq_nil_iff]
    generalize hsize : (line.size : Int) = stop at h
    cases h with
    | nil => simpa using hsize
    | cons hrest hlt _ =>
        have hlow := hrest.nonneg
        simp only [reduceCtorEq, false_iff]
        omega
  text := by
    rw [h.flatMap_text (Int.le_refl _), Int.toNat_natCast, ← Array.length_toList,
      List.take_length]

end Token

namespace Scan

variable {g : Grammar M} {line : Text} {limits : Limits}

/-- The tokens so far cover the line up to the cursor. -/
structure Tiled (line : Text) (s : Scan M) : Prop where
  covered : Token.Covered s.cursor s.tokens
  le_size : s.cursor ≤ line.size

theorem emit_covered {s : Scan M} {t : Token} (h : Token.Covered t.start s.tokens)
    (ht : t.start ≤ t.stop) : Token.Covered t.stop (s.emit t).tokens := by
  unfold emit
  split
  · have heq : t.start = t.stop := by omega
    exact heq ▸ h
  · exact h.addToken (by omega)

theorem emitAll_covered {s : Scan M} {a b : Int} {tokens : List Token}
    (hs : Token.Covered a s.tokens) (h : Token.Joined a b tokens) :
    Token.Covered b (s.emitAll tokens).tokens := by
  induction h generalizing s with
  | nil => exact hs
  | cons ht _ ih => exact ih (emit_covered hs (Int.le_of_lt ht))

namespace Tiled

variable {s t : Scan M}

theorem passTo {stop : Int} (h : Tiled line s) (hstop : s.cursor ≤ stop)
    (hsize : stop ≤ line.size) : Tiled line (s.passTo g stop) :=
  ⟨emit_covered (t := ⟨s.cursor, stop, s.stack.scopes g.scopeName⟩) h.covered hstop, hsize⟩

theorem reach {start : Int} (h : Tiled line s) (hsize : start ≤ line.size) :
    Tiled line (s.reach g start) := by
  unfold Scan.reach
  split
  · exact h.passTo (by omega) hsize
  · exact h

theorem cover {m : Match} (h : Tiled line s) (hstart : s.cursor = m.start)
    (hmatch : m.start ≤ m.stop) (hsize : m.stop ≤ line.size) (captures : List Capture)
    (scopes : ScopePath) : Tiled line (s.cover m captures scopes) :=
  ⟨emitAll_covered (hstart ▸ h.covered) (Capture.project_joined m.groups captures scopes hmatch),
    hsize⟩

theorem applies {found : Found M} (h : Tiled line s) (hstart : s.cursor = found.hit.start)
    (hmatch : found.hit.start ≤ found.hit.stop) (hsize : found.hit.stop ≤ line.size)
    (happlies : Applies g line limits s found t) : Tiled line t := by
  have hcover := h.cover hstart hmatch hsize
  cases happlies with
  | skipped => exact h
  | covered => exact hcover _ _
  | capped => exact ⟨(hcover _ _).covered, hsize⟩
  | opened => exact ⟨(hcover _ _).covered, hsize⟩
  | bound => exact ⟨(hcover _ _).covered, hsize⟩
  | blanked => exact ⟨(hcover _ _).covered, hsize⟩
  | closed => exact ⟨(hcover _ _).covered, hsize⟩

theorem apply {c : Candidates M} {found : Found M} {probes : Nat} (bounded : g.engine.InBounds)
    (h : Tiled line s) (hchoose : choose g.engine line s.cursor c = (some found, probes))
    (happly : (s.counted probes).apply g line limits found = .ok t) : Tiled line t := by
  obtain ⟨hstart, hmatch, hsize⟩ := choose_bounds bounded h.covered.nonneg h.le_size hchoose
  have hcounted : Tiled line (s.counted probes) := ⟨h.covered, h.le_size⟩
  have hreached : Tiled line ((s.counted probes).reach g found.hit.start) :=
    hcounted.reach (by omega)
  exact hreached.applies (reach_cursor hstart) hmatch hsize (apply_applies happly)

theorem going (bounded : g.engine.InBounds) (h : Tiled line s)
    (hstep : step g line limits s = .going t) : Tiled line t := by
  cases iteration_of_step hstep with
  | moved _ hchoose happly _ =>
      have ht := h.apply bounded hchoose happly
      exact ⟨ht.covered, ht.le_size⟩
  | noted _ hchoose happly _ _ _ =>
      have ht := h.apply bounded hchoose happly
      exact ⟨ht.covered, ht.le_size⟩
  | forced _ hchoose happly _ _ hlt =>
      have ht := h.apply bounded hchoose happly
      have hforced := ht.passTo (g := g) (Int.le_add_one (Int.le_refl _)) hlt
      exact ⟨hforced.covered, hforced.le_size⟩

theorem finished (bounded : g.engine.InBounds) (h : Tiled line s)
    (hstep : step g line limits s = .finished t) : Token.Covered line.size t.tokens := by
  cases iteration_of_step hstep with
  | @unmatched _ probes _ _ =>
      have hcounted : Tiled line (s.counted probes) := ⟨h.covered, h.le_size⟩
      exact (hcounted.passTo (g := g) h.le_size (Int.le_refl _)).covered
  | stopped _ hchoose happly _ _ hend =>
      have ht := h.apply bounded hchoose happly
      have heq : t.cursor = line.size := Int.le_antisymm ht.le_size hend
      exact heq ▸ ht.covered

theorem ends {n : Nat} {o : Outcome M} (bounded : g.engine.InBounds) (h : Tiled line s)
    (hends : Ends g line limits s n o) (ho : o = .ok t) : Token.Covered line.size t.tokens := by
  induction hends with
  | finished hstep =>
      cases ho
      exact h.finished bounded hstep
  | failed _ => cases ho
  | going hstep _ ih => exact ih (h.going bounded hstep) ho

theorem finish (bounded : g.engine.InBounds) (h : Tiled line s)
    (hfinish : Scan.finish g line limits s = .ok t) : Token.Covered line.size t.tokens := by
  rcases finish_cases g line limits s with ⟨limit, hlong⟩ | hrun
  · rw [hlong] at hfinish
    cases hfinish
    have hrecord : Tiled line (s.record (.lineTooLong line.size limit)) :=
      ⟨h.covered, h.le_size⟩
    exact (hrecord.passTo (g := g) h.le_size (Int.le_refl _)).covered
  · obtain ⟨n, hends⟩ := ends_of_run_eq_ok (hrun.symm.trans hfinish)
    exact h.ends bounded hends rfl

end Tiled

end Scan

theorem Grammar.tokenizeLine_covered {g : Grammar M} (bounded : g.engine.InBounds)
    {limits : Limits} {line : Text} {stack : Stack M} {r : LineResult M}
    (h : (g.tokenizeLine limits line stack).result = .ok r) :
    Token.Covered line.size r.tokens.reverse := by
  obtain ⟨s, t, hresume, hfinish, rfl⟩ := Grammar.tokenizeLine_eq_ok h
  obtain ⟨hcursor, htokens, -, -⟩ := Scan.resume_eq_ok hresume
  have hs : Scan.Tiled line s := by
    constructor
    · rw [hcursor, htokens]
      exact .nil
    · rw [hcursor]
      exact Int.natCast_nonneg _
  rw [List.reverse_reverse]
  exact hs.finish bounded hfinish

/-- The tokens of a line tile it, whatever the grammar, the line, the limits and the stack that the
scan starts from are, if only the engine finds matches in bounds. -/
theorem Grammar.tokenizeLine_tiles {g : Grammar M} (bounded : g.engine.InBounds) (limits : Limits)
    (line : Text) (stack : Stack M) {r : LineResult M}
    (h : (g.tokenizeLine limits line stack).result = .ok r) : Token.Tiles line r.tokens := by
  have htiles := (Grammar.tokenizeLine_covered bounded h).tiles
  rwa [List.reverse_reverse] at htiles

theorem Grammar.tokenizeLine_tiles_sample :
    ∃ r, (sample.tokenizeLine .default (Text.ofString "cat <b <> <") .initial).result = .ok r ∧
      Token.Tiles (Text.ofString "cat <b <> <") r.tokens := by
  have hok : (sample.tokenizeLine .default (Text.ofString "cat <b <> <") .initial).result.isOk =
      true := by
    decide +kernel
  rcases hresult : (sample.tokenizeLine .default (Text.ofString "cat <b <> <") .initial).result
    with fault | r
  · rw [hresult] at hok
    cases hok
  · exact ⟨r, rfl, tokenizeLine_tiles (Engine.plain_inBounds _ _) .default _ .initial hresult⟩

end LineScope
