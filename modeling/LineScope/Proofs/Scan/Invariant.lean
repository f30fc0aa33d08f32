import LineScope.Proofs.Scan.Run

/-!
Properties of a scan that depend on its stack and its tokens only. What is kept when text is passed
and when a candidate is applied is kept by the whole loop, and by the scan of a line.
-/

namespace LineScope.Scan

variable {M : Type}

structure Invariant (g : Grammar M) (line : Text) (limits : Limits) (P : Scan M → Prop) :
    Prop where
  congr {s t : Scan M} : P s → t.stack = s.stack → t.tokens = s.tokens → P t
  passTo {s : Scan M} (stop : Int) : P s → P (s.passTo g stop)
  applies {s t : Scan M} {c : Candidates M} {cursor : Int} {found : Found M} :
    P s → candidates g s.stack = .ok c → Offers g.engine line cursor c found →
      Applies g line limits s found t → P t

namespace Invariant

variable {g : Grammar M} {line : Text} {limits : Limits} {P : Scan M → Prop} {s t : Scan M}

theorem reach (h : Invariant g line limits P) (hs : P s) (start : Int) : P (s.reach g start) := by
  unfold Scan.reach
  split
  · exact h.passTo start hs
  · exact hs

theorem apply (h : Invariant g line limits P) {c : Candidates M} {found : Found M} {probes : Nat}
    (hs : P s) (hcandidates : candidates g s.stack = .ok c)
    (hchoose : choose g.engine line s.cursor c = (some found, probes))
    (happly : (s.counted probes).apply g line limits found = .ok t) : P t := by
  have hcounted : P (s.counted probes) := h.congr hs rfl rfl
  have hreached : P ((s.counted probes).reach g found.hit.start) := h.reach hcounted _
  have hoffers : Offers g.engine line s.cursor c found := choose_offers (by rw [hchoose])
  refine h.applies hreached ?_ hoffers (apply_applies happly)
  rwa [reach_stack]

theorem going (h : Invariant g line limits P) (hs : P s)
    (hstep : step g line limits s = .going t) : P t := by
  cases iteration_of_step hstep with
  | moved hcandidates hchoose happly =>
      exact h.congr (h.apply hs hcandidates hchoose happly) rfl rfl
  | noted hcandidates hchoose happly =>
      exact h.congr (h.apply hs hcandidates hchoose happly) rfl rfl
  | @forced _ _ _ u hcandidates hchoose happly =>
      have hpassed := h.passTo (u.cursor + 1) (h.apply hs hcandidates hchoose happly)
      exact h.congr hpassed rfl rfl

theorem finished (h : Invariant g line limits P) (hs : P s)
    (hstep : step g line limits s = .finished t) : P t := by
  cases iteration_of_step hstep with
  | unmatched => exact h.passTo line.size (h.congr hs rfl rfl)
  | stopped hcandidates hchoose happly => exact h.apply hs hcandidates hchoose happly

theorem reaches (h : Invariant g line limits P) (hs : P s)
    (hreaches : Reaches g line limits s t) : P t :=
  hreaches.keeps (fun _ _ hs hstep => h.going hs hstep) hs

theorem ends (h : Invariant g line limits P) {n : Nat} {o : Outcome M} (hs : P s)
    (hends : Ends g line limits s n o) (ho : o = .ok t) : P t := by
  induction hends with
  | finished hstep =>
      cases ho
      exact h.finished hs hstep
  | failed => cases ho
  | going hstep _ ih => exact ih (h.going hs hstep) ho

theorem finish (h : Invariant g line limits P) (hs : P s)
    (hfinish : Scan.finish g line limits s = .ok t) : P t := by
  rcases finish_cases g line limits s with ⟨limit, hlong⟩ | hrun
  · rw [hlong] at hfinish
    cases hfinish
    exact h.passTo line.size (h.congr hs rfl rfl)
  · obtain ⟨n, hends⟩ := ends_of_run_eq_ok (hrun.symm.trans hfinish)
    exact h.ends hs hends rfl

end Invariant

end LineScope.Scan
