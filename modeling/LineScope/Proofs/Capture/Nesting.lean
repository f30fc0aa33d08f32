import LineScope.Proofs.Capture.Labels
import LineScope.Proofs.Pattern.Nesting

/-!
Captures within captures. The scopes of an offset stand in the order of the group numbers, so those
of an enclosing group come first exactly if it has the smaller number. Groups are numbered by their
opening parentheses, which makes that so, unless a condition on the text around captures.
-/

namespace LineScope.Capture

/-- Within a match, the group of the first capture encloses that of the second, and is more. -/
def Encloses (start stop : Int) (groups : List (Option Span)) (c d : Capture) : Prop :=
  ∃ s t, stretch? start stop groups c = some s ∧ stretch? start stop groups d = some t ∧
    s.start ≤ t.start ∧ t.stop ≤ s.stop ∧ ¬ (s.start = t.start ∧ s.stop = t.stop)

/-- Wherever a group encloses another, the scopes of its capture come before those of the other in
every token. -/
def OuterFirst (start stop : Int) (groups : List (Option Span)) (captures : List Capture)
    (base : ScopePath) : Prop :=
  ∀ c ∈ captures, ∀ d ∈ captures, Encloses start stop groups c d →
    ∀ t ∈ project start stop groups captures base, ∀ p, t.start ≤ p → p < t.stop →
      holds start stop groups p d = true →
      ∃ before between after : List Capture,
        captures.filter (holds start stop groups p) =
            before ++ c :: (between ++ d :: after) ∧
          t.scopes = base ++
            (before ++ c :: (between ++ d :: after)).flatMap fun x => Text.words x.scope

variable {start stop : Int} {groups : List (Option Span)} {captures : List Capture}
  {base : ScopePath} {c d : Capture}

theorem stretch?_congr (h : c.group = d.group) {s t : Stretch}
    (hs : stretch? start stop groups c = some s) (ht : stretch? start stop groups d = some t) :
    s.start = t.start ∧ s.stop = t.stop := by
  unfold stretch? at hs ht
  rw [h] at hs
  split at hs
  · rename_i span hspan
    simp only [hspan, Option.ite_none_right_eq_some, Option.some.injEq] at hs ht
    obtain ⟨-, rfl⟩ := hs
    obtain ⟨-, rfl⟩ := ht
    exact ⟨rfl, rfl⟩
  · cases hs

theorem Encloses.group_ne (h : Encloses start stop groups c d) : c.group ≠ d.group := by
  obtain ⟨s, t, hs, ht, -, -, hmore⟩ := h
  exact fun hgroup => hmore (stretch?_congr hgroup hs ht)

theorem Encloses.holds (h : Encloses start stop groups c d) {p : Int}
    (hp : holds start stop groups p d = true) : holds start stop groups p c = true := by
  obtain ⟨s, t, hs, ht, hstart, hstop, -⟩ := h
  obtain ⟨t', ht', hlow, hhigh⟩ := holds_iff.mp hp
  cases ht.symm.trans ht'
  exact holds_iff.mpr ⟨s, hs, Int.le_trans hstart hlow, Int.lt_of_lt_of_le hhigh hstop⟩

theorem exists_split_of_lt {xs : List Capture} (hsorted : xs.Pairwise fun x y => x.group ≤ y.group)
    (hc : c ∈ xs) (hd : d ∈ xs) (hlt : c.group < d.group) :
    ∃ before between after, xs = before ++ c :: (between ++ d :: after) := by
  obtain ⟨before, rest, rfl⟩ := List.append_of_mem hc
  obtain ⟨-, hrest, hacross⟩ := List.pairwise_append.mp hsorted
  rcases List.mem_append.mp hd with hbefore | hmem
  · have hle := hacross d hbefore c (List.mem_cons_self ..)
    omega
  · rcases List.mem_cons.mp hmem with rfl | hmem
    · omega
    · obtain ⟨between, after, rfl⟩ := List.append_of_mem hmem
      exact ⟨before, between, after, rfl⟩

theorem group_le_of_split {before between after : List Capture}
    (hsorted : (before ++ c :: (between ++ d :: after)).Pairwise fun x y => x.group ≤ y.group) :
    c.group ≤ d.group := by
  obtain ⟨-, hrest, -⟩ := List.pairwise_append.mp hsorted
  exact (List.pairwise_cons.mp hrest).1 d
    (List.mem_append_right _ (List.mem_cons_self ..))

theorem outerFirst_iff (hsorted : captures.Pairwise fun x y => x.group ≤ y.group) :
    OuterFirst start stop groups captures base ↔
      ∀ c ∈ captures, ∀ d ∈ captures, Encloses start stop groups c d → c.group < d.group := by
  constructor
  · intro h c hc d hd hencloses
    obtain ⟨s, t, hs, ht, -⟩ := id hencloses
    have hbounds := stretch?_bounds ht
    have hheld : holds start stop groups t.start d = true :=
      holds_iff.mpr ⟨t, ht, Int.le_refl _, by omega⟩
    -- some token holds the first offset of the inner group
    obtain ⟨-, hspan⟩ := project_exact start stop groups captures base
    obtain ⟨-, hcovered, -⟩ := hspan (by omega)
    obtain ⟨token, htoken, hlow, hhigh, -⟩ := hcovered t.start (by omega) (by omega)
    obtain ⟨before, between, after, hsplit, -⟩ :=
      h c hc d hd hencloses token htoken t.start hlow hhigh hheld
    have hle : c.group ≤ d.group := by
      apply group_le_of_split
      rw [← hsplit]
      exact hsorted.filter _
    exact Nat.lt_of_le_of_ne hle hencloses.group_ne
  · intro h c hc d hd hencloses token htoken p hlow hhigh hheld
    have hlt := h c hc d hd hencloses
    obtain ⟨before, between, after, hsplit⟩ := exists_split_of_lt (hsorted.filter _)
      (List.mem_filter.mpr ⟨hc, hencloses.holds hheld⟩) (List.mem_filter.mpr ⟨hd, hheld⟩) hlt
    refine ⟨before, between, after, hsplit, ?_⟩
    have hnonempty : start < stop := by
      by_contra hempty
      rw [(project_exact start stop groups captures base).1.mpr (by omega)] at htoken
      cases htoken
    rw [project_labelled hnonempty token htoken p hlow hhigh, label, hsplit]

open Pattern in
/-- No condition on the text around captures: then a group that encloses another in a match was
opened before it. -/
theorem Encloses.group_lt {p : Pattern} {text : Text} {origin : Int} {m : Match}
    (hordered : p.root.Ordered) (hlooks : p.root.looksCapture = false)
    (hm : Matcher.search (.pattern p) text origin = some m)
    (h : Encloses m.start m.stop m.groups c d) : c.group < d.group := by
  obtain ⟨⟨place, r⟩, hfirst, rfl⟩ := Option.map_eq_some_iff.mp hm
  have hmoves := firstMatch_moves hordered hlooks hfirst
  have hwhole : ∀ {x : Capture} {s : Stretch},
      stretch? place r.pos (Matcher.groupsOf place r) x = some s →
      (Matcher.groupsOf place r)[x.group]? = some (some ⟨s.start, s.stop⟩) ∧ s.start < s.stop := by
    intro x s hs
    unfold stretch? at hs
    split at hs
    · rename_i span hspan
      obtain ⟨hlow, hhigh⟩ := Matcher.groupsOf_within hmoves.1 hspan
      simp only [Option.ite_none_right_eq_some, Option.some.injEq] at hs
      obtain ⟨hlt, rfl⟩ := hs
      have hstart : max span.start place = span.start := by omega
      have hstop : min span.stop r.pos = span.stop := by omega
      refine ⟨?_, hlt⟩
      simp only [hspan, hstart, hstop]
    · cases hs
  have hne := h.group_ne
  obtain ⟨s, t, hs, ht, hstart, hstop, hmore⟩ := h
  obtain ⟨houter, -⟩ := hwhole hs
  obtain ⟨hinner, hlt⟩ := hwhole ht
  by_contra hnot
  have hsame := Matcher.groupsOf_nested hmoves (by omega) hinner houter hlt hstart hstop
  obtain ⟨hstarts, hstops⟩ := Span.mk.inj hsame
  exact hmore ⟨hstarts.symm, hstops.symm⟩

/-- With captures sorted by group, the scopes of an enclosing group come first in all tokens if and
only if it has the smaller number. For a pattern in which no condition on the text around captures,
that is so in every match, whatever is repeated. -/
theorem nested_captures_stack (start stop : Int) (groups : List (Option Span))
    {captures : List Capture} (base : ScopePath)
    (hsorted : captures.Pairwise fun x y => x.group ≤ y.group) :
    (OuterFirst start stop groups captures base ↔
      ∀ c ∈ captures, ∀ d ∈ captures, Encloses start stop groups c d → c.group < d.group) ∧
    ∀ (source : List Char) (p : Pattern) (text : Text) (origin : Int) (m : Match),
      Pattern.ofChars source = .ok p → p.root.looksCapture = false →
      Matcher.search (.pattern p) text origin = some m →
      OuterFirst m.start m.stop m.groups captures base := by
  constructor
  · exact outerFirst_iff hsorted
  · intro source p text origin m hread hlooks hm
    apply (outerFirst_iff hsorted).mpr
    intro c _ d _ hencloses
    exact hencloses.group_lt (Pattern.ordered_of_ofChars hread) hlooks hm

theorem nested_captures_stack_sample :
    let captures : List Capture := [⟨1, "pair"⟩, ⟨2, "second"⟩]
    (captures.Pairwise fun x y => x.group ≤ y.group) ∧
      ∃ p m, Pattern.ofChars "(?:(a(b))|c)+".toList = .ok p ∧ p.root.looksCapture = false ∧
        Matcher.search (.pattern p) (.ofString "abcab") 0 = some m ∧
        project m.start m.stop m.groups captures ["text"] =
          [⟨0, 3, ["text"]⟩, ⟨3, 4, ["text", "pair"]⟩, ⟨4, 5, ["text", "pair", "second"]⟩] ∧
        OuterFirst m.start m.stop m.groups captures ["text"] := by
  intro captures
  have hsorted : captures.Pairwise fun x y => x.group ≤ y.group := by
    decide
  have hrun : ((Pattern.ofChars "(?:(a(b))|c)+".toList).toOption.bind fun p =>
      (Matcher.search (.pattern p) (.ofString "abcab") 0).map fun m =>
        (p.root.looksCapture, project m.start m.stop m.groups captures ["text"])) =
      some (false, [⟨0, 3, ["text"]⟩, ⟨3, 4, ["text", "pair"]⟩,
        ⟨4, 5, ["text", "pair", "second"]⟩]) := by
    decide +kernel
  obtain ⟨p, hp, hrun⟩ := Option.bind_eq_some_iff.mp hrun
  obtain ⟨m, hm, heq⟩ := Option.map_eq_some_iff.mp hrun
  obtain ⟨hlooks, htokens⟩ := Prod.mk.inj heq
  have hread := toOption_eq_some.mp hp
  refine ⟨hsorted, p, m, hread, hlooks, hm, htokens, ?_⟩
  exact (nested_captures_stack 0 0 [] ["text"] hsorted).2 _ p _ _ m hread hlooks hm

/-- A look ahead captures a letter that a later group encloses: its scope comes first. -/
theorem lookahead_capture_inner_first :
    let captures : List Capture := [⟨1, "inner"⟩, ⟨2, "outer"⟩]
    (captures.Pairwise fun x y => x.group ≤ y.group) ∧
      ∃ p m, Pattern.ofChars "(?=.(b))(abc)".toList = .ok p ∧
        Matcher.search (.pattern p) (.ofString "abc") 0 = some m ∧
        m.groups = [some ⟨0, 3⟩, some ⟨1, 2⟩, some ⟨0, 3⟩] ∧
        project m.start m.stop m.groups captures ["text"] =
          [⟨0, 1, ["text", "outer"]⟩, ⟨1, 2, ["text", "inner", "outer"]⟩,
            ⟨2, 3, ["text", "outer"]⟩] ∧
        ¬ OuterFirst m.start m.stop m.groups captures ["text"] := by
  intro captures
  have hsorted : captures.Pairwise fun x y => x.group ≤ y.group := by
    decide
  have hrun : ((Pattern.ofChars "(?=.(b))(abc)".toList).toOption.bind fun p =>
      Matcher.search (.pattern p) (.ofString "abc") 0) =
      some ⟨0, 3, [some ⟨0, 3⟩, some ⟨1, 2⟩, some ⟨0, 3⟩]⟩ := by
    decide +kernel
  obtain ⟨p, hp, hm⟩ := Option.bind_eq_some_iff.mp hrun
  refine ⟨hsorted, p, _, toOption_eq_some.mp hp, hm, rfl, by decide +kernel, ?_⟩
  intro houter
  have hencloses : Encloses 0 3 [some ⟨0, 3⟩, some ⟨1, 2⟩, some ⟨0, 3⟩] ⟨2, "outer"⟩
      ⟨1, "inner"⟩ :=
    ⟨⟨0, 3, "outer"⟩, ⟨1, 2, "inner"⟩, rfl, rfl, by decide, by decide, by decide⟩
  have hlt := (outerFirst_iff hsorted).mp houter _ (by simp [captures]) _ (by simp [captures])
    hencloses
  exact absurd hlt (by decide)

end LineScope.Capture
