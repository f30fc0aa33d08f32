import Mathlib.Data.List.Chain
import LineScope.Proofs.Capture.Projection

/-!
Projection told offset by offset. The captured groups that hold an offset decide on the scopes of
its token; tokens that agree with that, and of which no two neighbours have the same scopes, are
determined by it, and there are no fewer than these.
-/

namespace LineScope

namespace Token

def Labelled (label : Int → ScopePath) (tokens : List Token) : Prop :=
  ∀ t ∈ tokens, ∀ p, t.start ≤ p → p < t.stop → t.scopes = label p

def Separate (tokens : List Token) : Prop := tokens.IsChain fun t u => t.scopes ≠ u.scopes

theorem Joined.le {a b : Int} {tokens : List Token} (h : Joined a b tokens) : a ≤ b := by
  induction h with
  | nil => exact Int.le_refl _
  | cons ht _ ih => omega

theorem Joined.exists_mem {a b p : Int} {tokens : List Token} (h : Joined a b tokens)
    (hlow : a ≤ p) (hhigh : p < b) : ∃ t ∈ tokens, t.start ≤ p ∧ p < t.stop := by
  induction h with
  | nil => omega
  | @cons t b rest ht _ ih =>
      by_cases hp : p < t.stop
      · exact ⟨t, List.mem_cons_self .., hlow, hp⟩
      · obtain ⟨u, hu, hheld⟩ := ih (by omega) hhigh
        exact ⟨u, List.mem_cons_of_mem _ hu, hheld⟩

theorem separate_consMerged {t : Token} {tokens : List Token} (h : Separate tokens) :
    Separate (consMerged t tokens) := by
  rcases tokens with _ | ⟨u, rest⟩
  · exact .singleton _
  · obtain ⟨hu, hrest⟩ := List.isChain_cons.mp h
    simp only [consMerged]
    split
    · rename_i hsame
      refine List.isChain_cons.mpr ⟨fun v hv => ?_, hrest⟩
      rw [hsame]
      exact hu v hv
    · rename_i hdiffer
      exact List.isChain_cons_cons.mpr ⟨hdiffer, h⟩

theorem separate_merge (tokens : List Token) : Separate (merge tokens) := by
  induction tokens with
  | nil => exact .nil
  | cons t rest ih => exact separate_consMerged ih

theorem length_merge_le (tokens : List Token) : (merge tokens).length ≤ tokens.length := by
  have hcons : ∀ (t : Token) rest, (consMerged t rest).length ≤ rest.length + 1 := by
    intro t rest
    rcases rest with _ | ⟨u, rest⟩
    · exact Nat.le_refl _
    · simp only [consMerged]
      split
      · exact Nat.le_succ _
      · exact Nat.le_refl _
  induction tokens with
  | nil => exact Nat.le_refl _
  | cons t rest ih => exact (hcons t (merge rest)).trans (Nat.succ_le_succ ih)

theorem labelled_consMerged {label : Int → ScopePath} {t : Token} {b : Int} {tokens : List Token}
    (hjoined : Joined t.stop b tokens) (h : Labelled label (t :: tokens)) :
    Labelled label (consMerged t tokens) := by
  obtain ⟨ht, htokens⟩ := List.forall_mem_cons.mp h
  rcases tokens with _ | ⟨u, rest⟩
  · exact h
  · obtain ⟨hu, hrest⟩ := List.forall_mem_cons.mp htokens
    simp only [consMerged]
    split
    · rename_i hsame
      refine List.forall_mem_cons.mpr ⟨fun p hlow hhigh => ?_, hrest⟩
      have hstart : u.start = t.stop := by
        generalize t.stop = stop at hjoined
        cases hjoined with
        | cons => rfl
      by_cases hp : p < t.stop
      · exact ht p hlow hp
      · have hlabel : u.scopes = label p := hu p (by omega) hhigh
        exact hsame.trans hlabel
    · exact h

theorem labelled_merge {label : Int → ScopePath} {a b : Int} {tokens : List Token}
    (hjoined : Joined a b tokens) (h : Labelled label tokens) : Labelled label (merge tokens) := by
  induction hjoined with
  | nil => exact h
  | cons ht hrest ih =>
      obtain ⟨hfirst, hmore⟩ := List.forall_mem_cons.mp h
      exact labelled_consMerged hrest.merge (List.forall_mem_cons.mpr ⟨hfirst, ih hmore⟩)

theorem Joined.le_stop {label : Int → ScopePath} {t : Token} {b stop : Int} {rest : List Token}
    (hjoined : Joined t.stop b rest) (hlabelled : Labelled label rest)
    (hseparate : Separate (t :: rest)) (hstop : stop ≤ b)
    (hsame : ∀ p, t.start ≤ p → p < stop → label p = t.scopes) (ht : t.start < t.stop) :
    stop ≤ t.stop := by
  by_contra hlt
  generalize hend : t.stop = between at hjoined
  cases hjoined with
  | nil => omega
  | @cons u _ more hu _ =>
      have hnext : u.scopes = label u.start :=
        hlabelled u (List.mem_cons_self ..) u.start (Int.le_refl _) hu
      have hagain : label u.start = t.scopes := hsame u.start (by omega) (by omega)
      exact (List.isChain_cons_cons.mp hseparate).1 (hnext.trans hagain).symm

/-- There is one list of tokens for labels if neighbours must differ. -/
theorem Joined.unique {label : Int → ScopePath} {a b : Int} {tokens tokens' : List Token}
    (h : Joined a b tokens) (h' : Joined a b tokens') (hlabelled : Labelled label tokens)
    (hlabelled' : Labelled label tokens') (hseparate : Separate tokens)
    (hseparate' : Separate tokens') : tokens = tokens' := by
  induction h generalizing tokens' with
  | nil =>
      cases h' with
      | nil => rfl
      | cons ht hrest =>
          have hle := hrest.le
          omega
  | @cons t b rest ht hrest ih =>
      generalize hstart : t.start = start at h'
      cases h' with
      | nil =>
          have hle := hrest.le
          omega
      | @cons u _ more hu hmore =>
          obtain ⟨hfirst, hlabels⟩ := List.forall_mem_cons.mp hlabelled
          obtain ⟨hfirst', hlabels'⟩ := List.forall_mem_cons.mp hlabelled'
          have hscopes : t.scopes = u.scopes := by
            rw [hfirst t.start (Int.le_refl _) ht, hstart, hfirst' u.start (Int.le_refl _) hu]
          -- each token reaches as far as the other one
          have hle : u.stop ≤ t.stop := by
            refine hrest.le_stop hlabels hseparate hmore.le (fun p hlow hhigh => ?_) ht
            rw [hscopes, hfirst' p (by omega) hhigh]
          have hge : t.stop ≤ u.stop := by
            refine hmore.le_stop hlabels' hseparate' hrest.le (fun p hlow hhigh => ?_) hu
            rw [← hscopes, hfirst p (by omega) hhigh]
          have hstop : t.stop = u.stop := by omega
          have hsame : t = u := by
            cases t
            cases u
            simp only at hstart hstop hscopes
            rw [hstart, hstop, hscopes]
          subst hsame
          rw [ih hmore hlabels hlabels' hseparate.tail hseparate'.tail]

end Token

namespace Capture

/-- Whether the group of a capture took part in a match and its span within the match holds an
offset. -/
def holds (start stop : Int) (groups : List (Option Span)) (p : Int) (c : Capture) : Bool :=
  match groups[c.group]? with
  | some (some span) => max span.start start ≤ p && p < min span.stop stop
  | _ => false

/-- The scopes of an offset: those of the captures that hold it, in order. -/
def label (start stop : Int) (groups : List (Option Span)) (captures : List Capture)
    (base : ScopePath) (p : Int) : ScopePath :=
  base ++ (captures.filter (holds start stop groups p)).flatMap fun c => Text.words c.scope

variable {start stop : Int} {groups : List (Option Span)} {captures : List Capture}
  {base : ScopePath}

theorem scope_of_stretch? {c : Capture} {s : Stretch} (h : stretch? start stop groups c = some s) :
    s.scope = c.scope := by
  unfold stretch? at h
  split at h
  · simp only at h
    split at h
    · cases h
      rfl
    · cases h
  · cases h

theorem holds_iff {p : Int} {c : Capture} : holds start stop groups p c = true ↔
    ∃ s, stretch? start stop groups c = some s ∧ s.start ≤ p ∧ p < s.stop := by
  unfold holds stretch?
  rcases groups[c.group]? with _ | (_ | span)
  · simp
  · simp
  · simp only [Bool.and_eq_true, decide_eq_true_eq, Option.ite_none_right_eq_some,
      Option.some.injEq]
    constructor
    · rintro ⟨hlow, hhigh⟩
      exact ⟨_, ⟨Int.lt_of_le_of_lt hlow hhigh, rfl⟩, hlow, hhigh⟩
    · rintro ⟨_, ⟨-, rfl⟩, hlow, hhigh⟩
      exact ⟨hlow, hhigh⟩

theorem scopesOf_eq_label {a b p : Int} (hlow : a ≤ p) (hhigh : p < b)
    (huncut : ∀ s ∈ captures.filterMap (stretch? start stop groups),
      (s.start ≤ a ∨ b ≤ s.start) ∧ (s.stop ≤ a ∨ b ≤ s.stop)) :
    scopesOf base (captures.filterMap (stretch? start stop groups)) a b =
      label start stop groups captures base p := by
  unfold label
  induction captures generalizing base with
  | nil => simp [scopesOf]
  | cons c rest ih =>
      have hheld : holds start stop groups p c = true ↔
          ∃ s, stretch? start stop groups c = some s ∧ s.start ≤ p ∧ p < s.stop := holds_iff
      rw [List.filter_cons]
      rcases hstretch : stretch? start stop groups c with _ | s
      · have hnot : holds start stop groups p c = false := by
          simpa [hstretch] using hheld
        rw [List.filterMap_cons, hstretch] at huncut ⊢
        rw [hnot]
        exact ih huncut
      · rw [List.filterMap_cons, hstretch] at huncut ⊢
        obtain ⟨⟨hstart, hstop⟩, hrest⟩ := List.forall_mem_cons.mp huncut
        have hwithin : s.start ≤ a ∧ b ≤ s.stop ↔ holds start stop groups p c = true := by
          simp only [hheld, hstretch, Option.some.injEq, exists_eq_left']
          omega
        have hfold : scopesOf base (s :: rest.filterMap (stretch? start stop groups)) a b =
            scopesOf (if s.start ≤ a ∧ b ≤ s.stop then base.extend (some s.scope) else base)
              (rest.filterMap (stretch? start stop groups)) a b := rfl
        rw [hfold, ih hrest]
        by_cases hlies : s.start ≤ a ∧ b ≤ s.stop
        · rw [if_pos hlies, if_pos (hwithin.mp hlies), scope_of_stretch? hstretch,
            ScopePath.extend_some, List.flatMap_cons, List.append_assoc]
        · rw [if_neg hlies, if_neg (mt hwithin.mpr hlies)]

theorem pieces_labelled {xs : List Int} (hsorted : xs.Pairwise (· < ·))
    (hcut : ∀ s ∈ captures.filterMap (stretch? start stop groups), ∀ y, y = s.start ∨ y = s.stop →
      y ∈ xs ∨ ∀ x ∈ xs, y < x) :
    Token.Labelled (label start stop groups captures base)
      (pieces base (captures.filterMap (stretch? start stop groups)) xs) := by
  induction xs with
  | nil => simp [Token.Labelled, pieces]
  | cons a xs ih =>
      rcases xs with _ | ⟨b, rest⟩
      · simp [Token.Labelled, pieces]
      · obtain ⟨ha, hrest⟩ := List.pairwise_cons.mp hsorted
        obtain ⟨hb, -⟩ := List.pairwise_cons.mp hrest
        have hsides : ∀ y, y ∈ a :: b :: rest ∨ (∀ x ∈ a :: b :: rest, y < x) →
            (y ≤ a ∨ b ≤ y) ∧ (y ∈ b :: rest ∨ ∀ x ∈ b :: rest, y < x) := by
          rintro y (hmem | hbefore)
          · rcases List.mem_cons.mp hmem with rfl | hmem
            · exact ⟨.inl (Int.le_refl _), .inr ha⟩
            · refine ⟨.inr ?_, .inl hmem⟩
              rcases List.mem_cons.mp hmem with rfl | hmem
              · exact Int.le_refl _
              · exact Int.le_of_lt (hb y hmem)
          · refine ⟨.inl (Int.le_of_lt (hbefore a (List.mem_cons_self ..))), .inr ?_⟩
            exact fun x hx => hbefore x (List.mem_cons_of_mem _ hx)
        refine List.forall_mem_cons.mpr ⟨fun p hlow hhigh => ?_, ih hrest ?_⟩
        · refine scopesOf_eq_label hlow hhigh fun s hs => ?_
          exact ⟨(hsides _ (hcut s hs _ (.inl rfl))).1, (hsides _ (hcut s hs _ (.inr rfl))).1⟩
        · exact fun s hs y hy => (hsides y (hcut s hs y hy)).2

theorem project_of_lt (h : start < stop) :
    project start stop groups captures base =
      let stretches := captures.filterMap (stretch? start stop groups)
      Token.merge (pieces base stretches (cuts start stop stretches)) :=
  if_neg (by omega)

theorem project_labelled (h : start < stop) :
    Token.Labelled (label start stop groups captures base)
      (project start stop groups captures base) := by
  rw [project_of_lt h]
  apply Token.labelled_merge (pieces_cuts_joined base (Int.le_of_lt h))
  apply pieces_labelled (pairwise_cuts ..)
  intro s hs y hy
  exact .inl (mem_cuts.mpr (.inr (.inr ⟨s, hs, hy⟩)))

theorem project_separate : Token.Separate (project start stop groups captures base) := by
  unfold project
  split
  · exact .nil
  · exact Token.separate_merge _

/-- Projection gives nothing for an empty span. Otherwise its tokens lead from the start to the end,
every offset has the scopes of the captures that hold it, neighbours differ, and no tokens with the
same labels are fewer. -/
theorem project_exact (start stop : Int) (groups : List (Option Span)) (captures : List Capture)
    (base : ScopePath) :
    (project start stop groups captures base = [] ↔ stop ≤ start) ∧
      (start < stop →
        Token.Joined start stop (project start stop groups captures base) ∧
        (∀ p, start ≤ p → p < stop → ∃ t ∈ project start stop groups captures base,
          t.start ≤ p ∧ p < t.stop ∧ t.scopes = label start stop groups captures base p) ∧
        Token.Labelled (label start stop groups captures base)
          (project start stop groups captures base) ∧
        Token.Separate (project start stop groups captures base) ∧
        ∀ tokens, Token.Joined start stop tokens →
          Token.Labelled (label start stop groups captures base) tokens →
          (project start stop groups captures base).length ≤ tokens.length) := by
  have hjoined : start < stop → Token.Joined start stop (project start stop groups captures base) :=
    fun h => project_joined groups captures base (Int.le_of_lt h)
  constructor
  · constructor
    · intro hnil
      by_contra hlt
      have h := hjoined (by omega)
      rw [hnil] at h
      cases h
      omega
    · exact fun hempty => if_pos hempty
  · intro h
    refine ⟨hjoined h, fun p hlow hhigh => ?_, project_labelled h, project_separate, ?_⟩
    · obtain ⟨t, ht, hstart, hstop⟩ := (hjoined h).exists_mem hlow hhigh
      exact ⟨t, ht, hstart, hstop, project_labelled h t ht p hstart hstop⟩
    · intro tokens htokens hlabelled
      have hmerged : project start stop groups captures base = Token.merge tokens :=
        (hjoined h).unique htokens.merge (project_labelled h)
          (Token.labelled_merge htokens hlabelled) project_separate (Token.separate_merge tokens)
      rw [hmerged]
      exact Token.length_merge_le tokens

/-- Two groups that cross, one from before the match, one that took no part, and one twice. -/
theorem project_exact_sample :
    let groups := [some ⟨2, 9⟩, some ⟨3, 6⟩, some ⟨5, 12⟩, none, some ⟨0, 3⟩]
    let captures := [⟨1, "a b"⟩, ⟨1, "c"⟩, ⟨2, "d"⟩, ⟨3, "e"⟩, ⟨4, " "⟩, ⟨9, "f"⟩]
    let tokens := [⟨2, 3, ["r"]⟩, ⟨3, 5, ["r", "a", "b", "c"]⟩, ⟨5, 6, ["r", "a", "b", "c", "d"]⟩,
      ⟨6, 9, ["r", "d"]⟩]
    (2 : Int) < 9 ∧ project 2 9 groups captures ["r"] = tokens ∧ Token.Joined 2 9 tokens ∧
      Token.Labelled (label 2 9 groups captures ["r"]) tokens ∧ Token.Separate tokens := by
  intro groups captures tokens
  have hproject : project 2 9 groups captures ["r"] = tokens := by decide +kernel
  obtain ⟨-, hspan⟩ := project_exact 2 9 groups captures ["r"]
  obtain ⟨hjoined, -, hlabelled, hseparate, -⟩ := hspan (by decide)
  rw [hproject] at hjoined hlabelled hseparate
  exact ⟨by decide, hproject, hjoined, hlabelled, hseparate⟩

end Capture

end LineScope
