import LineScope.Capture

namespace LineScope

namespace Token

/-- Tokens that lead from one offset to another, each of some length and each from where the one
before ends. -/
inductive Joined : Int → Int → List Token → Prop
  | nil {a : Int} : Joined a a []
  | cons {t : Token} {b : Int} {rest : List Token} :
      t.start < t.stop → Joined t.stop b rest → Joined t.start b (t :: rest)

theorem Joined.consMerged {t : Token} {b : Int} {tokens : List Token} (ht : t.start < t.stop)
    (h : Joined t.stop b tokens) : Joined t.start b (consMerged t tokens) := by
  rcases tokens with _ | ⟨u, rest⟩
  · exact .cons ht h
  · simp only [Token.consMerged]
    split
    · generalize hstop : t.stop = stop at h
      cases h with
      | cons hu hrest =>
          have hlong : t.start < u.stop := by omega
          exact .cons (t := ⟨t.start, u.stop, t.scopes⟩) hlong hrest
    · exact .cons ht h

theorem Joined.merge {a b : Int} {tokens : List Token} (h : Joined a b tokens) :
    Joined a b (merge tokens) := by
  induction h with
  | nil => exact .nil
  | cons ht _ ih => exact ih.consMerged ht

theorem forall_scopes_merge {P : ScopePath → Prop} {tokens : List Token}
    (h : ∀ t ∈ tokens, P t.scopes) : ∀ t ∈ merge tokens, P t.scopes := by
  induction tokens with
  | nil => simp [merge]
  | cons t rest ih =>
      obtain ⟨ht, hrest⟩ := List.forall_mem_cons.mp h
      have hmerged := ih hrest
      change ∀ u ∈ Token.consMerged t (merge rest), P u.scopes
      generalize merge rest = merged at hmerged ⊢
      rcases merged with _ | ⟨u, more⟩
      · simpa [Token.consMerged] using ht
      · obtain ⟨-, hmore⟩ := List.forall_mem_cons.mp hmerged
        simp only [Token.consMerged]
        split
        · exact List.forall_mem_cons.mpr ⟨ht, hmore⟩
        · exact List.forall_mem_cons.mpr ⟨ht, hmerged⟩

end Token

namespace Capture

theorem mem_insertCut {x y : Int} {xs : List Int} : y ∈ insertCut x xs ↔ y = x ∨ y ∈ xs := by
  induction xs with
  | nil => simp [insertCut]
  | cons z rest ih =>
      simp only [insertCut]
      split
      · simp
      · split
        · rename_i heq
          simp [heq]
        · simp only [List.mem_cons, ih]
          exact or_left_comm

theorem pairwise_insertCut {x : Int} {xs : List Int} (h : xs.Pairwise (· < ·)) :
    (insertCut x xs).Pairwise (· < ·) := by
  induction xs with
  | nil => simp [insertCut]
  | cons y rest ih =>
      obtain ⟨hy, hrest⟩ := List.pairwise_cons.mp h
      simp only [insertCut]
      split
      · rename_i hxy
        refine List.pairwise_cons.mpr ⟨?_, h⟩
        intro z hz
        rcases List.mem_cons.mp hz with rfl | hz
        · exact hxy
        · exact Int.lt_trans hxy (hy z hz)
      · split
        · exact h
        · refine List.pairwise_cons.mpr ⟨?_, ih hrest⟩
          intro z hz
          rcases mem_insertCut.mp hz with rfl | hz
          · omega
          · exact hy z hz

theorem mem_cuts {start stop x : Int} {stretches : List Stretch} :
    x ∈ cuts start stop stretches ↔
      x = start ∨ x = stop ∨ ∃ s ∈ stretches, x = s.start ∨ x = s.stop := by
  have hfold : ∀ offsets : List Int, x ∈ offsets.foldr insertCut [] ↔ x ∈ offsets := by
    intro offsets
    induction offsets with
    | nil => simp
    | cons y rest ih => simp only [List.foldr_cons, mem_insertCut, ih, List.mem_cons]
  rw [cuts, hfold]
  simp

theorem pairwise_cuts (start stop : Int) (stretches : List Stretch) :
    (cuts start stop stretches).Pairwise (· < ·) := by
  unfold cuts
  generalize (start :: stop :: stretches.flatMap fun s => [s.start, s.stop]) = offsets
  induction offsets with
  | nil => exact .nil
  | cons x rest ih => exact pairwise_insertCut ih

theorem stretch?_bounds {start stop : Int} {groups : List (Option Span)} {c : Capture}
    {s : Stretch} (h : stretch? start stop groups c = some s) :
    start ≤ s.start ∧ s.start < s.stop ∧ s.stop ≤ stop := by
  unfold stretch? at h
  split at h
  · rename_i span _
    simp only at h
    split at h
    · rename_i hlt
      cases h
      exact ⟨Int.le_max_right .., hlt, Int.min_le_right ..⟩
    · cases h
  · cases h

theorem pieces_joined {base : ScopePath} {stretches : List Stretch} {a b : Int} {xs : List Int}
    (hsorted : (a :: xs).Pairwise (· < ·)) (hb : b ∈ a :: xs) (hlast : ∀ x ∈ a :: xs, x ≤ b) :
    Token.Joined a b (pieces base stretches (a :: xs)) := by
  induction xs generalizing a with
  | nil =>
      obtain rfl : b = a := List.mem_singleton.mp hb
      exact .nil
  | cons x rest ih =>
      obtain ⟨ha, hrest⟩ := List.pairwise_cons.mp hsorted
      have hax : a < x := ha x (List.mem_cons_self ..)
      have hxb : x ≤ b := hlast x (by simp)
      refine .cons (t := ⟨a, x, scopesOf base stretches a x⟩) hax (ih hrest ?_ ?_)
      · rcases List.mem_cons.mp hb with rfl | hb
        · omega
        · exact hb
      · exact fun y hy => hlast y (List.mem_cons_of_mem _ hy)

theorem pieces_cuts_joined {start stop : Int} {groups : List (Option Span)}
    {captures : List Capture} (base : ScopePath) (h : start ≤ stop) :
    let stretches := captures.filterMap (stretch? start stop groups)
    Token.Joined start stop (pieces base stretches (cuts start stop stretches)) := by
  intro stretches
  have hwithin : ∀ x ∈ cuts start stop stretches, start ≤ x ∧ x ≤ stop := by
    intro x hx
    rcases mem_cuts.mp hx with rfl | rfl | ⟨s, hs, hx⟩
    · exact ⟨Int.le_refl _, h⟩
    · exact ⟨h, Int.le_refl _⟩
    · obtain ⟨c, -, hc⟩ := List.mem_filterMap.mp hs
      have hbounds := stretch?_bounds hc
      omega
  have hstart : start ∈ cuts start stop stretches := mem_cuts.mpr (.inl rfl)
  have hstop : stop ∈ cuts start stop stretches := mem_cuts.mpr (.inr (.inl rfl))
  have hsorted := pairwise_cuts start stop stretches
  -- the first cut is the start: it is among the cuts, and none of them lies before it
  rcases hcuts : cuts start stop stretches with _ | ⟨a, rest⟩
  · simp [hcuts] at hstart
  · rw [hcuts] at hwithin hstart hstop hsorted
    have ha : a = start := by
      have hlow := (hwithin a (List.mem_cons_self ..)).1
      rcases List.mem_cons.mp hstart with heq | hmem
      · exact heq.symm
      · have hlt := (List.pairwise_cons.mp hsorted).1 start hmem
        omega
    subst ha
    exact pieces_joined hsorted hstop fun x hx => (hwithin x hx).2

theorem project_joined {start stop : Int} (groups : List (Option Span)) (captures : List Capture)
    (base : ScopePath) (h : start ≤ stop) :
    Token.Joined start stop (project start stop groups captures base) := by
  unfold project
  split
  · rename_i hempty
    obtain rfl : start = stop := by omega
    exact .nil
  · exact (pieces_cuts_joined base h).merge

theorem prefix_scopesOf (base : ScopePath) (stretches : List Stretch) (a b : Int) :
    base <+: scopesOf base stretches a b := by
  unfold scopesOf
  induction stretches generalizing base with
  | nil => exact List.prefix_rfl
  | cons s rest ih =>
      rw [List.foldl_cons]
      refine List.IsPrefix.trans ?_ (ih _)
      split
      · exact List.prefix_append ..
      · exact List.prefix_rfl

theorem prefix_of_mem_pieces {base : ScopePath} {stretches : List Stretch} {xs : List Int}
    {t : Token} (ht : t ∈ pieces base stretches xs) : base <+: t.scopes := by
  induction xs with
  | nil => cases ht
  | cons a rest ih =>
      rcases rest with _ | ⟨b, rest⟩
      · cases ht
      · rcases List.mem_cons.mp ht with rfl | ht
        · exact prefix_scopesOf base stretches a b
        · exact ih ht

theorem prefix_of_mem_project {start stop : Int} {groups : List (Option Span)}
    {captures : List Capture} {base : ScopePath} {t : Token}
    (ht : t ∈ project start stop groups captures base) : base <+: t.scopes := by
  unfold project at ht
  split at ht
  · cases ht
  · exact Token.forall_scopes_merge (fun _ hu => prefix_of_mem_pieces hu) t ht

end Capture

end LineScope
