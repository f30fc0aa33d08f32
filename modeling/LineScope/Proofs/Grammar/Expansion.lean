import Mathlib.Data.List.Chain
import Mathlib.Data.List.Nodup
import Mathlib.Data.List.Perm.Subperm
import Mathlib.Logic.Relation
import LineScope.Grammar.Expansion
import LineScope.Proofs.Grammar.Draft

/-!
How the expansion of includes ends. Without the bound it comes to what it comes to with it, so that
all that is to be known of it follows from the steps of the expansion. If it fails, a cycle of
includes is to blame.
-/

namespace LineScope

variable {M : Type}

structure IsCycle {α : Type} (R : α → α → Prop) (chain : List α) : Prop where
  long : 2 ≤ chain.length
  closed : chain.head? = chain.getLast?
  distinct : chain.dropLast.Nodup
  linked : chain.IsChain R

namespace IsCycle

variable {α β : Type} {R : α → α → Prop} {chain : List α}

theorem transGen_of_isChain {a : α} {rest : List α} (h : (a :: rest).IsChain R) :
    ∀ b ∈ rest, Relation.TransGen R a b := by
  induction rest generalizing a with
  | nil => simp
  | cons b rest ih =>
      obtain ⟨hab, hrest⟩ := List.isChain_cons_cons.mp h
      exact List.forall_mem_cons.mpr ⟨.single hab, fun c hc => .head hab (ih hrest c hc)⟩

theorem exists_eq_cons (h : IsCycle R chain) : ∃ a rest, chain = a :: rest ∧ a ∈ rest := by
  obtain ⟨hlong, hclosed, -, -⟩ := h
  rcases chain with _ | ⟨a, rest⟩
  · simp at hlong
  · have hrest : rest ≠ [] := by
      rintro rfl
      simp at hlong
    rw [List.head?_cons, List.getLast?_cons_of_ne_nil hrest] at hclosed
    exact ⟨a, rest, rfl, List.mem_of_getLast? hclosed.symm⟩

theorem exists_transGen (h : IsCycle R chain) : ∃ a, Relation.TransGen R a a := by
  obtain ⟨a, rest, rfl, ha⟩ := h.exists_eq_cons
  exact ⟨a, transGen_of_isChain h.linked a ha⟩

theorem exists_rel (h : IsCycle R chain) : ∀ b ∈ chain, ∃ x, R x b := by
  obtain ⟨a, rest, rfl, ha⟩ := h.exists_eq_cons
  have hrest : ∀ b ∈ rest, ∃ x, R x b := by
    intro b hb
    obtain ⟨x, -, hx⟩ := Relation.TransGen.tail'_iff.mp (transGen_of_isChain h.linked b hb)
    exact ⟨x, hx⟩
  exact List.forall_mem_cons.mpr ⟨hrest a ha, hrest⟩

theorem map {S : β → β → Prop} {f : α → β} (h : IsCycle R chain) (hf : Function.Injective f)
    (himp : ∀ a b, (∃ x, R x a) → R a b → S (f a) (f b)) : IsCycle S (chain.map f) where
  long := by
    rw [List.length_map]
    exact h.long
  closed := by rw [List.head?_map, List.getLast?_map, h.closed]
  distinct := by
    rw [← List.map_dropLast]
    exact h.distinct.map hf
  linked := by
    rw [List.isChain_map]
    exact h.linked.imp_of_mem_imp fun a b ha _ hab => himp a b (h.exists_rel a ha) hab

end IsCycle

namespace Expansion

open Grammar

variable {drafts : List (DraftContext M)}

def Includes (drafts : List (DraftContext M)) (source target : ContextName) : Prop :=
  .include target ∈ entriesOf drafts source

theorem Includes.drafted {source target : ContextName} (h : Includes drafts source target) :
    source ∈ drafts.map DraftContext.name := by
  unfold Includes entriesOf at h
  split at h
  · rename_i c hc
    exact List.mem_map.mpr ⟨c, List.mem_of_find?_eq_some hc, by simpa using List.find?_some hc⟩
  · cases h

/-- What is to be expanded: a context, or entries of the one under expansion. -/
inductive Task (M : Type) where
  | context (name : ContextName)
  | entries (listed : List (Entry M))

abbrev Outcome (M : Type) := Except Error (List (Rule M) × Done M)

/-- The expansion of a task, with the contexts under expansion and those expanded before. -/
inductive Expands (drafts : List (DraftContext M)) :
    List ContextName → Task M → Done M → Outcome M → Prop
  | known {path : List ContextName} {name : ContextName} {done : Done M} {rules : List (Rule M)} :
      done.lookup name = some rules →
        Expands drafts path (.context name) done (.ok (rules, done))
  | closed {path : List ContextName} {name : ContextName} {done : Done M} :
      done.lookup name = none → name ∈ path →
        Expands drafts path (.context name) done (.error (.cyclic (cycle path name)))
  | opened {path : List ContextName} {name : ContextName} {done : Done M} {o : Outcome M} :
      done.lookup name = none → name ∉ path →
        Expands drafts (path ++ [name]) (.entries (entriesOf drafts name)) done o →
        Expands drafts path (.context name) done (o.map fun x => (x.1, (name, x.1) :: x.2))
  | nil {path : List ContextName} {done : Done M} :
      Expands drafts path (.entries []) done (.ok ([], done))
  | rule {path : List ContextName} {r : Rule M} {rest : List (Entry M)} {done : Done M}
      {o : Outcome M} :
      Expands drafts path (.entries rest) done o →
        Expands drafts path (.entries (.rule r :: rest)) done (o.map fun x => (r :: x.1, x.2))
  | include {path : List ContextName} {target : ContextName} {rest : List (Entry M)}
      {done done' : Done M} {rules : List (Rule M)} {o : Outcome M} :
      Expands drafts path (.context target) done (.ok (rules, done')) →
        Expands drafts path (.entries rest) done' o →
        Expands drafts path (.entries (.include target :: rest)) done
          (o.map fun x => (rules ++ x.1, x.2))
  | failed {path : List ContextName} {target : ContextName} {rest : List (Entry M)}
      {done : Done M} {fault : Error} :
      Expands drafts path (.context target) done (.error fault) →
        Expands drafts path (.entries (.include target :: rest)) done (.error fault)

theorem Expands.unique {path : List ContextName} {task : Task M} {done : Done M} {o o' : Outcome M}
    (h : Expands drafts path task done o) (h' : Expands drafts path task done o') : o = o' := by
  induction h generalizing o' with
  | known hlookup =>
      cases h' with
      | known hlookup' =>
          rw [hlookup] at hlookup'
          cases hlookup'
          rfl
      | closed hnone => simp [hlookup] at hnone
      | opened hnone => simp [hlookup] at hnone
  | closed hnone hmem =>
      cases h' with
      | known hlookup => simp [hnone] at hlookup
      | closed => rfl
      | opened _ hnew => exact absurd hmem hnew
  | opened hnone hnew _ ih =>
      cases h' with
      | known hlookup => simp [hnone] at hlookup
      | closed _ hmem => exact absurd hmem hnew
      | opened _ _ hentries => rw [ih hentries]
  | nil =>
      cases h'
      rfl
  | rule _ ih =>
      cases h' with
      | rule hrest => rw [ih hrest]
  | «include» _ _ ihTarget ihRest =>
      cases h' with
      | «include» htarget hrest =>
          cases ihTarget htarget
          rw [ihRest hrest]
      | failed htarget => cases ihTarget htarget
  | failed _ ih =>
      cases h' with
      | «include» htarget => cases ih htarget
      | failed htarget => exact ih htarget

theorem flatten_expands {expand : ContextName → Done M → Outcome M} {path : List ContextName}
    {entries : List (Entry M)}
    (hexpand : ∀ target, .include target ∈ entries → ∀ done,
      Expands drafts path (.context target) done (expand target done)) (done : Done M) :
    Expands drafts path (.entries entries) done (flatten expand entries done) := by
  induction entries generalizing done with
  | nil => exact .nil
  | cons entry rest ih =>
      have hrest : ∀ done, Expands drafts path (.entries rest) done (flatten expand rest done) :=
        ih fun target htarget => hexpand target (List.mem_cons_of_mem _ htarget)
      rcases entry with r | target
      · have hrule := (hrest done).rule (r := r)
        simp only [flatten]
        rcases hmore : flatten expand rest done with fault | ⟨more, between⟩
        · rwa [hmore] at hrule
        · rwa [hmore] at hrule
      · have htarget := hexpand target (List.mem_cons_self ..) done
        simp only [flatten]
        rcases hrules : expand target done with fault | ⟨rules, between⟩
        · rw [hrules] at htarget
          exact .failed htarget
        · rw [hrules] at htarget
          have hinclude := Expands.include htarget (hrest between)
          simp only [bind, Except.bind]
          rcases hmore : flatten expand rest between with fault | ⟨more, last⟩
          · rwa [hmore] at hinclude
          · rwa [hmore] at hinclude

theorem context_expands {fuel : Nat} {path : List ContextName} (hnodup : path.Nodup)
    (hpath : ∀ p ∈ path, p ∈ drafts.map DraftContext.name)
    (hfuel : drafts.length < fuel + path.length) (name : ContextName) (done : Done M) :
    Expands drafts path (.context name) done (context drafts fuel path name done) := by
  induction fuel generalizing path name done with
  | zero =>
      have hlength := (List.subperm_of_subset hnodup hpath).length_le
      rw [List.length_map] at hlength
      omega
  | succ fuel ih =>
      simp only [context]
      rcases hlookup : done.lookup name with _ | rules
      · by_cases hmem : name ∈ path
        · rw [if_pos (by simpa using hmem)]
          exact .closed hlookup hmem
        · rw [if_neg (by simpa using hmem)]
          have hentries : Expands drafts (path ++ [name]) (.entries (entriesOf drafts name)) done
              (flatten (context drafts fuel (path ++ [name])) (entriesOf drafts name) done) := by
            refine flatten_expands (fun target htarget => ih ?_ ?_ ?_ target) done
            · exact hnodup.append (List.pairwise_singleton ..) (by simpa using hmem)
            · have hincludes : Includes drafts name target := htarget
              exact List.forall_mem_append.mpr ⟨hpath, by simpa using hincludes.drafted⟩
            · rw [List.length_append, List.length_singleton]
              omega
          have hopened := Expands.opened hlookup hmem hentries
          rcases hflatten : flatten (context drafts fuel (path ++ [name])) (entriesOf drafts name)
            done with fault | ⟨rules, between⟩
          · rwa [hflatten] at hopened
          · rwa [hflatten] at hopened
      · exact .known hlookup

theorem start_expands (drafts : List (DraftContext M)) (name : ContextName) (done : Done M) :
    Expands drafts [] (.context name) done (context drafts (drafts.length + 1) [] name done) :=
  context_expands List.nodup_nil (by simp) (by simp) name done

/-- The contexts under expansion include each other in turn, and the last of them includes what is
to be expanded. -/
def Task.Follows (drafts : List (DraftContext M)) (path : List ContextName) : Task M → Prop
  | .context name => (path ++ [name]).IsChain (Includes drafts)
  | .entries listed =>
    path.IsChain (Includes drafts) ∧
      ∀ source ∈ path.getLast?, ∀ target, .include target ∈ listed → Includes drafts source target

theorem isCycle_cycle {path : List ContextName} {name : ContextName} (hnodup : path.Nodup)
    (hlinked : (path ++ [name]).IsChain (Includes drafts)) (hmem : name ∈ path) :
    IsCycle (Includes drafts) (path.dropWhile (· != name) ++ [name]) := by
  have hsuffix : path.dropWhile (· != name) <:+ path := List.dropWhile_suffix _
  obtain ⟨rest, hrest⟩ : ∃ rest, path.dropWhile (· != name) = name :: rest := by
    clear hnodup hlinked hsuffix
    induction path with
    | nil => cases hmem
    | cons p path ih =>
        rw [List.dropWhile_cons]
        split
        · rename_i hne
          have hne : name ≠ p := Ne.symm (by simpa using hne)
          exact ih ((List.mem_cons.mp hmem).resolve_left hne)
        · rename_i heq
          have heq : p = name := by simpa using heq
          exact ⟨path, by rw [heq]⟩
  refine ⟨?_, ?_, ?_, ?_⟩
  · simp [hrest]
  · rw [List.getLast?_concat, hrest]
    rfl
  · rw [List.dropLast_concat]
    exact hnodup.sublist hsuffix.sublist
  · exact hlinked.suffix ((List.suffix_append_inj_of_length_eq rfl).mpr ⟨hsuffix, rfl⟩)

/-- The expansion fails with nothing but cycles. -/
theorem Expands.isCycle {path : List ContextName} {task : Task M} {done : Done M} {o : Outcome M}
    (h : Expands drafts path task done o) (hnodup : path.Nodup)
    (hfollows : task.Follows drafts path) {fault : Error} (ho : o = .error fault) :
    ∃ chain : List ContextName, fault = .cyclic (chain.map ContextName.text) ∧
      IsCycle (Includes drafts) chain := by
  induction h with
  | known => cases ho
  | closed _ hmem =>
      cases ho
      exact ⟨_, rfl, isCycle_cycle hnodup hfollows hmem⟩
  | @opened path name done o _ hnew _ ih =>
      rcases o with fault' | _
      · cases ho
        refine ih ?_ ⟨hfollows, ?_⟩ rfl
        · exact hnodup.append (List.pairwise_singleton ..) (by simpa using hnew)
        · intro source hsource target htarget
          obtain rfl : name = source := by simpa using hsource
          exact htarget
      · cases ho
  | nil => cases ho
  | @rule path r rest done o _ ih =>
      rcases o with fault' | _
      · cases ho
        refine ih hnodup ⟨hfollows.1, fun source hsource target htarget => ?_⟩ rfl
        exact hfollows.2 source hsource target (List.mem_cons_of_mem _ htarget)
      · cases ho
  | @«include» path target rest done done' rules o _ _ _ ih =>
      rcases o with fault' | _
      · cases ho
        refine ih hnodup ⟨hfollows.1, fun source hsource target htarget => ?_⟩ rfl
        exact hfollows.2 source hsource target (List.mem_cons_of_mem _ htarget)
      · cases ho
  | @failed path target rest done fault _ ih =>
      refine ih hnodup (hfollows.1.append (.singleton _) ?_) ho
      intro source hsource target' htarget
      obtain rfl : target = target' := by simpa using htarget
      exact hfollows.2 source hsource target (List.mem_cons_self ..)

theorem contexts_isCycle {names : List ContextName} {done : Done M} {fault : Error}
    (h : contexts drafts names done = .error fault) :
    ∃ chain : List ContextName, fault = .cyclic (chain.map ContextName.text) ∧
      IsCycle (Includes drafts) chain := by
  induction names generalizing done with
  | nil => cases h
  | cons name rest ih =>
      obtain hcontext | ⟨⟨rules, between⟩, -, h⟩ := bind_eq_error.mp h
      · have hexpands := start_expands drafts name done
        exact hexpands.isCycle List.nodup_nil (List.isChain_singleton name) hcontext
      · obtain hrest | ⟨more, -, h⟩ := bind_eq_error.mp h
        · exact ih hrest
        · cases h

end Expansion

end LineScope
