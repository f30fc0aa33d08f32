import LineScope.Registry
import LineScope.Proofs.Grammar.Blueprint
import LineScope.Proofs.Json.Sorting

/-!
What a registry keeps. A grammar and the fingerprint of its document are stored together, so that
the two tables hold the same names, and what is held under a name is a grammar of that name that
was compiled from a document with the fingerprint.
-/

namespace LineScope

variable {M : Type}

namespace Registry

section put

variable {α : Type}

theorem any_name_iff (table : List (String × α)) (name : String) :
    (table.any (·.1 == name)) = true ↔ name ∈ table.map Prod.fst := by
  simp only [List.any_eq_true, beq_iff_eq, List.mem_map]

theorem lookup_isSome (table : List (String × α)) (name : String) :
    (table.lookup name).isSome = true ↔ name ∈ table.map Prod.fst := by
  simp [List.lookup_isSome_iff]

theorem map_fst_put (table : List (String × α)) (name : String) (value : α) :
    (put table name value).map Prod.fst =
      if name ∈ table.map Prod.fst then table.map Prod.fst
      else table.map Prod.fst ++ [name] := by
  unfold put
  by_cases h : name ∈ table.map Prod.fst
  · rw [if_pos ((any_name_iff table name).mpr h), if_pos h, List.map_map]
    apply List.map_congr_left
    intro e _
    simp only [Function.comp_apply]
    split
    · rename_i heq
      exact (eq_of_beq heq).symm
    · rfl
  · rw [if_neg (fun hany => h ((any_name_iff table name).mp hany)), if_neg h, List.map_append,
      List.map_singleton]

theorem lookup_replaced (table : List (String × α)) (name key : String) (value : α) :
    (table.map fun e => if e.1 == name then (name, value) else e).lookup key =
      if key = name then (table.lookup name).map fun _ => value else table.lookup key := by
  induction table with
  | nil => simp
  | cons e rest ih =>
      rcases e with ⟨k, v⟩
      by_cases hk : k = name
      · by_cases hkey : key = name
        · simp [hk, hkey]
        · have hne : (key == name) = false := by simpa using hkey
          simp only [List.map_cons, hk, beq_self_eq_true, if_true, List.lookup_cons, hne, ih,
            if_neg hkey]
      · have hne : (k == name) = false := by simpa using hk
        simp only [List.map_cons, hne, Bool.false_eq_true, if_false, List.lookup_cons, ih]
        by_cases hkey : key = name
        · have hhead : (name == k) = false := by simpa using Ne.symm hk
          simp only [hkey, if_true, hhead]
        · simp only [if_neg hkey]

theorem lookup_put (table : List (String × α)) (name key : String) (value : α) :
    (put table name value).lookup key = if key = name then some value else table.lookup key := by
  unfold put
  by_cases h : name ∈ table.map Prod.fst
  · obtain ⟨old, hold⟩ := Option.isSome_iff_exists.mp ((lookup_isSome table name).mpr h)
    rw [if_pos ((any_name_iff table name).mpr h), lookup_replaced, hold, Option.map_some]
  · have hnone : table.lookup name = none := by
      rw [← Option.not_isSome_iff_eq_none, lookup_isSome]
      exact h
    rw [if_neg (fun hany => h ((any_name_iff table name).mp hany)), List.lookup_append]
    by_cases hkey : key = name
    · rw [hkey, hnone, if_pos rfl]
      simp
    · have hne : (key == name) = false := by simpa using hkey
      simp [List.lookup_cons, hne, hkey]

end put

/-- Nothing is put into the tables, and no loader is asked. -/
structure Kept (r r' : Registry M) : Prop where
  engine : r'.engine = r.engine
  table : r'.table = r.table
  fingerprints : r'.fingerprints = r.fingerprints
  calls : r'.calls = r.calls

theorem Kept.refl (r : Registry M) : r.Kept r :=
  ⟨rfl, rfl, rfl, rfl⟩

/-- A grammar that a document compiles to is put into the tables, with the fingerprint of the
document. -/
structure Stored (r : Registry M) (document : Json) (g : Registered M) (r' : Registry M) :
    Prop where
  compiled : Grammar.ofJson r.engine document = .ok g.grammar
  engine : r'.engine = r.engine
  table : r'.table = put r.table g.grammar.scopeName g
  fingerprints : ∃ fingerprint, fingerprintOf document = .ok fingerprint ∧
    r'.fingerprints = put r.fingerprints g.grammar.scopeName fingerprint
  calls : r'.calls = r.calls

inductive Compiled (r : Registry M) (document : Json) :
    Except LoadError (Registered M) × Registry M → Prop
  | refused {e : LoadError} : Compiled r document (.error e, r)
  | grammar {g : Registered M} {r' : Registry M} :
      Grammar.ofJson r.engine document = .ok g.grammar → r.Kept r' →
        Compiled r document (.ok g, r')

inductive Added (r : Registry M) (document : Json) :
    Except LoadError (Registered M) × Registry M → Prop
  | refused {e : LoadError} : Added r document (.error e, r)
  | known {fingerprint : String} {g : Registered M} :
      fingerprintOf document = .ok fingerprint → r.known? document fingerprint = some g →
        Added r document (.ok g, r)
  | stored {g : Registered M} {r' : Registry M} :
      r.Stored document g r' → Added r document (.ok g, r')

inductive Concluded (r : Registry M) (scopeName : String) :
    Answer → Except LoadError (Option (Registered M)) × Registry M → Prop
  | refused {a : Answer} {e : LoadError} {r' : Registry M} :
      r.Kept r' → Concluded r scopeName a (.error e, r')
  | unknown {a : Answer} {r' : Registry M} :
      r.Kept r' → Concluded r scopeName a (.ok none, r')
  | stored {document : Json} {g : Registered M} {r' : Registry M} :
      scopeNameOf document = .str scopeName → r.Stored document g r' →
        Concluded r scopeName (.document document) (.ok (some g), r')

theorem compile_compiled (r : Registry M) (document : Json) :
    Compiled r document (r.compile document) := by
  unfold compile
  rcases hcompiled : Grammar.ofJson r.engine document with e | g
  · exact .refused
  · exact .grammar hcompiled ⟨rfl, rfl, rfl, rfl⟩

theorem Kept.store {r r' : Registry M} (h : r.Kept r') {document : Json} {g : Registered M}
    {fingerprint : String} (hcompiled : Grammar.ofJson r.engine document = .ok g.grammar)
    (hfingerprint : fingerprintOf document = .ok fingerprint) :
    r.Stored document g (r'.store g fingerprint) where
  compiled := hcompiled
  engine := h.engine
  table := by rw [Registry.store, h.table]
  fingerprints := ⟨fingerprint, hfingerprint, by rw [Registry.store, h.fingerprints]⟩
  calls := h.calls

theorem Stored.record {r r' : Registry M} {document : Json} {g : Registered M}
    (h : r.Stored document g r') (event : Event) : r.Stored document g (r'.record event) :=
  ⟨h.compiled, h.engine, h.table, h.fingerprints, h.calls⟩

theorem add_known {r : Registry M} {document : Json} {fingerprint : String} {g : Registered M}
    (hfingerprint : fingerprintOf document = .ok fingerprint)
    (hknown : r.known? document fingerprint = some g) : r.add document = (.ok g, r) := by
  simp only [add, hfingerprint, hknown]

theorem add_added (r : Registry M) (document : Json) : Added r document (r.add document) := by
  rcases hfingerprint : fingerprintOf document with e | fingerprint
  · rw [add, hfingerprint]
    exact .refused
  rcases hknown : r.known? document fingerprint with _ | g
  · simp only [add, hfingerprint, hknown]
    have hcompiled := compile_compiled r document
    generalize r.compile document = o at hcompiled
    cases hcompiled with
    | refused => exact .refused
    | grammar hgrammar hkept => exact .stored (hkept.store hgrammar hfingerprint)
  · rw [add_known hfingerprint hknown]
    exact .known hfingerprint hknown

theorem accept_cases (r : Registry M) (scopeName : String) (document : Json) :
    (∃ e r', r.accept scopeName document = (.error e, r') ∧ r.Kept r') ∨
      ∃ g r', r.accept scopeName document = (.ok g, r') ∧
        scopeNameOf document = .str scopeName ∧ r.Stored document g r' := by
  unfold accept
  split
  · rename_i members
    split
    · rename_i name hname
      split
      · rename_i heq
        have hcompiled := compile_compiled r (.obj members)
        generalize r.compile (.obj members) = o at hcompiled
        cases hcompiled with
        | refused => exact .inl ⟨_, _, rfl, .refl r⟩
        | grammar hgrammar hkept =>
            rcases hfingerprint : fingerprintOf (.obj members) with e | fingerprint
            · exact .inl ⟨_, _, rfl, hkept⟩
            · refine .inr ⟨_, _, rfl, ?_, (hkept.store hgrammar hfingerprint).record _⟩
              rw [scopeNameOf, hname, eq_of_beq heq]
      · exact .inl ⟨_, _, rfl, .refl r⟩
    · exact .inl ⟨_, _, rfl, .refl r⟩
  · exact .inl ⟨_, _, rfl, .refl r⟩

theorem conclude_document (r : Registry M) (scopeName : String) {document : Json}
    (hnull : document ≠ .null) :
    r.conclude scopeName (.document document) =
      ((r.accept scopeName document).1.map some, (r.accept scopeName document).2) := by
  cases document with
  | null => exact absurd rfl hnull
  | _ =>
      simp only [conclude]
      split
      · rename_i haccept
        rw [haccept]
        rfl
      · rename_i haccept
        rw [haccept]
        rfl

theorem conclude_concluded (r : Registry M) (scopeName : String) (a : Answer) :
    Concluded r scopeName a (r.conclude scopeName a) := by
  cases a with
  | fails message => exact .refused ⟨rfl, rfl, rfl, rfl⟩
  | nothing => exact .unknown ⟨rfl, rfl, rfl, rfl⟩
  | document document =>
      by_cases hnull : document = .null
      · rw [hnull]
        exact .unknown ⟨rfl, rfl, rfl, rfl⟩
      · rw [conclude_document r scopeName hnull]
        rcases accept_cases r scopeName document with
          ⟨e, r', haccept, hkept⟩ | ⟨g, r', haccept, hname, hstored⟩
        · rw [haccept]
          exact .refused hkept
        · rw [haccept]
          exact .stored hname hstored

theorem scopeNameOf_of_ofJson {e : Engine M} {document : Json} {g : Grammar M}
    (h : Grammar.ofJson e document = .ok g) : scopeNameOf document = .str g.scopeName := by
  obtain ⟨blueprint, hblueprint, h⟩ := bind_eq_ok.mp h
  obtain ⟨drafts, -, h⟩ := bind_eq_ok.mp h
  obtain ⟨contexts, -, heq⟩ := bind_eq_ok.mp h
  cases heq
  rcases document with _ | _ | _ | _ | _ | _ | members
  case obj =>
    obtain ⟨name, root, cs, hname, -, -, rfl⟩ := Blueprint.ofJson_eq_ok.mp hblueprint
    rw [scopeNameOf, Declaration.field, (Blueprint.scopeNameOf_eq_ok.mp hname).1]
    rfl
  all_goals cases hblueprint

theorem scopeNameOf_of_sorted_eq {document document' : Json} {name : String}
    (h : document.sorted = document'.sorted) (hname : scopeNameOf document = .str name) :
    scopeNameOf document' = .str name := by
  rcases document with _ | _ | _ | _ | _ | _ | members
  case obj =>
    rcases document' with _ | _ | _ | _ | _ | _ | members'
    case obj => exact Json.field_str_of_sorted_eq h hname
    all_goals simp [Json.sorted] at h
  all_goals cases hname

/-- The tables hold the same names. What they hold under a name is a grammar of that name, and the
fingerprint of a document of that name that compiles to the grammar, and that has been given. -/
structure Sound (e : Engine M) (given : Json → Prop) (r : Registry M) : Prop where
  engine : r.engine = e
  names : r.fingerprints.map Prod.fst = r.table.map Prod.fst
  entry : ∀ name g, r.get? name = some g → g.grammar.scopeName = name ∧
    ∃ document, given document ∧ scopeNameOf document = .str name ∧
      Grammar.ofJson e document = .ok g.grammar ∧
      ∃ fingerprint, fingerprintOf document = .ok fingerprint ∧
        r.fingerprints.lookup name = some fingerprint

variable {e : Engine M} {given : Json → Prop} {r r' : Registry M}

theorem sound_empty (e : Engine M) (given : Json → Prop) : (empty e).Sound e given where
  engine := rfl
  names := rfl
  entry _ _ h := by cases h

theorem Sound.kept (h : r.Sound e given) (hkept : r.Kept r') : r'.Sound e given where
  engine := hkept.engine.trans h.engine
  names := by rw [hkept.table, hkept.fingerprints, h.names]
  entry name g hget := by
    rw [get?, hkept.table] at hget
    rw [hkept.fingerprints]
    exact h.entry name g hget

theorem Sound.ask (h : r.Sound e given) (scopeName : String) :
    (r.ask scopeName).Sound e given :=
  ⟨h.engine, h.names, h.entry⟩

theorem Stored.get?_eq {document : Json} {g : Registered M} (h : r.Stored document g r')
    (name : String) :
    r'.get? name = if name = g.grammar.scopeName then some g else r.get? name := by
  rw [get?, h.table, lookup_put]
  rfl

theorem Sound.stored {document : Json} {g : Registered M} (h : r.Sound e given)
    (hgiven : given document) (hstored : r.Stored document g r') : r'.Sound e given where
  engine := hstored.engine.trans h.engine
  names := by
    obtain ⟨fingerprint, -, hfingerprints⟩ := hstored.fingerprints
    rw [hstored.table, hfingerprints, map_fst_put, map_fst_put, h.names]
  entry name g' hget := by
    obtain ⟨fingerprint, hfingerprint, hfingerprints⟩ := hstored.fingerprints
    rw [hstored.get?_eq] at hget
    rw [hfingerprints, lookup_put]
    by_cases hname : name = g.grammar.scopeName
    · rw [if_pos hname] at hget ⊢
      cases hget
      exact ⟨hname.symm, document, hgiven, hname ▸ scopeNameOf_of_ofJson hstored.compiled,
        h.engine ▸ hstored.compiled, fingerprint, hfingerprint, rfl⟩
    · rw [if_neg hname] at hget ⊢
      exact h.entry name g' hget

theorem Sound.exists_registered (h : r.Sound e given) {name fingerprint : String}
    (hfound : r.fingerprints.lookup name = some fingerprint) : ∃ g, r.get? name = some g := by
  apply Option.isSome_iff_exists.mp
  rw [get?, lookup_isSome, ← h.names, ← lookup_isSome, hfound]
  rfl

theorem Sound.known?_eq (h : r.Sound e given) {document : Json} {name fingerprint : String}
    (hname : scopeNameOf document = .str name)
    (hfound : r.fingerprints.lookup name = some fingerprint) :
    ∃ g, r.get? name = some g ∧ r.known? document fingerprint = some g := by
  obtain ⟨g, hg⟩ := h.exists_registered hfound
  refine ⟨g, hg, ?_⟩
  simp only [known?, hname, if_pos hfound, hg]

end Registry

end LineScope
