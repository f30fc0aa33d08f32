import LineScope.Proofs.Registry.Tables

/-!
Registries in use. Requests are taken apart into moments, between which a loader may look at the
registry and make requests of its own. At every moment the tables are sound, and a grammar comes
under a name only where a request that returns it ends.
-/

namespace LineScope

variable {M : Type}

inductive Happening (M : Type) where
  | added (document : Json) (result : Except LoadError (Registered M))
  /-- A grammar is there that is to be loaded. -/
  | found (scopeName : String) (g : Registered M)
  /-- The loader is asked for a scope. -/
  | asked (scopeName : String)
  /-- A request to load comes to its end, with the answer of the loader. -/
  | concluded (scopeName : String) (a : Answer) (result : Except LoadError (Option (Registered M)))

/-- What a request returns at a moment, if one ends. -/
def Happening.result : Happening M → Except LoadError (Option (Registered M))
  | .added _ result => result.map some
  | .found _ g => .ok (some g)
  | .asked _ => .ok none
  | .concluded _ _ result => result

def Happening.asked? : Happening M → Option String
  | .asked scopeName => some scopeName
  | _ => none

def Happening.document? : Happening M → Option Json
  | .added document _ => some document
  | .concluded _ (.document document) _ => some document
  | _ => none

structure Moment (M : Type) where
  before : Registry M
  happening : Happening M
  after : Registry M

namespace Moment

def ofAdd (r : Registry M) (document : Json) : Moment M :=
  ⟨r, .added document (r.add document).1, (r.add document).2⟩

def ofConclude (r : Registry M) (scopeName : String) (a : Answer) : Moment M :=
  ⟨r, .concluded scopeName a (r.conclude scopeName a).1, (r.conclude scopeName a).2⟩

/-- The moments of a request to load; `inner` gives those of what the loader does. -/
def ofLoad (r : Registry M) (scopeName : String) (loader : Option (Script M))
    (inner : Registry M → List (Moment M)) : List (Moment M) :=
  match r.get? scopeName with
  | some g => [⟨r, .found scopeName g, r⟩]
  | none =>
    match loader with
    | none => [ofConclude r scopeName .nothing]
    | some script =>
      let answered := Registry.run script (r.ask scopeName)
      ⟨r, .asked scopeName, r.ask scopeName⟩ ::
        (inner (r.ask scopeName) ++ [ofConclude answered.2 scopeName answered.1])

end Moment

def Script.moments : Script M → Registry M → List (Moment M)
  | .answer _, _ => []
  | .add document next, r =>
    .ofAdd r document :: (next (r.add document).1).moments (r.add document).2
  | .load scopeName nested next, r =>
    let loaded := r.load scopeName (some (nested ()))
    Moment.ofLoad r scopeName (some (nested ())) (nested ()).moments ++
      (next loaded.1).moments loaded.2

inductive Request (M : Type) where
  | add (document : Json)
  | load (scopeName : String) (loader : Option (Script M))

namespace Request

def perform (r : Registry M) : Request M → Registry M
  | .add document => (r.add document).2
  | .load scopeName loader => (r.load scopeName loader).2

def moments (r : Registry M) : Request M → List (Moment M)
  | .add document => [.ofAdd r document]
  | .load scopeName loader =>
    Moment.ofLoad r scopeName loader fun asked =>
      match loader with
      | some script => script.moments asked
      | none => []

def allMoments : Registry M → List (Request M) → List (Moment M)
  | _, [] => []
  | r, q :: rest => q.moments r ++ allMoments (q.perform r) rest

end Request

/-- Moments follow one another, from one registry to another. -/
inductive Linked : Registry M → List (Moment M) → Registry M → Prop
  | nil {r : Registry M} : Linked r [] r
  | cons {m : Moment M} {rest : List (Moment M)} {r : Registry M} :
      Linked m.after rest r → Linked m.before (m :: rest) r

theorem Linked.append {r r' r'' : Registry M} {first second : List (Moment M)}
    (h : Linked r first r') (h' : Linked r' second r'') : Linked r (first ++ second) r'' := by
  induction h with
  | nil => exact h'
  | cons _ ih => exact .cons (ih h')

theorem linked_ofAdd (r : Registry M) (document : Json) :
    Linked r [.ofAdd r document] (r.add document).2 :=
  .cons (m := .ofAdd r document) .nil

theorem linked_ofLoad {r : Registry M} {scopeName : String} {loader : Option (Script M)}
    {inner : Registry M → List (Moment M)}
    (hinner : ∀ script, loader = some script → ∀ asked,
      Linked asked (inner asked) (Registry.run script asked).2) :
    Linked r (Moment.ofLoad r scopeName loader inner) (r.load scopeName loader).2 := by
  unfold Moment.ofLoad Registry.load
  rcases r.get? scopeName with _ | g
  · rcases loader with _ | script
    · exact .cons (m := .ofConclude r scopeName .nothing) .nil
    · have hanswered := hinner script rfl (r.ask scopeName)
      rcases hrun : Registry.run script (r.ask scopeName) with ⟨a, answered⟩
      rw [hrun] at hanswered
      simp only [hrun]
      exact .cons (m := ⟨r, .asked scopeName, r.ask scopeName⟩)
        (hanswered.append (.cons (m := .ofConclude answered scopeName a) .nil))
  · exact .cons (m := ⟨r, .found scopeName g, r⟩) .nil

theorem Registry.run_load (r : Registry M) (scopeName : String) (nested : Unit → Script M)
    (next : Except LoadError (Option (Registered M)) → Script M) :
    run (.load scopeName nested next) r =
      run (next (r.load scopeName (some (nested ()))).1)
        (r.load scopeName (some (nested ()))).2 := by
  rw [run, load]
  rcases r.get? scopeName with _ | g <;> rfl

theorem Script.linked_moments (script : Script M) (r : Registry M) :
    Linked r (script.moments r) (Registry.run script r).2 := by
  induction script generalizing r with
  | answer a => exact .nil
  | add document next ih => exact (linked_ofAdd r document).append (ih _ _)
  | load scopeName nested next ihnested ih =>
      rw [Registry.run_load]
      refine (linked_ofLoad ?_).append (ih _ _)
      rintro _ ⟨⟩ asked
      exact ihnested () asked

theorem Request.linked_moments (q : Request M) (r : Registry M) :
    Linked r (q.moments r) (q.perform r) := by
  cases q with
  | add document => exact linked_ofAdd r document
  | load scopeName loader =>
      simp only [moments, perform]
      refine linked_ofLoad ?_
      rintro script rfl asked
      exact script.linked_moments asked

theorem Request.linked_allMoments (requests : List (Request M)) (r : Registry M) :
    Linked r (allMoments r requests) (requests.foldl perform r) := by
  induction requests generalizing r with
  | nil => exact .nil
  | cons q rest ih => exact (q.linked_moments r).append (ih (q.perform r))

/-- What may happen at a moment, and what becomes of the registry. -/
inductive Lawful : Moment M → Prop
  | added {r r' : Registry M} {document : Json} {result : Except LoadError (Registered M)} :
      r.add document = (result, r') → Lawful ⟨r, .added document result, r'⟩
  | found {r : Registry M} {scopeName : String} {g : Registered M} :
      r.get? scopeName = some g → Lawful ⟨r, .found scopeName g, r⟩
  | asked {r : Registry M} {scopeName : String} :
      r.get? scopeName = none → Lawful ⟨r, .asked scopeName, r.ask scopeName⟩
  | concluded {r r' : Registry M} {scopeName : String} {a : Answer}
      {result : Except LoadError (Option (Registered M))} :
      r.Concluded scopeName a (result, r') → Lawful ⟨r, .concluded scopeName a result, r'⟩

theorem lawful_ofAdd (r : Registry M) (document : Json) : Lawful (.ofAdd r document) :=
  .added rfl

theorem lawful_ofLoad {r : Registry M} {scopeName : String} {loader : Option (Script M)}
    {inner : Registry M → List (Moment M)} (hinner : ∀ asked, ∀ m ∈ inner asked, Lawful m) :
    ∀ m ∈ Moment.ofLoad r scopeName loader inner, Lawful m := by
  unfold Moment.ofLoad
  rcases hget : r.get? scopeName with _ | g
  · rcases loader with _ | script
    · exact List.forall_mem_singleton.mpr (.concluded (r.conclude_concluded scopeName .nothing))
    · refine List.forall_mem_cons.mpr ⟨.asked hget, List.forall_mem_append.mpr ⟨hinner _, ?_⟩⟩
      exact List.forall_mem_singleton.mpr (.concluded (Registry.conclude_concluded ..))
  · exact List.forall_mem_singleton.mpr (.found hget)

theorem Script.lawful_moments (script : Script M) (r : Registry M) :
    ∀ m ∈ script.moments r, Lawful m := by
  induction script generalizing r with
  | answer a => exact List.forall_mem_nil _
  | add document next ih => exact List.forall_mem_cons.mpr ⟨lawful_ofAdd r document, ih _ _⟩
  | load scopeName nested next ihnested ih =>
      exact List.forall_mem_append.mpr ⟨lawful_ofLoad (ihnested ()), ih _ _⟩

theorem Request.lawful_moments (q : Request M) (r : Registry M) :
    ∀ m ∈ q.moments r, Lawful m := by
  cases q with
  | add document => exact List.forall_mem_singleton.mpr (lawful_ofAdd r document)
  | load scopeName loader =>
      simp only [moments]
      apply lawful_ofLoad
      intro asked
      rcases loader with _ | script
      · exact List.forall_mem_nil _
      · exact script.lawful_moments asked

theorem Request.lawful_allMoments (requests : List (Request M)) (r : Registry M) :
    ∀ m ∈ allMoments r requests, Lawful m := by
  induction requests generalizing r with
  | nil => exact List.forall_mem_nil _
  | cons q rest ih => exact List.forall_mem_append.mpr ⟨q.lawful_moments r, ih (q.perform r)⟩

/-- At a moment nothing comes into the tables, or a grammar that is returned does. -/
theorem Lawful.cases {m : Moment M} (h : Lawful m) :
    (m.happening.asked? = none ∧ m.before.Kept m.after) ∨
      (∃ scopeName, m.before.get? scopeName = none ∧ m.happening = .asked scopeName ∧
        m.after = m.before.ask scopeName) ∨
      ∃ document g, m.happening.document? = some document ∧ m.happening.asked? = none ∧
        m.happening.result = .ok (some g) ∧ m.before.Stored document g m.after := by
  cases h with
  | @added r _ document _ hadded =>
      have hcases := r.add_added document
      rw [hadded] at hcases
      cases hcases with
      | refused => exact .inl ⟨rfl, .refl r⟩
      | known => exact .inl ⟨rfl, .refl r⟩
      | stored hstored => exact .inr (.inr ⟨document, _, rfl, rfl, rfl, hstored⟩)
  | @found r => exact .inl ⟨rfl, .refl r⟩
  | asked hget => exact .inr (.inl ⟨_, hget, rfl, rfl⟩)
  | concluded hconcluded =>
      cases hconcluded with
      | refused hkept => exact .inl ⟨rfl, hkept⟩
      | unknown hkept => exact .inl ⟨rfl, hkept⟩
      | stored _ hstored => exact .inr (.inr ⟨_, _, rfl, rfl, rfl, hstored⟩)

namespace Lawful

variable {m : Moment M}

theorem sound {e : Engine M} {given : Json → Prop} (h : Lawful m)
    (hgiven : ∀ document, m.happening.document? = some document → given document)
    (hsound : m.before.Sound e given) : m.after.Sound e given := by
  rcases h.cases with ⟨-, hkept⟩ | ⟨scopeName, -, -, hask⟩ | ⟨document, g, hdocument, -, -, hstored⟩
  · exact hsound.kept hkept
  · rw [hask]
    exact hsound.ask scopeName
  · exact hsound.stored (hgiven document hdocument) hstored

theorem entry (h : Lawful m) {name : String} (hname : m.after.get? name ≠ m.before.get? name) :
    ∃ g, m.happening.result = .ok (some g) ∧ m.after.get? name = some g := by
  rcases h.cases with ⟨-, hkept⟩ | ⟨scopeName, -, -, hask⟩ | ⟨document, g, -, -, hresult, hstored⟩
  · rw [Registry.get?, Registry.get?, hkept.table] at hname
    exact absurd rfl hname
  · rw [hask] at hname
    exact absurd rfl hname
  · rw [hstored.get?_eq] at hname ⊢
    split at hname
    · exact ⟨g, hresult, if_pos ‹_›⟩
    · exact absurd rfl hname

theorem not_has_of_asked (h : Lawful m) {name : String}
    (hasked : m.happening.asked? = some name) : m.before.has name = false := by
  rcases h.cases with ⟨hnone, -⟩ | ⟨name', hget, hhappening, -⟩ | ⟨_, _, -, hnone, -, -⟩
  · rw [hnone] at hasked
    cases hasked
  · rw [hhappening] at hasked
    cases hasked
    rw [Registry.has, hget]
    rfl
  · rw [hnone] at hasked
    cases hasked

theorem kept_of_error (h : Lawful m) {fault : LoadError}
    (hresult : m.happening.result = .error fault) : m.before.Kept m.after := by
  rcases h.cases with ⟨-, hkept⟩ | ⟨scopeName, -, hasked, -⟩ | ⟨document, g, -, -, hok, -⟩
  · exact hkept
  · rw [hasked] at hresult
    cases hresult
  · rw [hok] at hresult
    cases hresult

theorem has (h : Lawful m) {name : String} (hname : m.before.has name = true) :
    m.after.has name = true := by
  by_cases hsame : m.after.get? name = m.before.get? name
  · rwa [Registry.has, hsame]
  · obtain ⟨g, -, hget⟩ := h.entry hsame
    rw [Registry.has, hget]
    rfl

theorem calls_eq (h : Lawful m) :
    m.after.calls = m.before.calls ++ m.happening.asked?.toList := by
  rcases h.cases with ⟨hasked, hkept⟩ | ⟨scopeName, -, hasked, hask⟩ |
    ⟨document, g, -, hasked, -, hstored⟩
  · rw [hasked, hkept.calls, Option.toList_none, List.append_nil]
  · rw [hasked, hask]
    rfl
  · rw [hasked, hstored.calls, Option.toList_none, List.append_nil]

end Lawful

namespace Linked

variable {r r' : Registry M} {moments : List (Moment M)}

theorem sound {e : Engine M} {given : Json → Prop} (h : Linked r moments r')
    (lawful : ∀ m ∈ moments, Lawful m)
    (hgiven : ∀ m ∈ moments, ∀ document, m.happening.document? = some document → given document)
    (hsound : r.Sound e given) :
    ∀ m ∈ moments, m.before.Sound e given ∧ m.after.Sound e given := by
  induction h with
  | nil => exact List.forall_mem_nil _
  | cons _ ih =>
      obtain ⟨hfirst, hrest⟩ := List.forall_mem_cons.mp lawful
      obtain ⟨hdocument, hdocuments⟩ := List.forall_mem_cons.mp hgiven
      have hafter := hfirst.sound hdocument hsound
      exact List.forall_mem_cons.mpr ⟨⟨hsound, hafter⟩, ih hrest hdocuments hafter⟩

theorem has (h : Linked r moments r') (lawful : ∀ m ∈ moments, Lawful m) {name : String}
    (hname : r.has name = true) : (∀ m ∈ moments, m.after.has name = true) := by
  induction h with
  | nil => exact List.forall_mem_nil _
  | cons _ ih =>
      obtain ⟨hfirst, hrest⟩ := List.forall_mem_cons.mp lawful
      have hafter := hfirst.has hname
      exact List.forall_mem_cons.mpr ⟨hafter, ih hrest hafter⟩

theorem calls_eq (h : Linked r moments r') (lawful : ∀ m ∈ moments, Lawful m) :
    r'.calls = r.calls ++ moments.filterMap fun m => m.happening.asked? := by
  induction h with
  | nil => rw [List.filterMap_nil, List.append_nil]
  | @cons m rest _ _ ih =>
      obtain ⟨hfirst, hrest⟩ := List.forall_mem_cons.mp lawful
      rw [ih hrest, hfirst.calls_eq, List.append_assoc]
      rcases hasked : m.happening.asked? with _ | scopeName
      · simp [hasked]
      · simp [hasked]

theorem split (h : Linked r moments r') {first last : List (Moment M)} {m : Moment M}
    (hmoments : moments = first ++ m :: last) : Linked m.before (m :: last) r' := by
  induction h generalizing first with
  | nil => simp at hmoments
  | cons hrest ih =>
      rcases first with _ | ⟨m', first⟩
      · obtain ⟨rfl, rfl⟩ := List.cons.inj hmoments
        exact .cons hrest
      · exact ih (List.cons.inj hmoments).2

end Linked

def documentsOf (moments : List (Moment M)) : List Json :=
  moments.filterMap fun m => m.happening.document?

open Registry in
/-- What holds of a registry with an engine through all moments of its use. -/
structure Orderly (e : Engine M) (moments : List (Moment M)) : Prop where
  sound : ∀ m ∈ moments, m.after.Sound e (· ∈ documentsOf moments)
  names_stay : ∀ first m last, moments = first ++ m :: last → ∀ name, m.before.has name = true →
    ∀ m' ∈ m :: last, m'.after.has name = true
  /-- The loader is never asked for what is held. -/
  asked : ∀ m ∈ moments, ∀ name, m.happening.asked? = some name → m.before.has name = false
  /-- What is held is given again, by its name and for its document. -/
  held : ∀ m ∈ moments, ∀ name g, m.after.get? name = some g →
    (∀ loader, m.after.load name loader = (.ok (some g), m.after)) ∧
      ∀ document fingerprint, scopeNameOf document = .str name →
        fingerprintOf document = .ok fingerprint →
        m.after.fingerprints.lookup name = some fingerprint →
        m.after.add document = (.ok g, m.after)
  /-- A fingerprint tells the name as well, among the documents that are taken. -/
  known : ∀ m ∈ moments, ∀ document result, m.happening = .added document result →
    ∀ name fingerprint, fingerprintOf document = .ok fingerprint →
      m.before.fingerprints.lookup name = some fingerprint →
      ∃ g, m.before.get? name = some g ∧ result = .ok g ∧ m.after = m.before
  /-- A request that fails changes nothing when it ends. -/
  failed : ∀ m ∈ moments, ∀ fault, m.happening.result = .error fault → m.before.Kept m.after
  /-- An entry is added or replaced only where a request returns it. -/
  entry : ∀ m ∈ moments, ∀ name, m.after.get? name ≠ m.before.get? name →
    ∃ g, m.happening.result = .ok (some g) ∧ m.after.get? name = some g

open Registry

theorem Registry.Sound.held {e : Engine M} {given : Json → Prop} {r : Registry M}
    (h : r.Sound e given) {name : String} {g : Registered M} (hget : r.get? name = some g) :
    (∀ loader, r.load name loader = (.ok (some g), r)) ∧
      ∀ document fingerprint, scopeNameOf document = .str name →
        fingerprintOf document = .ok fingerprint →
        r.fingerprints.lookup name = some fingerprint → r.add document = (.ok g, r) := by
  refine ⟨?_, ?_⟩
  · intro loader
    simp only [load, hget]
  · intro document fingerprint hname hfingerprint hfound
    obtain ⟨g', hg', hknown⟩ := h.known?_eq hname hfound
    rw [hget] at hg'
    cases hg'
    exact add_known hfingerprint hknown

/-- A document that has the fingerprint of a grammar is that of the grammar, if fingerprints tell
documents apart. -/
theorem Lawful.known {m : Moment M} (h : Lawful m) {e : Engine M} {given : Json → Prop}
    (hsound : m.before.Sound e given) {document : Json}
    {result : Except LoadError (Registered M)} (hadded : m.happening = .added document result)
    {name fingerprint : String} (hfingerprint : fingerprintOf document = .ok fingerprint)
    (distinct : ∀ other, given other → fingerprintOf other = .ok fingerprint →
      other.sorted = document.sorted)
    (hfound : m.before.fingerprints.lookup name = some fingerprint) :
    ∃ g, m.before.get? name = some g ∧ result = .ok g ∧ m.after = m.before := by
  obtain ⟨g, hget⟩ := hsound.exists_registered hfound
  obtain ⟨-, other, hgiven, hother, -, fingerprint', hfingerprint', hfound'⟩ :=
    hsound.entry name g hget
  rw [hfound, Option.some.injEq] at hfound'
  rw [← hfound'] at hfingerprint'
  have hname := scopeNameOf_of_sorted_eq (distinct other hgiven hfingerprint') hother
  have hheld := (hsound.held hget).2 document fingerprint hname hfingerprint hfound
  cases h with
  | added heq =>
      cases hadded
      obtain ⟨hresult, hafter⟩ := Prod.mk.inj (hheld.symm.trans heq)
      exact ⟨g, hget, hresult.symm, hafter.symm⟩
  | found => cases hadded
  | asked => cases hadded
  | concluded => cases hadded

/-- Whatever is requested of a registry, and whatever its loader does in between, the tables agree,
hold what they say and lose no name, nothing that is held is loaded again, and what fails leaves no
trace. The moments are those of the run: they lead from the empty registry to the one at the end,
and the loader is called where they say. -/
theorem Request.allMoments_orderly (e : Engine M) (requests : List (Request M))
    (distinct : ∀ document ∈ documentsOf (allMoments (.empty e) requests),
      ∀ other ∈ documentsOf (allMoments (.empty e) requests), ∀ fingerprint,
        fingerprintOf document = .ok fingerprint → fingerprintOf other = .ok fingerprint →
          other.sorted = document.sorted) :
    Linked (.empty e) (allMoments (.empty e) requests) (requests.foldl perform (.empty e)) ∧
      (requests.foldl perform (.empty e)).calls =
        (allMoments (.empty e) requests).filterMap (fun m => m.happening.asked?) ∧
      Orderly e (allMoments (.empty e) requests) := by
  have hlinked := linked_allMoments requests (.empty e)
  have lawful := lawful_allMoments requests (.empty e)
  generalize allMoments (.empty e) requests = moments at distinct hlinked lawful ⊢
  have hdocuments : ∀ m ∈ moments, ∀ document, m.happening.document? = some document →
      document ∈ documentsOf moments :=
    fun m hm document hdocument => List.mem_filterMap.mpr ⟨m, hm, hdocument⟩
  have hsound := hlinked.sound lawful hdocuments (sound_empty e _)
  refine ⟨hlinked, hlinked.calls_eq lawful, ?_, ?_, ?_, ?_, ?_, ?_, ?_⟩
  · exact fun m hm => (hsound m hm).2
  · rintro first m last rfl name hname
    have hlast := (List.forall_mem_append.mp lawful).2
    exact (hlinked.split rfl).has hlast hname
  · exact fun m hm name hasked => (lawful m hm).not_has_of_asked hasked
  · exact fun m hm name g hget => (hsound m hm).2.held hget
  · intro m hm document result hadded name fingerprint hfingerprint hfound
    refine (lawful m hm).known (hsound m hm).1 hadded hfingerprint ?_ hfound
    intro other hother hfingerprint'
    exact distinct document (hdocuments m hm document (by rw [hadded]; rfl)) other hother
      fingerprint hfingerprint hfingerprint'
  · exact fun m hm fault hresult => (lawful m hm).kept_of_error hresult
  · exact fun m hm name hname => (lawful m hm).entry hname

def Request.bareSource (scopeName : String) : Json :=
  .obj [("scopeName", .str scopeName), ("patterns", .arr [])]

def Request.longVersion : Json :=
  .obj [("scopeName", .str "late"), ("patterns", .arr []), ("version", .int (Nat.pow 10 4300))]

/-- A loader that asks for another scope, and adds the document of its own before it gives it; one
that asks for what is held by then, and fails; and documents that are refused for an integer. -/
def Request.sample : List (Request Matcher) := [
  .load "text" (some
    (.load "other" (fun _ => .answer (.document (bareSource "other"))) fun _ =>
      .add (bareSource "text") fun _ => .answer (.document (bareSource "text")))),
  .load "missing" (some
    (.load "text" (fun _ => .answer .nothing) fun _ => .answer (.fails "unreadable"))),
  .load "late" (some (.answer (.document longVersion))),
  .add (bareSource "text"),
  .add longVersion]

theorem Request.allMoments_orderly_sample :
    Orderly Grammar.sampleEngine (allMoments (.empty Grammar.sampleEngine) sample) ∧
      (allMoments (.empty Grammar.sampleEngine) sample).filterMap (fun m => m.happening.asked?) =
        ["text", "other", "missing", "late"] ∧
      (sample.foldl perform (.empty Grammar.sampleEngine)).names = ["other", "text"] := by
  have hdocuments : documentsOf (allMoments (.empty Grammar.sampleEngine) sample) =
      [bareSource "other", bareSource "text", bareSource "text", longVersion,
        bareSource "text", longVersion] := by
    rfl
  have hunwritable : fingerprintOf longVersion = .error .unwritable :=
    if_neg (by decide +kernel)
  have hne : fingerprintOf (bareSource "other") ≠ fingerprintOf (bareSource "text") := by
    decide +kernel
  have distinct : ∀ document ∈ documentsOf (allMoments (.empty Grammar.sampleEngine) sample),
      ∀ other ∈ documentsOf (allMoments (.empty Grammar.sampleEngine) sample), ∀ fingerprint,
        fingerprintOf document = .ok fingerprint → fingerprintOf other = .ok fingerprint →
          other.sorted = document.sorted := by
    intro document hdocument other hother fingerprint h h'
    rw [hdocuments] at hdocument hother
    simp only [List.mem_cons, List.not_mem_nil, or_false] at hdocument hother
    have htext : document = other := by grind
    rw [htext]
  obtain ⟨-, hcalls, horderly⟩ := allMoments_orderly Grammar.sampleEngine sample distinct
  have hend : (sample.foldl perform (.empty Grammar.sampleEngine)).calls =
        ["text", "other", "missing", "late"] ∧
      (sample.foldl perform (.empty Grammar.sampleEngine)).names = ["other", "text"] := by
    decide +kernel
  exact ⟨horderly, hcalls ▸ hend.1, hend.2⟩

end LineScope
