import LineScope.Snapshot
import LineScope.Proofs.Json.Canonical
import LineScope.Proofs.Scan.Tiling

/-!
What a snapshot tells of its tokens: everything. The text of a snapshot reads back to its document,
in every layout, and the tokens can be taken from the document, whatever the order of its members.
-/

namespace LineScope

variable {M : Type}

namespace Json

def items? {α : Type} (f : Json → Option α) : Json → Option (List α)
  | .arr items => items.mapM f
  | _ => none

def member? {α : Type} (key : String) (f : Json → Option α) : Json → Option α
  | .obj members => (Members.get? members key).bind f
  | _ => none

namespace Reordered

theorem int?_eq {j j' : Json} (h : Reordered j j') : j.int? = j'.int? := by
  cases h with
  | atom => rfl
  | arr => rfl
  | obj => rfl

theorem items?_eq {α : Type} {f : Json → Option α}
    (hf : ∀ {v v' : Json}, Reordered v v' → f v = f v') {j j' : Json} (h : Reordered j j') :
    items? f j = items? f j' := by
  cases h with
  | atom => rfl
  | obj => rfl
  | @arr items items' hlength hitems =>
      have hmap : items.map f = items'.map f := by
        refine List.ext_getElem (by simpa using hlength) fun i hi hi' => ?_
        rw [List.getElem_map, List.getElem_map]
        rw [List.length_map] at hi hi'
        exact hf (hitems i _ _ (List.getElem?_eq_getElem hi) (List.getElem?_eq_getElem hi'))
      have htake : ∀ vs : List Json, items? f (.arr vs) = (vs.map f).mapM id := by
        intro vs
        rw [List.mapM_map]
        rfl
      rw [htake, htake, hmap]

theorem member?_eq {α : Type} {f : Json → Option α}
    (hf : ∀ {v v' : Json}, Reordered v v' → f v = f v') (key : String) {j j' : Json}
    (h : Reordered j j') : member? key f j = member? key f j' := by
  cases h with
  | atom => rfl
  | arr => rfl
  | @obj members members' hnodup hkeys hvalues =>
      have hrel := (Reordered.obj hnodup hkeys hvalues).get? key
      change (members.get? key).bind f = (members'.get? key).bind f
      generalize members.get? key = value, members'.get? key = value' at hrel ⊢
      cases hrel with
      | none => rfl
      | some h => exact hf h

end Reordered

theorem items?_map {α β : Type} {f : Json → Option α} {g : β → Json} {r : β → α}
    (h : ∀ b, f (g b) = some (r b)) (bs : List β) :
    items? f (.arr (bs.map g)) = some (bs.map r) := by
  have hcomp : f ∘ g = fun b => pure (r b) := funext h
  rw [items?, List.mapM_map, hcomp, List.mapM_pure]
  rfl

end Json

namespace Token

/-- Offsets that can be read from their digits. -/
structure Readable (t : Token) : Prop where
  start : (Nat.toDigits 10 t.start.natAbs).length ≤ Text.digitLimit
  stop : (Nat.toDigits 10 t.stop.natAbs).length ≤ Text.digitLimit

def ofJson? (j : Json) : Option Token := do
  let start ← j.member? "start" Json.int?
  let stop ← j.member? "end" Json.int?
  let scopes ← j.member? "scopes" (Json.items? Json.str?)
  return ⟨start, stop, scopes⟩

theorem ofJson?_toJson (line : Option Text) (t : Token) : ofJson? (t.toJson line) = some t := by
  have hstart : (t.toJson line).member? "start" Json.int? = some t.start := by
    cases line <;> rfl
  have hstop : (t.toJson line).member? "end" Json.int? = some t.stop := by
    cases line <;> rfl
  have hscopes : (t.toJson line).member? "scopes" (Json.items? Json.str?) = some t.scopes := by
    have hitems : Json.items? Json.str? (.arr (t.scopes.map .str)) = some (t.scopes.map id) :=
      Json.items?_map (f := Json.str?) (g := .str) (r := id) (fun _ => rfl) t.scopes
    rw [List.map_id] at hitems
    cases line with
    | none => exact hitems
    | some line => exact hitems
  rw [ofJson?, hstart, hstop, hscopes]
  rfl

theorem ofJson?_eq {j j' : Json} (h : Json.Reordered j j') : ofJson? j = ofJson? j' := by
  rw [ofJson?, ofJson?, h.member?_eq Json.Reordered.int?_eq "start",
    h.member?_eq Json.Reordered.int?_eq "end",
    h.member?_eq (Json.Reordered.items?_eq Json.Reordered.str?_eq) "scopes"]

theorem exists_members (line : Option Text) (t : Token) {p : Json → Prop}
    (hstart : p (.int t.start)) (hstop : p (.int t.stop))
    (hscopes : p (.arr (t.scopes.map .str))) (htext : ∀ s, p (.str s)) :
    ∃ members, t.toJson line = .obj members ∧ (members.map Prod.fst).Nodup ∧
      ∀ m ∈ members, p m.2 := by
  cases line with
  | none =>
      refine ⟨_, rfl, by simp, ?_⟩
      simp [hstart, hstop, hscopes]
  | some line =>
      refine ⟨_, rfl, by simp, ?_⟩
      simp [hstart, hstop, hscopes, htext]

theorem toJson_exact (line : Option Text) {t : Token} (ht : t.Readable) :
    (t.toJson line).Exact := by
  have hscopes : (Json.arr (t.scopes.map .str)).Exact := by
    refine .arr fun v hv => ?_
    obtain ⟨s, -, rfl⟩ := List.mem_map.mp hv
    exact .str s
  obtain ⟨members, hjson, hnodup, hmembers⟩ :=
    t.exists_members line (.int ht.start) (.int ht.stop) hscopes .str
  exact hjson ▸ .obj hnodup hmembers

theorem toJson_reordered (line : Option Text) (t : Token) :
    Json.Reordered (t.toJson line) (t.toJson line) := by
  have hscopes : Json.Reordered (.arr (t.scopes.map .str)) (.arr (t.scopes.map .str)) := by
    refine .arr_self fun v hv => ?_
    obtain ⟨s, -, rfl⟩ := List.mem_map.mp hv
    exact .atom trivial
  obtain ⟨members, hjson, hnodup, hmembers⟩ := t.exists_members (p := fun v => v.Reordered v) line
    (.atom trivial) (.atom trivial) hscopes fun s => .atom trivial
  exact hjson ▸ .obj_perm hnodup (.refl _) hmembers

end Token

namespace Snapshot

def tokens? : Json → Option (List Token) := Json.items? Token.ofJson?

def texts? : Json → Option (List String) := Json.items? (Json.member? "text" Json.str?)

variable {line : Option Text} {ts : List Token}

theorem tokens_exact (line : Option Text) (hts : ∀ t ∈ ts, t.Readable) :
    (tokens line ts).Exact := by
  refine .arr fun v hv => ?_
  obtain ⟨t, ht, rfl⟩ := List.mem_map.mp hv
  exact t.toJson_exact line (hts t ht)

theorem tokens_reordered (line : Option Text) (ts : List Token) :
    Json.Reordered (tokens line ts) (tokens line ts) := by
  refine .arr_self fun v hv => ?_
  obtain ⟨t, -, rfl⟩ := List.mem_map.mp hv
  exact t.toJson_reordered line

theorem tokens?_of_reordered {v : Json} (h : Json.Reordered (tokens line ts) v) :
    tokens? v = some ts := by
  have htokens : tokens? (tokens line ts) = some (ts.map id) :=
    Json.items?_map (Token.ofJson?_toJson line) ts
  rw [tokens?, ← h.items?_eq Token.ofJson?_eq, ← tokens?, htokens, List.map_id]

theorem texts?_of_reordered {l : Text} {v : Json} (h : Json.Reordered (tokens (some l) ts) v) :
    texts? v = some (ts.map fun t => (t.text l).toString) := by
  have hmember : ∀ {v v' : Json}, Json.Reordered v v' →
      v.member? "text" Json.str? = v'.member? "text" Json.str? :=
    Json.Reordered.member?_eq Json.Reordered.str?_eq "text"
  rw [texts?, ← h.items?_eq hmember]
  refine Json.items?_map (fun t => ?_) ts
  rfl

theorem ofChars_tokensText (hts : ∀ t ∈ ts, t.Readable) (line : Option Text) (indent : Option Int) :
    Json.ofChars (tokensText line indent ts).toList = .ok (tokens line ts).sorted :=
  Json.ofChars_print (tokens_exact line hts) indent

theorem eq_of_tokensText_eq {ts' : List Token} (hts : ∀ t ∈ ts, t.Readable)
    (hts' : ∀ t ∈ ts', t.Readable) {indent : Option Int}
    (h : tokensText line indent ts = tokensText line indent ts') : ts = ts' := by
  have hread := ofChars_tokensText hts' line indent
  rw [← h, ofChars_tokensText hts line indent] at hread
  have hsorted : (tokens line ts).sorted = (tokens line ts').sorted := Except.ok.inj hread
  have htokens := tokens?_of_reordered (tokens_exact line hts).reordered_sorted
  rw [hsorted, tokens?_of_reordered (tokens_exact line hts').reordered_sorted] at htokens
  exact (Option.some.inj htokens).symm

theorem join_texts {g : Grammar M} (bounded : g.engine.InBounds) {limits : Limits} {l : Text}
    {stack : Stack M} {r : LineResult M} (h : (g.tokenizeLine limits l stack).result = .ok r) :
    String.join (r.tokens.map fun t => (t.text l).toString) = l.toString := by
  have htext := (Grammar.tokenizeLine_covered bounded h).tiles.text
  rw [List.reverse_reverse] at htext
  rw [← String.toList_inj, String.toList_join, List.flatMap_map]
  simpa [Text.toString] using htext

/-- Snapshots lose nothing. Their document gives the tokens, whatever the order of its members;
their text reads back to the document, up to that order; so no two token lists have one text. The
texts given for the tokens of a line make up the line. -/
theorem tokensText_lossless (line : Option Text) (indent : Option Int) (ts : List Token) :
    (Json.Reordered (tokens line ts) (tokens line ts) ∧
      ∀ v, Json.Reordered (tokens line ts) v → tokens? v = some ts) ∧
    ((∀ t ∈ ts, t.Readable) →
      Json.ofChars (tokensText line indent ts).toList = .ok (tokens line ts).sorted ∧
      Json.Reordered (tokens line ts) (tokens line ts).sorted ∧
      ∀ ts', (∀ t ∈ ts', t.Readable) →
        (tokensText line indent ts = tokensText line indent ts' ↔ ts = ts')) ∧
    ∀ (M : Type) (g : Grammar M) (limits : Limits) (l : Text) (stack : Stack M)
      (r : LineResult M), g.engine.InBounds → (g.tokenizeLine limits l stack).result = .ok r →
      line = some l → ts = r.tokens → ∀ v, Json.Reordered (tokens line ts) v →
        ∃ texts, texts? v = some texts ∧ String.join texts = l.toString := by
  refine ⟨⟨tokens_reordered line ts, fun v => tokens?_of_reordered⟩, fun hts => ⟨?_, ?_, ?_⟩, ?_⟩
  · exact ofChars_tokensText hts line indent
  · exact (tokens_exact line hts).reordered_sorted
  · exact fun ts' hts' => ⟨eq_of_tokensText_eq hts hts', fun h => h ▸ rfl⟩
  · rintro M g limits l stack r bounded hresult rfl rfl v hv
    exact ⟨_, texts?_of_reordered hv, join_texts bounded hresult⟩

theorem tokensText_lossless_sample :
    let line := Text.ofString "cat <b <> <"
    let ts : List Token := [⟨-1, 300, []⟩, ⟨2, 0, ["é", "\n"]⟩]
    Json.ofChars (tokensText (some line) (some (-2)) ts).toList =
        .ok (tokens (some line) ts).sorted ∧
      tokens? (tokens (some line) ts).sorted = some ts ∧
      tokensText (some line) (some (-2)) ts ≠ tokensText (some line) (some (-2)) ts.reverse ∧
      ∃ r, (Grammar.sample.tokenizeLine .default line .initial).result = .ok r ∧
        ∃ texts, texts? (tokens (some line) r.tokens) = some texts ∧
          String.join texts = line.toString := by
  intro line ts
  have hts : ∀ t ∈ ts, t.Readable := by
    refine List.forall_mem_cons.mpr ⟨⟨by decide, by decide⟩, List.forall_mem_singleton.mpr ?_⟩
    exact ⟨by decide, by decide⟩
  have hok : (Grammar.sample.tokenizeLine .default line .initial).result.isOk = true := by
    decide +kernel
  obtain ⟨⟨-, htokens⟩, htext, -⟩ := tokensText_lossless (some line) (some (-2)) ts
  obtain ⟨hread, hsorted, heq⟩ := htext hts
  refine ⟨hread, htokens _ hsorted, ?_, ?_⟩
  · have hdiffer : ts ≠ ts.reverse := by decide
    intro h
    exact hdiffer ((heq ts.reverse fun t ht => hts t (List.mem_reverse.mp ht)).mp h)
  · rcases hresult : (Grammar.sample.tokenizeLine .default line .initial).result with fault | r
    · rw [hresult] at hok
      cases hok
    · obtain ⟨⟨hself, -⟩, -, hline⟩ := tokensText_lossless (some line) none r.tokens
      exact ⟨r, rfl, hline _ _ _ line _ r (Engine.plain_inBounds _ _) hresult rfl rfl _ hself⟩

end Snapshot

end LineScope
