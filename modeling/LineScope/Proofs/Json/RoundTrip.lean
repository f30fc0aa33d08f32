import Mathlib.Data.List.Nodup
import LineScope.Proofs.Json.Scalar

/-!
Reading what was written: a document without floats, whose numbers are short enough to be read and
whose objects have distinct names, comes back from its text in every layout that adds only spaces.
-/

namespace LineScope.Json

/-- Documents that their texts tell in full: no floats, no numbers too long to be read, and no two
members with one name. -/
inductive Exact : Json → Prop
  | null : Exact .null
  | bool (b : Bool) : Exact (.bool b)
  | int {n : Int} : (Nat.toDigits 10 n.natAbs).length ≤ Text.digitLimit → Exact (.int n)
  | str (s : String) : Exact (.str s)
  | arr {items : List Json} : (∀ v ∈ items, Exact v) → Exact (.arr items)
  | obj {members : Members} : (members.map Prod.fst).Nodup → (∀ m ∈ members, Exact m.2) →
      Exact (.obj members)

def IsSeparator (mark : Char) (text : List Char) : Prop :=
  ∃ spaces, text = mark :: spaces ∧ ∀ c ∈ spaces, Input.isSpace c = true

/-- A layout that adds only spaces. -/
structure Layout.Legible (l : Layout) : Prop where
  afterItem : IsSeparator ',' l.afterItem
  afterName : IsSeparator ':' l.afterName

namespace Layout

theorem isSeparator_singleton (mark : Char) : IsSeparator mark [mark] :=
  ⟨[], rfl, List.forall_mem_nil _⟩

theorem isSeparator_space (mark : Char) : IsSeparator mark [mark, ' '] :=
  ⟨[' '], rfl, List.forall_mem_singleton.mpr rfl⟩

theorem legible_compact : compact.Legible :=
  ⟨isSeparator_singleton ',', isSeparator_singleton ':'⟩

theorem legible_spaced : spaced.Legible :=
  ⟨isSeparator_space ',', isSeparator_space ':'⟩

theorem legible_indented (width : Nat) : (indented width).Legible :=
  ⟨isSeparator_singleton ',', isSeparator_space ':'⟩

theorem isSpace_of_mem_lineBreak {l : Layout} {level : Nat} {c : Char}
    (h : c ∈ l.lineBreak level) : Input.isSpace c = true := by
  unfold lineBreak at h
  split at h
  · rcases List.mem_cons.mp h with rfl | h
    · rfl
    · rw [List.eq_of_mem_replicate h]
      rfl
  · cases h

end Layout

def NoSpace (rest : List Char) : Prop := ∀ c ∈ rest.head?, Input.isSpace c = false

theorem noSpace_cons {c : Char} (rest : List Char) (h : Input.isSpace c = false) :
    NoSpace (c :: rest) := by
  intro x hx
  cases hx
  exact h

theorem skipSpace_append (pos : Nat) {spaces rest : List Char}
    (hspaces : ∀ c ∈ spaces, Input.isSpace c = true) (hrest : NoSpace rest) :
    Input.skipSpace ⟨pos, spaces ++ rest⟩ = ⟨pos + spaces.length, rest⟩ := by
  have htake := takeWhile_append_of_head? hspaces hrest
  rw [Input.skipSpace, htake, Input.drop, List.drop_left]

theorem skipSpace_eq (pos : Nat) {rest : List Char} (hrest : NoSpace rest) :
    Input.skipSpace ⟨pos, rest⟩ = ⟨pos, rest⟩ :=
  skipSpace_append pos (List.forall_mem_nil _) hrest

theorem Layout.skipSpace_lineBreak (l : Layout) (level pos : Nat) {rest : List Char}
    (hrest : NoSpace rest) : Input.skipSpace ⟨pos, l.lineBreak level ++ rest⟩ =
      ⟨pos + (l.lineBreak level).length, rest⟩ :=
  skipSpace_append pos (fun _ => isSpace_of_mem_lineBreak) hrest

theorem endsNumber_append {spaces rest : List Char}
    (hspaces : ∀ c ∈ spaces, Input.isSpace c = true) (hrest : EndsNumber rest) :
    EndsNumber (spaces ++ rest) := by
  rcases spaces with _ | ⟨c, spaces⟩
  · exact hrest
  · have hc := hspaces c List.mem_cons_self
    simp only [Input.isSpace, Bool.or_eq_true, beq_iff_eq] at hc
    intro x hx
    cases hx
    rcases hc with ((rfl | rfl) | rfl) | rfl <;> decide

theorem drop_one (pos : Nat) (c : Char) (rest : List Char) :
    Input.drop ⟨pos, c :: rest⟩ 1 = ⟨pos + 1, rest⟩ := rfl

namespace Layout

variable {l : Layout}

def tail (l : Layout) (level : Nat) (closing : Char) (texts : List (List Char)) : List Char :=
  texts.flatMap (fun item => l.afterItem ++ l.lineBreak (level + 1) ++ item) ++
    l.lineBreak level ++ [closing]

theorem enclose_cons (l : Layout) (level : Nat) (opening closing : Char) (first : List Char)
    (texts : List (List Char)) :
    l.enclose level opening closing (first :: texts) =
      opening :: (l.lineBreak (level + 1) ++ (first ++ l.tail level closing texts)) := by
  simp [enclose, tail]

theorem tail_nil (l : Layout) (level : Nat) (closing : Char) (rest : List Char) :
    l.tail level closing [] ++ rest = l.lineBreak level ++ closing :: rest := by
  simp [tail]

theorem Legible.tail_cons (h : l.Legible) (level : Nat) (closing : Char) (item : List Char)
    (texts : List (List Char)) : ∃ spaces, (∀ c ∈ spaces, Input.isSpace c = true) ∧
      l.tail level closing (item :: texts) =
        ',' :: (spaces ++ (item ++ l.tail level closing texts)) := by
  obtain ⟨spaces, htext, hspaces⟩ := h.afterItem
  refine ⟨spaces ++ l.lineBreak (level + 1), fun c hc => ?_, by simp [tail, htext]⟩
  rcases List.mem_append.mp hc with hc | hc
  · exact hspaces c hc
  · exact isSpace_of_mem_lineBreak hc

theorem Legible.endsNumber_tail (h : l.Legible) (level : Nat) {closing : Char}
    (hclosing : EndsNumber [closing]) (texts : List (List Char)) (rest : List Char) :
    EndsNumber (l.tail level closing texts ++ rest) := by
  rcases texts with _ | ⟨item, texts⟩
  · rw [tail_nil]
    refine endsNumber_append (fun _ => isSpace_of_mem_lineBreak) ?_
    exact endsNumber_cons rest (hclosing closing rfl)
  · obtain ⟨spaces, -, htext⟩ := h.tail_cons level closing item texts
    rw [htext]
    exact endsNumber_cons _ (by decide)

end Layout

def BeginsNumber (cs : List Char) : Prop :=
  ∃ c more, c.isDigit = true ∧ (cs = c :: more ∨ cs = '-' :: c :: more)

theorem beginsNumber_intText (n : Int) (rest : List Char) : BeginsNumber (intText n ++ rest) := by
  obtain ⟨c, more, hc, hdigits⟩ := toDigits_eq_cons n.natAbs
  refine ⟨c, more ++ rest, hc, ?_⟩
  unfold intText
  split
  · exact .inr (by rw [hdigits, List.cons_append, List.cons_append])
  · exact .inl (by rw [hdigits, List.cons_append])

theorem word?_eq_none {cs : List Char} (h : BeginsNumber cs) (pos : Nat) :
    word? ⟨pos, cs⟩ = none := by
  obtain ⟨c, more, hc, hcs⟩ := h
  have hletter : ∀ d : Char, d.isDigit = false → d ≠ c := fun d hd => (ne_of_isDigit hc hd).symm
  rw [word?, Option.map_eq_none_iff, List.find?_eq_none]
  rcases hcs with rfl | rfl <;> simp [words, hletter]

theorem value_eq_number {cs : List Char} (h : BeginsNumber cs) (fuel pos : Nat) :
    value (fuel + 1) ⟨pos, cs⟩ = number ⟨pos, cs⟩ := by
  have hword := word?_eq_none h pos
  have hfirst : ∀ x tail, cs = x :: tail → x.isDigit = true ∨ x = '-' := by
    obtain ⟨c, more, hc, hcs⟩ := h
    intro x tail hx
    rcases hcs with rfl | rfl
    · cases hx
      exact .inl hc
    · cases hx
      exact .inr rfl
  rw [value.eq_def]
  simp only [hword]
  split
  case h_4 => rfl
  all_goals exact absurd (hfirst _ _ rfl) (by decide)

theorem value_quote (s : String) (fuel pos : Nat) (rest : List Char) :
    Reads (value (fuel + 1) ⟨pos, quote s ++ rest⟩) (.str s) rest := by
  obtain ⟨pos', hread⟩ := string_quote s pos rest
  refine ⟨pos', ?_⟩
  rw [quote, List.cons_append, List.cons_append] at hread ⊢
  simp only [value, hread]
  rfl

theorem exists_head?_write {v : Json} (hv : v.Exact) (l : Layout) (level : Nat)
    (rest : List Char) : ∃ c, (write l level v ++ rest).head? = some c ∧
      Input.isSpace c = false ∧ c ≠ ']' ∧ c ≠ '\uFEFF' := by
  cases hv with
  | null => exact ⟨'n', rfl, by decide⟩
  | bool b =>
      cases b with
      | true => exact ⟨'t', rfl, by decide⟩
      | false => exact ⟨'f', rfl, by decide⟩
  | @int n _ =>
      obtain ⟨c, more, hc, hcs⟩ := beginsNumber_intText n rest
      have hne : ∀ d : Char, d.isDigit = false → c ≠ d := fun d hd => ne_of_isDigit hc hd
      have hdigit : Input.isSpace c = false ∧ c ≠ ']' ∧ c ≠ '\uFEFF' := by
        simp [Input.isSpace, hne]
      rw [write]
      rcases hcs with hcs | hcs
      · exact ⟨c, by rw [hcs, List.head?_cons], hdigit⟩
      · exact ⟨'-', by rw [hcs, List.head?_cons], by decide⟩
  | str s => exact ⟨'"', rfl, by decide⟩
  | @arr items _ =>
      refine ⟨'[', ?_, by decide⟩
      rw [write]
      rcases writeItems l (level + 1) items with _ | ⟨first, texts⟩ <;> rfl
  | @obj members _ _ =>
      refine ⟨'\x7b', ?_, by decide⟩
      rw [write]
      rcases writeMembers l (level + 1) members with _ | ⟨first, texts⟩ <;> rfl

theorem noSpace_write {v : Json} (hv : v.Exact) (l : Layout) (level : Nat) (rest : List Char) :
    NoSpace (write l level v ++ rest) := by
  obtain ⟨c, hhead, hc, -⟩ := exists_head?_write hv l level rest
  intro x hx
  rw [hhead, Option.mem_some_iff] at hx
  exact hx ▸ hc

theorem noSpace_quote (s : String) (after text rest : List Char) :
    NoSpace (quote s ++ after ++ text ++ rest) :=
  noSpace_cons _ rfl

section Nested

variable {l : Layout} {level : Nat}

/-- Whether a document is read from its text. The fuel allows for two calls at every character that
is left: one for an item, and one for the value that the item is. -/
def ReadsBack (l : Layout) (level : Nat) (v : Json) : Prop :=
  ∀ (fuel pos : Nat) (rest : List Char), EndsNumber rest →
    2 * (write l level v ++ rest).length ≤ fuel →
    Reads (value fuel ⟨pos, write l level v ++ rest⟩) v rest

theorem items_of_close {fuel pos : Nat} {i j : Input} {v : Json} {rest : List Char}
    (before : List Json) (hread : value fuel i = .ok (v, j))
    (hskip : j.skipSpace = ⟨pos, ']' :: rest⟩) :
    items (fuel + 1) before i = .ok (.arr (v :: before).reverse, ⟨pos + 1, rest⟩) := by
  rw [items, hread]
  simp only [bind, Except.bind, hskip]
  rfl

theorem items_of_comma {fuel pos : Nat} {i j : Input} {v : Json} {more : List Char}
    (before : List Json) (hread : value fuel i = .ok (v, j))
    (hskip : j.skipSpace = ⟨pos, ',' :: more⟩) :
    items (fuel + 1) before i = items fuel (v :: before) (Input.skipSpace ⟨pos + 1, more⟩) := by
  rw [items, hread]
  simp only [bind, Except.bind, hskip]
  rfl

theorem endsNumber_bracket : EndsNumber [']'] := endsNumber_cons [] (by decide)

theorem endsNumber_brace : EndsNumber ['\x7d'] := endsNumber_cons [] (by decide)

theorem items_write (hl : l.Legible) {v : Json} {vs : List Json} (before : List Json)
    (fuel pos : Nat) (rest : List Char)
    (hitems : ∀ w ∈ v :: vs, w.Exact ∧ ReadsBack l (level + 1) w)
    (hfuel : 2 * (write l (level + 1) v ++
      (l.tail level ']' (writeItems l (level + 1) vs) ++ rest)).length < fuel) :
    Reads (items fuel before ⟨pos, write l (level + 1) v ++
        (l.tail level ']' (writeItems l (level + 1) vs) ++ rest)⟩)
      (.arr (before.reverse ++ v :: vs)) rest := by
  induction vs generalizing v before fuel pos with
  | nil =>
      obtain ⟨fuel, rfl⟩ : ∃ k, fuel = k + 1 := ⟨fuel - 1, by omega⟩
      have hend := hl.endsNumber_tail level endsNumber_bracket (writeItems l (level + 1) []) rest
      obtain ⟨pos', hread⟩ := (hitems v List.mem_cons_self).2 fuel pos _ hend (by omega)
      have hskip := l.skipSpace_lineBreak level pos' (noSpace_cons (c := ']') rest rfl)
      rw [writeItems, Layout.tail_nil] at hread ⊢
      exact ⟨_, by rw [items_of_close before hread hskip, List.reverse_cons]⟩
  | cons w vs ih =>
      obtain ⟨fuel, rfl⟩ : ∃ k, fuel = k + 1 := ⟨fuel - 1, by omega⟩
      have hend := hl.endsNumber_tail level endsNumber_bracket (writeItems l (level + 1) (w :: vs))
        rest
      obtain ⟨pos', hread⟩ := (hitems v List.mem_cons_self).2 fuel pos _ hend (by omega)
      simp only [writeItems] at hfuel hread ⊢
      obtain ⟨spaces, hspaces, htail⟩ := hl.tail_cons level ']' (write l (level + 1) w)
        (writeItems l (level + 1) vs)
      rw [htail, List.cons_append, List.append_assoc, List.append_assoc] at hfuel hread ⊢
      have hitems' := fun x hx => hitems x (List.mem_cons_of_mem v hx)
      -- the reader skips to the next item, where the induction hypothesis takes over
      have hskip := skipSpace_append (pos' + 1) hspaces
        (noSpace_write (hitems' w List.mem_cons_self).1 l (level + 1)
          (l.tail level ']' (writeItems l (level + 1) vs) ++ rest))
      obtain ⟨pos'', hrest⟩ := ih (v :: before) fuel (pos' + 1 + spaces.length) hitems'
        (by simp only [List.length_append, List.length_cons] at hfuel ⊢; omega)
      rw [items_of_comma before hread (skipSpace_eq pos' (noSpace_cons _ rfl)), hskip]
      exact ⟨pos'', by rw [hrest, List.reverse_cons, List.append_assoc, List.singleton_append]⟩

def ReadsMember (fuel : Nat) (i : Input) (name : String) (v : Json) (left : Input) : Prop :=
  ∃ after more j pos, i.rest = '"' :: after ∧ string i = .ok (name, j) ∧
    j.skipSpace = ⟨pos, ':' :: more⟩ ∧ value fuel (Input.skipSpace ⟨pos + 1, more⟩) = .ok (v, left)

theorem members_of_close {fuel pos : Nat} {i left : Input} {name : String} {v : Json}
    {rest : List Char} (before : Members) (hread : ReadsMember fuel i name v left)
    (hskip : left.skipSpace = ⟨pos, '\x7d' :: rest⟩) :
    members (fuel + 1) before i = .ok (.obj (before.set name v), ⟨pos + 1, rest⟩) := by
  obtain ⟨after, more, j, pos', hquote, hname, hcolon, hvalue⟩ := hread
  simp only [members, hquote, hname, bind, Except.bind, hcolon]
  rw [drop_one, hvalue]
  simp only [hskip]
  rfl

theorem members_of_comma {fuel pos : Nat} {i left : Input} {name : String} {v : Json}
    {more : List Char} (before : Members) (hread : ReadsMember fuel i name v left)
    (hskip : left.skipSpace = ⟨pos, ',' :: more⟩) :
    members (fuel + 1) before i =
      members fuel (before.set name v) (Input.skipSpace ⟨pos + 1, more⟩) := by
  obtain ⟨after, more', j, pos', hquote, hname, hcolon, hvalue⟩ := hread
  simp only [members, hquote, hname, bind, Except.bind, hcolon]
  rw [drop_one, hvalue]
  simp only [hskip]
  rfl

theorem readsMember_write (hl : l.Legible) (name : String) {v : Json}
    (hv : v.Exact ∧ ReadsBack l level v) (fuel pos : Nat) {rest : List Char}
    (hrest : EndsNumber rest)
    (hfuel : 2 * (quote name ++ l.afterName ++ write l level v ++ rest).length ≤ fuel) :
    ∃ pos', ReadsMember fuel ⟨pos, quote name ++ l.afterName ++ write l level v ++ rest⟩ name v
      ⟨pos', rest⟩ := by
  obtain ⟨spaces, hcolon, hspaces⟩ := hl.afterName
  have htext : quote name ++ l.afterName ++ write l level v ++ rest =
      quote name ++ (':' :: (spaces ++ (write l level v ++ rest))) := by
    simp [hcolon]
  rw [htext] at hfuel ⊢
  obtain ⟨pos₁, hname⟩ := string_quote name pos (':' :: (spaces ++ (write l level v ++ rest)))
  obtain ⟨pos₂, hvalue⟩ := hv.2 fuel (pos₁ + 1 + spaces.length) rest hrest
    (by simp only [List.length_append, List.length_cons] at hfuel ⊢; omega)
  refine ⟨pos₂, _, _, _, pos₁, rfl, hname, skipSpace_eq _ (noSpace_cons _ rfl), ?_⟩
  rw [skipSpace_append _ hspaces (noSpace_write hv.1 l level rest), hvalue]

theorem Members.set_of_nodup {before ms : Members} {name : String} {v : Json}
    (h : ((before ++ (name, v) :: ms).map Prod.fst).Nodup) :
    before.set name v = before ++ [(name, v)] := by
  rw [List.map_append, List.map_cons, List.nodup_middle] at h
  have hfree : before.has name = false := by
    rw [Members.has, List.any_eq_false]
    rintro m hm heq
    refine (List.nodup_cons.mp h).1 (List.mem_append_left _ ?_)
    exact List.mem_map.mpr ⟨m, hm, beq_iff_eq.mp heq⟩
  rw [Members.set, hfree, if_neg Bool.false_ne_true]

theorem members_write (hl : l.Legible) {name : String} {v : Json} {ms : Members}
    (before : Members) (fuel pos : Nat) (rest : List Char)
    (hnodup : ((before ++ (name, v) :: ms).map Prod.fst).Nodup)
    (hmembers : ∀ m ∈ (name, v) :: ms, m.2.Exact ∧ ReadsBack l (level + 1) m.2)
    (hfuel : 2 * (quote name ++ l.afterName ++ write l (level + 1) v ++
      (l.tail level '\x7d' (writeMembers l (level + 1) ms) ++ rest)).length < fuel) :
    Reads (members fuel before ⟨pos, quote name ++ l.afterName ++ write l (level + 1) v ++
        (l.tail level '\x7d' (writeMembers l (level + 1) ms) ++ rest)⟩)
      (.obj (before ++ (name, v) :: ms)) rest := by
  induction ms generalizing name v before fuel pos with
  | nil =>
      obtain ⟨fuel, rfl⟩ : ∃ k, fuel = k + 1 := ⟨fuel - 1, by omega⟩
      have hend := hl.endsNumber_tail level endsNumber_brace (writeMembers l (level + 1) []) rest
      have hv : v.Exact ∧ ReadsBack l (level + 1) v := hmembers (name, v) List.mem_cons_self
      obtain ⟨pos', hread⟩ := readsMember_write hl name hv fuel pos hend (by omega)
      have hskip := l.skipSpace_lineBreak level pos' (noSpace_cons (c := '\x7d') rest rfl)
      rw [writeMembers, Layout.tail_nil] at hread ⊢
      exact ⟨_, by rw [members_of_close before hread hskip, Members.set_of_nodup hnodup]⟩
  | cons m ms ih =>
      obtain ⟨fuel, rfl⟩ : ∃ k, fuel = k + 1 := ⟨fuel - 1, by omega⟩
      have hend := hl.endsNumber_tail level endsNumber_brace (writeMembers l (level + 1) (m :: ms))
        rest
      have hv : v.Exact ∧ ReadsBack l (level + 1) v := hmembers (name, v) List.mem_cons_self
      obtain ⟨pos', hread⟩ := readsMember_write hl name hv fuel pos hend (by omega)
      simp only [writeMembers] at hfuel hread ⊢
      obtain ⟨spaces, hspaces, htail⟩ := hl.tail_cons level '\x7d'
        (quote m.1 ++ l.afterName ++ write l (level + 1) m.2) (writeMembers l (level + 1) ms)
      rw [htail, List.cons_append, List.append_assoc spaces, List.append_assoc _ _ rest]
        at hfuel hread ⊢
      have hskip := skipSpace_append (pos' + 1) hspaces (noSpace_quote m.1
        l.afterName (write l (level + 1) m.2) (l.tail level '\x7d'
          (writeMembers l (level + 1) ms) ++ rest))
      have hset : before.set name v = before ++ [(name, v)] := Members.set_of_nodup hnodup
      have hmembers' := fun x hx => hmembers x (List.mem_cons_of_mem _ hx)
      obtain ⟨pos'', hrest⟩ := ih (before ++ [(name, v)]) fuel (pos' + 1 + spaces.length)
        (by rwa [List.append_assoc]) hmembers'
        (by simp only [List.length_append, List.length_cons] at hfuel ⊢; omega)
      rw [members_of_comma before hread (skipSpace_eq pos' (noSpace_cons _ rfl)), hskip, hset]
      exact ⟨pos'', by rw [hrest, List.append_assoc, List.singleton_append]⟩

theorem value_of_bracket {fuel pos pos' : Nat} {more cs : List Char}
    (hskip : Input.skipSpace ⟨pos + 1, more⟩ = ⟨pos', cs⟩) (hcs : cs.head? ≠ some ']') :
    value (fuel + 1) ⟨pos, '[' :: more⟩ = items fuel [] ⟨pos', cs⟩ := by
  simp only [value]
  rw [drop_one, hskip]
  split
  · rename_i hclose
    rw [show cs = _ from hclose, List.head?_cons] at hcs
    exact absurd rfl hcs
  · rfl

theorem value_of_brace {fuel pos pos' : Nat} {more cs : List Char}
    (hskip : Input.skipSpace ⟨pos + 1, more⟩ = ⟨pos', cs⟩) (hcs : cs.head? ≠ some '\x7d') :
    value (fuel + 1) ⟨pos, '\x7b' :: more⟩ = members fuel [] ⟨pos', cs⟩ := by
  simp only [value]
  rw [drop_one, hskip]
  split
  · rename_i hclose
    rw [show cs = _ from hclose, List.head?_cons] at hcs
    exact absurd rfl hcs
  · rfl

theorem readsBack_of_succ {v : Json} (hv : v.Exact)
    (h : ∀ (fuel pos : Nat) (rest : List Char), EndsNumber rest →
      2 * (write l level v ++ rest).length ≤ fuel + 1 →
      Reads (value (fuel + 1) ⟨pos, write l level v ++ rest⟩) v rest) : ReadsBack l level v := by
  intro fuel pos rest hrest hfuel
  obtain ⟨c, hhead, -⟩ := exists_head?_write hv l level rest
  obtain ⟨more, hmore⟩ := List.head?_eq_some_iff.mp hhead
  obtain ⟨fuel, rfl⟩ : ∃ k, fuel = k + 1 := by
    rw [hmore, List.length_cons] at hfuel
    exact ⟨fuel - 1, by omega⟩
  exact h fuel pos rest hrest hfuel

theorem readsBack_arr (hl : l.Legible) {items : List Json}
    (hitems : ∀ v ∈ items, v.Exact ∧ ReadsBack l (level + 1) v) :
    ReadsBack l level (.arr items) := by
  refine readsBack_of_succ (.arr fun v hv => (hitems v hv).1) fun fuel pos rest _ hfuel => ?_
  rcases items with _ | ⟨v, vs⟩
  · refine ⟨pos + 2, ?_⟩
    change value (fuel + 1) ⟨pos, '[' :: ']' :: rest⟩ = _
    simp only [value]
    rw [drop_one, skipSpace_eq _ (noSpace_cons _ rfl)]
    rfl
  · have hv := (hitems v List.mem_cons_self).1
    have htext : write l level (.arr (v :: vs)) ++ rest = '[' :: (l.lineBreak (level + 1) ++
        (write l (level + 1) v ++ (l.tail level ']' (writeItems l (level + 1) vs) ++ rest))) := by
      simp [write, writeItems, Layout.enclose_cons]
    rw [htext] at hfuel ⊢
    obtain ⟨c, hhead, -, hc, -⟩ := exists_head?_write hv l (level + 1)
      (l.tail level ']' (writeItems l (level + 1) vs) ++ rest)
    have hskip := l.skipSpace_lineBreak (level + 1) (pos + 1)
      (noSpace_write hv l (level + 1) (l.tail level ']' (writeItems l (level + 1) vs) ++ rest))
    rw [value_of_bracket hskip (by rw [hhead]; simpa using hc)]
    exact items_write hl [] fuel _ rest hitems
      (by simp only [List.length_append, List.length_cons] at hfuel ⊢; omega)

theorem readsBack_obj (hl : l.Legible) {members : Members} (hnodup : (members.map Prod.fst).Nodup)
    (hmembers : ∀ m ∈ members, m.2.Exact ∧ ReadsBack l (level + 1) m.2) :
    ReadsBack l level (.obj members) := by
  refine readsBack_of_succ (.obj hnodup fun m hm => (hmembers m hm).1)
    fun fuel pos rest _ hfuel => ?_
  rcases members with _ | ⟨⟨name, v⟩, ms⟩
  · refine ⟨pos + 2, ?_⟩
    change value (fuel + 1) ⟨pos, '\x7b' :: '\x7d' :: rest⟩ = _
    simp only [value]
    rw [drop_one, skipSpace_eq _ (noSpace_cons _ rfl)]
    rfl
  · have htext : write l level (.obj ((name, v) :: ms)) ++ rest =
        '\x7b' :: (l.lineBreak (level + 1) ++
          (quote name ++ l.afterName ++ write l (level + 1) v ++
            (l.tail level '\x7d' (writeMembers l (level + 1) ms) ++ rest))) := by
      simp [write, writeMembers, Layout.enclose_cons]
    rw [htext] at hfuel ⊢
    have hskip := l.skipSpace_lineBreak (level + 1) (pos + 1)
      (noSpace_quote name l.afterName (write l (level + 1) v)
        (l.tail level '\x7d' (writeMembers l (level + 1) ms) ++ rest))
    rw [value_of_brace hskip (by simp [quote])]
    exact members_write hl [] fuel _ rest hnodup hmembers
      (by simp only [List.length_append, List.length_cons] at hfuel ⊢; omega)

theorem readsBack_of_exact (hl : l.Legible) {v : Json} (hv : v.Exact) (level : Nat) :
    ReadsBack l level v := by
  induction hv generalizing level with
  | null => exact readsBack_of_succ .null fun fuel pos rest _ _ => ⟨pos + 4, rfl⟩
  | bool b =>
      refine readsBack_of_succ (.bool b) fun fuel pos rest _ _ => ?_
      cases b with
      | true => exact ⟨pos + 4, rfl⟩
      | false => exact ⟨pos + 5, rfl⟩
  | @int n hn =>
      refine readsBack_of_succ (.int hn) fun fuel pos rest hrest _ => ?_
      rw [write, value_eq_number (beginsNumber_intText n rest)]
      exact number_intText hn pos hrest
  | str s => exact readsBack_of_succ (.str s) fun fuel pos rest _ _ => value_quote s fuel pos rest
  | arr hitems ih => exact readsBack_arr hl fun v hv => ⟨hitems v hv, ih v hv (level + 1)⟩
  | obj hnodup hmembers ih =>
      exact readsBack_obj hl hnodup fun m hm => ⟨hmembers m hm, ih m hm (level + 1)⟩

end Nested

/-- Reading gives back what was written, whatever the layout. -/
theorem ofChars_write {l : Layout} (hl : l.Legible) {v : Json} (hv : v.Exact) :
    ofChars (write l 0 v) = .ok v := by
  obtain ⟨c, hhead, -, -, hmark⟩ := exists_head?_write hv l 0 []
  have hspace := noSpace_write hv l 0 []
  obtain ⟨pos, hread⟩ := readsBack_of_exact hl hv 0 (2 * (write l 0 v).length + 2) 0 []
    (fun _ hc => by cases hc) (by rw [List.append_nil]; omega)
  rw [List.append_nil] at hhead hspace hread
  unfold ofChars
  split
  · rename_i hmarked
    rw [hmarked, List.head?_cons, Option.some.injEq] at hhead
    exact absurd hhead.symm hmark
  · rw [skipSpace_eq 0 hspace, hread]
    rfl

/-- Documents with one text are one document. -/
theorem eq_of_write_eq {l : Layout} (hl : l.Legible) {v w : Json} (hv : v.Exact) (hw : w.Exact)
    (h : write l 0 v = write l 0 w) : v = w := by
  have hread : (.ok v : Reading Json) = .ok w := by
    rw [← ofChars_write hl hv, ← ofChars_write hl hw, h]
  exact Except.ok.inj hread

end LineScope.Json
