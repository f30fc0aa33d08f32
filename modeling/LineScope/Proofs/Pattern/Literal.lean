import LineScope.BackReference
import LineScope.Proofs.Pattern.Steps

/-!
Texts as patterns for themselves. A text that is escaped and set between the anchors for the start
and the end is read as the sequence of its characters, and matches a line that is this text and no
other line.
-/

namespace LineScope.Pattern

open BackReference

def Node.char (c : Char) : Node := .one (.literal c.toNat Mode.plain.letters)

/-- The pattern for the lines that are exactly a text. -/
def exactly (cs : List Char) : LineScope.Pattern :=
  ⟨.sequence (.anchor .textStart :: (cs.map Node.char ++ [.anchor .lastLineEnd])), 0⟩

theorem ne_of_isSpecial {c d : Char} (hc : isSpecial c = false) (hd : isSpecial d = true) :
    c ≠ d := by
  rintro rfl
  rw [hc] at hd
  cases hd

theorem Input.ofChars_char {c : Char} (hc : c ≠ '\\') (pos : Nat) (rest : List Char) :
    Input.ofChars pos (c :: rest) = .ok ⟨pos, some (.char c), rest⟩ := by
  unfold Input.ofChars
  split
  · rename_i h
    cases h
  · rename_i h
    cases h
    exact absurd rfl hc
  · rename_i h
    cases h
    exact absurd rfl hc
  · rename_i h
    cases h
    rfl

theorem Input.ofChars_escape {rest : List Char} (pos : Nat) (c : Char) :
    Input.ofChars pos ('\\' :: c :: rest) = .ok ⟨pos, some (.escape c), rest⟩ := rfl

theorem itemEscape_special {c : Char} (hc : isSpecial c = true) (groups : Groups) (i : Input) :
    itemEscape .plain groups c i = .ok (.ofCode .plain c.toNat, i) := by
  have hall : ("()[]\x7b\x7d?*+-|^$\\.&~# \t\n\r\x0b\x0c".toList.all fun d =>
      (anchorEscape? .plain d).isNone && (categoryEscape? d).isNone &&
        (controlEscape? d).getD d.toNat == d.toNat && !d.isAlphanum) = true := by
    decide +kernel
  have hfacts := List.all_eq_true.mp hall c (List.contains_iff_mem.mp hc)
  simp only [Bool.and_eq_true, Option.isNone_iff_eq_none, beq_iff_eq, Bool.not_eq_true'] at hfacts
  obtain ⟨⟨⟨hanchor, hcategory⟩, hcontrol⟩, halphanum⟩ := hfacts
  have hne : ∀ d : Char, d.isAlphanum = true → (c == d) = false := by
    intro d hd
    apply beq_false_of_ne
    rintro rfl
    rw [halphanum] at hd
    cases hd
  have hdigit : c.isDigit = false := by
    rw [Char.isAlphanum, Bool.or_eq_false_iff] at halphanum
    exact halphanum.2
  unfold itemEscape
  rw [hanchor, hcategory]
  rcases hcode : controlEscape? c with _ | n
  · simp only [charEscape, hne '0' rfl, hne 'x' rfl, hne 'u' rfl, hne 'U' rfl, hne 'N' rfl,
      halphanum, hdigit, Bool.false_eq_true, if_false]
    rfl
  · rw [hcode, Option.getD_some] at hcontrol
    rw [hcontrol]

/-- The reading of a pattern of one level, without flags and groups. -/
def Stage.flat (items : List Item) : Stage := ⟨⟨.pattern, 0, .plain, [], items⟩, [], .initial, []⟩

namespace Stage

theorem take_escape {c : Char} (hc : isSpecial c = true) (items : List Item) (pos : Nat)
    (i : Input) :
    (flat items).take (.escape c) pos i = .ok (flat (.ofCode .plain c.toNat :: items), i) := by
  simp only [take, flat, itemEscape_special hc]
  rfl

theorem take_char {c : Char} (hc : isSpecial c = false) (items : List Item) (pos : Nat)
    (i : Input) :
    (flat items).take (.char c) pos i = .ok (flat (.ofCode .plain c.toNat :: items), i) := by
  have hne : ∀ d : Char, isSpecial d = true → c ≠ d := fun d => ne_of_isSpecial hc
  have hbounds : shortBounds? c = none := by
    unfold shortBounds?
    split
    · exact absurd rfl (hne '?' rfl)
    · exact absurd rfl (hne '*' rfl)
    · exact absurd rfl (hne '+' rfl)
    · rfl
  have hitem : plainItem .plain c i = .ok (.ofCode .plain c.toNat, i) := by
    unfold plainItem
    split
    · exact absurd rfl (hne '[' rfl)
    · exact absurd rfl (hne '.' rfl)
    · exact absurd rfl (hne '^' rfl)
    · exact absurd rfl (hne '$' rfl)
    · rfl
  have hparenthesis : (c == '(') = false := beq_false_of_ne (hne '(' rfl)
  have hbrace : (c == '\x7b') = false := beq_false_of_ne (hne '\x7b' rfl)
  simp only [take, flat, Mode.plain, Bool.false_and, Bool.false_eq_true, if_false, hbounds,
    hparenthesis, hbrace]
  rw [show (⟨false, false, false, false, false⟩ : Mode) = .plain from rfl, hitem]
  rfl

theorem read_token {s s' : Stage} {t : Token} {pos fuel : Nat} {rest : List Char} {i : Input}
    (hbar : t ≠ .char '|') (hclose : t ≠ .char ')')
    (hadvance : Input.ofChars (pos + t.length) rest = .ok i)
    (htake : s.take t pos i = .ok (s', i)) :
    read (fuel + 1) s ⟨pos, some t, rest⟩ = read fuel s' i := by
  rw [read]
  split
  · rename_i h
    cases h
  · rename_i h
    cases h
    exact absurd rfl hbar
  · rename_i h
    cases h
    exact absurd rfl hclose
  · rename_i h
    cases h
    simp only [Input.advance, hadvance]
    change (s.take t pos i >>= fun x => read fuel x.1 x.2) = _
    rw [htake]
    rfl

end Stage

theorem Node.mistake?_sequence {nodes : List Node}
    (h : ∀ node ∈ nodes, node.mistake? false = none) : (sequence nodes).mistake? false = none := by
  induction nodes with
  | nil => rfl
  | cons a rest ih =>
      obtain ⟨ha, hrest⟩ := List.forall_mem_cons.mp h
      rcases rest with _ | ⟨b, rest⟩
      · exact ha
      · have hmore := ih hrest
        simp only [sequence, mistake?, ha] at hmore ⊢
        exact hmore

namespace Stage

theorem read_end {items : List Item} (h : ∀ item ∈ items, item.node.mistake? false = none)
    (fuel pos : Nat) :
    read (fuel + 1) (flat items) ⟨pos, none, []⟩ =
      .ok ⟨.sequence (items.reverse.map Item.node), 0⟩ := by
  have hmistake : (flat items).level.body.mistake? ([].contains 't') = none := by
    apply Node.mistake?_sequence
    intro node hnode
    obtain ⟨item, hitem, rfl⟩ := List.mem_map.mp hnode
    exact h item (List.mem_reverse.mp hitem)
  have hfinish : read (fuel + 1) (flat items) ⟨pos, none, []⟩ =
      finish (flat items).level [] .initial ⟨pos, none, []⟩ := rfl
  rw [hfinish, finish, hmistake]
  rfl

/-- An escaped text and the anchor for the end add their nodes to those that have been read. -/
theorem read_escape (cs : List Char) {items : List Item} (fuel pos : Nat)
    (hitems : ∀ item ∈ items, item.node.mistake? false = none) (hfuel : cs.length + 2 ≤ fuel) :
    ∃ i, Input.ofChars pos (escape cs ++ ['$']) = .ok i ∧ read fuel (flat items) i =
      .ok ⟨.sequence (items.reverse.map Item.node ++ (cs.map Node.char ++
        [.anchor .lastLineEnd])), 0⟩ := by
  obtain ⟨fuel, rfl⟩ : ∃ k, fuel = k + 1 := ⟨fuel - 1, by omega⟩
  induction cs generalizing items fuel pos with
  | nil =>
      obtain ⟨fuel, rfl⟩ : ∃ k, fuel = k + 1 := ⟨fuel - 1, by simp at hfuel; omega⟩
      refine ⟨⟨pos, some (.char '$'), []⟩, rfl, ?_⟩
      have htake : (flat items).take (.char '$') pos ⟨pos + 1, none, []⟩ =
          .ok (flat (.ofAnchor .lastLineEnd :: items), ⟨pos + 1, none, []⟩) := rfl
      rw [read_token (by simp) (by simp) rfl htake, read_end]
      · simp [Item.ofAnchor]
      · exact List.forall_mem_cons.mpr ⟨rfl, hitems⟩
  | cons c cs ih =>
      obtain ⟨fuel, rfl⟩ : ∃ k, fuel = k + 1 := ⟨fuel - 1, by simp at hfuel; omega⟩
      have hmore : ∀ item ∈ Item.ofCode .plain c.toNat :: items,
          item.node.mistake? false = none := List.forall_mem_cons.mpr ⟨rfl, hitems⟩
      have hlength : cs.length + 2 ≤ fuel + 1 := by
        simp only [List.length_cons] at hfuel
        omega
      by_cases hc : isSpecial c = true
      · have hescape : escape (c :: cs) ++ ['$'] = '\\' :: c :: (escape cs ++ ['$']) := by
          simp [escape, hc]
        obtain ⟨i, hi, hread⟩ := ih (pos + 2) hmore fuel hlength
        refine ⟨_, hescape ▸ Input.ofChars_escape pos c, ?_⟩
        rw [read_token (by simp) (by simp) hi (take_escape hc items pos i), hread]
        simp [Item.ofCode, Item.plain, Node.char]
      · have hc : isSpecial c = false := Bool.eq_false_iff.mpr hc
        have hescape : escape (c :: cs) ++ ['$'] = c :: (escape cs ++ ['$']) := by
          simp [escape, hc]
        obtain ⟨i, hi, hread⟩ := ih (pos + 1) hmore fuel hlength
        refine ⟨_, hescape ▸ Input.ofChars_char (ne_of_isSpecial hc rfl) pos _, ?_⟩
        have hbar : Token.char c ≠ .char '|' := fun h => ne_of_isSpecial hc rfl (Token.char.inj h)
        have hclose : Token.char c ≠ .char ')' := fun h => ne_of_isSpecial hc rfl (Token.char.inj h)
        rw [read_token hbar hclose hi (take_char hc items pos i), hread]
        simp [Item.ofCode, Item.plain, Node.char]

end Stage

theorem length_le_escape (cs : List Char) : cs.length ≤ (escape cs).length := by
  induction cs with
  | nil => exact Nat.le_refl 0
  | cons c cs ih =>
      have hcons : escape (c :: cs) = (if isSpecial c then ['\\', c] else [c]) ++ escape cs := rfl
      rw [hcons, List.length_append, List.length_cons]
      split
      · simp only [List.length_cons, List.length_nil]
        omega
      · simp only [List.length_cons, List.length_nil]
        omega

/-- What is written for a text is read as the pattern for the lines that are this text. -/
theorem ofChars_exactly (cs : List Char) :
    LineScope.Pattern.ofChars ('^' :: (escape cs ++ ['$'])) = .ok (exactly cs) := by
  have hlength := length_le_escape cs
  have hitems : ∀ item ∈ [Item.ofAnchor .textStart], item.node.mistake? false = none := by
    simp [Item.ofAnchor, Node.mistake?]
  have hfuel : cs.length + 2 ≤ (escape cs ++ ['$']).length + 1 := by
    rw [List.length_append, List.length_singleton]
    omega
  obtain ⟨i, hi, hread⟩ := Stage.read_escape cs _ 1 hitems hfuel
  have htake : (Stage.flat []).take (.char '^') 0 i =
      .ok (Stage.flat [.ofAnchor .textStart], i) := rfl
  have hstart : Input.ofChars 0 ('^' :: (escape cs ++ ['$'])) =
      .ok ⟨0, some (.char '^'), escape cs ++ ['$']⟩ := Input.ofChars_char (by decide) 0 _
  unfold LineScope.Pattern.ofChars
  rw [hstart]
  change Stage.read ((escape cs ++ ['$']).length + 1 + 1) (Stage.flat [])
    ⟨0, some (.char '^'), escape cs ++ ['$']⟩ = _
  rw [Stage.read_token (by simp) (by simp) hi htake, hread]
  rfl

theorem Node.run_sequence_cons (text : Text) (a : Node) (rest : List Node) (p : Progress)
    (next : Next) : (sequence (a :: rest)).run text p next =
      a.run text p fun q => (sequence rest).run text q next := by
  rcases rest with _ | ⟨b, rest⟩
  · simp only [sequence, run]
  · rfl

theorem CharTest.accepts_literal {c d : Char} :
    (CharTest.literal c.toNat Mode.plain.letters).accepts d = true ↔ d = c := by
  have haccepts :
      (CharTest.literal c.toNat Mode.plain.letters).accepts d = (d.toNat == c.toNat) := by
    simp [accepts, SetItem.accepts, Letters.variants, Mode.letters, Mode.plain]
  rw [haccepts, beq_iff_eq]
  constructor
  · intro h
    exact Char.toNat_inj.mp h
  · rintro rfl
    rfl

theorem takeOne_literal {text : Text} {c : Char} {p q : Progress} :
    takeOne text (.literal c.toNat Mode.plain.letters) p = some q ↔
      text[p.pos]? = some c ∧ q = p.skip 1 := by
  unfold takeOne
  rcases text[p.pos]? with _ | d
  · simp
  · by_cases hd : d = c
    · subst hd
      have htrue : (CharTest.literal d.toNat Mode.plain.letters).accepts d = true :=
        CharTest.accepts_literal.mpr rfl
      simp only [htrue, if_true, Option.some.injEq, true_and]
      exact eq_comm
    · have hfalse : (CharTest.literal c.toNat Mode.plain.letters).accepts d = false :=
        Bool.eq_false_iff.mpr (mt CharTest.accepts_literal.mp hd)
      simp [hfalse, hd]

theorem Node.run_char {text : Text} {c : Char} {p r : Progress} {next : Next} :
    (Node.char c).run text p next = some r ↔
      text[p.pos]? = some c ∧ next (p.skip 1) = some r := by
  simp only [Node.char, run, Option.bind_eq_some_iff, takeOne_literal]
  constructor
  · rintro ⟨_, ⟨hc, rfl⟩, hnext⟩
    exact ⟨hc, hnext⟩
  · rintro ⟨hc, hnext⟩
    exact ⟨_, ⟨hc, rfl⟩, hnext⟩

theorem drop_eq_cons_iff {text : Text} {pos : Nat} {c : Char} {cs : List Char} :
    text.toList.drop pos = c :: cs ↔ text[pos]? = some c ∧ text.toList.drop (pos + 1) = cs := by
  rw [← Array.getElem?_toList]
  constructor
  · intro h
    have hat : (text.toList.drop pos)[0]? = some c := by rw [h]; rfl
    have hrest : (text.toList.drop pos).drop 1 = cs := by rw [h]; rfl
    rw [List.getElem?_drop] at hat
    rw [List.drop_drop] at hrest
    exact ⟨hat, hrest⟩
  · rintro ⟨hc, rfl⟩
    obtain ⟨hlt, hat⟩ := List.getElem?_eq_some_iff.mp hc
    rw [List.drop_eq_getElem_cons hlt, hat]

theorem drop_eq_nil_iff {text : Text} {pos : Nat} (hpos : pos ≤ text.size) :
    text.toList.drop pos = [] ↔ pos = text.size := by
  rw [List.drop_eq_nil_iff, Array.length_toList]
  omega

theorem lastLineEnd_holds {text : Text} {pos : Nat} (hpos : pos ≤ text.size)
    (hlast : '\n' ∉ text ∨ text.toList.drop pos = []) :
    Anchor.lastLineEnd.holds text pos = true ↔ text.toList.drop pos = [] := by
  have hbreak : (text[pos]? == some '\n') = false ∨ pos = text.size := by
    rcases hlast with hfree | hnil
    · apply Or.inl
      apply beq_false_of_ne
      intro hat
      exact hfree (Array.mem_of_getElem? hat)
    · exact .inr ((drop_eq_nil_iff hpos).mp hnil)
  rw [drop_eq_nil_iff hpos]
  rcases hbreak with hbreak | rfl
  · simp [Anchor.holds, hbreak]
  · simp [Anchor.holds]

/-- A text and the end behind it match if nothing but the text is left. -/
theorem Node.run_spelled {text : Text} {cs : List Char} {p r : Progress} {next : Next}
    (hpos : p.pos ≤ text.size) (hlast : '\n' ∉ text ∨ text.toList.drop p.pos = cs) :
    (sequence (cs.map Node.char ++ [.anchor .lastLineEnd])).run text p next = some r ↔
      text.toList.drop p.pos = cs ∧ next (p.skip cs.length) = some r := by
  induction cs generalizing p with
  | nil =>
      have hholds := lastLineEnd_holds hpos hlast
      have hrun : (sequence (([] : List Char).map Node.char ++ [.anchor .lastLineEnd])).run text p
          next = if Anchor.lastLineEnd.holds text p.pos then next p else none := by
        simp only [List.map_nil, List.nil_append, sequence, run]
      rw [hrun, Option.ite_none_right_eq_some, hholds]
      rfl
  | cons c cs ih =>
      rw [List.map_cons, List.cons_append, run_sequence_cons, run_char, drop_eq_cons_iff]
      constructor
      · rintro ⟨hc, hrest⟩
        obtain ⟨hlt, -⟩ := Array.getElem?_eq_some_iff.mp hc
        have hpos' : (p.skip 1).pos ≤ text.size := hlt
        have hlast' : '\n' ∉ text ∨ text.toList.drop (p.skip 1).pos = cs :=
          hlast.imp_right fun h => (drop_eq_cons_iff.mp h).2
        obtain ⟨hdrop, hnext⟩ := (ih hpos' hlast').mp hrest
        rw [Progress.skip_skip, Nat.add_comm] at hnext
        exact ⟨⟨hc, hdrop⟩, hnext⟩
      · rintro ⟨⟨hc, hdrop⟩, hnext⟩
        obtain ⟨hlt, -⟩ := Array.getElem?_eq_some_iff.mp hc
        have hpos' : (p.skip 1).pos ≤ text.size := hlt
        refine ⟨hc, (ih hpos' (.inr hdrop)).mpr ⟨hdrop, ?_⟩⟩
        rw [Progress.skip_skip, Nat.add_comm]
        exact hnext

theorem run_exactly {text : Text} {cs : List Char} {p r : Progress} {next : Next} :
    (exactly cs).root.run text p next = some r ↔
      p.pos = 0 ∧
        (Node.sequence (cs.map Node.char ++ [.anchor .lastLineEnd])).run text p next = some r := by
  rw [exactly, Node.run_sequence_cons]
  simp [Node.run, Anchor.holds]

end LineScope.Pattern

namespace LineScope.Matcher

open Pattern

theorem search_exactly_self (text : Text) :
    search (.pattern (exactly text.toList)) text 0 =
      some ⟨0, text.size, [some ⟨0, text.size⟩]⟩ := by
  have hrun : (exactly text.toList).root.run text (.start 0 0) some =
      some ((Progress.start 0 0).skip text.toList.length) := by
    have hpos : (Progress.start 0 0).pos ≤ text.size := Nat.zero_le _
    have hall : text.toList.drop (Progress.start 0 0).pos = text.toList := rfl
    exact run_exactly.mpr ⟨rfl, (Node.run_spelled hpos (.inr hall)).mpr ⟨hall, rfl⟩⟩
  have hsearch : search (.pattern (exactly text.toList)) text 0 =
      (firstMatch (exactly text.toList) text (text.size - min 0 text.size + 1)
        (min 0 text.size)).map fun x => ⟨x.1, x.2.pos, groupsOf x.1 x.2⟩ := rfl
  rw [hsearch, Nat.zero_min, firstMatch_of_run hrun]
  simp [groupsOf, Progress.skip, Progress.start]

/-- Behind the start of the line nothing matches, and in another line nothing does, unless a line
break ends it. -/
theorem search_exactly_eq_none {text : Text} {cs : List Char} {origin : Int}
    (h : 0 < startIn text origin ∨ ('\n' ∉ text ∧ text.toList ≠ cs)) :
    search (.pattern (exactly cs)) text origin = none := by
  have hnone : firstMatch (exactly cs) text (text.size - startIn text origin + 1)
      (startIn text origin) = none := by
    apply firstMatch_eq_none
    intro place hplace
    rw [Option.eq_none_iff_forall_ne_some]
    intro r hr
    obtain ⟨hzero, hrun⟩ := run_exactly.mp hr
    have hzero : place = 0 := hzero
    subst hzero
    rcases h with hpos | ⟨hfree, hne⟩
    · omega
    · exact hne ((Node.run_spelled (Nat.zero_le _) (.inl hfree)).mp hrun).1
  change (firstMatch (exactly cs) text _ _).map _ = none
  rw [hnone]
  rfl

end LineScope.Matcher
