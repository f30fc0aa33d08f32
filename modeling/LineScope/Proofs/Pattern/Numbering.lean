import LineScope.Pattern.Reader
import LineScope.Proofs.Grammar.Draft

/-!
The numbers of groups. The groups of a pattern are numbered in the order of their opening
parentheses, so all groups within a group have greater numbers.
-/

namespace LineScope.Pattern

namespace Node

def captures : Node → List Nat
  | .empty | .one _ | .anchor _ | .again .. => []
  | .seq a b | .alt a b | .ifGroup _ a b => a.captures ++ b.captures
  | .capture number a => number :: a.captures
  | .loop _ _ _ a | .ahead _ a | .behind _ _ a | .atomic a => a.captures

def looksCapture : Node → Bool
  | .empty | .one _ | .anchor _ | .again .. => false
  | .seq a b | .alt a b | .ifGroup _ a b => a.looksCapture || b.looksCapture
  | .capture _ a | .loop _ _ _ a | .atomic a => a.looksCapture
  | .ahead _ a | .behind _ _ a => !a.captures.isEmpty

/-- Groups count from one, and those within a group have greater numbers. -/
def Ordered : Node → Prop
  | .empty | .one _ | .anchor _ | .again .. => True
  | .seq a b | .alt a b | .ifGroup _ a b => a.Ordered ∧ b.Ordered
  | .capture number a => 0 < number ∧ (∀ g ∈ a.captures, number < g) ∧ a.Ordered
  | .loop _ _ _ a | .ahead _ a | .behind _ _ a | .atomic a => a.Ordered

theorem looksCapture_of_captures_eq_nil {node : Node} (h : node.captures = []) :
    node.looksCapture = false := by
  induction node with
  | empty | one _ | anchor _ | again _ _ _ => rfl
  | seq a b iha ihb | alt a b iha ihb | ifGroup _ a b iha ihb =>
      obtain ⟨ha, hb⟩ := List.append_eq_nil_iff.mp h
      rw [looksCapture, iha ha, ihb hb, Bool.or_false]
  | capture _ a ih => cases h
  | loop _ _ _ a ih | atomic a ih => exact ih h
  | ahead _ a ih | behind _ _ a ih =>
      have h : a.captures = [] := h
      rw [looksCapture, h, List.isEmpty_nil, Bool.not_true]

theorem ordered_of_captures_eq_nil {node : Node} (h : node.captures = []) : node.Ordered := by
  induction node with
  | empty | one _ | anchor _ | again _ _ _ => trivial
  | seq a b iha ihb | alt a b iha ihb | ifGroup _ a b iha ihb =>
      obtain ⟨ha, hb⟩ := List.append_eq_nil_iff.mp h
      exact ⟨iha ha, ihb hb⟩
  | capture _ a ih => cases h
  | loop _ _ _ a ih | atomic a ih | ahead _ a ih | behind _ _ a ih => exact ih h

/-- The groups of a node are ordered, and all have numbers above a given one. -/
def Above (low : Nat) (node : Node) : Prop := (∀ g ∈ node.captures, low < g) ∧ node.Ordered

variable {low : Nat} {a b : Node}

theorem above_of_captures_eq_nil (h : a.captures = []) : a.Above low := by
  refine ⟨?_, ordered_of_captures_eq_nil h⟩
  rw [h]
  exact fun g hg => absurd hg List.not_mem_nil

theorem Above.append (ha : a.Above low) (hb : b.Above low) :
    ∀ g ∈ a.captures ++ b.captures, low < g := by
  intro g hg
  rcases List.mem_append.mp hg with hg | hg
  · exact ha.1 g hg
  · exact hb.1 g hg

theorem Above.capture {number : Nat} (hnumber : low < number) (ha : a.Above number) :
    (Node.capture number a).Above low := by
  refine ⟨fun g hg => ?_, Nat.lt_of_le_of_lt (Nat.zero_le _) hnumber, ha.1, ha.2⟩
  rcases List.mem_cons.mp hg with rfl | hg
  · exact hnumber
  · exact Nat.lt_trans hnumber (ha.1 g hg)

theorem above_sequence {nodes : List Node} (h : ∀ node ∈ nodes, node.Above low) :
    (sequence nodes).Above low := by
  induction nodes with
  | nil => exact above_of_captures_eq_nil rfl
  | cons a rest ih =>
      obtain ⟨ha, hrest⟩ := List.forall_mem_cons.mp h
      rcases rest with _ | ⟨b, rest⟩
      · exact ha
      · exact ⟨ha.append (ih hrest), ha.2, (ih hrest).2⟩

theorem above_choice {nodes : List Node} (h : ∀ node ∈ nodes, node.Above low) :
    (choice nodes).Above low := by
  induction nodes with
  | nil => exact above_of_captures_eq_nil rfl
  | cons a rest ih =>
      obtain ⟨ha, hrest⟩ := List.forall_mem_cons.mp h
      rcases rest with _ | ⟨b, rest⟩
      · exact ha
      · exact ⟨ha.append (ih hrest), ha.2, (ih hrest).2⟩

end Node

theorem Groups.captures_refer {g : Groups} {number back : Nat} {letters : Letters} {i : Input}
    {node : Node} (h : g.refer number letters back i = .ok node) : node.captures = [] := by
  unfold refer at h
  split at h
  · cases h
  · obtain ⟨-, -, heq⟩ := bind_eq_ok.mp h
    cases heq
    rfl

theorem captures_numberEscape {mode : Mode} {groups : Groups} {c : Char} {i j : Input}
    {item : Item} (h : numberEscape mode groups c i = .ok (item, j)) :
    item.node.captures = [] := by
  obtain ⟨⟨second, k⟩, -, h⟩ := bind_eq_ok.mp h
  simp only at h
  split at h
  all_goals
    obtain ⟨⟨third, l⟩, -, h⟩ := bind_eq_ok.mp h
    simp only at h
    split at h
    · obtain ⟨⟨n, l⟩, -, heq⟩ := bind_eq_ok.mp h
      cases heq
      rfl
    · split at h
      · obtain ⟨node, hnode, heq⟩ := bind_eq_ok.mp h
        cases heq
        exact Groups.captures_refer hnode
      · cases h

theorem captures_itemEscape {mode : Mode} {groups : Groups} {c : Char} {i j : Input} {item : Item}
    (h : itemEscape mode groups c i = .ok (item, j)) : item.node.captures = [] := by
  unfold itemEscape at h
  split at h
  · cases h
    rfl
  · cases h
    rfl
  · cases h
    rfl
  · split at h
    · obtain ⟨⟨digits, k⟩, -, heq⟩ := bind_eq_ok.mp h
      cases heq
      rfl
    · split at h
      · exact captures_numberEscape h
      · obtain ⟨⟨n, k⟩, -, heq⟩ := bind_eq_ok.mp h
        cases heq
        rfl

theorem captures_charSet {mode : Mode} {i j : Input} {item : Item}
    (h : charSet mode i = .ok (item, j)) : item.node.captures = [] := by
  obtain ⟨⟨negated, k⟩, -, h⟩ := bind_eq_ok.mp h
  obtain ⟨⟨items, l⟩, -, heq⟩ := bind_eq_ok.mp h
  cases heq
  rfl

theorem captures_plainItem {mode : Mode} {c : Char} {i j : Input} {item : Item}
    (h : plainItem mode c i = .ok (item, j)) : item.node.captures = [] := by
  unfold plainItem at h
  split at h
  · exact captures_charSet h
  all_goals
    cases h
    rfl

namespace Level

def nodes (l : Level) : List Node :=
  (match l.opening with
    | .ifGroup _ (some yes) => [yes]
    | _ => []) ++ l.branches ++ l.items.map Item.node

theorem mem_nodes {l : Level} {node : Node} : node ∈ l.nodes ↔
    (∃ number, l.opening = .ifGroup number (some node)) ∨ node ∈ l.branches ∨
      node ∈ l.items.map Item.node := by
  unfold nodes
  rw [List.append_assoc, List.mem_append, List.mem_append]
  split
  · rename_i number yes hopening
    simp [hopening, eq_comm]
  · rename_i hopening
    constructor
    · rintro (hnil | hmem)
      · cases hnil
      · exact .inr hmem
    · rintro (⟨number, hnode⟩ | hmem)
      · exact absurd hnode (hopening number node)
      · exact .inr hmem

def lowest : List Level → Nat
  | [] => 0
  | l :: outer =>
    match l.opening with
    | .capture number => number
    | _ => lowest outer

def Numbered (count : Nat) : List Level → Prop
  | [] => True
  | l :: outer =>
    (∀ number, l.opening = .capture number → lowest outer < number ∧ number ≤ count) ∧
      (∀ node ∈ l.nodes, node.Above (lowest (l :: outer))) ∧ Numbered count outer

variable {count count' : Nat} {l l' : Level} {outer : List Level}

theorem above_current {low : Nat} (h : ∀ node ∈ l.nodes, node.Above low) :
    l.current.Above low := by
  apply Node.above_sequence
  intro node hnode
  rw [List.map_reverse, List.mem_reverse] at hnode
  exact h node (mem_nodes.mpr (.inr (.inr hnode)))

theorem above_body {low : Nat} (h : ∀ node ∈ l.nodes, node.Above low) : l.body.Above low := by
  apply Node.above_choice
  intro node hnode
  rcases List.mem_cons.mp (List.mem_reverse.mp hnode) with rfl | hnode
  · exact above_current h
  · exact h node (mem_nodes.mpr (.inr (.inl hnode)))

theorem lowest_of_capture {number : Nat} (h : l.opening = .capture number) :
    lowest (l :: outer) = number := by
  rw [lowest, h]

theorem lowest_of_ne (h : ∀ number, l.opening ≠ .capture number) :
    lowest (l :: outer) = lowest outer := by
  rw [lowest]
  split
  · rename_i number hnumber
    exact absurd hnumber (h number)
  · rfl

theorem Numbered.lowest_le {levels : List Level} (h : Numbered count levels) :
    lowest levels ≤ count := by
  induction levels with
  | nil => exact Nat.zero_le _
  | cons l outer ih =>
      rw [lowest]
      split
      · rename_i number hnumber
        exact (h.1 number hnumber).2
      · exact ih h.2.2

theorem Numbered.mono {levels : List Level} (hcount : count ≤ count') (h : Numbered count levels) :
    Numbered count' levels := by
  induction levels with
  | nil => trivial
  | cons l outer ih =>
      refine ⟨fun number hnumber => ?_, h.2.1, ih h.2.2⟩
      exact And.imp_right (Nat.le_trans · hcount) (h.1 number hnumber)

theorem Numbered.change (h : Numbered count (l :: outer))
    (hopening : ∀ number, l'.opening = .capture number ↔ l.opening = .capture number)
    (hnodes : ∀ node ∈ l'.nodes, node.Above (lowest (l :: outer))) :
    Numbered count (l' :: outer) := by
  have hlowest : lowest (l' :: outer) = lowest (l :: outer) := by
    by_cases hcapture : ∃ number, l.opening = .capture number
    · obtain ⟨number, hnumber⟩ := hcapture
      rw [lowest_of_capture hnumber, lowest_of_capture ((hopening number).mpr hnumber)]
    · have hnot := not_exists.mp hcapture
      rw [lowest_of_ne hnot, lowest_of_ne fun number => mt (hopening number).mp (hnot number)]
  refine ⟨fun number hnumber => h.1 number ((hopening number).mp hnumber), ?_, h.2.2⟩
  rwa [hlowest]

theorem Numbered.add {item : Item} (h : Numbered count (l :: outer))
    (hitem : item.node.Above (lowest (l :: outer))) : Numbered count (l.add item :: outer) := by
  refine h.change (fun _ => Iff.rfl) fun node hnode => ?_
  rcases mem_nodes.mp hnode with hyes | hbranch | hitems
  · exact h.2.1 node (mem_nodes.mpr (.inl hyes))
  · exact h.2.1 node (mem_nodes.mpr (.inr (.inl hbranch)))
  · rcases List.mem_cons.mp hitems with rfl | hitems
    · exact hitem
    · exact h.2.1 node (mem_nodes.mpr (.inr (.inr hitems)))

theorem Numbered.bar {i : Input} (h : Numbered count (l :: outer)) (hbar : l.bar i = .ok l') :
    Numbered count (l' :: outer) := by
  have hcurrent := above_current h.2.1
  unfold Level.bar at hbar
  split at hbar
  · rename_i number hopening
    cases hbar
    refine h.change (fun n => ?_) fun node hnode => ?_
    · simp [hopening]
    · rcases mem_nodes.mp hnode with ⟨_, hyes⟩ | hbranch | hitems
      · cases hyes
        exact hcurrent
      · exact h.2.1 node (mem_nodes.mpr (.inr (.inl hbranch)))
      · cases hitems
  · cases hbar
  · cases hbar
    refine h.change (fun _ => Iff.rfl) fun node hnode => ?_
    rcases mem_nodes.mp hnode with hyes | hbranch | hitems
    · exact h.2.1 node (mem_nodes.mpr (.inl hyes))
    · rcases List.mem_cons.mp hbranch with rfl | hbranch
      · exact hcurrent
      · exact h.2.1 node (mem_nodes.mpr (.inr (.inl hbranch)))
    · cases hitems

theorem Numbered.close (groups : Groups) (h : Numbered count (l :: outer)) :
    (l.close groups).1.Above (lowest outer) ∧
      (l.close groups).2.widths.length = groups.widths.length := by
  have hbody := above_body h.2.1
  have hcurrent := above_current h.2.1
  unfold Level.close
  split
  · rename_i hopening
    rw [lowest_of_ne (by simp [hopening])] at hbody
    exact ⟨hbody, rfl⟩
  · rename_i hopening
    rw [lowest_of_ne (by simp [hopening])] at hbody
    exact ⟨hbody, rfl⟩
  · rename_i number hopening
    rw [lowest_of_capture hopening] at hbody
    exact ⟨hbody.capture (h.1 number hopening).1, List.length_set⟩
  · rename_i hopening
    rw [lowest_of_ne (by simp [hopening])] at hbody
    exact ⟨hbody, rfl⟩
  · rename_i behind negated outermost hopening
    rw [lowest_of_ne (by simp [hopening])] at hbody
    refine ⟨?_, ?_⟩
    · cases behind <;> exact hbody
    · cases outermost <;> rfl
  · rename_i number yes hopening
    rw [lowest_of_ne (by simp [hopening])] at hcurrent
    have hyes := h.2.1 yes (mem_nodes.mpr (.inl ⟨number, hopening⟩))
    rw [lowest_of_ne (by simp [hopening])] at hyes
    exact ⟨⟨hyes.append hcurrent, hyes.2, hcurrent.2⟩, rfl⟩
  · rename_i number hopening
    rw [lowest_of_ne (by simp [hopening])] at hcurrent
    have hempty : Node.empty.Above (lowest outer) := Node.above_of_captures_eq_nil rfl
    exact ⟨⟨hcurrent.append hempty, hcurrent.2, hempty.2⟩, rfl⟩

end Level

/-- What an opening parenthesis leads to holds no group yet, and counts the one that it opens. -/
def Opened.Fresh (count : Nat) (groups : Groups) : Opened → Prop
  | .nothing | .flags _ => groups.widths.length = count
  | .item added => added.node.captures = [] ∧ groups.widths.length = count
  | .level l => l.nodes = [] ∧
    (l.opening = .capture (count + 1) ∧ groups.widths.length = count + 1 ∨
      (∀ number, l.opening ≠ .capture number) ∧ groups.widths.length = count)

section

variable {start : Nat} {mode : Mode} {groups groups' : Groups} {i j : Input} {opened : Opened}

theorem openCapture_fresh {name : Option (List Char)}
    (h : openCapture start mode name groups i = .ok (opened, groups', j)) :
    opened.Fresh groups.widths.length groups' := by
  have hlength : groups.opened.2.widths.length = groups.widths.length + 1 := by
    simp [Groups.opened]
  unfold openCapture at h
  simp only at h
  split at h
  · cases h
    exact ⟨rfl, .inl ⟨rfl, hlength⟩⟩
  · split at h
    · cases h
    · cases h
      exact ⟨rfl, .inl ⟨rfl, hlength⟩⟩

theorem conditionGroup_widths {name : List Char} {number : Nat}
    (h : conditionGroup name groups i = .ok (number, groups')) :
    groups'.widths = groups.widths := by
  unfold conditionGroup at h
  simp only at h
  split at h
  · split at h
    · cases h
      rfl
    · cases h
  · split at h
    · cases h
    · split at h
      · cases h
      · split at h
        · cases h
        · split at h
          · cases h
          · cases h
            rfl

theorem openNamed_fresh (h : openNamed start mode groups i = .ok (opened, groups', j)) :
    opened.Fresh groups.widths.length groups' := by
  obtain ⟨k, -, h⟩ := bind_eq_ok.mp h
  split at h
  · cases h
  · obtain ⟨⟨name, l⟩, -, h⟩ := bind_eq_ok.mp h
    obtain ⟨-, -, h⟩ := bind_eq_ok.mp h
    exact openCapture_fresh h
  · obtain ⟨⟨name, l⟩, -, h⟩ := bind_eq_ok.mp h
    obtain ⟨-, -, h⟩ := bind_eq_ok.mp h
    simp only at h
    split at h
    · cases h
    · obtain ⟨node, hnode, heq⟩ := bind_eq_ok.mp h
      cases heq
      exact ⟨Groups.captures_refer hnode, rfl⟩
  · cases h

theorem openBehind_fresh (h : openBehind start mode groups i = .ok (opened, groups', j)) :
    opened.Fresh groups.widths.length groups' := by
  obtain ⟨k, -, h⟩ := bind_eq_ok.mp h
  split at h
  · cases h
  · split at h
    · cases h
      refine ⟨rfl, .inr ⟨by simp [Level.fresh], ?_⟩⟩
      split <;> rfl
    · cases h

theorem openExtension_fresh (h : openExtension start mode groups i = .ok (opened, groups', j)) :
    opened.Fresh groups.widths.length groups' := by
  have hlevel : ∀ (l : Level), l.nodes = [] → (∀ number, l.opening ≠ .capture number) →
      (Opened.level l).Fresh groups.widths.length groups :=
    fun l hnodes hopening => ⟨hnodes, .inr ⟨hopening, rfl⟩⟩
  obtain ⟨k, -, h⟩ := bind_eq_ok.mp h
  split at h
  · cases h
  · cases h
  · split at h
    · exact openNamed_fresh h
    · cases h
      exact hlevel _ rfl (by simp [Level.fresh])
    · obtain ⟨l, -, heq⟩ := bind_eq_ok.mp h
      cases heq
      rfl
    · cases h
      exact hlevel _ rfl (by simp [Level.fresh])
    · cases h
      exact hlevel _ rfl (by simp [Level.fresh])
    · exact openBehind_fresh h
    · obtain ⟨⟨name, l⟩, -, h⟩ := bind_eq_ok.mp h
      obtain ⟨⟨number, groups''⟩, hgroup, h⟩ := bind_eq_ok.mp h
      obtain ⟨-, -, heq⟩ := bind_eq_ok.mp h
      cases heq
      exact ⟨rfl, .inr ⟨by simp [Level.fresh], congrArg _ (conditionGroup_widths hgroup)⟩⟩
    · cases h
      exact hlevel _ rfl (by simp [Level.fresh])
    · split at h
      · obtain ⟨⟨flags, l⟩, -, h⟩ := bind_eq_ok.mp h
        simp only at h
        split at h
        · cases h
          rfl
        · cases h
          exact hlevel _ rfl (by simp [Level.fresh])
      · cases h

theorem openParenthesis_fresh
    (h : openParenthesis start mode groups i = .ok (opened, groups', j)) :
    opened.Fresh groups.widths.length groups' := by
  obtain ⟨⟨extension, k⟩, -, h⟩ := bind_eq_ok.mp h
  simp only at h
  split at h
  · exact openExtension_fresh h
  · exact openCapture_fresh h

end

theorem quantify_eq_ok {items items' : List Item} {min : Nat} {max : Option Nat} {here : Nat}
    {i j : Input} (h : quantify items min max here i = .ok (items', j)) :
    ∃ item before greed, items = item :: before ∧
      items' = ⟨.loop greed min max item.node, false, true⟩ :: before := by
  unfold quantify at h
  split at h
  · cases h
  · rename_i item before
    simp only at h
    split at h
    · cases h
    · split at h
      · cases h
      · obtain ⟨⟨isLazy, k⟩, -, h⟩ := bind_eq_ok.mp h
        simp only at h
        split at h
        all_goals
          obtain ⟨⟨isPossessive, l⟩, -, heq⟩ := bind_eq_ok.mp h
          cases heq
          exact ⟨item, before, _, rfl, rfl⟩

namespace Stage

/-- The groups read so far are ordered. -/
def Numbered (s : Stage) : Prop := Level.Numbered s.groups.widths.length (s.level :: s.outer)

variable {s t : Stage} {i j : Input}

theorem Numbered.add {item : Item} (h : s.Numbered) (hitem : item.node.captures = []) :
    (s.add item).Numbered :=
  Level.Numbered.add h (Node.above_of_captures_eq_nil hitem)

theorem Numbered.enter {pos : Nat} (h : s.Numbered) (henter : s.enter pos i = .ok (t, j)) :
    t.Numbered := by
  obtain ⟨⟨opened, groups, k⟩, hopened, henter⟩ := bind_eq_ok.mp henter
  have hfresh := openParenthesis_fresh hopened
  simp only at henter
  split at henter
  · cases henter
    exact Level.Numbered.mono (Nat.le_of_eq hfresh.symm) h
  · cases henter
    obtain ⟨hitem, hlength⟩ := hfresh
    refine Numbered.add ?_ hitem
    exact Level.Numbered.mono (Nat.le_of_eq hlength.symm) h
  · rename_i level
    cases henter
    obtain ⟨hnodes, ⟨hopening, hlength⟩ | ⟨hopening, hlength⟩⟩ := hfresh
    · refine ⟨fun number hnumber => ?_, ?_, Level.Numbered.mono ?_ h⟩
      · cases hopening.symm.trans hnumber
        exact ⟨Nat.lt_succ_of_le (Level.Numbered.lowest_le h), Nat.le_of_eq hlength.symm⟩
      · rw [hnodes]
        exact fun node hnode => absurd hnode List.not_mem_nil
      · exact hlength ▸ Nat.le_succ _
    · refine ⟨fun number hnumber => absurd hnumber (hopening number), ?_, Level.Numbered.mono ?_ h⟩
      · rw [hnodes]
        exact fun node hnode => absurd hnode List.not_mem_nil
      · exact Nat.le_of_eq hlength.symm
  · split at henter
    · cases henter
    · cases henter
      exact Level.Numbered.mono (Nat.le_of_eq hfresh.symm) h

theorem Numbered.quantified {min : Nat} {max : Option Nat} {pos : Nat} (h : s.Numbered)
    (hquantified : s.quantified min max pos i = .ok (t, j)) : t.Numbered := by
  obtain ⟨⟨items, k⟩, hitems, heq⟩ := bind_eq_ok.mp hquantified
  cases heq
  obtain ⟨item, before, greed, hold, rfl⟩ := quantify_eq_ok hitems
  refine Level.Numbered.change h (fun _ => Iff.rfl) fun node hnode => ?_
  rcases Level.mem_nodes.mp hnode with hyes | hbranch | hmem
  · exact h.2.1 node (Level.mem_nodes.mpr (.inl hyes))
  · exact h.2.1 node (Level.mem_nodes.mpr (.inr (.inl hbranch)))
  · have hitems : ∀ node ∈ (item :: before).map Item.node,
        node.Above (Level.lowest (s.level :: s.outer)) := by
      intro node hnode
      exact h.2.1 node (Level.mem_nodes.mpr (.inr (.inr (hold ▸ hnode))))
    obtain ⟨hitem, hbefore⟩ := List.forall_mem_cons.mp hitems
    rcases List.mem_cons.mp hmem with rfl | hmem
    · exact hitem
    · exact hbefore node hmem

theorem Numbered.braced {pos : Nat} (h : s.Numbered) (hbraced : s.braced pos i = .ok (t, j)) :
    t.Numbered := by
  obtain ⟨bounds, -, hbraced⟩ := bind_eq_ok.mp hbraced
  split at hbraced
  · exact h.quantified hbraced
  · cases hbraced
    exact h.add rfl

theorem Numbered.take {token : Token} {pos : Nat} (h : s.Numbered)
    (htake : s.take token pos i = .ok (t, j)) : t.Numbered := by
  unfold Stage.take at htake
  split at htake
  · obtain ⟨⟨item, k⟩, hitem, heq⟩ := bind_eq_ok.mp htake
    cases heq
    exact h.add (captures_itemEscape hitem)
  · split at htake
    · cases htake
      exact h
    · split at htake
      · obtain ⟨k, -, heq⟩ := bind_eq_ok.mp htake
        cases heq
        exact h
      · split at htake
        · exact h.quantified htake
        · split at htake
          · exact h.enter htake
          · split at htake
            · exact h.braced htake
            · obtain ⟨⟨item, k⟩, hitem, heq⟩ := bind_eq_ok.mp htake
              cases heq
              exact h.add (captures_plainItem hitem)

theorem ordered_of_finish {level : Level} {outer : List Level} {count : Nat} {flags : List Char}
    {groups : Groups} {p : LineScope.Pattern} (h : Level.Numbered count (level :: outer))
    (hfinish : finish level flags groups i = .ok p) : p.root.Ordered := by
  have hbody := Level.above_body h.2.1
  unfold finish at hfinish
  simp only at hfinish
  split at hfinish
  · cases hfinish
  · split at hfinish
    · cases hfinish
    · split at hfinish
      · cases hfinish
      · split at hfinish
        · cases hfinish
        · cases hfinish
          exact hbody.2

theorem ordered_of_read {fuel : Nat} {p : LineScope.Pattern} (h : s.Numbered)
    (hread : read fuel s i = .ok p) : p.root.Ordered := by
  induction fuel generalizing s i with
  | zero => cases hread
  | succ fuel ih =>
      unfold read at hread
      split at hread
      · split at hread
        · exact ordered_of_finish h hread
        · cases hread
      · obtain ⟨level, hbar, hread⟩ := bind_eq_ok.mp hread
        obtain ⟨k, -, hread⟩ := bind_eq_ok.mp hread
        have hnumbered : ({ s with level } : Stage).Numbered := Level.Numbered.bar h hbar
        exact ih hnumbered hread
      · split at hread
        · exact ordered_of_finish h hread
        · rename_i outside outer houter
          obtain ⟨k, -, hread⟩ := bind_eq_ok.mp hread
          have hall : Level.Numbered s.groups.widths.length (s.level :: outside :: outer) :=
            houter ▸ h
          obtain ⟨hnode, hlength⟩ := Level.Numbered.close s.groups hall
          refine ih ?_ hread
          refine Level.Numbered.mono (Nat.le_of_eq hlength.symm) ?_
          exact Level.Numbered.add hall.2.2 hnode
      · obtain ⟨k, -, hread⟩ := bind_eq_ok.mp hread
        obtain ⟨⟨t, l⟩, htake, hread⟩ := bind_eq_ok.mp hread
        exact ih (h.take htake) hread

theorem start_numbered : start.Numbered := by
  refine ⟨fun number hnumber => ?_, ?_, trivial⟩
  · cases hnumber
  · exact fun node hnode => absurd hnode List.not_mem_nil

end Stage

end LineScope.Pattern

/-- Whatever a source writes, the groups of its pattern are ordered. -/
theorem LineScope.Pattern.ordered_of_ofChars {source : List Char} {p : LineScope.Pattern}
    (h : ofChars source = .ok p) : p.root.Ordered := by
  obtain ⟨i, -, hread⟩ := bind_eq_ok.mp h
  exact Stage.ordered_of_read Stage.start_numbered hread
