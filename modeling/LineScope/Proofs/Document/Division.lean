import LineScope.Document
import LineScope.Proofs.Grammar.Tables
import Mathlib.Logic.ExistsUnique

/-!
Texts as lines with terminators between them. The lines that a document stores are the only ones
that its text can be divided into, if a carriage return and the line feed behind it count as one
terminator.
-/

namespace LineScope

namespace Text

inductive Terminator where
  | lineFeed
  | carriageReturn
  | both
deriving DecidableEq, Repr

def Terminator.chars : Terminator → List Char
  | .lineFeed => ['\n']
  | .carriageReturn => ['\r']
  | .both => ['\r', '\n']

/-- Lines with a terminator behind each but the last. -/
inductive Division where
  | last (line : List Char)
  | broken (line : List Char) (terminator : Terminator) (rest : Division)
deriving DecidableEq, Repr

def BreakFree (line : List Char) : Prop :=
  '\r' ∉ line ∧ '\n' ∉ line

namespace Division

def text : Division → List Char
  | last line => line
  | broken line t rest => line ++ t.chars ++ rest.text

def lines : Division → List (List Char)
  | last line => [line]
  | broken line _ rest => line :: rest.lines

/-- No line has a break within it, and no carriage return stands as a terminator of its own
immediately before a line feed. -/
def Proper : Division → Prop
  | last line => BreakFree line
  | broken line t rest =>
      BreakFree line ∧ (t = .carriageReturn → ∀ after, rest ≠ broken [] .lineFeed after) ∧
        rest.Proper

def prepend (front : List Char) : Division → Division
  | last line => last (front ++ line)
  | broken line t rest => broken (front ++ line) t rest

def joined (t : Terminator) (line : List Char) : List (List Char) → Division
  | [] => last line
  | next :: rest => broken line t (joined t next rest)

@[simp] theorem prepend_nil (D : Division) : D.prepend [] = D := by
  cases D <;> rfl

@[simp] theorem prepend_prepend (front next : List Char) (D : Division) :
    (D.prepend next).prepend front = D.prepend (front ++ next) := by
  cases D <;> simp [prepend]

@[simp] theorem text_prepend (front : List Char) (D : Division) :
    (D.prepend front).text = front ++ D.text := by
  cases D <;> simp [prepend, text]

theorem lines_ne_nil (D : Division) : D.lines ≠ [] := by
  cases D <;> simp [lines]

theorem Proper.prepend {D : Division} {front : List Char} (hfront : BreakFree front)
    (h : D.Proper) : (D.prepend front).Proper := by
  obtain ⟨hreturn, hfeed⟩ := hfront
  cases D with
  | last line =>
      exact ⟨by simp [hreturn, h.1], by simp [hfeed, h.2]⟩
  | broken line t rest =>
      exact ⟨⟨by simp [hreturn, h.1.1], by simp [hfeed, h.1.2]⟩, h.2⟩

theorem Proper.eq_broken_of_text_eq {D : Division} (h : D.Proper) {rest : List Char}
    (htext : D.text = '\n' :: rest) : ∃ after, D = broken [] .lineFeed after := by
  cases D with
  | last line =>
      cases (htext : line = _)
      exact absurd (List.mem_cons_self ..) h.2
  | broken line t after =>
      obtain ⟨hline, -, -⟩ := h
      cases line with
      | nil => cases t <;> simp_all [text, Terminator.chars]
      | cons c line =>
          obtain ⟨rfl, -⟩ : c = '\n' ∧ _ := by simpa [text] using htext
          exact absurd (List.mem_cons_self ..) hline.2

@[simp] theorem text_joined (t : Terminator) (line : List Char) (rest : List (List Char)) :
    (joined t line rest).text = t.chars.intercalate (line :: rest) := by
  induction rest generalizing line with
  | nil => simp [joined, text]
  | cons next rest ih => simp [joined, text, ih]

@[simp] theorem lines_joined (t : Terminator) (line : List Char) (rest : List (List Char)) :
    (joined t line rest).lines = line :: rest := by
  induction rest generalizing line with
  | nil => rfl
  | cons next rest ih => simp [joined, lines, ih]

theorem proper_joined (t : Terminator) {line : List Char} {rest : List (List Char)}
    (h : ∀ l ∈ line :: rest, BreakFree l) : (joined t line rest).Proper := by
  induction rest generalizing line with
  | nil => exact h line (List.mem_singleton_self line)
  | cons next rest ih =>
      obtain ⟨hline, hrest⟩ := List.forall_mem_cons.mp h
      refine ⟨hline, ?_, ih hrest⟩
      rintro rfl after hafter
      cases rest <;> cases hafter

end Division

/-- The division that reads the text from its front and takes the longest terminator each time. -/
def divide : List Char → Division
  | [] => .last []
  | '\r' :: '\n' :: rest => .broken [] .both (divide rest)
  | '\r' :: rest => .broken [] .carriageReturn (divide rest)
  | '\n' :: rest => .broken [] .lineFeed (divide rest)
  | c :: rest => (divide rest).prepend [c]

theorem text_divide (text : List Char) : (divide text).text = text := by
  induction text using divide.induct with
  | case1 => rfl
  | case2 rest ih => simp [divide, Division.text, Terminator.chars, ih]
  | case3 rest hnot ih => simp [divide, Division.text, Terminator.chars, ih]
  | case4 rest ih => simp [divide, Division.text, Terminator.chars, ih]
  | case5 c rest hboth hreturn hfeed ih => simp [divide, ih]

theorem proper_divide (text : List Char) : (divide text).Proper := by
  induction text using divide.induct with
  | case1 => simp [divide, Division.Proper, BreakFree]
  | case2 rest ih => simp [divide, Division.Proper, BreakFree, ih]
  | case3 rest hnot ih =>
      simp only [divide]
      refine ⟨by simp [BreakFree], fun _ after hafter => ?_, ih⟩
      -- The rest would begin with the line feed that belongs to the carriage return.
      have hrest := text_divide rest
      rw [hafter] at hrest
      exact hnot after.text (by simpa [Division.text, Terminator.chars] using hrest.symm)
  | case4 rest ih => simp [divide, Division.Proper, BreakFree, ih]
  | case5 c rest hboth hreturn hfeed ih =>
      simp only [divide]
      refine ih.prepend ⟨?_, ?_⟩ <;> simp_all [eq_comm]

theorem linesFrom_eq (line text : List Char) :
    linesFrom line text = ((divide text).prepend line.reverse).lines := by
  fun_induction linesFrom line text with
  | case1 line => simp [divide, Division.prepend, Division.lines]
  | case2 line rest ih =>
      rw [List.reverse_nil, Division.prepend_nil] at ih
      simp [divide, Division.prepend, Division.lines, ih]
  | case3 line rest hnot ih =>
      rw [List.reverse_nil, Division.prepend_nil] at ih
      simp [divide, Division.prepend, Division.lines, ih]
  | case4 line rest ih =>
      rw [List.reverse_nil, Division.prepend_nil] at ih
      simp [divide, Division.prepend, Division.lines, ih]
  | case5 line c rest hboth hreturn hfeed ih => simp [divide, ih]

theorem lines_eq (text : List Char) : lines text = (divide text).lines := by
  rw [lines, linesFrom_eq, List.reverse_nil, Division.prepend_nil]

theorem divide_append {line : List Char} (h : BreakFree line) (text : List Char) :
    divide (line ++ text) = (divide text).prepend line := by
  induction line with
  | nil => simp
  | cons c line ih =>
      obtain ⟨hreturn, hfeed⟩ := h
      simp only [List.mem_cons, not_or] at hreturn hfeed
      rw [List.cons_append, divide, ih ⟨hreturn.2, hfeed.2⟩, Division.prepend_prepend,
        List.singleton_append]
      all_goals simp_all [eq_comm]

theorem divide_terminator (t : Terminator) {text : List Char}
    (h : t = .carriageReturn → ∀ rest, text ≠ '\n' :: rest) :
    divide (t.chars ++ text) = .broken [] t (divide text) := by
  cases t with
  | lineFeed => rfl
  | both => rfl
  | carriageReturn =>
      change divide ('\r' :: text) = _
      rw [divide]
      exact fun rest htext => h rfl rest htext

/-- A text has no other proper division than the one that is read from its front. -/
theorem divide_text {D : Division} (h : D.Proper) : divide D.text = D := by
  induction D with
  | last line =>
      have hline : divide (line ++ []) = (divide []).prepend line := divide_append h []
      simpa [Division.text, divide, Division.prepend] using hline
  | broken line t rest ih =>
      obtain ⟨hline, hnot, hrest⟩ := h
      have hbehind : t = .carriageReturn → ∀ after, rest.text ≠ '\n' :: after := by
        intro ht after htext
        obtain ⟨after, hafter⟩ := hrest.eq_broken_of_text_eq htext
        exact hnot ht after hafter
      rw [Division.text, List.append_assoc, divide_append hline, divide_terminator t hbehind,
        ih hrest, Division.prepend, List.append_nil]

theorem lines_text {D : Division} (h : D.Proper) : lines D.text = D.lines := by
  rw [lines_eq, divide_text h]

end Text

namespace Document

open Text (Division Terminator BreakFree)

variable {M : Type}

theorem setText_lines (d : Document M) (limits : Limits) (text : List Char) :
    (d.setText limits text).document.lines = (Text.lines text).map List.toArray := by
  simp only [setText]
  rcases (d.grammar.tokenizeLines limits _ .initial).fault with _ | fault <;> rfl

/-- A document stores the lines of the only proper division of its text, whether or not they can be
tokenized. Lines that are joined with one kind of terminator come back as they were. -/
theorem setText_divides (d : Document M) (limits : Limits) :
    (∀ text,
      (∃! D : Division, D.Proper ∧ D.text = text) ∧
        (d.setText limits text).document.lines ≠ [] ∧
        ∀ lines, (d.setText limits text).document.lines = lines.map List.toArray ↔
          ∃ D : Division, D.Proper ∧ D.text = text ∧ D.lines = lines) ∧
      ∀ (t : Terminator) (lines : List (List Char)), lines ≠ [] → (∀ l ∈ lines, BreakFree l) →
        (d.setText limits (t.chars.intercalate lines)).document.lines =
          lines.map List.toArray := by
  refine ⟨fun text => ⟨⟨Text.divide text, ?_, ?_⟩, ?_, fun lines => ?_⟩, ?_⟩
  · exact ⟨Text.proper_divide text, Text.text_divide text⟩
  · rintro D ⟨hproper, rfl⟩
    exact (Text.divide_text hproper).symm
  · rw [setText_lines, Text.lines_eq, Ne, List.map_eq_nil_iff]
    exact Division.lines_ne_nil _
  · rw [setText_lines, List.map_inj_right fun a b hab => congrArg Array.toList hab]
    constructor
    · rintro rfl
      exact ⟨Text.divide text, Text.proper_divide text, Text.text_divide text,
        (Text.lines_eq text).symm⟩
    · rintro ⟨D, hproper, rfl, rfl⟩
      exact Text.lines_text hproper
  · intro t lines hne hlines
    rw [setText_lines]
    cases lines with
    | nil => exact absurd rfl hne
    | cons line rest =>
        rw [← Division.text_joined, Text.lines_text (Division.proper_joined t hlines),
          Division.lines_joined]

theorem setText_divides_sample :
    let d := Document.empty Grammar.sample
    let mixed := "a\n\r\n\r\rb\n\n".toList
    let separators := ["x\x0cy".toList, [], "\u0085\u2028".toList]
    (d.setText .default mixed).document.lines =
        ["a".toList, [], [], [], "b".toList, [], []].map List.toArray ∧
      (d.setText .default (['\r'].intercalate separators)).document.lines =
        separators.map List.toArray := by
  intro d mixed separators
  obtain ⟨hdivides, hjoins⟩ := setText_divides d .default
  constructor
  · refine ((hdivides mixed).2.2 _).mpr ⟨.broken ['a'] .lineFeed (.broken [] .both
      (.broken [] .carriageReturn (.broken [] .carriageReturn (.broken ['b'] .lineFeed
        (.broken [] .lineFeed (.last [])))))), ?_, rfl, rfl⟩
    simp [Division.Proper, BreakFree]
  · refine hjoins .carriageReturn separators (List.cons_ne_nil _ _) ?_
    simp only [separators, List.forall_mem_cons, BreakFree]
    decide

end Document

end LineScope
