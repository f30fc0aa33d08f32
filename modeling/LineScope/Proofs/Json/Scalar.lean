import LineScope.Json.Printer
import LineScope.Json.Reader

/-!
Numbers and strings as JSON texts. What the printer writes is read again as it was, with what stands
behind it left over, if only a number is not gone on with there.
-/

namespace LineScope.Json

def Reads {α : Type} (r : Reading (α × Input)) (a : α) (rest : List Char) : Prop :=
  ∃ pos, r = .ok (a, ⟨pos, rest⟩)

theorem takeWhile_append_of_head? {p : Char → Bool} {cs rest : List Char}
    (hcs : ∀ c ∈ cs, p c = true) (hrest : ∀ c ∈ rest.head?, p c = false) :
    (cs ++ rest).takeWhile p = cs := by
  rw [List.takeWhile_append_of_pos hcs]
  rcases rest with _ | ⟨c, rest⟩
  · exact List.append_nil _
  · rw [List.takeWhile_cons_of_neg (by simp [hrest c rfl]), List.append_nil]

/-- Nothing that a number in front of the text would go on with. -/
def EndsNumber (rest : List Char) : Prop :=
  ∀ c ∈ rest.head?, c.isDigit = false ∧ c ≠ '.' ∧ c ≠ 'e' ∧ c ≠ 'E'

theorem endsNumber_cons {c : Char} (rest : List Char)
    (h : c.isDigit = false ∧ c ≠ '.' ∧ c ≠ 'e' ∧ c ≠ 'E') : EndsNumber (c :: rest) := by
  intro x hx
  cases hx
  exact h

theorem ne_of_isDigit {c d : Char} (hc : c.isDigit = true) (hd : d.isDigit = false) : c ≠ d := by
  rintro rfl
  rw [hc] at hd
  cases hd

theorem digitValue?_of_isDigit {c : Char} (h : c.isDigit = true) :
    Unicode.digitValue? c = some (c.toNat - '0'.toNat) := by
  have hlow : c.toNat < 128 := by
    simp only [Char.isDigit, Bool.and_eq_true, decide_eq_true_eq] at h
    have hle : c.toNat ≤ '9'.toNat := h.2
    exact Nat.lt_of_le_of_lt hle (by decide)
  rw [Unicode.digitValue?, if_pos hlow, if_pos h]

theorem digitsValue_toDigits (m : Nat) : Text.digitsValue (Nat.toDigits 10 m) = m := by
  have hfold : ∀ (cs : List Char) (n : Nat), (∀ c ∈ cs, c.isDigit = true) →
      cs.foldl (fun n c => 10 * n + (Unicode.digitValue? c).getD 0) n =
        Nat.ofDigitChars 10 cs n := by
    intro cs
    induction cs with
    | nil => exact fun n _ => rfl
    | cons c cs ih =>
        intro n h
        obtain ⟨hc, hcs⟩ := List.forall_mem_cons.mp h
        rw [List.foldl_cons, digitValue?_of_isDigit hc, Option.getD_some, ih _ hcs,
          Nat.ofDigitChars_cons]
  have hdigits : ∀ c ∈ Nat.toDigits 10 m, c.isDigit = true :=
    fun c hc => Nat.isDigit_of_mem_toDigits (by decide) (by decide) hc
  rw [Text.digitsValue, hfold _ _ hdigits, Nat.ofDigitChars_ten_toDigits]

theorem toDigits_eq_cons (m : Nat) :
    ∃ c more, c.isDigit = true ∧ Nat.toDigits 10 m = c :: more := by
  obtain ⟨c, more, hdigits⟩ := List.exists_cons_of_ne_nil (Nat.toDigits_ne_nil (b := 10) (n := m))
  have hmem : c ∈ Nat.toDigits 10 m := hdigits ▸ List.mem_cons_self
  exact ⟨c, more, Nat.isDigit_of_mem_toDigits (by decide) (by decide) hmem, hdigits⟩

theorem head?_toDigits_append (m : Nat) (cs : List Char) :
    (Nat.toDigits 10 m ++ cs).head? = (Nat.toDigits 10 m).head? := by
  obtain ⟨c, more, -, hdigits⟩ := toDigits_eq_cons m
  rw [hdigits]
  rfl

theorem eq_zero_of_head?_toDigits {m : Nat} (h : (Nat.toDigits 10 m).head? = some '0') :
    m = 0 := by
  induction m using Nat.strongRecOn with
  | ind m ih =>
      rcases Nat.lt_or_ge m 10 with hlt | hge
      · rw [Nat.toDigits_of_lt_base hlt, List.head?_cons, Option.some.injEq,
          Nat.digitChar_eq_zero] at h
        exact h
      · rw [Nat.toDigits_of_base_le (by decide) hge, head?_toDigits_append] at h
        have hzero := ih (m / 10) (by omega) h
        omega

theorem takeWhile_toDigits (m : Nat) {rest : List Char} (h : EndsNumber rest) :
    (Nat.toDigits 10 m ++ rest).takeWhile Char.isDigit = Nat.toDigits 10 m :=
  takeWhile_append_of_head?
    (fun _ hc => Nat.isDigit_of_mem_toDigits (by decide) (by decide) hc) fun c hc => (h c hc).1

theorem fraction_eq_nil {rest : List Char} (h : EndsNumber rest) : fraction rest = [] := by
  unfold fraction
  split
  · exact absurd rfl (h _ rfl).2.1
  · rfl

theorem exponent?_eq_none {rest : List Char} (h : EndsNumber rest) : exponent? rest = none := by
  rcases rest with _ | ⟨c, rest⟩
  · rfl
  · obtain ⟨-, -, hlower, hupper⟩ := h c rfl
    simp [exponent?, hlower, hupper]

theorem unsigned_toDigits {m : Nat} (negative : Bool) (taken : Nat) (i : Input)
    {rest : List Char} (hm : (Nat.toDigits 10 m).length ≤ Text.digitLimit)
    (h : EndsNumber rest) :
    unsigned negative taken i (Nat.toDigits 10 m ++ rest) =
      .ok (.int (if negative then -m else m), i.drop (taken + (Nat.toDigits 10 m).length)) := by
  unfold unsigned
  extract_lets whole after places used exponent left n
  have hwhole : whole = Nat.toDigits 10 m := by
    unfold whole
    split
    · rename_i more hzero
      have hhead : (Nat.toDigits 10 m).head? = some '0' := by
        rw [← head?_toDigits_append m rest, hzero]
        rfl
      rw [eq_zero_of_head?_toDigits hhead]
      rfl
    · exact takeWhile_toDigits m h
  have hsome : ¬ whole.isEmpty = true := by
    simp [hwhole, Nat.toDigits_ne_nil]
  have hafter : after = rest := by
    simp only [after, hwhole, List.drop_left]
  have hplaces : places = [] := by
    simp only [places, hafter, fraction_eq_nil h]
  have hexponent : exponent = none := by
    simp [exponent, used, hplaces, hafter, exponent?_eq_none h]
  have hleft : left = i.drop (taken + (Nat.toDigits 10 m).length) := by
    simp [left, used, hwhole, hplaces, hexponent]
  have hvalue : n = m := by
    simp only [n, hwhole, digitsValue_toDigits]
  rw [if_neg hsome, if_pos (by simp [hplaces, hexponent]),
    if_neg (by simpa [hwhole] using hm), hleft, hvalue]

theorem number_intText {n : Int} (hn : (Nat.toDigits 10 n.natAbs).length ≤ Text.digitLimit)
    (pos : Nat) {rest : List Char} (h : EndsNumber rest) :
    Reads (number ⟨pos, intText n ++ rest⟩) (.int n) rest := by
  by_cases hneg : n < 0
  · have hvalue : -(n.natAbs : Int) = n := by omega
    rw [intText, if_pos hneg, List.cons_append, number]
    refine ⟨pos + (1 + (Nat.toDigits 10 n.natAbs).length), ?_⟩
    change unsigned true 1 _ (Nat.toDigits 10 n.natAbs ++ rest) = _
    rw [unsigned_toDigits true 1 _ hn h, if_pos rfl, hvalue, Input.drop, Nat.add_comm 1,
      List.drop_succ_cons, List.drop_left]
  · have hvalue : (n.natAbs : Int) = n := by omega
    rw [intText, if_neg hneg]
    refine ⟨pos + (0 + (Nat.toDigits 10 n.natAbs).length), ?_⟩
    rw [number]
    split
    · rename_i more hminus
      obtain ⟨c, tail, hdigit, hdigits⟩ := toDigits_eq_cons n.natAbs
      rw [hdigits] at hminus
      exact absurd (List.cons.inj hminus).1 (ne_of_isDigit hdigit rfl)
    · rw [unsigned_toDigits false 0 _ hn h, if_neg Bool.false_ne_true, hvalue, Input.drop,
        Nat.zero_add, List.drop_left]

theorem hexDigit?_digitChar : ∀ d < 16, hexDigit? (Nat.digitChar d) = some d := by
  decide

theorem hexUnit?_hexDigits {n : Nat} (h : n < 0x10000) (c : Char) (more : List Char) :
    hexUnit? (Text.hexDigits 4 n ++ c :: more) = some n := by
  have hdigit : ∀ k, hexDigit? (Nat.digitChar (k % 16)) = some (k % 16) :=
    fun k => hexDigit?_digitChar (k % 16) (Nat.mod_lt k (by decide))
  have hvalue : (n / 16 / 16 / 16 % 16 * 16 + n / 16 / 16 % 16) * 256 + n / 16 % 16 * 16 + n % 16
      = n := by
    omega
  simp [Text.hexDigits, hexUnit?, hdigit, hvalue]

theorem not_isUnit (c : Char) : isHighUnit c.toNat = false ∧ isLowUnit c.toNat = false := by
  have hvalid : c.toNat < 0xD800 ∨ 0xDFFF < c.toNat ∧ c.toNat < 0x110000 := c.valid
  simp only [isHighUnit, isLowUnit, Bool.and_eq_false_iff, decide_eq_false_iff_not]
  omega

theorem unicodeEscape_unit (pos : Nat) {c : Char} (hc : c.toNat < 0x10000) (q : Char)
    (more : List Char) :
    unicodeEscape pos (Text.hexDigits 4 c.toNat ++ q :: more) = .ok (c, 4) := by
  obtain ⟨hhigh, hlow⟩ := not_isUnit c
  simp [unicodeEscape, hexUnit?_hexDigits hc, hhigh, hlow]

theorem isHighUnit_add {k : Nat} (h : k < 0x400) : isHighUnit (0xD800 + k) = true := by
  simp only [isHighUnit, Bool.and_eq_true, decide_eq_true_eq]
  omega

theorem isLowUnit_add {k : Nat} (h : k < 0x400) : isLowUnit (0xDC00 + k) = true := by
  simp only [isLowUnit, Bool.and_eq_true, decide_eq_true_eq]
  omega

theorem unicodeEscape_pair (pos : Nat) {high low : Nat} (hhigh : high < 0x400)
    (hlow : low < 0x400) (q : Char) (more : List Char) :
    unicodeEscape pos
        (Text.hexDigits 4 (0xD800 + high) ++ (unitEscape (0xDC00 + low) ++ q :: more)) =
      .ok (Char.ofNat (0x10000 + high * 0x400 + low), 10) := by
  have hfirst := isHighUnit_add hhigh
  have hsecond := isLowUnit_add hlow
  have hhighUnit : 0xD800 + high < 0x10000 := by omega
  have hlowUnit : 0xDC00 + low < 0x10000 := by omega
  -- the sums stay closed, as they are large numbers
  generalize hu : 0xD800 + high = u at *
  generalize hl : 0xDC00 + low = l at *
  have hlength : (Text.hexDigits 4 u).length = 4 := Text.length_hexDigits 4 u
  rw [unitEscape, List.cons_append, unicodeEscape, hexUnit?_hexDigits hhighUnit]
  simp only [hfirst, List.drop_left' hlength, List.cons_append, List.length_append,
    Text.length_hexDigits, List.length_cons, hexUnit?_hexDigits hlowUnit, hsecond, if_true]
  rw [if_neg (by omega), ← hu, ← hl, Nat.add_sub_cancel_left, Nat.add_sub_cancel_left]

theorem length_unitEscape (n : Nat) : (unitEscape n).length = 6 := by
  rw [unitEscape, List.length_cons, List.length_cons, Text.length_hexDigits]

theorem stringRest_unicode (start : Nat) (read : List Char) (fuel pos : Nat) {c : Char}
    {length : Nat} {cs more : List Char} (h : unicodeEscape (pos + 1) cs = .ok (c, length))
    (hmore : cs.drop length = more) :
    stringRest start read (fuel + 1) ⟨pos, '\\' :: 'u' :: cs⟩ =
      stringRest start (c :: read) fuel ⟨pos + (2 + length), more⟩ := by
  simp [stringRest, h, bind, Except.bind, Input.drop, Nat.add_comm 2 length, hmore]

theorem stringRest_unit (start : Nat) (read : List Char) (fuel pos : Nat) {c : Char}
    (hc : c.toNat < 0x10000) (q : Char) (more : List Char) :
    stringRest start read (fuel + 1) ⟨pos, unitEscape c.toNat ++ q :: more⟩ =
      stringRest start (c :: read) fuel ⟨pos + 6, q :: more⟩ :=
  stringRest_unicode start read fuel pos (unicodeEscape_unit (pos + 1) hc q more)
    (List.drop_left' (Text.length_hexDigits ..))

theorem stringRest_pair (start : Nat) (read : List Char) (fuel pos : Nat) {high low : Nat}
    (hhigh : high < 0x400) (hlow : low < 0x400) (q : Char) (more : List Char) :
    stringRest start read (fuel + 1)
        ⟨pos, unitEscape (0xD800 + high) ++ unitEscape (0xDC00 + low) ++ q :: more⟩ =
      stringRest start (Char.ofNat (0x10000 + high * 0x400 + low) :: read) fuel
        ⟨pos + 12, q :: more⟩ := by
  have hread := unicodeEscape_pair (pos + 1) hhigh hlow q more
  generalize 0xD800 + high = u at *
  generalize 0xDC00 + low = l at *
  have hlength : (Text.hexDigits 4 u ++ unitEscape l).length = 10 := by
    rw [List.length_append, Text.length_hexDigits, length_unitEscape]
  rw [List.append_assoc, unitEscape, List.cons_append, List.cons_append]
  refine stringRest_unicode start read fuel pos hread ?_
  rw [← List.append_assoc]
  exact List.drop_left' hlength

theorem stringRest_char (start : Nat) (read : List Char) (fuel pos : Nat) {c : Char}
    (cs : List Char) (hquote : c ≠ '"') (hslash : c ≠ '\\') (hlow : ¬ c.toNat < 0x20) :
    stringRest start read (fuel + 1) ⟨pos, c :: cs⟩ =
      stringRest start (c :: read) fuel ⟨pos + 1, cs⟩ := by
  rw [stringRest.eq_def]
  simp only
  split
  case h_6 heq =>
    obtain ⟨rfl, rfl⟩ := List.cons.inj heq
    rw [if_neg hlow, Input.drop, List.drop_succ_cons, List.drop_zero]
  all_goals simp_all

/-- A character is read from its escape, if the string goes on or ends. -/
theorem stringRest_escapeChar (start : Nat) (read : List Char) (fuel pos : Nat) (c q : Char)
    (more : List Char) :
    stringRest start read (fuel + 1) ⟨pos, escapeChar c ++ q :: more⟩ =
      stringRest start (c :: read) fuel ⟨pos + (escapeChar c).length, q :: more⟩ := by
  by_cases hshort : c ∈ ['"', '\\', '\n', '\r', '\t', '\x0c', '\x08']
  · simp only [List.mem_cons, List.not_mem_nil, or_false] at hshort
    rcases hshort with rfl | rfl | rfl | rfl | rfl | rfl | rfl <;> rfl
  · simp only [List.mem_cons, List.not_mem_nil, or_false, not_or] at hshort
    obtain ⟨hquote, hslash, hline, hreturn, htab, hpage, hback⟩ := hshort
    unfold escapeChar
    simp only [beq_iff_eq, hquote, hslash, hline, hreturn, htab, hpage, hback, if_false]
    split
    · rename_i hprintable
      have hspace : ' ' ≤ c := by simpa using (Bool.and_eq_true_iff.mp hprintable).1
      have hlow : ' '.toNat ≤ c.toNat := hspace
      exact stringRest_char start read fuel pos (q :: more) hquote hslash (Nat.not_lt.mpr hlow)
    split
    · rename_i hunit
      rw [stringRest_unit start read fuel pos hunit, length_unitEscape]
    · rename_i hpair
      have hvalid : c.toNat < 0xD800 ∨ 0xDFFF < c.toNat ∧ c.toNat < 0x110000 := c.valid
      have hhigh : (c.toNat - 0x10000) / 0x400 < 0x400 := by omega
      have hlow : (c.toNat - 0x10000) % 0x400 < 0x400 := by omega
      have hvalue : 0x10000 + (c.toNat - 0x10000) / 0x400 * 0x400 + (c.toNat - 0x10000) % 0x400 =
          c.toNat := by
        omega
      rw [stringRest_pair start read fuel pos hhigh hlow, hvalue, Char.ofNat_toNat,
        List.length_append, length_unitEscape, length_unitEscape]

theorem length_escapeChar_pos (c : Char) : 0 < (escapeChar c).length := by
  unfold escapeChar
  repeat' split
  all_goals simp [unitEscape]

theorem length_le_length_flatMap_escapeChar (cs : List Char) :
    cs.length ≤ (cs.flatMap escapeChar).length := by
  induction cs with
  | nil => exact Nat.le_refl 0
  | cons c cs ih =>
      have hc := length_escapeChar_pos c
      rw [List.flatMap_cons, List.length_append, List.length_cons]
      omega

theorem stringRest_escapes (start : Nat) (cs read : List Char) (fuel pos : Nat)
    (rest : List Char) (hfuel : cs.length < fuel) :
    Reads (stringRest start read fuel ⟨pos, cs.flatMap escapeChar ++ '"' :: rest⟩)
      (String.ofList (read.reverse ++ cs)) rest := by
  induction cs generalizing read fuel pos with
  | nil =>
      obtain ⟨fuel, rfl⟩ := Nat.exists_eq_add_of_lt hfuel
      refine ⟨pos + 1, ?_⟩
      rw [List.append_nil]
      rfl
  | cons c cs ih =>
      obtain ⟨fuel, rfl⟩ : ∃ k, fuel = k + 1 := ⟨fuel - 1, by omega⟩
      have hne : cs.flatMap escapeChar ++ '"' :: rest ≠ [] := by simp
      obtain ⟨q, more, hnext⟩ := List.exists_cons_of_ne_nil hne
      have hrest := ih (c :: read) fuel (pos + (escapeChar c).length) (by simpa using hfuel)
      rw [hnext, List.reverse_cons, List.append_assoc, List.singleton_append] at hrest
      rw [List.flatMap_cons, List.append_assoc, hnext, stringRest_escapeChar]
      exact hrest

theorem string_quote (s : String) (pos : Nat) (rest : List Char) :
    Reads (string ⟨pos, quote s ++ rest⟩) s rest := by
  have hfuel : s.toList.length < (quote s ++ rest).length + 1 := by
    have hlength := length_le_length_flatMap_escapeChar s.toList
    simp only [quote, List.length_append, List.length_cons]
    omega
  have hread := stringRest_escapes pos s.toList [] _ (pos + 1) rest hfuel
  rw [List.reverse_nil, List.nil_append, String.ofList_toList] at hread
  have htext : quote s ++ rest = '"' :: (s.toList.flatMap escapeChar ++ '"' :: rest) := by
    simp [quote]
  rw [string, Input.drop]
  simp only [htext, List.drop_succ_cons, List.drop_zero]
  rw [← htext]
  exact hread

end LineScope.Json
