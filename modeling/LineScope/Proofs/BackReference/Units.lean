import LineScope.Proofs.Grammar.WellFormed

/-!
References told by the units of a pattern, which are a backslash with the character after it, and
every other character. The references are the units that are a backslash and a digit, each with the
run of digits behind it, as long as no escaped backslash stands before a digit: the second backslash
of such a pair is taken for the first character of a reference.
-/

namespace LineScope.BackReference

/-- The units of a text, read from the left. -/
def unitsOf : List Char → List Pattern.Token
  | [] => []
  | [c] => [.char c]
  | c :: d :: rest =>
    if c == '\\' then .escape d :: unitsOf rest else .char c :: unitsOf (d :: rest)

def units (source : String) : List Pattern.Token := unitsOf source.toList

/-- Whether a unit is a backslash and a digit. -/
def refers : Pattern.Token → Bool
  | .escape c => Unicode.isDecimal c
  | .char _ => false

def looksReferring : Pattern.Token → Pattern.Token → Bool
  | .escape c, .char d => c == '\\' && Unicode.isDecimal d
  | _, _ => false

/-- No escaped backslash stands before a digit. -/
def Unambiguous (us : List Pattern.Token) : Prop := us.IsChain fun t u => looksReferring t u = false

instance : DecidablePred Unambiguous := fun us =>
  inferInstanceAs (Decidable (us.IsChain fun t u => looksReferring t u = false))

/-- The text of units in which each unit that refers, together with the run of digits behind it, is
replaced by what `f` makes of the digits; all other units are kept. -/
inductive Rewritten (f : List Char → List Char) : List Pattern.Token → List Char → Prop
  | nil : Rewritten f [] []
  | kept {t : Pattern.Token} {us : List Pattern.Token} {out : List Char} :
      refers t = false → Rewritten f us out → Rewritten f (t :: us) (t.chars ++ out)
  | reference {d : Char} {digits out : List Char} {us : List Pattern.Token} :
      Unicode.isDecimal d = true → (∀ c ∈ digits, Unicode.isDecimal c = true) →
      (∀ c, us.head? = some (.char c) → Unicode.isDecimal c = false) → Rewritten f us out →
      Rewritten f (.escape d :: (digits.map .char ++ us)) (f (d :: digits) ++ out)

def Piece.rewritten (f : List Char → List Char) : Piece → List Char
  | .char c => [c]
  | .reference digits => f digits

theorem unitsOf_cons {c : Char} (hc : c ≠ '\\') (cs : List Char) :
    unitsOf (c :: cs) = .char c :: unitsOf cs := by
  rcases cs with _ | ⟨d, rest⟩
  · rfl
  · rw [unitsOf, if_neg (by simpa using hc)]

theorem unitsOf_escape (c : Char) (cs : List Char) :
    unitsOf ('\\' :: c :: cs) = .escape c :: unitsOf cs := rfl

theorem head?_unitsOf {c : Char} {cs : List Char} (h : (unitsOf cs).head? = some (.char c)) :
    cs.head? = some c := by
  rcases cs with _ | ⟨d, _ | ⟨e, rest⟩⟩
  · cases h
  · cases h
    rfl
  · simp only [unitsOf] at h
    split at h
    · cases h
    · cases h
      rfl

theorem ne_backslash_of_isDecimal {c : Char} (h : Unicode.isDecimal c = true) : c ≠ '\\' := by
  rintro rfl
  exact absurd h (by decide)

theorem unitsOf_run {run : List Char} (h : ∀ c ∈ run, Unicode.isDecimal c = true)
    (cs : List Char) : unitsOf (run ++ cs) = run.map .char ++ unitsOf cs := by
  induction run with
  | nil => rfl
  | cons c rest ih =>
      obtain ⟨hc, hrest⟩ := List.forall_mem_cons.mp h
      rw [List.cons_append, unitsOf_cons (ne_backslash_of_isDecimal hc), ih hrest]
      rfl

theorem piecesFrom_char {c : Char} (hc : c ≠ '\\') (cs : List Char) :
    piecesFrom .nothing (c :: cs) = .char c :: piecesFrom .nothing cs := by
  rw [piecesFrom, if_neg (by simpa using hc)]

theorem piecesFrom_escape {c : Char} (hdigit : Unicode.isDecimal c = false) (hc : c ≠ '\\')
    (cs : List Char) :
    piecesFrom .nothing ('\\' :: c :: cs) = .char '\\' :: .char c :: piecesFrom .nothing cs := by
  simp [piecesFrom, hdigit, hc]

theorem piecesFrom_backslash {cs : List Char}
    (h : ∀ c, cs.head? = some c → Unicode.isDecimal c = false) :
    piecesFrom .backslash cs = .char '\\' :: piecesFrom .nothing cs := by
  rcases cs with _ | ⟨c, rest⟩
  · rfl
  · have hc := h c rfl
    by_cases hslash : c = '\\'
    · simp [piecesFrom, hslash, show Unicode.isDecimal '\\' = false by decide]
    · simp [piecesFrom, hc, hslash]

theorem piecesFrom_run {ds run cs : List Char} (hrun : ∀ c ∈ run, Unicode.isDecimal c = true)
    (hcs : ∀ c, cs.head? = some c → Unicode.isDecimal c = false) :
    piecesFrom (.digits ds) (run ++ cs) =
      .reference (ds.reverse ++ run) :: piecesFrom .nothing cs := by
  induction run generalizing ds with
  | nil =>
      rcases cs with _ | ⟨c, rest⟩
      · simp [piecesFrom]
      · have hc := hcs c rfl
        by_cases hslash : c = '\\'
        · simp [piecesFrom, hslash, show Unicode.isDecimal '\\' = false by decide]
        · simp [piecesFrom, hc, hslash]
  | cons c rest ih =>
      obtain ⟨hc, hrest⟩ := List.forall_mem_cons.mp hrun
      rw [List.cons_append, piecesFrom, if_pos hc, ih hrest, List.reverse_cons, List.append_assoc]
      rfl

theorem exists_run (cs : List Char) : ∃ run rest, cs = run ++ rest ∧
    (∀ c ∈ run, Unicode.isDecimal c = true) ∧
      ∀ c, rest.head? = some c → Unicode.isDecimal c = false := by
  refine ⟨cs.takeWhile Unicode.isDecimal, cs.dropWhile Unicode.isDecimal,
    List.takeWhile_append_dropWhile.symm,
    fun c hc => List.all_eq_true.mp List.all_takeWhile c hc, fun c hc => ?_⟩
  have hhead := List.head?_dropWhile_not Unicode.isDecimal cs
  rw [hc] at hhead
  simpa using hhead

theorem piecesFrom_reference {d : Char} (hd : Unicode.isDecimal d = true) (cs : List Char) :
    ∃ digits rest, piecesFrom .backslash (d :: cs) = .reference digits :: rest := by
  obtain ⟨run, rest, rfl, hrun, hrest⟩ := exists_run cs
  exact ⟨_, _, by rw [piecesFrom, if_pos hd, piecesFrom_run hrun hrest]⟩

theorem unambiguous_cons {t : Pattern.Token} (ht : t ≠ .escape '\\') {us : List Pattern.Token} :
    Unambiguous (t :: us) ↔ Unambiguous us := by
  have hlooks : ∀ u, looksReferring t u = false := by
    intro u
    cases t with
    | char c => rfl
    | escape c =>
        have hc : c ≠ '\\' := fun heq => ht (congrArg _ heq)
        cases u with
        | char d => simp [looksReferring, hc]
        | escape d => rfl
  rw [Unambiguous, List.isChain_cons]
  exact and_iff_right fun u _ => hlooks u

theorem unambiguous_escaped {cs : List Char} :
    Unambiguous (.escape '\\' :: unitsOf cs) ↔
      (∀ c, cs.head? = some c → Unicode.isDecimal c = false) ∧ Unambiguous (unitsOf cs) := by
  rw [Unambiguous, List.isChain_cons]
  refine and_congr_left fun _ => ⟨fun h c hc => ?_, fun h u hu => ?_⟩
  · by_contra hdigit
    have hdigit : Unicode.isDecimal c = true := Bool.not_eq_false _ ▸ hdigit
    obtain ⟨rest, rfl⟩ := List.head?_eq_some_iff.mp hc
    have hlooks := h (.char c) (by rw [unitsOf_cons (ne_backslash_of_isDecimal hdigit)]; rfl)
    simp [looksReferring, hdigit] at hlooks
  · cases u with
    | escape d => rfl
    | char d => simpa [looksReferring] using h d (head?_unitsOf hu)

theorem any_isReference_iff (cs : List Char) :
    (piecesFrom .nothing cs).any Piece.isReference = true ↔
      (∃ t ∈ unitsOf cs, refers t = true) ∨ ¬ Unambiguous (unitsOf cs) := by
  induction cs using unitsOf.induct with
  | case1 => simp [piecesFrom, unitsOf, Unambiguous]
  | case2 c =>
      by_cases hslash : c = '\\'
      · simp [piecesFrom, unitsOf, Unambiguous, refers, Piece.isReference, hslash]
      · simp [piecesFrom, unitsOf, Unambiguous, refers, Piece.isReference, hslash]
  | case3 c d rest hslash ih =>
      obtain rfl := eq_of_beq hslash
      rw [unitsOf_escape]
      by_cases hdigit : Unicode.isDecimal d = true
      · obtain ⟨digits, more, heq⟩ := piecesFrom_reference hdigit rest
        have hpieces : piecesFrom .nothing ('\\' :: d :: rest) = .reference digits :: more := heq
        simp [hpieces, Piece.isReference, refers, hdigit]
      · have hdigit : Unicode.isDecimal d = false := Bool.eq_false_iff.mpr hdigit
        have hunits : (∃ t ∈ Pattern.Token.escape d :: unitsOf rest, refers t = true) ↔
            ∃ t ∈ unitsOf rest, refers t = true := by
          simp [refers, hdigit]
        rw [hunits]
        by_cases hescaped : d = '\\'
        · subst hescaped
          have hpieces : piecesFrom .nothing ('\\' :: '\\' :: rest) =
            .char '\\' :: piecesFrom .backslash rest := rfl
          rw [hpieces, unambiguous_escaped]
          by_cases hrest : ∀ c, rest.head? = some c → Unicode.isDecimal c = false
          · rw [piecesFrom_backslash hrest, and_iff_right hrest]
            simpa [Piece.isReference] using ih
          · obtain ⟨c, hc, hdigit⟩ : ∃ c, rest.head? = some c ∧ Unicode.isDecimal c = true := by
              simpa using hrest
            obtain ⟨more, rfl⟩ := List.head?_eq_some_iff.mp hc
            obtain ⟨digits, behind, heq⟩ := piecesFrom_reference hdigit more
            simp [heq, Piece.isReference, hdigit]
        · rw [piecesFrom_escape hdigit hescaped,
            unambiguous_cons (by simpa using hescaped)]
          simpa [Piece.isReference] using ih
  | case4 c d rest hslash ih =>
      have hc : c ≠ '\\' := by simpa using hslash
      rw [piecesFrom_char hc, unitsOf_cons hc, unambiguous_cons (by simp)]
      simpa [Piece.isReference, refers] using ih

/-- Without an escaped backslash before a digit, the references are the units that refer. -/
theorem rewritten_of_unambiguous (f : List Char → List Char) {cs : List Char}
    (h : Unambiguous (unitsOf cs)) :
    Rewritten f (unitsOf cs) ((piecesFrom .nothing cs).flatMap (Piece.rewritten f)) := by
  induction hlength : cs.length using Nat.strong_induction_on generalizing cs with
  | _ n ih =>
      subst hlength
      rcases cs with _ | ⟨c, cs⟩
      · exact .nil
      · by_cases hslash : c = '\\'
        · subst hslash
          rcases cs with _ | ⟨d, rest⟩
          · exact .kept rfl .nil
          · rw [unitsOf_escape] at h ⊢
            by_cases hdigit : Unicode.isDecimal d = true
            · obtain ⟨run, rest, rfl, hrun, hrest⟩ := exists_run rest
              have hpieces : piecesFrom .nothing ('\\' :: d :: (run ++ rest)) =
                  .reference (d :: run) :: piecesFrom .nothing rest := by
                change piecesFrom .backslash (d :: (run ++ rest)) = _
                rw [piecesFrom, if_pos hdigit, piecesFrom_run hrun hrest]
                rfl
              rw [unitsOf_run hrun] at h ⊢
              rw [hpieces]
              refine .reference hdigit hrun (fun c hc => hrest c (head?_unitsOf hc)) ?_
              have hless : rest.length < ('\\' :: d :: (run ++ rest)).length := by
                simp only [List.length_cons, List.length_append]
                omega
              exact ih _ hless (h.tail.right_of_append) rfl
            · have hdigit : Unicode.isDecimal d = false := Bool.eq_false_iff.mpr hdigit
              have hless : rest.length < ('\\' :: d :: rest).length :=
                Nat.lt_succ_of_lt (Nat.lt_succ_self _)
              by_cases hescaped : d = '\\'
              · subst hescaped
                obtain ⟨hrest, hbehind⟩ := unambiguous_escaped.mp h
                have hpieces : piecesFrom .nothing ('\\' :: '\\' :: rest) =
                    .char '\\' :: .char '\\' :: piecesFrom .nothing rest := by
                  rw [← piecesFrom_backslash hrest]
                  rfl
                rw [hpieces]
                exact .kept hdigit (ih _ hless hbehind rfl)
              · rw [piecesFrom_escape hdigit hescaped]
                exact .kept hdigit (ih _ hless h.tail rfl)
        · rw [unitsOf_cons hslash] at h ⊢
          rw [piecesFrom_char hslash]
          exact .kept rfl (ih _ (Nat.lt_succ_self _) h.tail rfl)

theorem blank_rewritten {source : String} (h : Unambiguous (units source)) :
    Rewritten (fun _ => "(?:)".toList) (units source) (blank source).toList := by
  have hblanked : Piece.blanked = Piece.rewritten fun _ => "(?:)".toList := by
    funext p
    cases p <;> rfl
  have htext : (blank source).toList = (pieces source).flatMap Piece.blanked :=
    String.toList_ofList
  rw [htext, hblanked]
  exact rewritten_of_unambiguous _ h

theorem resolvedChars_eq {line : Text} {groups : List (Option Span)} {ps : List Piece}
    {cs : List Char} (h : resolvedChars line groups ps = .ok cs) :
    cs = ps.flatMap (Piece.rewritten fun digits =>
      groupText line groups (Text.digitsValue digits)) := by
  induction ps generalizing cs with
  | nil =>
      cases h
      rfl
  | cons p rest ih =>
      obtain ⟨first, hfirst, h⟩ := bind_eq_ok.mp h
      obtain ⟨more, hmore, heq⟩ := bind_eq_ok.mp h
      cases heq
      have hp : first = p.rewritten fun digits =>
          groupText line groups (Text.digitsValue digits) := by
        cases p with
        | char c =>
            cases hfirst
            rfl
        | reference digits =>
            simp only [Piece.resolved] at hfirst
            split at hfirst
            · cases hfirst
            · cases hfirst
              rfl
      rw [List.flatMap_cons, ← hp, ← ih hmore]

theorem resolve_rewritten {source bound : String} (h : Unambiguous (units source)) {line : Text}
    {groups : List (Option Span)} (hresolve : resolve source line groups = .ok bound) :
    Rewritten (fun digits => groupText line groups (Text.digitsValue digits)) (units source)
      bound.toList := by
  obtain ⟨cs, hcs, rfl⟩ := map_eq_ok.mp hresolve
  rw [String.toList_ofList, resolvedChars_eq hcs]
  exact rewritten_of_unambiguous _ h

end LineScope.BackReference

namespace LineScope

open BackReference

variable {M : Type} {e : Engine M} {source : String}

def Grammar.regionDocument (scopeName opening ending : String) : Json := .obj [
  ("scopeName", .str scopeName),
  ("patterns", .arr [.obj [("begin", .str opening), ("end", .str ending)]])]

open GrammarDocument Json in
theorem Grammar.exists_ofJson_regionDocument {scopeName opening ending : String}
    (hname : scopeName ≠ "") (hopening : e.Accepts opening) (hending : e.AcceptsEnd ending) :
    ∃ g, ofJson e (regionDocument scopeName opening ending) = .ok g := by
  have hregion : IsRegion e [("begin", .str opening), ("end", .str ending)] := {
    beginSource := ⟨opening, rfl, hopening⟩
    endSource := ⟨ending, rfl, hending⟩
    scope := .none
    contentScope := .none
    beginCaptures := .none
    endCaptures := .none }
  have hincludes : ∀ source target, ¬ Includes [("scopeName", .str scopeName),
      ("patterns", .arr [.obj [("begin", .str opening), ("end", .str ending)]])] source target := by
    rintro source target ⟨item, hitem, reference, hinclude, -⟩
    cases source with
    | root =>
        obtain rfl := List.mem_singleton.mp hitem
        cases hinclude with
        | here hfound => cases hfound
        | group _ _ hbegin => cases hbegin
    | entry key => cases hitem
    | inside rule => cases hitem
  refine exists_ofJson_iff.mpr ⟨_, rfl, ⟨scopeName, rfl, hname⟩, nofun, ?_, nofun, ?_⟩
  · refine .list (List.forall_mem_singleton.mpr ?_)
    exact .region rfl rfl rfl hregion .none
  · intro name hcycle
    obtain ⟨target, hincluded, -⟩ := Relation.TransGen.head'_iff.mp hcycle
    exact hincludes name target hincluded

/-- What comes of an end pattern that an engine gets as it stands: rules with it are refused only if
the engine rejects it, and have its matcher in every grammar. -/
structure Engine.FixesEnd (e : Engine M) (source : String) : Prop where
  accepts : e.AcceptsEnd source ↔ e.Accepts source
  documents : ∀ {scopeName opening : String}, scopeName ≠ "" → e.Accepts opening →
    e.Accepts source →
      ∃ g, Grammar.ofJson e (Grammar.regionDocument scopeName opening source) = .ok g
  compiled : ∀ {document : Json} {g : Grammar M} {r : RegionRule M},
    Grammar.ofJson e document = .ok g → .region r ∈ g.rules → r.endSource = source →
      ∃ m, r.closer = some m ∧ e.compile source = .ok m

theorem Engine.fixesEnd (e : Engine M) (h : occursIn source = false) : e.FixesEnd source := by
  have haccepts : e.AcceptsEnd source ↔ e.Accepts source := by
    rw [Engine.AcceptsEnd, h]
    rfl
  refine ⟨haccepts, fun hname hopening hending =>
    Grammar.exists_ofJson_regionDocument hname hopening (haccepts.mpr hending), ?_⟩
  rintro document g r hg hr rfl
  obtain ⟨coherent, rfl⟩ := Grammar.ofJson_coherent hg
  have hcompiled := coherent.compiled r hr
  unfold RegionRule.EndCompiled at hcompiled
  split at hcompiled
  · rename_i m hm
    exact ⟨m, hm, hcompiled.2⟩
  · rw [h] at hcompiled
    cases hcompiled.1

namespace BackReference

/-- A pattern refers to groups if one of its units does, or if an escaped backslash stands before a
digit. Where none does, exactly the units that refer are rewritten; and a pattern that has none of
them either goes to the engine as it stands. -/
theorem references_are_units (e : Engine M) (source : String) :
    (occursIn source = true ↔
      (∃ t ∈ units source, refers t = true) ∨ ¬ Unambiguous (units source)) ∧
    (Unambiguous (units source) →
      Rewritten (fun _ => "(?:)".toList) (units source) (blank source).toList ∧
      (∀ line groups,
        (∀ bound, resolve source line groups = .ok bound →
          Rewritten (fun digits => groupText line groups (Text.digitsValue digits)) (units source)
            bound.toList) ∧
        (Readable source → ∃ bound, resolve source line groups = .ok bound)) ∧
      ((∀ t ∈ units source, refers t = false) → e.FixesEnd source)) := by
  have hoccurs := any_isReference_iff source.toList
  refine ⟨hoccurs, fun h => ⟨blank_rewritten h, fun line groups => ⟨fun bound hbound =>
    resolve_rewritten h hbound, fun readable => resolve_of_readable readable line groups⟩, ?_⟩⟩
  intro hplain
  refine e.fixesEnd (Bool.eq_false_iff.mpr fun hreference => ?_)
  rcases hoccurs.mp hreference with ⟨t, ht, hrefers⟩ | hambiguous
  · rw [hplain t ht] at hrefers
    cases hrefers
  · exact hambiguous h

theorem references_are_units_sample :
    Unambiguous (units "\\\\\\12[a]\\2") ∧ blank "\\\\\\12[a]\\2" = "\\\\(?:)[a](?:)" ∧
      Rewritten (fun _ => "(?:)".toList) (units "\\\\\\12[a]\\2") "\\\\(?:)[a](?:)".toList := by
  have hblank : blank "\\\\\\12[a]\\2" = "\\\\(?:)[a](?:)" := by
    decide +kernel
  have hunambiguous : Unambiguous (units "\\\\\\12[a]\\2") := by
    decide +kernel
  obtain ⟨-, h⟩ := references_are_units Engine.pattern "\\\\\\12[a]\\2"
  have hrewritten := (h hunambiguous).1
  rw [hblank] at hrewritten
  exact ⟨hunambiguous, hblank, hrewritten⟩

/-- No unit of the pattern for a backslash and the digit one refers to a group. It is taken to refer
to one all the same, so that the engine does not get it as it stands, and rejects what it gets. -/
theorem escaped_backslash_misread :
    (∀ t ∈ units "\\\\1", refers t = false) ∧ occursIn "\\\\1" = true ∧
      blank "\\\\1" = "\\(?:)" ∧
      resolve "\\\\1" #['a'] [some ⟨0, 1⟩, some ⟨0, 1⟩] = .ok "\\a" ∧
      Engine.pattern.Accepts "\\\\1" ∧ Engine.pattern.Accepts "<" ∧
      ¬ ∃ g, Grammar.ofJson Engine.pattern (Grammar.regionDocument "text" "<" "\\\\1") = .ok g := by
  have haccepts : ∀ source, (Engine.pattern.compile source).isOk = true →
      Engine.pattern.Accepts source := by
    intro source h
    rcases hcompile : Engine.pattern.compile source with refusal | m
    · rw [hcompile] at h
      cases h
    · exact ⟨m, hcompile⟩
  have hrefused : (Grammar.ofJson Engine.pattern
      (Grammar.regionDocument "text" "<" "\\\\1")).isOk = false := by
    decide +kernel
  refine ⟨by decide +kernel, by decide +kernel, by decide +kernel, by decide +kernel,
    haccepts _ (by decide +kernel), haccepts _ (by decide +kernel), ?_⟩
  rintro ⟨g, hg⟩
  rw [hg] at hrefused
  cases hrefused

end BackReference

end LineScope
