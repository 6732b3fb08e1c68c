/-
  The tokens of a text. A text is cut into words, numbers, strings and marks; a number may stand where
  an operand may, with a sign or a point in front, and elsewhere these are marks. At the head of a
  token every rule of the lexical level either reads the whole token or stops, whatever blank comes
  behind it.
-/
import PartScript.Proofs.Heads
import PartScript.Proofs.Longer

namespace PartScript.Grammar

open Grammar.Parser

/-! ## Tokens -/

/-- A rule reads `w` from a text that goes on with `y`. -/
def Takes {α : Type} (p : Parser α) (w y : List Char) : Prop :=
  ∃ c a d, c.rest = w ++ y ∧ p c = .ok a d ∧ d.rest = y

/-- A token of a text that goes on with `y`, and what may stand before it and behind it: an operand,
or only a mark. -/
inductive Token : Stage → (w y : List Char) → Stage → Prop where
  | word {s ch w y} : isWordStart ch = true → (∀ x ∈ w, isWordPart x = true) →
      (∀ x ∈ y.head?, isWordPart x = false) → Token s (ch :: w) y .mark
  | number {w y} : Takes numeral w y → w.head? ≠ some '-' → y.head? ≠ some '.' →
      Token .operand w y .mark
  | string {s inner y} : (∀ x ∈ inner, isStringPart x = true) →
      Token s ('"' :: (inner ++ ['"'])) y .mark
  | mark {s ch y} : ch ∈ marks → (s = .operand → ch ≠ '+' ∧ ch ≠ '.') →
      (ch = '/' → y.head? ≠ some '/') → Token s [ch] y (.after ch)
  | semicolon {s y} : Token s [';'] y .operand

/-! ### Numbers -/

section Numbers

variable {c d : Cursor} {w y : List Char}

/-- The characters that a number can begin with. -/
def isNumberStart (ch : Char) : Bool := ch.isDigit || ['+', '-', '.'].contains ch

theorem digits_stops (h : c.rest.head?.any Char.isDigit = false) : digits.Stops c := someOf_stops h

theorem sign_none (h : ∀ ch ∈ c.rest.head?, ch ≠ '+' ∧ ch ≠ '-') : sign c = .ok false c := by
  have hstops : (choice [char '+', char '-']).Stops c := by
    refine Ends.choice fun p hp => ?_
    simp only [List.mem_cons, List.not_mem_nil, or_false] at hp
    rcases hp with rfl | rfl
    · exact char_stops fun hhead => (h _ hhead).1 rfl
    · exact char_stops fun hhead => (h _ hhead).2 rfl
  unfold sign
  rw [bind_ok hstops.optional]
  rfl

theorem mantissa_stops (h : ∀ ch ∈ c.rest.head?, ch.isDigit = false ∧ ch ≠ '.') :
    mantissa.Stops c := by
  have hdigit : c.rest.head?.any Char.isDigit = false := by
    cases hhead : c.rest.head? with
    | none => rfl
    | some ch => exact (h ch hhead).1
  refine Ends.choice fun p hp => ?_
  simp only [List.mem_cons, List.not_mem_nil, or_false] at hp
  rcases hp with rfl | rfl
  · exact (digits_stops hdigit).bind
  · exact (char_stops fun hhead => (h _ hhead).2 rfl).bind

theorem numeral_stops (h : ∀ ch ∈ c.rest.head?, isNumberStart ch = false) : numeral.Stops c := by
  have hstart : ∀ ch ∈ c.rest.head?, ch.isDigit = false ∧ ∀ x ∈ ['+', '-', '.'], ch ≠ x := by
    intro ch hch
    have hch := h ch hch
    unfold isNumberStart at hch
    rw [Bool.or_eq_false_iff, List.contains_eq_mem] at hch
    exact ⟨hch.1, fun x hx heq => absurd hx (heq ▸ of_decide_eq_false hch.2)⟩
  refine Ends.bind (P := fun d => d = c) (Ends.of_ok (sign_none fun ch hch => ?_) rfl) ?_
  · exact ⟨(hstart ch hch).2 _ (by decide), (hstart ch hch).2 _ (by decide)⟩
  · rintro _ _ - rfl
    exact (mantissa_stops fun ch hch => ⟨(hstart ch hch).1, (hstart ch hch).2 _ (by decide)⟩).bind

theorem mantissa_head {m : List Char × List Char} (h : mantissa c = .ok m d) :
    ∃ ch cs, c.rest = ch :: cs ∧ (ch.isDigit = true ∨ ch = '.') := by
  by_contra hnone
  have hstops : mantissa.Stops c := mantissa_stops fun ch hch => by
    obtain ⟨cs, hcs⟩ := List.head?_eq_some_iff.mp hch
    by_contra hstart
    refine hnone ⟨ch, cs, hcs, ?_⟩
    by_contra hneither
    exact hstart ⟨by simpa using fun h => hneither (.inl h), fun h => hneither (.inr h)⟩
  obtain ⟨stops, hstops⟩ := stops_iff.mp hstops
  rw [hstops] at h
  cases h

/-- Where digits may begin there is no sign. -/
theorem sign_of_mantissa {m : List Char × List Char} (h : mantissa c = .ok m d) :
    sign c = .ok false c ∧ c.rest.head? ≠ some '-' := by
  obtain ⟨ch, cs, hcs, hch⟩ := mantissa_head h
  have hne : ch ≠ '+' ∧ ch ≠ '-' := by
    rcases hch with hdigit | rfl
    · exact ⟨by rintro rfl; exact absurd hdigit (by decide),
        by rintro rfl; exact absurd hdigit (by decide)⟩
    · decide
  rw [hcs]
  exact ⟨sign_none (by simpa [hcs] using hne), fun h => hne.2 (Option.some.inj h)⟩

/-- The power of ten behind the digits of a number. -/
def exponent : Parser (Option Int) := optional do
  let _ ← choice [char 'e', char 'E']
  let down ← sign
  let ds ← committed digits
  return if down then -(digitsValue ds : Int) else (digitsValue ds : Int)

theorem numeral_inv {x : Decimal} (h : numeral c = .ok x d) : ∃ negative e m f power,
    sign c = .ok negative e ∧ mantissa e = .ok m f ∧ exponent f = .ok power d := by
  obtain ⟨negative, e, hsign, h⟩ := Parser.ok_of_bind h
  obtain ⟨m, f, hm, h⟩ := Parser.ok_of_bind h
  obtain ⟨power, d', hpower, h⟩ := Parser.ok_of_bind h
  obtain ⟨-, rfl⟩ := Outcome.ok.inj h
  exact ⟨negative, e, m, f, power, hsign, hm, hpower⟩

theorem numeral_of_parts {negative : Bool} {e f : Cursor} {m : List Char × List Char}
    {power : Option Int} (hsign : sign c = .ok negative e) (hm : mantissa e = .ok m f)
    (hpower : exponent f = .ok power d) : ∃ x, numeral c = .ok x d := by
  obtain ⟨whole, fraction⟩ := m
  refine ⟨⟨negative, digitsValue (whole ++ fraction), power.getD 0 - fraction.length⟩, ?_⟩
  unfold numeral
  rw [bind_ok hsign, bind_ok hm]
  show (exponent >>= _) f = _
  rw [bind_ok hpower]
  rfl

/-- Where digits end at a point, so does the number. -/
theorem exponent_point {power : Option Int} (h : exponent c = .ok power d)
    (hc : c.rest.head? = some '.') : d = c := by
  rcases ok_of_optional h with ⟨_, -, hread⟩ | ⟨-, rfl, -⟩
  · obtain ⟨x, e, hmark, -⟩ := Parser.ok_of_bind hread
    obtain ⟨p, hp, hchar⟩ := ok_of_choice hmark
    simp only [List.mem_cons, List.not_mem_nil, or_false] at hp
    rcases hp with rfl | rfl
    · have hhead := (char_inv hchar).2.1
      rw [hc] at hhead
      cases hhead
    · have hhead := (char_inv hchar).2.1
      rw [hc] at hhead
      cases hhead
  · rfl

/-- A number without its plus sign is a number. -/
theorem Takes.of_plus (h : Takes numeral ('+' :: w) y) :
    Takes numeral w y ∧ w.head? ≠ some '-' := by
  obtain ⟨c, x, d, hc, hx, hd⟩ := h
  obtain ⟨negative, e, m, f, power, hsign, hm, hpower⟩ := numeral_inv hx
  have hplus : sign c = .ok false c.next := by
    have hchar : choice [char '+', char '-'] c = .ok '+' c.next :=
      choice_ok (char_ok (by rw [hc]; rfl))
    unfold sign
    rw [bind_ok (optional_ok hchar)]
    rfl
  obtain rfl : c.next = e := (Outcome.ok.inj (hplus.symm.trans hsign)).2
  have hrest : c.next.rest = w ++ y := by rw [Cursor.next_rest, hc]; rfl
  obtain ⟨hnone, hhead⟩ := sign_of_mantissa hm
  obtain ⟨x', hx'⟩ := numeral_of_parts hnone hm hpower
  exact ⟨⟨c.next, x', d, hrest, hx', hd⟩, fun hw => hhead (by rw [hrest, List.head?_append, hw]; rfl)⟩

/-- A number that begins with a point, without the point. -/
theorem Takes.of_point (h : Takes numeral ('.' :: w) y) (hy : y.head? ≠ some '.') :
    Takes numeral w y ∧ w.head? ≠ some '-' := by
  obtain ⟨c, x, d, hc, hx, hd⟩ := h
  obtain ⟨negative, e, m, f, power, hsign, hm, hpower⟩ := numeral_inv hx
  have hnone : sign c = .ok false c := sign_none (by simp [hc])
  obtain rfl : c = e := (Outcome.ok.inj (hnone.symm.trans hsign)).2
  have hrest : c.next.rest = w ++ y := by rw [Cursor.next_rest, hc]; rfl
  obtain ⟨ds, hds⟩ : ∃ ds, digits c.next = .ok ds f := by
    obtain ⟨p, hp, hread⟩ := ok_of_choice hm
    simp only [List.mem_cons, List.not_mem_nil, or_false] at hp
    rcases hp with rfl | rfl
    · obtain ⟨_, _, hwhole, -⟩ := Parser.ok_of_bind hread
      obtain ⟨stops, hstops⟩ := stops_iff.mp (digits_stops (c := c) (by rw [hc]; rfl))
      rw [hstops] at hwhole
      cases hwhole
    · obtain ⟨_, e, hpoint, hread⟩ := Parser.ok_of_bind hread
      obtain ⟨ds, f', hds, hpair⟩ := Parser.ok_of_bind hread
      obtain rfl := (char_inv hpoint).2.2
      obtain ⟨-, rfl⟩ := Outcome.ok.inj hpair
      exact ⟨ds, hds⟩
  have hpoint : f.rest.head? ≠ some '.' := by
    intro hhead
    obtain rfl := exponent_point hpower hhead
    exact hy (hd ▸ hhead)
  have hm' : mantissa c.next = .ok (ds, []) f := by
    refine choice_ok ?_
    rw [bind_ok hds]
    have hno : (do let _ ← char '.'; runOf Char.isDigit : Parser (List Char)).Stops f :=
      (char_stops hpoint).bind
    rw [bind_ok hno.optional]
    rfl
  obtain ⟨hnone', hhead⟩ := sign_of_mantissa hm'
  obtain ⟨x', hx'⟩ := numeral_of_parts hnone' hm' hpower
  exact ⟨⟨c.next, x', d, hrest, hx', hd⟩, fun hw => hhead (by rw [hrest, List.head?_append, hw]; rfl)⟩

/-- A number is read from every text that goes on alike. -/
theorem Takes.reads (h : Takes numeral w y) : ∃ x, ∀ c y', Follows y y' → c.rest = w ++ y' →
    ∃ d, numeral c = .ok x d ∧ d.rest = y' := by
  obtain ⟨c, x, d, hc, hx, rfl⟩ := h
  obtain ⟨run, hrun, -, hread⟩ := numeral_local c x d hx
  obtain rfl := List.append_cancel_right (hc.symm.trans hrun)
  exact ⟨x, fun c' y' hy hc' => hread c' y' hc' hy⟩

theorem Takes.ne_nil (h : Takes numeral w y) : w ≠ [] := by
  rintro rfl
  obtain ⟨c, x, d, hc, hx, rfl⟩ := h
  have hlonger := ((numeral_agree c (Nat.lt_succ_self _)).2 x d hx).shorter
  rw [hc, List.nil_append] at hlonger
  exact Nat.lt_irrefl _ hlonger

theorem Takes.head {ch : Char} (h : Takes numeral (ch :: w) y) : isNumberStart ch = true := by
  obtain ⟨c, x, d, hc, hx, -⟩ := h
  by_contra hstart
  obtain ⟨stops, hstops⟩ := stops_iff.mp (numeral_stops (c := c) (by
    rw [hc]
    rintro _ ⟨⟩
    simpa using hstart))
  rw [hstops] at hx
  cases hx

end Numbers

/-! ### What stands at the head of a token -/

section Heads

variable {s s' : Stage} {w y : List Char} {ch : Char}

/-- Characters of which one is in a class and the other is not. -/
theorem ne_of_class {class_ : Char → Bool} {x : Char} (h : class_ ch = true) (hx : class_ x = false) :
    ch ≠ x := by
  rintro rfl
  rw [h] at hx
  cases hx

theorem not_space_of_class {class_ : Char → Bool} (h : class_ ch = true)
    (hclass : [' ', '\t', '\r', '\n'].any class_ = false) : isSpace ch = false := by
  simp only [List.any_cons, List.any_nil, Bool.or_eq_false_iff] at hclass
  obtain ⟨hspace, htab, hreturn, hfeed, -⟩ := hclass
  simp only [isSpace, Bool.or_eq_false_iff, beq_eq_false_iff_ne]
  exact ⟨⟨⟨ne_of_class h hspace, ne_of_class h htab⟩, ne_of_class h hreturn⟩, ne_of_class h hfeed⟩

theorem not_wordStart_of_numberStart (h : isNumberStart ch = true) : isWordStart ch = false := by
  by_contra hword
  obtain ⟨hdigit, hmark⟩ := not_number_of_wordStart (Bool.not_eq_false _ ▸ hword)
  rw [isNumberStart, hdigit, Bool.false_or, List.contains_iff_mem] at h
  exact hmark h

/-- A number begins with no mark other than its sign and its point. -/
theorem sign_or_point_of_mark (hmark : ch ∈ marks) (h : isNumberStart ch = true) (hminus : ch ≠ '-') :
    ch = '+' ∨ ch = '.' := by
  have hdigit := not_class_of_mark Char.isDigit (by decide) hmark
  rw [isNumberStart, hdigit, Bool.false_or, List.contains_iff_mem] at h
  simpa [hminus] using h

/-- A token begins neither with a blank nor with a comment. -/
theorem Token.head (h : Token s w y s') : ∃ ch cs, w = ch :: cs ∧ isSpace ch = false ∧ ch ≠ '#' ∧
    (ch = '/' → cs = [] ∧ y.head? ≠ some '/') := by
  cases h with
  | @word _ ch w _ hch =>
    exact ⟨ch, w, rfl, not_space_of_class hch (by decide), ne_of_class hch (by decide),
      fun heq => absurd heq (ne_of_class hch (by decide))⟩
  | number hw =>
    obtain ⟨ch, cs, rfl⟩ := List.exists_cons_of_ne_nil hw.ne_nil
    have hch := hw.head
    exact ⟨ch, cs, rfl, not_space_of_class hch (by decide), ne_of_class hch (by decide),
      fun heq => absurd heq (ne_of_class hch (by decide))⟩
  | string => exact ⟨_, _, rfl, by decide, by decide, fun heq => absurd heq (by decide)⟩
  | @mark _ ch _ hch _ hslash =>
    exact ⟨ch, [], rfl, not_class_of_mark isSpace (by decide) hch, ne_of_mem_of_not_mem hch (by decide),
      fun heq => ⟨rfl, hslash heq⟩⟩
  | semicolon => exact ⟨_, _, rfl, by decide, by decide, fun heq => absurd heq (by decide)⟩

/-- Nothing is skipped before a token. -/
theorem Token.bare (h : Token s w y s') {y' : List Char} (hy : Follows y y') :
    Grammar.bare (w ++ y') = w ++ y' := by
  obtain ⟨ch, cs, rfl, hspace, hhash, hslash⟩ := h.head
  have hfeed : ch ≠ '\n' := by
    rintro rfl
    cases hspace
  have hnone : triviaLength false (ch :: (cs ++ y')) = 0 := by
    rw [triviaLength.eq_5 _ _ _ (fun heq => hfeed heq) (fun rest heq hrest => ?_)
      (fun heq => hhash heq), if_neg (by decide), if_neg (by simp [hspace])]
    obtain ⟨rfl, hhead⟩ := hslash heq
    rw [List.nil_append] at hrest
    rcases hy with hsame | hblank
    · exact hhead (hsame ▸ by rw [hrest]; rfl)
    · exact absurd (hblank '/' (by rw [hrest]; rfl)) (by decide)
  unfold Grammar.bare
  rw [List.cons_append, hnone, List.drop_zero]

end Heads

/-! ### What is read from a token -/

section Reading

variable {s s' : Stage} {w y y' : List Char} {ch : Char} {c : Cursor}

/-- A token that begins like a word is one. -/
theorem Token.word_inv (h : Token s (ch :: w) y s') (hch : isWordStart ch = true) :
    s' = .mark ∧ (∀ x ∈ ch :: w, isWordPart x = true) ∧ ∀ x ∈ y.head?, isWordPart x = false := by
  cases h with
  | word _ hw hy => exact ⟨rfl, List.forall_mem_cons.mpr ⟨isWordPart_of_start hch, hw⟩, hy⟩
  | number htakes =>
    rw [not_wordStart_of_numberStart htakes.head] at hch
    cases hch
  | string => exact absurd hch (by decide)
  | mark hmark =>
    rw [not_class_of_mark isWordStart (by decide) hmark] at hch
    cases hch
  | semicolon => exact absurd hch (by decide)

/-- A token that begins like a number, where an operand may stand, is one. -/
theorem Token.number_inv (h : Token .operand (ch :: w) y s') (hch : isNumberStart ch = true)
    (hminus : ch ≠ '-') : s' = .mark ∧ Takes numeral (ch :: w) y := by
  cases h with
  | word hword =>
    rw [not_wordStart_of_numberStart hch] at hword
    cases hword
  | number htakes => exact ⟨rfl, htakes⟩
  | string => exact absurd hch (by decide)
  | mark hmark hsign =>
    rcases sign_or_point_of_mark hmark hch hminus with heq | heq
    · exact absurd heq (hsign rfl).1
    · exact absurd heq (hsign rfl).2
  | semicolon => exact absurd hch (by decide)

/-- A token that begins with a quote is a string. -/
theorem Token.string_inv (h : Token s ('"' :: w) y s') :
    s' = .mark ∧ ∃ inner, w = inner ++ ['"'] ∧ ∀ x ∈ inner, isStringPart x = true := by
  cases h with
  | word hword => exact absurd hword (by decide)
  | number htakes => exact absurd htakes.head (by decide)
  | string hinner => exact ⟨rfl, _, rfl, hinner⟩
  | mark hmark => exact absurd hmark (by decide)

theorem Token.semicolon_inv (h : Token s (';' :: w) y s') : s' = .operand ∧ w = [] := by
  cases h with
  | word hword => exact absurd hword (by decide)
  | number htakes => exact absurd htakes.head (by decide)
  | mark hmark => exact absurd hmark (by decide)
  | semicolon => exact ⟨rfl, rfl⟩

/-- A token that begins with a mark is the mark, or a number and the mark is its sign or point. -/
theorem Token.mark_inv (h : Token s (ch :: w) y s') (hch : ch ∈ marks) :
    (s' = .after ch ∧ w = []) ∨ (Stage.after ch = .operand ∧ Token .operand w y s') := by
  cases h with
  | word hword =>
    rw [not_class_of_mark isWordStart (by decide) hch] at hword
    cases hword
  | number htakes hminus hy =>
    rcases sign_or_point_of_mark hch htakes.head fun heq => hminus (heq ▸ rfl) with rfl | rfl
    · obtain ⟨hw, hhead⟩ := htakes.of_plus
      exact .inr ⟨rfl, .number hw hhead hy⟩
    · obtain ⟨hw, hhead⟩ := htakes.of_point hy
      exact .inr ⟨rfl, .number hw hhead hy⟩
  | string => exact absurd hch (by decide)
  | mark => exact .inl ⟨rfl, rfl⟩
  | semicolon => exact absurd hch (by decide)

/-! A word is read whole, and so are numbers and strings. -/

theorem Token.takeWhile (h : Token s (ch :: w) y s') (hch : isWordStart ch = true)
    (hy : Follows y y') : (ch :: w ++ y').takeWhile isWordPart = ch :: w := by
  obtain ⟨-, hw, hnot⟩ := h.word_inv hch
  have hself : (ch :: w ++ y).takeWhile isWordPart = ch :: w := by
    rw [List.takeWhile_append_of_pos hw]
    cases y with
    | nil => simp
    | cons x xs => rw [List.takeWhile_cons_of_neg (by simp [hnot x rfl]), List.append_nil]
  have hblank : ∀ x, isSpace x = true → isWordPart x = false := fun x hx => by
    by_contra hpart
    rw [not_space_of_class (Bool.not_eq_false _ ▸ hpart) (by decide)] at hx
    cases hx
  have hlonger := Local.takeWhile_follows hblank (u := ch :: w ++ y) (y := y')
    (by rwa [hself, List.drop_left])
  rwa [hself] at hlonger

theorem Token.reads_word (h : Token s (ch :: w) y s') (hch : isWordStart ch = true)
    (hy : Follows y y') (hc : c.rest = ch :: w ++ y') :
    ∃ d, identifier c = .ok (String.ofList (ch :: w)) d ∧ d.rest = y' := by
  have hrun : c.rest.takeWhile isWordPart = ch :: w := hc ▸ h.takeWhile hch hy
  have hstart : c.rest.head?.any isWordStart = true := by
    rw [hc]
    exact hch
  refine ⟨_, by rw [identifier_apply, if_pos hstart, hrun], ?_⟩
  rw [Cursor.skip_rest, hc, List.drop_left]

theorem identifier_stops (hch : isWordStart ch = false) (hc : c.rest.head? = some ch) :
    identifier.Stops c := by
  have hstops : identifier c = .error [⟨c, .run⟩] := by
    rw [identifier_apply, hc, Option.any_some, hch]
    rfl
  exact .of_eq hstops

/-- A word of the language is read where it is the token. -/
theorem Token.takeWhile_eq_iff (h : Token s w y s') (hy : Follows y y') {word : String}
    (hword : word ∈ ["import", "export", "as"]) :
    (w ++ y').takeWhile isWordPart = word.toList ↔ w = word.toList := by
  have hletter : ∀ word ∈ ["import", "export", "as"], word.toList.head?.any isWordStart = true := by
    decide
  obtain ⟨ch, w, rfl, -⟩ := h.head
  constructor
  · intro hrun
    have hch : isWordStart ch = true := by
      have hhead := hletter word hword
      rw [← hrun, List.cons_append] at hhead
      by_cases hpart : isWordPart ch = true
      · rwa [List.takeWhile_cons_of_pos hpart] at hhead
      · rw [List.takeWhile_cons_of_neg hpart] at hhead
        cases hhead
    rw [h.takeWhile hch hy] at hrun
    exact hrun
  · intro hw
    have hch : isWordStart ch = true := by
      have hhead := hletter word hword
      rwa [← hw] at hhead
    exact (h.takeWhile hch hy).trans hw

end Reading

end PartScript.Grammar
