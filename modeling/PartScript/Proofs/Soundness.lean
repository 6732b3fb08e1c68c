/-
  Nothing else is read. The text that a rule reads spells a sentence of its phrase. Every rule is
  taken through its parts from left to right: what has been read so far spells the parts up to there,
  and at the end they are those of a production. The one place where the text has to be looked at is
  a number, which the rule for signs leaves no minus sign.
-/
import PartScript.Build.Symbolic
import PartScript.Proofs.Loops
import PartScript.Proofs.Productions
import PartScript.Proofs.Tokens
import PartScript.Session

namespace PartScript

open Grammar.Parser

namespace Cursor

theorem skip_of_nil {c : Cursor} (h : c.rest = []) (n : Nat) : c.skip n = c := by
  induction n with
  | zero => rfl
  | succ n ih =>
    have hnext : c.next = c := by simp [next, h]
    rw [skip, hnext, ih]

/-- The characters up to a later place tell where it is. -/
theorem Onward.eq_skip {k : Nat} {c d : Cursor} {cs : List Char} (h : c.Onward k d)
    (hrest : c.rest = cs ++ d.rest) : d = c.skip cs.length := by
  obtain ⟨⟨n, rfl⟩, -⟩ := h
  have hlength := congrArg List.length hrest
  rw [List.length_append, skip_rest, List.length_drop] at hlength
  rcases Nat.le_total n c.rest.length with hle | hle
  · rw [show cs.length = n by omega]
  · obtain ⟨m, rfl⟩ := Nat.exists_eq_add_of_le hle
    have hnil : (c.skip c.rest.length).rest = [] := by rw [skip_rest, List.drop_length]
    rw [show cs.length = c.rest.length by omega, ← skip_skip, skip_of_nil hnil]

end Cursor

namespace Grammar

variable {c d e : Cursor} {cs : List Char}

theorem ok_of_committed {α : Type} {p : Parser α} {a : α} (h : committed p c = .ok a d) :
    p c = .ok a d := by
  unfold committed at h
  cases hp : p c <;> rw [hp] at h
  · exact h
  · cases h
  · cases h

/-! ## Numbers -/

theorem runOf_inv {class_ : Char → Bool} (h : runOf class_ c = .ok cs d) :
    c.rest = cs ++ d.rest ∧ (∀ x ∈ cs, class_ x = true) ∧ ∀ x ∈ d.rest.head?, class_ x = false := by
  obtain ⟨rfl, rfl⟩ := Outcome.ok.inj h
  rw [Cursor.skip_rest, drop_takeWhile_length, List.takeWhile_append_dropWhile]
  refine ⟨rfl, fun x hx => List.mem_takeWhile_imp hx, fun x hx => ?_⟩
  have hnot := List.head?_dropWhile_not class_ c.rest
  rw [hx] at hnot
  simpa using hnot

theorem digits_inv (h : digits c = .ok cs d) :
    c.rest = cs ++ d.rest ∧ IsDigits cs ∧ ∀ x ∈ d.rest.head?, x.isDigit = false := by
  have hrun : runOf Char.isDigit c = .ok cs d ∧ cs ≠ [] := by
    unfold digits someOf at h
    dsimp only at h
    split at h
    · cases h
    · next hempty =>
      obtain ⟨rfl, rfl⟩ := Outcome.ok.inj h
      exact ⟨rfl, fun hnil => hempty (List.isEmpty_iff.mpr hnil)⟩
  obtain ⟨hrest, hall, hend⟩ := runOf_inv hrun.1
  exact ⟨hrest, ⟨hrun.2, hall⟩, hend⟩

theorem char_rest {ch x : Char} (h : char ch c = .ok x d) : c.rest = ch :: d.rest := by
  obtain ⟨-, hhead, rfl⟩ := char_inv h
  obtain ⟨rest, hrest⟩ := List.head?_eq_some_iff.mp hhead
  rw [Cursor.next_rest, hrest, List.tail_cons]

theorem choice_char_inv {a b x : Char} (h : choice [char a, char b] c = .ok x d) :
    ∃ ch ∈ [a, b], c.rest = ch :: d.rest := by
  obtain ⟨p, hp, hread⟩ := ok_of_choice h
  simp only [List.mem_cons, List.not_mem_nil, or_false] at hp
  rcases hp with rfl | rfl
  · exact ⟨a, by simp, char_rest hread⟩
  · exact ⟨b, by simp, char_rest hread⟩

theorem sign_inv {negative : Bool} (h : sign c = .ok negative d) :
    ∃ mark ∈ [[], ['+'], ['-']], c.rest = mark ++ d.rest := by
  obtain ⟨found, mid, hfound, h⟩ := Parser.ok_of_bind h
  obtain ⟨-, rfl⟩ := Outcome.ok.inj h
  rcases ok_of_optional hfound with ⟨x, -, hread⟩ | ⟨-, rfl, -⟩
  · obtain ⟨ch, hch, hrest⟩ := choice_char_inv hread
    refine ⟨[ch], ?_, hrest⟩
    simpa using hch
  · exact ⟨[], by simp, rfl⟩

/-- The digits before and behind a point: not both are missing. -/
theorem mantissa_inv {m : List Char × List Char} (h : mantissa c = .ok m d) :
    ∃ ms, c.rest = ms ++ d.rest ∧ (∀ x ∈ d.rest.head?, x.isDigit = false) ∧
      (IsMantissa ms ∨ ∃ fs, ms = '.' :: fs ∧ IsDigits fs) := by
  obtain ⟨p, hp, hread⟩ := ok_of_choice h
  simp only [List.mem_cons, List.not_mem_nil, or_false] at hp
  rcases hp with rfl | rfl
  · obtain ⟨ds, e, hwhole, hread⟩ := Parser.ok_of_bind hread
    obtain ⟨hrest, hds, hend⟩ := digits_inv hwhole
    obtain ⟨fraction, f, hfraction, hread⟩ := Parser.ok_of_bind hread
    obtain ⟨-, rfl⟩ := Outcome.ok.inj hread
    rcases ok_of_optional hfraction with ⟨fs, -, hread⟩ | ⟨-, rfl, -⟩
    · obtain ⟨_, g, hpoint, hrun⟩ := Parser.ok_of_bind hread
      obtain ⟨hfs, hall, hend⟩ := runOf_inv hrun
      refine ⟨ds ++ '.' :: fs, ?_, hend, .inl (.fraction hds hall)⟩
      rw [hrest, char_rest hpoint, hfs, List.append_assoc, List.cons_append]
    · exact ⟨ds, hrest, hend, .inl (.whole hds)⟩
  · obtain ⟨_, e, hpoint, hread⟩ := Parser.ok_of_bind hread
    obtain ⟨fs, f, hfraction, hread⟩ := Parser.ok_of_bind hread
    obtain ⟨-, rfl⟩ := Outcome.ok.inj hread
    obtain ⟨hrest, hfs, hend⟩ := digits_inv hfraction
    exact ⟨'.' :: fs, by rw [char_rest hpoint, hrest, List.cons_append], hend, .inr ⟨fs, rfl, hfs⟩⟩

theorem exponent_inv {power : Option Int} (h : exponent c = .ok power d) :
    ∃ cs, c.rest = cs ++ d.rest ∧ IsExponent cs ∧ (d = c ∨ ∀ x ∈ d.rest.head?, x.isDigit = false) := by
  rcases ok_of_optional h with ⟨value, -, hread⟩ | ⟨-, rfl, -⟩
  · obtain ⟨_, e, hmark, hread⟩ := Parser.ok_of_bind hread
    obtain ⟨down, f, hsign, hread⟩ := Parser.ok_of_bind hread
    obtain ⟨ds, g, hdigits, hread⟩ := Parser.ok_of_bind hread
    obtain ⟨-, rfl⟩ := Outcome.ok.inj hread
    obtain ⟨mark, hmem, hrest⟩ := choice_char_inv hmark
    obtain ⟨sgn, hsgn, hrest'⟩ := sign_inv hsign
    obtain ⟨hrest'', hds, hend⟩ := digits_inv (ok_of_committed hdigits)
    refine ⟨mark :: (sgn ++ ds), ?_, .some hmem hsgn hds, .inr hend⟩
    rw [hrest, hrest', hrest'', List.cons_append, List.append_assoc]
  · exact ⟨[], rfl, .none, .inl rfl⟩

/-- A number that begins with no minus sign is one of those that are accepted. -/
theorem numeral_accepted {x : Decimal} (h : numeral c = .ok x d) (hc : c.rest.head? ≠ some '-') :
    ∃ cs, c.rest = cs ++ d.rest ∧ Accepted cs ∧ ∀ x ∈ d.rest.head?, x.isDigit = false := by
  obtain ⟨negative, e, m, f, power, hsign, hm, hpower⟩ := numeral_inv h
  obtain ⟨sign, hmem, hrest⟩ := sign_inv hsign
  obtain ⟨ms, hms, hdigits, hform⟩ := mantissa_inv hm
  obtain ⟨es, hes, hexponent, hend⟩ := exponent_inv hpower
  have hplus : sign ∈ [[], ['+']] := by
    simp only [List.mem_cons, List.not_mem_nil, or_false] at hmem ⊢
    rcases hmem with rfl | rfl | rfl
    · exact .inl rfl
    · exact .inr rfl
    · exact absurd (by rw [hrest]; rfl) hc
  refine ⟨sign ++ (ms ++ es), ?_, ?_, ?_⟩
  · rw [hrest, hms, hes, List.append_assoc, List.append_assoc]
  · rcases hform with hform | ⟨fs, rfl, hfs⟩
    · exact .whole hplus hform hexponent
    · exact .point hplus hfs hexponent
  · rcases hend with rfl | hend
    · exact hdigits
    · exact hend

theorem mem_of_lookup {α : Type} {table : List (String × α)} {name : String} {a : α}
    (h : table.lookup name = some a) : (name, a) ∈ table := by
  obtain ⟨before, after, htable, -⟩ := List.lookup_eq_some_iff.mp h
  exact htable ▸ by simp

/-! ## What a text says -/

/-- The text from one place to another spells a sentence of tokens and phrases. -/
def Says (g : Grammar) (parts : List Constituent) (c d : Cursor) : Prop :=
  ∃ ts, Spells c ts d ∧ Derivable g Accepted parts ts

section Says

variable {g : Grammar} {parts parts' : List Constituent} {sort : Nonterminal} {t : Terminal}
  {α β : Type} {P : Cursor → Prop} {Q : α → Cursor → Prop}

namespace Says

theorem of_start (h : Says g parts c.start d) : Says g parts c d := by
  obtain ⟨ts, hspells, hderivable⟩ := h
  exact ⟨ts, hspells.of_start, hderivable⟩

theorem start (h : Says g parts c d) : Says g parts c.start d := by
  obtain ⟨ts, hspells, hderivable⟩ := h
  exact ⟨ts, hspells.start, hderivable⟩

theorem append (h : Says g parts c d) (h' : Says g parts' d e) : Says g (parts ++ parts') c e := by
  obtain ⟨ts, hspells, hderivable⟩ := h
  obtain ⟨us, hspells', hderivable'⟩ := h'
  exact ⟨ts ++ us, hspells.append hspells', hderivable.append hderivable'⟩

/-- What follows a word begins with the blanks behind it. -/
theorem after (h : Says g parts c d.start) (h' : Says g parts' d e) :
    Says g (parts ++ parts') c e := h.append h'.start

theorem produce {body : List Constituent} (hproduces : Produces g Accepted sort body)
    (h : Says g body c d) : Says g [.phrase sort] c d := by
  obtain ⟨ts, hspells, hderivable⟩ := h
  exact ⟨ts, hspells, .produce hproduces hderivable⟩

/-- Nothing is said where nothing is left to skip. -/
theorem nil (hc : c.start = c) : Says g [] c c := by
  have hspells : Spells c [] c.start := .nil
  rw [hc] at hspells
  exact ⟨[], hspells, .nil⟩

theorem settled (h : Says g parts c d) : d.start = d := by
  obtain ⟨ts, hspells, -⟩ := h
  exact hspells.settled

theorem single {rest : List Char} (htext : c.start.rest = t.text ++ rest) (hwhole : t.Whole rest)
    (hd : d = (c.start.skip t.text.length).start) : Says g [.token t] c d :=
  ⟨[t], .single htext hwhole hd, .token .nil⟩

end Says

/-! ### Tokens -/

theorem mark_sound (g : Grammar) (ch : Char) (c : Cursor) :
    (mark ch).At c fun _ d => Says g [.mark ch] c d := by
  intro x d h
  obtain ⟨hhead, rfl⟩ := mark_inv h
  obtain ⟨rest, hrest⟩ := List.head?_eq_some_iff.mp hhead
  exact .single hrest True.intro rfl

theorem comma_sound (g : Grammar) (c : Cursor) : comma.At c fun _ d => Says g [.mark ','] c d :=
  .labelled _ (mark_sound g ',' c)

theorem closing_sound (g : Grammar) (bracket : Char) (c : Cursor) :
    (closing bracket).At c fun _ d => Says g [.mark bracket] c d := .labelled _ (mark_sound g bracket c)

theorem identifier_sound (g : Grammar) (c : Cursor) :
    identifier.At c.start fun name d => Says g [.word name] c d.start := by
  intro name d h
  rw [identifier_apply] at h
  split at h
  · next hstart =>
    obtain ⟨rfl, rfl⟩ := Outcome.ok.inj h
    set run := c.start.rest.takeWhile isWordPart with hrun
    have htext : (Terminal.word (String.ofList run)).text = run := String.toList_ofList
    have hsplit : c.start.rest = run ++ c.start.rest.dropWhile isWordPart :=
      List.takeWhile_append_dropWhile.symm
    have hhead : run.head?.any isWordStart = true := by
      cases hrest : c.start.rest with
      | nil => simp [hrest] at hstart
      | cons x xs =>
        have hx : isWordStart x = true := by simpa [hrest] using hstart
        simp [hrun, hrest, isWordPart_of_start hx, hx]
    have hend : ∀ x ∈ (c.start.rest.dropWhile isWordPart).head?, isWordPart x = false := by
      intro x hx
      have hnot := List.head?_dropWhile_not isWordPart c.start.rest
      rw [hx] at hnot
      simpa using hnot
    refine .single (htext.symm ▸ hsplit) ⟨?_, ?_, hend⟩ (by rw [htext])
    · rwa [String.toList_ofList]
    · rw [String.toList_ofList]
      exact fun x hx => List.mem_takeWhile_imp hx
  · cases h

theorem padded_identifier_sound (g : Grammar) (c : Cursor) :
    (padded identifier).At c fun name d => Says g [.word name] c d := by
  intro name d h
  obtain ⟨mid, hmid, rfl⟩ := ok_of_padded h
  exact identifier_sound g c name mid hmid

theorem string_sound (g : Grammar) (c : Cursor) : (padded stringLiteral).At c fun _ d =>
    ∃ inner, Says g [.token (.string inner)] c d := by
  intro s d h
  obtain ⟨mid, hmid, rfl⟩ := ok_of_padded h
  obtain ⟨inner, hrest, hinner⟩ := stringLiteral_inv hmid
  have htext : c.start.rest = (Terminal.string inner).text ++ mid.rest := by
    rw [hrest]
    simp [Terminal.text]
  have honward := (stringLiteral_agree c.start (Nat.lt_succ_self _)).2 s mid hmid
  exact ⟨inner, .single htext hinner (congrArg Cursor.start (honward.eq_skip htext))⟩

theorem number_sound (g : Grammar) (hc : c.head? ≠ some '-') :
    number.At c fun _ d => Says g [.phrase .scalarPrimary] c d := by
  intro x d h
  obtain ⟨mid, hmid, rfl⟩ := ok_of_padded h
  obtain ⟨value, e, hvalue, h⟩ := Parser.ok_of_bind hmid
  obtain ⟨-, rfl⟩ := Outcome.ok.inj h
  obtain ⟨cs, hrest, haccepted, hend⟩ := numeral_accepted hvalue hc
  have honward := (numeral_agree c.start (Nat.lt_succ_self _)).2 value e hvalue
  have htoken : Says g [.token (.number cs)] c e.start :=
    .single hrest hend (congrArg Cursor.start (honward.eq_skip hrest))
  exact .produce (.number haccepted) htoken

/-! ### Names -/

/-- What follows a word goes on behind it. -/
theorem word_bind (g : Grammar) {f : Cursor → String → Parser α}
    (hf : ∀ name d, Says g [.word name] c d.start → (f c.start name).At d Q) :
    (do
      trivia
      let start ← position
      let name ← identifier
      f start name).At c Q := by
  refine .bind (P := fun _ d => d = c.start) (fun _ _ h => (Outcome.ok.inj h).2.symm) ?_
  rintro _ _ rfl
  exact .here (.bind (identifier_sound g c) fun name d hname => hf name d hname)

/-- What follows the word and the parenthesis of a call goes on behind them. -/
theorem called_bind (g : Grammar) {f : Cursor → String → Parser α}
    (hf : ∀ name d, Says g [.word name, .mark '('] c d → (f c.start name).At d Q) :
    (do
      trivia
      let start ← position
      let name ← identifier
      let _ ← mark '('
      f start name).At c Q :=
  word_bind g fun name d hname =>
    .bind (mark_sound g '(' d) fun _ e hmark => hf name e (hname.after hmark)

/-- A word and the blanks behind it. -/
theorem trailing_sound {name : String} (h : Says g [.word name] c d.start) :
    trivia.At d fun _ e => Says g [.word name] c e := fun _ _ htrivia =>
  (Outcome.ok.inj htrivia).2 ▸ h

theorem symbol_sound (g : Grammar) (kind : SymbolKind) (c : Cursor) : (symbol g kind).At c fun name d =>
    Says g [.word name] c d ∧ g.model.kindOf? name = some kind := by
  refine word_bind g fun name d hname => ?_
  split
  · next hkind =>
    exact .bind (trailing_sound hname) fun _ e he => .pure ⟨he, hkind⟩
  · exact .reject _

theorem featureName_sound (g : Grammar) (c : Cursor) :
    (featureName g).At c fun _ d => Says g [.phrase .featurePrimary] c d := by
  refine word_bind g fun name d hname => ?_
  split
  · exact .reject _
  · next hfree =>
    obtain ⟨hreserved, hregistered⟩ := Bool.or_eq_false_iff.mp (Bool.eq_false_iff.mpr hfree)
    have hnamed : g.model.kindOf? name = none ∨ g.model.kindOf? name = some .feature →
        (do trivia; return FeatureRef.named name : Parser FeatureRef).At d fun _ e =>
          Says g [.phrase .featurePrimary] c e := fun hkind =>
      .bind (trailing_sound hname) fun _ e he =>
        .pure (he.produce (.featureName hreserved hregistered hkind))
    split
    · next hkind => exact hnamed (.inl hkind)
    · next hkind => exact hnamed (.inr hkind)
    · exact .reject _

theorem optionWord_sound (g : Grammar) (choices : List String) (c : Cursor) :
    (optionWord choices).At c fun word d => Says g [.word word] c d ∧ word ∈ choices := by
  refine .bind (P := fun _ d => d = c.start) (fun _ _ h => (Outcome.ok.inj h).2.symm) ?_
  rintro _ _ rfl
  refine .here (.bind (P := fun found d => ∀ word ∈ found, Says g [.word word] c d.start) ?_ ?_)
  · refine .optional (fun name d hname => ?_) nofun
    rintro _ ⟨⟩
    exact identifier_sound g c name d hname
  · intro found d hfound
    cases found with
    | none =>
      intro _ _ h
      cases h
    | some word =>
      by_cases hmem : choices.contains word = true
      · simp only [hmem]
        exact .bind (trailing_sound (hfound word rfl)) fun _ e he =>
          .pure ⟨he, List.contains_iff_mem.mp hmem⟩
      · simp only [hmem]
        intro _ _ h
        cases h

/-! ### Chains -/

theorem operator_sound (g : Grammar) (a b : Char) (c : Cursor) :
    (operator a b).At c fun _ d => ∃ ch ∈ [a, b], Says g [.mark ch] c d := by
  refine .choice (List.forall_mem_cons.mpr ⟨?_, List.forall_mem_singleton.mpr ?_⟩)
  · exact (mark_sound g a c).imp fun _ _ h => ⟨a, by simp, h⟩
  · exact (mark_sound g b c).imp fun _ _ h => ⟨b, by simp, h⟩

section Chains

variable {a b : Char} {sum one other : Nonterminal} {operand : Char → α → Parser α}
  (hsum : ∀ ch ∈ [a, b], Produces g Accepted sum [.phrase sum, .mark ch, .phrase other])
  (hoperand : ∀ op left c, (operand op left).At c fun _ d => Says g [.phrase other] c d)
include hsum hoperand

theorem chainLoop_sound {left : α} {n : Nat} (h : Says g [.phrase sum] c d) :
    (chainLoop (operator a b) operand n left).At d fun _ e => Says g [.phrase sum] c e := by
  induction n generalizing left d with
  | zero => exact .pure h
  | succ n ih =>
    refine .bind (P := fun found e => if found.isSome then
      ∃ ch ∈ [a, b], Says g [.phrase sum, .mark ch] c e else Says g [.phrase sum] c e) ?_ ?_
    · exact .optional ((operator_sound g a b d).imp fun _ _ ⟨ch, hch, hmark⟩ =>
        ⟨ch, hch, h.append hmark⟩) h
    · intro found e hfound
      cases found with
      | none => exact .pure hfound
      | some op =>
        obtain ⟨ch, hch, hmark⟩ := hfound
        exact .bind (hoperand op left e) fun _ f hother =>
          ih ((hmark.append hother).produce (hsum ch hch))

theorem chain_sound {first : Parser α} (hone : Produces g Accepted sum [.phrase one])
    (hfirst : first.At c fun _ d => Says g [.phrase one] c d) :
    (chain first (operator a b) operand).At c fun _ d => Says g [.phrase sum] c d :=
  .bind hfirst fun _ _ h => chainLoop_sound hsum hoperand (h.produce hone)

end Chains

/-! ### Phrases between marks -/

theorem pairOf_sound {p : Parser α} (hp : ∀ c, p.At c fun _ d => Says g parts c d) (c : Cursor) :
    (pairOf p).At c fun _ d => Says g (parts ++ .mark ',' :: parts) c d :=
  .bind (hp c) fun _ d h => .bind (comma_sound g d) fun _ e hcomma => .bind (hp e) fun _ _ h' =>
    .pure (h.append (hcomma.append h'))

theorem parenthesized_sound {p : Parser α} (hp : ∀ c, p.At c fun _ d => Says g parts c d) (c : Cursor) :
    (parenthesized p).At c fun _ d => Says g (.mark '(' :: parts ++ [.mark ')']) c d :=
  .bind (mark_sound g '(' c) fun _ d hopen => .bind (hp d) fun _ e h =>
    .bind (closing_sound g ')' e) fun _ _ hclose => .pure ((hopen.append h).append hclose)

/-- A closing parenthesis ends a phrase. -/
theorem closed_sound {a : α} (h : Says g parts c d)
    (hproduces : Produces g Accepted sort (parts ++ [.mark ')'])) :
    (do let _ ← committed (closing ')'); return a : Parser α).At d fun _ e =>
      Says g [.phrase sort] c e :=
  .bind (.committed (closing_sound g ')' d)) fun _ _ hclose => .pure ((h.append hclose).produce hproduces)

/-- What is made of what has been read does not matter. -/
theorem committed_sound {p : Parser α} {f : α → β} (h : p.At c fun _ d => P d) :
    (f <$> committed p).At c fun _ d => P d := .map (.committed h)

/-- A name that is bound to a value of a kind is a phrase. -/
theorem named_sound {f : String → α} {kind : SymbolKind} (hproduces : ∀ name,
    g.model.kindOf? name = some kind → Produces g Accepted sort [.word name]) (c : Cursor) :
    (do return f (← symbol g kind) : Parser α).At c fun _ d => Says g [.phrase sort] c d :=
  .bind (symbol_sound g kind c) fun name _ h => .pure (h.1.produce (hproduces name h.2))

/-- What follows a phrase goes on behind it. -/
theorem phrase_bind {p : Parser α} {f : Cursor → α → Parser β} {R : β → Cursor → Prop} (c : Cursor)
    (hp : ∀ c, p.At c fun _ d => Says g [.phrase sort] c d)
    (hf : ∀ a d, Says g [.phrase sort] c d → (f c.start a).At d R) :
    (do
      trivia
      let start ← position
      let a ← p
      f start a).At c R := by
  refine .bind (P := fun _ d => d = c.start) (fun _ _ h => (Outcome.ok.inj h).2.symm) ?_
  rintro _ _ rfl
  exact .here (.bind (hp c.start) fun a d h => hf a d h.of_start)

section Rules

variable {ask : Rules} (hask : ∀ rule c, (ask rule).At c fun _ d => Says g [.rule rule] c d)
include hask

/-! ### Arguments -/

theorem argument_sound (kind : ParamKind) (c : Cursor) :
    (argument ask kind).At c fun _ d => Says g [.phrase (.argument kind)] c d := by
  cases kind with
  | scalar => exact .bind (hask .scalar c) fun _ _ h => .pure (h.produce .scalarArgument)
  | vector => exact .bind (hask .vector c) fun _ _ h => .pure (h.produce .vectorArgument)
  | datum => exact .bind (hask .datum c) fun _ _ h => .pure (h.produce .datumArgument)
  | feature => exact .bind (hask .feature c) fun _ _ h => .pure (h.produce .featureArgument)
  | selection => exact .bind (hask .selection c) fun _ _ h => .pure (h.produce .selectionArgument)
  | keyword choices =>
    exact .bind (optionWord_sound g choices c) fun _ _ h => .pure (h.1.produce (.optionWord h.2))

/-- The next argument with the comma before it, or nothing where the list may end. -/
theorem nextArgument_sound (typeName : String) (param : Param) (mandatory first : Bool) (c : Cursor) :
    (nextArgument ask typeName param mandatory first).At c fun next d =>
      if next.isSome then Says g (separator first ++ [.phrase (.argument param.kind)]) c d
      else mandatory = false ∧ d = c := by
  have hargument := argument_sound hask param.kind
  unfold nextArgument
  cases first with
  | true =>
    cases mandatory with
    | true => exact .bind (hargument c) fun _ _ h => .pure h
    | false => exact .optional (hargument c) ⟨rfl, rfl⟩
  | false =>
    refine .here (.bind (P := fun found d => if found.isSome then Says g [.mark ','] c d else d = c)
      (.optional (mark_sound g ',' c) rfl) fun found d hfound => ?_)
    cases found with
    | some _ => exact .bind (hargument d) fun _ _ h => .pure (Says.append hfound h)
    | none =>
      obtain rfl := hfound
      cases mandatory with
      | true => exact .refuse _ _ _ _
      | false => exact .pure ⟨rfl, rfl⟩

/-- The arguments of a variadic parameter. `least` of them are still missing when `count` have been
read; a bound above the number of characters left is never used up. -/
theorem variadicArguments_sound (hreads : ∀ rule n, Parser.Agree n 1 (ask rule) (ask rule))
    (typeName : String) (param : Param) (least : Nat) (params : Signature) (n count : Nat)
    (read : List Argument) (hc : c.start = c) (hn : c.rest.length < n) :
    (variadicArguments ask typeName param least n count read).At c fun _ d =>
      Says g [.phrase (.arguments
        (⟨param.name, param.kind, .variadic (least - count)⟩ :: params) read.isEmpty)] c d := by
  induction n generalizing c count read with
  | zero => exact absurd hn (Nat.not_lt_zero _)
  | succ n ih =>
    intro as d h
    obtain ⟨next, e, hnext, hmore⟩ := Parser.ok_of_bind h
    have hsays := nextArgument_sound hask typeName param (count < least) read.isEmpty c next e hnext
    cases next with
    | none =>
      obtain ⟨hleast, rfl⟩ := hsays
      obtain ⟨-, rfl⟩ := Outcome.ok.inj hmore
      have henough : least ≤ count := Nat.le_of_not_lt (of_decide_eq_false hleast)
      rw [Nat.sub_eq_zero_of_le henough]
      exact (Says.nil hc).produce .enough
    | some a =>
      have hshorter := nextArgument_shortens hreads hnext
      have hrest := ih (count + 1) (read ++ [a]) hsays.settled (by omega) as d hmore
      have hlater : (read ++ [a]).isEmpty = false := by simp
      rw [hlater, ← Nat.sub_sub] at hrest
      have hboth := hsays.append hrest
      rw [List.append_assoc] at hboth
      exact hboth.produce .several

/-- The argument for one parameter and those behind it. -/
theorem parameter_sound {typeName : String} {param : Param} {params : Signature} {mandatory : Bool}
    {read : List Argument} (hc : c.start = c)
    (hgiven : Produces g Accepted (.arguments (param :: params) read.isEmpty)
      (separator read.isEmpty ++ [.phrase (.argument param.kind), .phrase (.arguments params false)]))
    (homitted : mandatory = false →
      Produces g Accepted (.arguments (param :: params) read.isEmpty) [])
    (hrest : ∀ (later : List Argument) (d : Cursor), d.start = d →
      (argumentsFrom ask typeName params later).At d fun _ e =>
        Says g [.phrase (.arguments params later.isEmpty)] d e) :
    (do
      match ← nextArgument ask typeName param mandatory read.isEmpty with
      | some argument => argumentsFrom ask typeName params (read ++ [argument])
      | none => return read).At c fun _ d =>
        Says g [.phrase (.arguments (param :: params) read.isEmpty)] c d := by
  refine .bind (nextArgument_sound hask typeName param mandatory read.isEmpty c) fun next d hnext => ?_
  cases next with
  | none =>
    obtain ⟨hmandatory, rfl⟩ := hnext
    exact .pure ((Says.nil hc).produce (homitted hmandatory))
  | some a =>
    refine (hrest (read ++ [a]) d hnext.settled).imp fun _ e hlater => ?_
    have hnotfirst : (read ++ [a]).isEmpty = false := by simp
    rw [hnotfirst] at hlater
    have hboth := Says.append hnext hlater
    rw [List.append_assoc] at hboth
    exact hboth.produce hgiven

theorem argumentsFrom_sound (hreads : ∀ rule n, Parser.Agree n 1 (ask rule) (ask rule))
    (typeName : String) (signature : Signature) (read : List Argument) (hc : c.start = c) :
    (argumentsFrom ask typeName signature read).At c fun _ d =>
      Says g [.phrase (.arguments signature read.isEmpty)] c d := by
  induction signature generalizing c read with
  | nil => exact .pure ((Says.nil hc).produce .noParameter)
  | cons param params ih =>
    have hlater := fun (later : List Argument) (d : Cursor) (hd : d.start = d) => ih later hd
    obtain ⟨name, kind, arity⟩ := param
    unfold argumentsFrom
    cases arity with
    | variadic least =>
      exact variadicArguments_sound hask hreads typeName ⟨name, kind, .variadic least⟩ least params
        (c.rest.length + 1) 0 read hc (Nat.lt_succ_self _)
    | required => exact parameter_sound hask hc .required (fun h => absurd h (by decide)) hlater
    | optional fallback => exact parameter_sound hask hc .given (fun _ => .omitted) hlater

/-- The two forms of a placement. -/
theorem placementArguments_sound (c : Cursor) : (placementArguments g ask).At c fun _ d =>
    Says g [.rule .feature, .mark ',', .rule .datum] c d ∨
      Says g [.rule .feature, .mark ',', .rule .vector, .mark ',', .rule .vector, .mark ',',
        .rule .vector] c d := by
  have hplane : ∀ d, (placementPlane ask).At d fun _ e => Says g [.rule .datum] d e := fun d =>
    .bind (hask .datum d) fun _ e h => .bind (P := fun _ f => Says g [.rule .datum] d f)
      (.ahead h) fun _ _ h => .pure h
  refine .bind (.labelled _ (hask .feature c)) fun _ d hbase => .bind (comma_sound g d) fun _ e hcomma =>
    .here (.bind (P := fun found f =>
      if found.isSome then Says g [.rule .datum] e f else f = e) (.optional (hplane e) rfl) ?_)
  intro found f hfound
  cases found with
  | some plane =>
    refine .here ?_
    have hsays := hbase.append (hcomma.append hfound)
    split
    · exact .refuse _ _ _ _
    · exact .refuse _ _ _ _
    · exact .pure (.inl hsays)
  | none =>
    obtain rfl := hfound
    exact .bind (.labelled _ (hask .vector _)) fun _ d₁ h₁ => .bind (comma_sound g d₁) fun _ d₂ h₂ =>
      .bind (.labelled _ (hask .vector d₂)) fun _ d₃ h₃ => .bind (comma_sound g d₃) fun _ d₄ h₄ =>
      .bind (.labelled _ (hask .vector d₄)) fun _ d₅ h₅ => .pure (.inr (hbase.append
        (hcomma.append (h₁.append (h₂.append (h₃.append (h₄.append h₅)))))))

/-! ### Features -/

theorem constructor_sound (hreads : ∀ rule n, Parser.Agree n 1 (ask rule) (ask rule)) (c : Cursor) :
    (constructor g ask).At c fun _ d => Says g [.phrase .featurePrimary] c d := by
  refine word_bind g fun name d hname => .here (.bind (mark_sound g '(' d) fun _ e hopen => ?_)
  have hcall := hname.after hopen
  split
  · split
    · exact .reject _
    · exact .refuse _ _ _ _
  · next type hfind =>
    have harguments : (callArguments g ask type).At e fun _ f => ∃ body, Says g body e f ∧
        Produces g Accepted .featurePrimary (.word name :: .mark '(' :: body ++ [.mark ')']) := by
      unfold callArguments
      cases hwritten : type.written with
      | declared =>
        exact (argumentsFrom_sound hask hreads type.name type.signature [] hopen.settled).imp
          fun _ _ h => ⟨_, h, .constructor hfind hwritten⟩
      | placement =>
        refine (placementArguments_sound hask e).imp fun _ _ h => ?_
        rcases h with h | h
        · exact ⟨_, h, .placedOnPlane hfind hwritten⟩
        · exact ⟨_, h, .placedInFrame hfind hwritten⟩
    refine .bind (.committed harguments) fun as f ⟨body, hbody, hproduces⟩ =>
      .bind (.committed (closing_sound g ')' f)) fun _ i hclose => .here ?_
    have hsays := ((hcall.append hbody).append hclose).produce hproduces
    split
    · exact .pure hsays
    · exact .refuse _ _ _ _

theorem featurePrimary_sound (hreads : ∀ rule n, Parser.Agree n 1 (ask rule) (ask rule)) (c : Cursor) :
    (featurePrimary g ask).At c fun _ d => Says g [.phrase .featurePrimary] c d := by
  refine .choice (List.forall_mem_cons.mpr ⟨?_, List.forall_mem_cons.mpr ⟨?_,
    List.forall_mem_singleton.mpr (featureName_sound g c)⟩⟩)
  · exact .bind (constructor_sound hask hreads c) fun _ _ h => .pure h
  · exact .bind (mark_sound g '(' c) fun _ d hopen => .bind (hask .feature d) fun _ e h =>
      .bind (mark_sound g ')' e) fun _ _ hclose =>
        .pure (((hopen.append h).append hclose).produce .featureEnclosed)

theorem featureOver_sound (hreads : ∀ rule n, Parser.Agree n 1 (ask rule) (ask rule)) (c : Cursor) :
    (featureOver g ask).At c fun _ d => Says g [.rule .feature] c d := by
  refine .bind (.labelled _ (featurePrimary_sound hask hreads c)) fun primary d h => ?_
  refine At.extend (P := fun _ e => Says g [.rule .feature] c e) (h.produce .featurePrimary) ?_
  exact fun _ e he => .bind (mark_sound g '!' e) fun _ f hmark =>
    .bind (padded_identifier_sound g f) fun _ _ hname =>
      .pure ((he.append (hmark.append hname)).produce .subResult)

/-! ### Datums -/

theorem datumCall_sound (c : Cursor) :
    (datumCall ask).At c fun _ d => Says g [.rule .datum] c d := by
  have hvector : ∀ d, ask.vector.At d fun _ e => Says g [.rule .vector] d e := hask .vector
  have hpair := pairOf_sound hvector
  refine called_bind g fun name d hcall => ?_
  split
  · exact .bind (committed_sound (hvector d)) fun _ _ h => closed_sound (hcall.append h) .datumPoint
  · exact .bind (committed_sound (hpair d)) fun _ _ h => closed_sound (hcall.append h) .axis
  · exact .bind (committed_sound (hpair d)) fun _ _ h => closed_sound (hcall.append h) .plane
  · exact .bind (.reject _) fun _ _ => False.elim

theorem datumOver_sound (c : Cursor) :
    (datumOver g ask).At c fun _ d => Says g [.rule .datum] c d := by
  refine .labelled _ (.choice (List.forall_mem_cons.mpr ⟨datumCall_sound hask c,
    List.forall_mem_cons.mpr ⟨?_, List.forall_mem_singleton.mpr ?_⟩⟩))
  · exact (parenthesized_sound (hask .datum) c).imp fun _ _ h => h.produce .datumEnclosed
  · exact named_sound (fun _ => .datumName) c

/-! ### Vectors -/

theorem components_sound {bracket : Char} (h : Says g parts c d) (hproduces : Produces g Accepted
    .vectorPrimary (parts ++ [.rule .scalar, .mark ',', .rule .scalar, .mark ',', .rule .scalar,
      .mark bracket])) :
    (components ask bracket).At d fun _ e => Says g [.phrase .vectorPrimary] c e := by
  have hscalar : ∀ d, ask.scalar.At d fun _ e => Says g [.rule .scalar] d e := hask .scalar
  refine .bind (.committed (.bind (hscalar d) fun _ d₁ h₁ => .bind (comma_sound g d₁) fun _ d₂ h₂ =>
    .bind (hscalar d₂) fun _ d₃ h₃ => .bind (comma_sound g d₃) fun _ d₄ h₄ =>
    .bind (hscalar d₄) fun _ _ h₅ => .pure (P := fun _ e => Says g [.rule .scalar, .mark ',',
      .rule .scalar, .mark ',', .rule .scalar] d e)
        (h₁.append (h₂.append (h₃.append (h₄.append h₅)))))) fun _ e hbody => ?_
  refine .bind (.committed (closing_sound g bracket e)) fun _ _ hclose => .pure ?_
  exact (h.append (hbody.append hclose)).produce hproduces

theorem vectorCall_sound (c : Cursor) :
    (vectorCall ask).At c fun _ d => Says g [.phrase .vectorPrimary] c d := by
  have hvector : ∀ d, (committed ask.vector).At d fun _ e => Says g [.rule .vector] d e := fun d =>
    .committed (hask .vector d)
  refine called_bind g fun name d hcall => ?_
  split
  · exact components_sound hask hcall .components
  · exact .bind (hvector d) fun _ d₁ h₁ => .bind (.committed (comma_sound g d₁)) fun _ d₂ h₂ =>
      .bind (hvector d₂) fun _ _ h₃ => closed_sound (hcall.append (h₁.append (h₂.append h₃))) .cross
  · exact .bind (hvector d) fun _ _ h => closed_sound (hcall.append h) .normalize
  · exact .reject _

theorem datumPart_sound (c : Cursor) :
    (datumPart g ask).At c fun _ d => Says g [.phrase .vectorPrimary] c d := by
  refine phrase_bind c (datumOver_sound hask) fun datum d h => ?_
  refine .bind (.orReject _ (mark_sound g '.' d)) fun _ e hmark =>
    .bind (.orReject _ (padded_identifier_sound g e)) fun word i hword => ?_
  split
  · next which hlookup =>
    exact .pure ((h.append (hmark.append hword)).produce (.part (mem_of_lookup hlookup)))
  · exact .reject _

section Onward

variable (hreads : ∀ rule n, Parser.Agree n 1 (ask rule) (ask rule))
include hreads

theorem featurePoint_sound (c : Cursor) :
    (featurePoint g ask).At c fun _ d => Says g [.phrase .vectorPrimary] c d := by
  refine phrase_bind c (featureOver_sound hask hreads) fun feature d h => ?_
  exact .bind (.orReject _ (mark_sound g '@' d)) fun _ e hmark =>
    .bind (.committed (.labelled _ (padded_identifier_sound g e))) fun _ _ hname =>
      .pure ((h.append (hmark.append hname)).produce .point)

theorem vectorPrimary_sound (c : Cursor) :
    (vectorPrimary g ask).At c fun _ d => Says g [.phrase .vectorPrimary] c d := by
  have hliteral : (vectorLiteral ask).At c fun _ d => Says g [.phrase .vectorPrimary] c d :=
    .bind (mark_sound g '[' c) fun _ _ hopen => components_sound hask hopen .bracketed
  have henclosed := parenthesized_sound (hask .vector) c
  exact .labelled _ <| .choice <| List.forall_mem_cons.mpr ⟨hliteral,
    List.forall_mem_cons.mpr ⟨vectorCall_sound hask c,
    List.forall_mem_cons.mpr ⟨datumPart_sound hask c,
    List.forall_mem_cons.mpr ⟨featurePoint_sound hask hreads c,
    List.forall_mem_cons.mpr ⟨henclosed.imp fun _ _ h => h.produce .vectorEnclosed,
    List.forall_mem_singleton.mpr (named_sound (fun _ => .vectorName) c)⟩⟩⟩⟩⟩

/-! ### Scalars -/

omit hreads in
theorem scalarCall_sound (c : Cursor) :
    (scalarCall ask).At c fun _ d => Says g [.phrase .scalarPrimary] c d := by
  have hvector : ∀ d, ask.vector.At d fun _ e => Says g [.rule .vector] d e := hask .vector
  have hscalar : ∀ d, ask.scalar.At d fun _ e => Says g [.rule .scalar] d e := hask .scalar
  refine called_bind g fun name d hcall => ?_
  split
  · exact .bind (committed_sound (pairOf_sound hvector d)) fun _ _ h => closed_sound (hcall.append h) .dot
  · exact .bind (committed_sound (hvector d)) fun _ _ h => closed_sound (hcall.append h) .magnitude
  · split
    · next fn hlookup =>
      exact .bind (committed_sound (hscalar d)) fun _ _ h =>
        closed_sound (hcall.append h) (.call (mem_of_lookup hlookup))
    · exact .bind (.reject _) fun _ _ => False.elim

theorem component_sound (c : Cursor) :
    (component g ask).At c fun _ d => Says g [.phrase .scalarPrimary] c d := by
  refine phrase_bind c (vectorPrimary_sound hask hreads) fun operand d h => ?_
  refine .bind (.orReject _ (mark_sound g '.' d)) fun _ e hmark =>
    .bind (padded_identifier_sound g e) fun word i hword => ?_
  split
  · next which hlookup =>
    exact .pure ((h.append (hmark.append hword)).produce (.component (mem_of_lookup hlookup)))
  · exact .reject _

theorem featureValue_sound (c : Cursor) :
    (featureValue g ask).At c fun _ d => Says g [.phrase .scalarPrimary] c d := by
  refine phrase_bind c (featureOver_sound hask hreads) fun feature d h => ?_
  exact .bind (.orReject _ (mark_sound g '$' d)) fun _ e hmark =>
    .bind (.committed (.labelled _ (padded_identifier_sound g e))) fun _ _ hname =>
      .pure ((h.append (hmark.append hname)).produce .value)

theorem scalarPrimary_sound (hc : c.head? ≠ some '-') :
    (scalarPrimary g ask).At c fun _ d => Says g [.phrase .scalarPrimary] c d := by
  have hnumber : (do return ScalarExpr.literal (← number) : Parser ScalarExpr).At c fun _ d =>
      Says g [.phrase .scalarPrimary] c d := .bind (number_sound g hc) fun _ _ h => .pure h
  have henclosed := parenthesized_sound (hask .scalar) c
  exact .labelled _ <| .choice <| List.forall_mem_cons.mpr ⟨hnumber,
    List.forall_mem_cons.mpr ⟨scalarCall_sound hask c,
    List.forall_mem_cons.mpr ⟨component_sound hask hreads c,
    List.forall_mem_cons.mpr ⟨henclosed.imp fun _ _ h => h.produce .scalarEnclosed,
    List.forall_mem_cons.mpr ⟨featureValue_sound hask hreads c,
    List.forall_mem_singleton.mpr (named_sound (fun _ => .scalarName) c)⟩⟩⟩⟩⟩

/-- A minus sign is read as an operator, so none is left in front of a primary phrase. -/
theorem scalarUnaryOver_sound (c : Cursor) :
    (scalarUnaryOver g ask).At c fun _ d => Says g [.rule .scalarUnary] c d := by
  have hunary : ∀ d, ask.scalarUnary.At d fun _ e => Says g [.rule .scalarUnary] d e :=
    hask .scalarUnary
  by_cases hsign : c.head? = some '-'
  · refine .bind (P := fun found d => found = some '-' ∧ Says g [.mark '-'] c d) ?_ ?_
    · intro found d h
      rw [optional_ok (mark_ok hsign)] at h
      obtain ⟨rfl, rfl⟩ := Outcome.ok.inj h
      exact ⟨rfl, mark_sound g '-' c _ _ (mark_ok hsign)⟩
    · rintro _ d ⟨rfl, hmark⟩
      exact .bind (hunary d) fun _ _ h => .pure ((hmark.append h).produce .scalarNeg)
  · refine .bind (P := fun found d => found = none ∧ d = c) ?_ ?_
    · intro found d h
      rw [(mark_stops hsign).optional] at h
      obtain ⟨rfl, rfl⟩ := Outcome.ok.inj h
      exact ⟨rfl, rfl⟩
    · rintro _ _ ⟨rfl, rfl⟩
      refine .bind (scalarPrimary_sound hask hreads hsign) fun base d hbase => .bind
        (P := fun found e => if found.isSome then Says g [.mark '^'] d e else e = d)
        (.optional (mark_sound g '^' d) rfl) fun found e hfound => ?_
      cases found with
      | none =>
        obtain rfl := hfound
        exact .pure (hbase.produce .scalarPrimary)
      | some _ =>
        exact .bind (hunary e) fun _ _ h =>
          .pure ((hbase.append (Says.append hfound h)).produce .power)

theorem scalarTerm_sound (c : Cursor) :
    (scalarTerm g ask).At c fun _ d => Says g [.phrase .scalarTerm] c d :=
  chain_sound (fun _ => .scalarProduct)
    (fun _ _ c => .bind (scalarUnaryOver_sound hask hreads c) fun _ _ h => .pure h) .scalarUnary
    (scalarUnaryOver_sound hask hreads c)

/-! ### Sums and products of vectors -/

theorem vectorUnaryOver_sound (c : Cursor) :
    (vectorUnaryOver g ask).At c fun _ d => Says g [.rule .vectorUnary] c d := by
  refine .bind (P := fun found d => if found.isSome then Says g [.mark '-'] c d else d = c)
    (.optional (mark_sound g '-' c) rfl) fun found d hfound => ?_
  cases found with
  | none =>
    obtain rfl := hfound
    exact (vectorPrimary_sound hask hreads _).imp fun _ _ h => h.produce .vectorPrimary
  | some _ =>
    exact .bind (hask .vectorUnary d) fun _ _ h => .pure ((Says.append hfound h).produce .vectorNeg)

theorem vectorFactorOver_sound (c : Cursor) :
    (vectorFactorOver g ask).At c fun _ d => Says g [.rule .vectorFactor] c d := by
  have hscaled : (scaledVector g ask).At c fun _ d => Says g [.rule .vectorFactor] c d :=
    .bind (scalarUnaryOver_sound hask hreads c) fun _ d h => .bind (mark_sound g '*' d) fun _ e hmark =>
      .bind (hask .vectorFactor e) fun _ _ h' => .pure ((h.append (hmark.append h')).produce .scaled)
  refine .bind (P := fun found d => if found.isSome then Says g [.rule .vectorFactor] c d else d = c)
    (.optional hscaled rfl) fun found d hfound => ?_
  cases found with
  | none =>
    obtain rfl := hfound
    exact (vectorUnaryOver_sound hask hreads _).imp fun _ _ h => h.produce .vectorUnary
  | some _ => exact .pure hfound

theorem vectorTerm_sound (c : Cursor) :
    (vectorTerm g ask).At c fun _ d => Says g [.phrase .vectorTerm] c d :=
  chain_sound (fun _ => .vectorProduct)
    (fun _ _ c => .bind (scalarUnaryOver_sound hask hreads c) fun _ _ h => .pure h) .vectorFactor
    (vectorFactorOver_sound hask hreads c)

/-! ### Selections -/

omit hreads in
theorem query_sound (c : Cursor) :
    (query ask).At c fun _ d => Says g [.phrase .selectionPrimary] c d := by
  refine word_bind g fun name d hname => ?_
  split
  · exact .reject _
  · next kind hlookup =>
    have hmem := mem_of_lookup hlookup
    refine .bind (mark_sound g '(' d) fun _ e hopen =>
      .bind (.committed (hask .feature e)) fun feature i hfeature => ?_
    have hcall := (hname.after hopen).append hfeature
    refine .bind (P := fun found j => if found.isSome then
      ∃ inner, Says g [.mark ',', .token (.string inner)] i j else j = i) ?_ fun found j hfound => ?_
    · exact .optional (.bind (mark_sound g ',' i) fun _ k hmark =>
        (At.committed (.labelled _ (string_sound g k))).imp fun _ _ ⟨inner, hinner⟩ =>
          ⟨inner, hmark.append hinner⟩) rfl
    · cases found with
      | none =>
        obtain rfl := hfound
        exact closed_sound hcall (.query hmem)
      | some _ =>
        obtain ⟨inner, hinner⟩ := hfound
        exact closed_sound (hcall.append hinner) (.filtered hmem)

omit hreads in
theorem selectionPrimary_sound (c : Cursor) :
    (selectionPrimary g ask).At c fun _ d => Says g [.phrase .selectionPrimary] c d := by
  have henclosed := parenthesized_sound (hask .selection) c
  exact .labelled _ <| .choice <| List.forall_mem_cons.mpr ⟨query_sound hask c,
    List.forall_mem_cons.mpr ⟨henclosed.imp fun _ _ h => h.produce .selectionEnclosed,
    List.forall_mem_singleton.mpr (named_sound (fun _ => .selectionName) c)⟩⟩

/-! ### The grammar as a whole -/

/-- Every rule says its phrase if the rules for its parts do. -/
theorem ruleOver_sound (rule : Rule) (c : Cursor) :
    (ruleOver g ask rule).At c fun _ d => Says g [.rule rule] c d := by
  cases rule with
  | scalar =>
    exact chain_sound (fun _ => .scalarSum)
      (fun _ _ c => .bind (scalarTerm_sound hask hreads c) fun _ _ h => .pure h) .scalarTerm
      (scalarTerm_sound hask hreads c)
  | scalarUnary => exact scalarUnaryOver_sound hask hreads c
  | vector =>
    exact chain_sound (fun _ => .vectorSum)
      (fun _ _ c => .bind (vectorTerm_sound hask hreads c) fun _ _ h => .pure h) .vectorTerm
      (vectorTerm_sound hask hreads c)
  | vectorFactor => exact vectorFactorOver_sound hask hreads c
  | vectorUnary => exact vectorUnaryOver_sound hask hreads c
  | datum => exact datumOver_sound hask c
  | selection =>
    exact chain_sound (fun _ => .selectionSum)
      (fun _ _ c => .bind (selectionPrimary_sound hask c) fun _ _ h => .pure h) .selectionPrimary
      (selectionPrimary_sound hask c)
  | feature => exact featureOver_sound hask hreads c

end Onward

end Rules

theorem within_sound (g : Grammar) (depth : Nat) (rule : Rule) (c : Cursor) :
    (within g depth rule).At c fun _ d => Says g [.rule rule] c d := by
  induction depth generalizing rule c with
  | zero => exact fun _ _ h => nomatch h
  | succ depth ih => exact ruleOver_sound ih (within_onward g depth) rule c

/-- What is left of the text after a success. -/
def Outcome.left? {α : Type} : Outcome α → Option (List Char)
  | .ok _ d => some d.rest
  | _ => none

theorem Outcome.left?_eq_some {α : Type} {o : Outcome α} {cs : List Char} :
    o.left? = some cs ↔ ∃ a d, o = .ok a d ∧ d.rest = cs := by
  cases o <;> simp [left?]

/-- The text that a rule of the grammar reads spells tokens that are derivable by the documented
productions, once the numbers in it are. The numbers that are read may have a plus sign in front, and
may lack the digits before the point: it is only these that the productions do not give where a
number is an unsigned one. -/
theorem parse_derivable {g : Grammar} {rule : Rule} {c d : Cursor} {a : rule.Value}
    (h : g.parse rule c = .ok a d) :
    ∃ ts, Spells c ts d ∧ (∀ cs, .number cs ∈ ts → Accepted cs) ∧
      ∀ numeral, Derivable g numeral [.rule rule] ts ↔ ∀ cs, .number cs ∈ ts → numeral cs := by
  obtain ⟨ts, hspells, hderivable⟩ := within_sound g (c.rest.length + 1) rule c a d h
  have hnumbers : ∀ {numeral}, Derivable g numeral [.rule rule] ts →
      ∀ cs, .number cs ∈ ts → numeral cs := fun hts cs hcs =>
    hts.fits (fun t ht => by simp at ht) (.number cs) hcs cs rfl
  refine ⟨ts, hspells, hnumbers hderivable, fun numeral => ⟨hnumbers, fun hall => ?_⟩⟩
  exact hderivable.change fun t ht cs hcs => hall cs (hcs ▸ ht)

theorem parse_derivable_product :
    let g : Grammar := ⟨Catalog.registry, .empty⟩
    let c := Cursor.ofText "2.5 * (1 + 3)"
    ∃ a d, g.parse .scalar c = .ok a d ∧ d.rest = [] ∧
      ∃ ts, Spells c ts d ∧ (∀ cs, .number cs ∈ ts → Accepted cs) ∧
        ∀ numeral, Derivable g numeral [.rule .scalar] ts ↔ ∀ cs, .number cs ∈ ts → numeral cs := by
  intro g c
  have hread : (g.parse .scalar c).left? = some [] := by decide +kernel
  obtain ⟨a, d, hparse, hrest⟩ := Outcome.left?_eq_some.mp hread
  exact ⟨a, d, hparse, hrest, parse_derivable hparse⟩

/-- A plus sign in front of a number is read, in a phrase and in a script. -/
theorem parse_plus :
    let g : Grammar := ⟨Catalog.registry, .empty⟩
    let c := Cursor.ofText "+5"
    (∃ a d, g.parse .scalar c = .ok a d ∧ d.rest = [] ∧
      ∀ ts, Spells c ts d → ¬ Derivable g Unsigned [.rule .scalar] ts) ∧
    ((Workshop.create Catalog.registry (Symbolic.backend []) .session).loadScript 0 "a = +5;").1 =
      .ok () := by
  intro g c
  have hread : (g.parse .scalar c).left? = some [] := by decide +kernel
  obtain ⟨a, d, hparse, hrest⟩ := Outcome.left?_eq_some.mp hread
  exact ⟨⟨a, d, hparse, hrest, fun ts hspells h => h.not_plus hspells (by decide)⟩, by decide +kernel⟩

end Says

end Grammar

end PartScript
