/-
  Blanks and comments between tokens. A text that is read is read alike with more blanks and comments
  at a place between two of its tokens: the same names are bound to the same trees, and the same
  outputs requested. Comments have to be whole: a carriage return inside one breaks it, and leaves
  only its mark a comment.
-/
import PartScript.Proofs.Texts
import PartScript.Proofs.Tokens

namespace PartScript

open Grammar Grammar.Parser

namespace Grammar

/-! ## Blanks and comments -/

/-- Blanks and whole comments, each with the line feed that ends it. -/
inductive Trivia : List Char → Prop where
  | nil : Trivia []
  | blank {ch t} : isSpace ch = true → Trivia t → Trivia (ch :: t)
  | comment {opener body t} : opener = ['/', '/'] ∨ opener = ['#'] → '\n' ∉ body →
      lineEndsWell (body ++ ['\n']) = true → Trivia t → Trivia (opener ++ (body ++ '\n' :: t))

/-- Inside a comment, one character after the other is skipped. -/
theorem triviaLength_inside {ch : Char} (h : ch ≠ '\n') (cs : List Char) :
    triviaLength true (ch :: cs) = triviaLength true cs + 1 := by
  induction cs generalizing ch with
  | nil =>
    by_cases hhash : ch = '#'
    · subst hhash
      rfl
    · rw [triviaLength.eq_5 _ _ _ (fun heq => h heq) (fun _ _ hcs => (List.cons_ne_nil _ _ hcs.symm).elim)
        (fun heq => hhash heq), if_pos rfl]
  | cons x xs ih =>
    by_cases hslash : ch = '/' ∧ x = '/'
    · obtain ⟨rfl, rfl⟩ := hslash
      rw [ih (by decide), triviaLength, if_pos rfl]
    · by_cases hhash : ch = '#'
      · subst hhash
        rw [triviaLength, if_pos rfl]
      · rw [triviaLength.eq_5 _ _ _ (fun heq => h heq)
          (fun _ heq hcs => hslash ⟨heq, (List.cons.inj hcs).1⟩) (fun heq => hhash heq), if_pos rfl]

theorem drop_inside {body : List Char} (h : '\n' ∉ body) (y : List Char) :
    (body ++ '\n' :: y).drop (triviaLength true (body ++ '\n' :: y)) = bare y := by
  induction body with
  | nil => rfl
  | cons ch body ih =>
    obtain ⟨hch, hbody⟩ := not_or.mp (List.mem_cons.not.mp h)
    rw [List.cons_append, triviaLength_inside (Ne.symm hch), List.drop_succ_cons]
    exact ih hbody

theorem bare_blank {ch : Char} (h : isSpace ch = true) (y : List Char) : bare (ch :: y) = bare y := by
  have hlength : triviaLength false (ch :: y) = triviaLength false y + 1 := by
    simp only [isSpace, Bool.or_eq_true, beq_iff_eq] at h
    rcases h with ((rfl | rfl) | rfl) | rfl <;> rfl
  unfold bare
  rw [hlength, List.drop_succ_cons]

/-- Nothing of blanks and comments is left to read. -/
theorem Trivia.bare {t : List Char} (h : Trivia t) (y : List Char) :
    Grammar.bare (t ++ y) = Grammar.bare y := by
  induction h with
  | nil => rfl
  | blank hch _ ih => exact (bare_blank hch _).trans ih
  | @comment opener body t hopener hbody hwell _ ih =>
    have hends : lineEndsWell (body ++ '\n' :: (t ++ y)) = true :=
      (lineEndsWell_append body (t ++ y)).1.trans hwell
    rw [List.append_assoc, List.append_assoc, List.cons_append]
    refine Eq.trans ?_ ((drop_inside hbody (t ++ y)).trans ih)
    rcases hopener with rfl | rfl
    · show List.drop (triviaLength false ('/' :: '/' :: (body ++ '\n' :: (t ++ y)))) _ = _
      rw [triviaLength, if_neg (by decide), hends]
      rfl
    · show List.drop (triviaLength false ('#' :: (body ++ '\n' :: (t ++ y)))) _ = _
      rw [triviaLength, if_neg (by decide), hends]
      rfl

/-! ## Texts of tokens -/

/-- A text that is cut into tokens up to a place between two tokens, where `after` goes on. -/
inductive Tokens (after : List Char) : Stage → List Char → Prop where
  | nil {s} : Tokens after s []
  | trivia {s t u} : Trivia t → Tokens after s u → Tokens after s (t ++ u)
  | token {s s' w u} : Token s w (u ++ after) s' → Tokens after s' u → Tokens after s (w ++ u)

variable {after t u : List Char} {s : Stage}

theorem follows_inserted (ht : ∃ ch cs, t = ch :: cs ∧ isSpace ch = true) (u : List Char) :
    Follows (u ++ after) (u ++ (t ++ after)) := by
  obtain ⟨ch, cs, rfl, hch⟩ := ht
  refine Follows.append (.inr ?_) u
  rintro _ ⟨⟩
  exact hch

/-- Behind blanks and comments, either a token of the text stands in both texts, or what stands behind
the place between the tokens. -/
theorem Tokens.start (h : Tokens after s u) (htrivia : Trivia t)
    (ht : ∃ ch cs, t = ch :: cs ∧ isSpace ch = true) :
    bare (u ++ after) = bare (u ++ (t ++ after)) ∨ ∃ w v s', Token s w (v ++ after) s' ∧
      Tokens after s' v ∧ bare (u ++ after) = w ++ (v ++ after) ∧
      bare (u ++ (t ++ after)) = w ++ (v ++ (t ++ after)) := by
  induction h with
  | nil => exact .inl (htrivia.bare after).symm
  | trivia hblanks _ ih =>
    rw [List.append_assoc, List.append_assoc, hblanks.bare, hblanks.bare]
    exact ih
  | @token _ s' w v hw hv _ =>
    rw [List.append_assoc, List.append_assoc, hw.bare (.inl rfl), hw.bare (follows_inserted ht v)]
    exact .inr ⟨w, v, s', hw, hv, rfl, rfl⟩

end Grammar

/-! ## Texts with an insertion -/

namespace Tandem

/-- Places of a text and of one with `t` inserted between two tokens: the texts go on alike, or in
tokens up to the place of the insertion. -/
def Beside (t after : List Char) (s : Stage) (c c' : Cursor) : Prop :=
  c.rest = c'.rest ∨ ∃ stage u, (s = .operand → stage = .operand) ∧ Tokens after stage u ∧
    c.rest = u ++ after ∧ c'.rest = u ++ (t ++ after)

/-- Both texts have the same token there, or go on alike. -/
inductive Stands (t after : List Char) (s : Stage) (c c' : Cursor) : Prop where
  | same : c.rest = c'.rest → Stands t after s c c'
  | token {stage w u stage'} : (s = .operand → stage = .operand) → Token stage w (u ++ after) stage' →
      Tokens after stage' u → c.rest = w ++ (u ++ after) → c'.rest = w ++ (u ++ (t ++ after)) →
      Stands t after s c c'

/-- A text and one with blanks and comments `t` inserted between two tokens. -/
def spaced (registry : Registry) (M M' : Model) (t after : List Char) : Tandem where
  first := ⟨registry, M⟩
  second := ⟨registry, M'⟩
  near := Beside t after
  past := Beside t after .operand
  exact := False
  place := fun _ => .made 0

section Spaced

variable {registry : Registry} {M M' : Model} {t after u : List Char} {s stage : Stage}
  {c c' : Cursor}

theorem Beside.of_tokens (hstage : s = .operand → stage = .operand) (hu : Tokens after stage u)
    (hc : c.rest = u ++ after) (hc' : c'.rest = u ++ (t ++ after)) : Beside t after s c c' :=
  .inr ⟨stage, u, hstage, hu, hc, hc'⟩

/-- What is read from texts that go on alike. -/
theorem spaced_same {α : Type} {p : Parser α} {s : Stage}
    (hp : (spaced registry M M' t after).Prolongs [] Eq p) (hsame : c.rest = c'.rest) :
    (spaced registry M M' t after).Paired (Beside t after s) Eq (p c) (p c') :=
  (hp c c' (by rw [hsame, List.append_nil])).imp (fun _ _ => id) fun d d' hd =>
    .inl (by rw [hd, List.append_nil])

theorem Stands.paired_string (h : Stands t after s c c') :
    (spaced registry M M' t after).Paired (Beside t after .mark) Eq (stringLiteral c)
      (stringLiteral c') := by
  cases h with
  | same hsame => exact spaced_same (Prolongs.stringLiteral (fun h => h) (.inl rfl)) hsame
  | @token _ w u _ _ hw hu hc hc' =>
    obtain ⟨ch, w, rfl, -⟩ := hw.head
    by_cases hch : ch = '"'
    · subst hch
      obtain ⟨-, inner, rfl, hinner⟩ := hw.string_inv
      obtain ⟨d, hd, hrest⟩ := stringLiteral_ok (y := u ++ after) (by simpa using hc) hinner
      obtain ⟨d', hd', hrest'⟩ := stringLiteral_ok (y := u ++ (t ++ after)) (by simpa using hc') hinner
      rw [hd, hd']
      exact .ok rfl (.of_tokens nofun hu hrest hrest')
    · have hstops : ∀ {c : Cursor} {y : List Char}, c.rest = ch :: w ++ y → stringLiteral.Stops c := by
        intro c y hc
        refine stringLiteral_stops ?_
        rw [hc]
        exact fun heq => hch (Option.some.inj heq)
      exact .of_stops id (hstops hc) (hstops hc')

variable (ht : ∃ ch cs, t = ch :: cs ∧ isSpace ch = true)
include ht

theorem Stands.paired_identifier (h : Stands t after s c c') :
    (spaced registry M M' t after).Paired (Beside t after .mark) Eq (identifier c) (identifier c') := by
  cases h with
  | same hsame => exact spaced_same (Prolongs.identifier (fun h => h) (.inl rfl)) hsame
  | @token _ w u _ _ hw hu hc hc' =>
    obtain ⟨ch, w, rfl, -⟩ := hw.head
    by_cases hch : isWordStart ch = true
    · obtain ⟨d, hd, hrest⟩ := hw.reads_word hch (.inl rfl) hc
      obtain ⟨d', hd', hrest'⟩ := hw.reads_word hch (follows_inserted ht u) hc'
      rw [hd, hd']
      exact .ok rfl (.of_tokens nofun hu hrest hrest')
    · have hch := Bool.eq_false_iff.mpr hch
      exact .of_stops id (identifier_stops hch (by rw [hc]; rfl)) (identifier_stops hch (by rw [hc']; rfl))

theorem Stands.paired_numeral (h : Stands t after .operand c c') (hminus : c.rest.head? ≠ some '-') :
    (spaced registry M M' t after).Paired (Beside t after .mark) Eq (numeral c) (numeral c') := by
  cases h with
  | same hsame => exact spaced_same (Prolongs.numeral (fun h => h) (.inl rfl)) hsame
  | @token _ w u _ hstage hw hu hc hc' =>
    obtain rfl := hstage rfl
    obtain ⟨ch, w, rfl, -⟩ := hw.head
    rw [hc] at hminus
    by_cases hch : isNumberStart ch = true
    · obtain ⟨-, htakes⟩ := hw.number_inv hch fun heq => hminus (heq ▸ rfl)
      obtain ⟨x, hread⟩ := htakes.reads
      obtain ⟨d, hd, hrest⟩ := hread c _ (.inl rfl) hc
      obtain ⟨d', hd', hrest'⟩ := hread c' _ (follows_inserted ht u) hc'
      rw [hd, hd']
      exact .ok rfl (.of_tokens nofun hu hrest hrest')
    · have hstops : ∀ {c : Cursor} {y : List Char}, c.rest = ch :: w ++ y → numeral.Stops c := by
        intro c y hc
        refine numeral_stops ?_
        rw [hc]
        rintro _ ⟨⟩
        exact Bool.eq_false_iff.mpr hch
      exact .of_stops id (hstops hc) (hstops hc')

variable (htrivia : Trivia t)
include htrivia

namespace Beside

theorem stands (h : Beside t after s c c') : Stands t after s c.start c'.start := by
  rcases h with hsame | ⟨stage, u, hstage, hu, hc, hc'⟩
  · exact .same (by rw [start_rest, start_rest, hsame])
  · rcases hu.start htrivia ht with hsame | ⟨w, v, stage', hw, hv, hbare, hbare'⟩
    · exact .same (by rw [start_rest, start_rest, hc, hc', hsame])
    · exact .token hstage hw hv (by rw [start_rest, hc, hbare]) (by rw [start_rest, hc', hbare'])

theorem stands_here (h : Beside t after s c c') (hc : c.start = c) (hc' : c'.start = c') :
    Stands t after s c c' := by
  have hstands := h.stands ht htrivia
  rwa [hc, hc'] at hstands

theorem start (h : Beside t after s c c') : Beside t after s c.start c'.start := by
  cases h.stands ht htrivia with
  | same hsame => exact .inl hsame
  | @token stage w u _ hstage hw hu hc hc' =>
    exact .of_tokens hstage (.token hw hu) (by rw [hc, List.append_assoc])
      (by rw [hc', List.append_assoc])

theorem head? (h : Beside t after s c c') : c.head? = c'.head? := by
  unfold Cursor.head?
  cases h.stands ht htrivia with
  | same hsame => rw [hsame]
  | token _ hw _ hc hc' =>
    obtain ⟨ch, cs, rfl, -⟩ := hw.head
    rw [hc, hc']
    rfl

theorem after_mark (h : Beside t after s c c') {ch : Char} (hch : ch ∈ marks)
    (hhead : c.head? = some ch) : Beside t after (.after ch) c.after c'.after := by
  refine Beside.start ht htrivia ?_
  obtain ⟨cs, hcs⟩ := List.head?_eq_some_iff.mp (show c.start.rest.head? = some ch from hhead)
  cases h.stands ht htrivia with
  | same hrest => exact .inl (by rw [Cursor.next_rest, Cursor.next_rest, hrest])
  | @token _ w u _ _ hw hu hc hc' =>
    obtain ⟨x, w, rfl, -⟩ := hw.head
    obtain rfl : x = ch := (List.cons.inj (hc.symm.trans hcs)).1
    have hd : c.start.next.rest = w ++ (u ++ after) := by rw [Cursor.next_rest, hc]; rfl
    have hd' : c'.start.next.rest = w ++ (u ++ (t ++ after)) := by rw [Cursor.next_rest, hc']; rfl
    rcases hw.mark_inv hch with ⟨rfl, rfl⟩ | ⟨-, hw⟩
    · exact .of_tokens id hu hd hd'
    · -- the sign or the point of a number, and the rest of the number behind it
      exact .of_tokens (fun _ => rfl) (.token hw hu) (by rw [hd, List.append_assoc])
        (by rw [hd', List.append_assoc])

theorem after_semicolon (h : Beside t after s c c') (hhead : c.head? = some ';') :
    Beside t after .operand c.after c'.after := by
  refine Beside.start ht htrivia ?_
  obtain ⟨cs, hcs⟩ := List.head?_eq_some_iff.mp (show c.start.rest.head? = some ';' from hhead)
  cases h.stands ht htrivia with
  | same hrest => exact .inl (by rw [Cursor.next_rest, Cursor.next_rest, hrest])
  | @token _ w u _ _ hw hu hc hc' =>
    obtain ⟨x, w, rfl, -⟩ := hw.head
    obtain rfl : x = ';' := (List.cons.inj (hc.symm.trans hcs)).1
    obtain ⟨rfl, rfl⟩ := hw.semicolon_inv
    exact .of_tokens id hu (by rw [Cursor.next_rest, hc]; rfl) (by rw [Cursor.next_rest, hc']; rfl)

end Beside

theorem Stands.paired_keyword (h : Stands t after s c.start c'.start) {word : String}
    (hword : word ∈ ["import", "export", "as"]) :
    (spaced registry M M' t after).Paired (Beside t after .word) (fun _ _ => True) (keyword word c)
      (keyword word c') := by
  have hsame : c.start.rest.takeWhile isWordPart = word.toList ↔
      c'.start.rest.takeWhile isWordPart = word.toList := by
    cases h with
    | same hsame => rw [hsame]
    | token _ hw _ hc hc' =>
      rw [hc, hc', hw.takeWhile_eq_iff (.inl rfl) hword,
        hw.takeWhile_eq_iff (follows_inserted ht _) hword]
  refine .keyword id hword hsame fun hrun => Beside.start ht htrivia ?_
  cases h with
  | same hsame => exact .inl (by rw [Cursor.skip_rest, Cursor.skip_rest, hsame])
  | @token _ w u _ _ hw hu hc hc' =>
    rw [hc, hw.takeWhile_eq_iff (.inl rfl) hword] at hrun
    have hlength : word.length = w.length := by rw [hrun, String.length_toList]
    exact .of_tokens nofun hu (by rw [Cursor.skip_rest, hc, hlength, List.drop_left])
      (by rw [Cursor.skip_rest, hc', hlength, List.drop_left])

theorem spaced_lawful (halike : M.Alike (fun _ => .made 0) M') :
    (spaced registry M M' t after).Lawful where
  word := fun h => h.imp id fun ⟨stage, u, _, h⟩ => ⟨stage, u, nofun, h⟩
  mark := fun h => h.imp id fun ⟨stage, u, _, h⟩ => ⟨stage, u, nofun, h⟩
  start := Beside.start ht htrivia
  marks := fun hch h => .mark id (Beside.head? ht htrivia h) (Beside.after_mark ht htrivia h hch)
  semicolon := fun h =>
    .mark id (Beside.head? ht htrivia h) (Beside.after_semicolon ht htrivia h)
  identifier := fun h hc hc' =>
    ((Beside.stands_here ht htrivia h hc hc').paired_identifier ht).imp
      (fun _ _ hname => ⟨hname, rfl⟩) fun _ _ => id
  numeral := fun h hc hc' hminus =>
    (Beside.stands_here ht htrivia h hc hc').paired_numeral ht (by rwa [Cursor.head?, hc] at hminus)
  stringLiteral := fun h hc hc' => (Beside.stands_here ht htrivia h hc hc').paired_string
  keyword := fun hword h => (Beside.stands ht htrivia h).paired_keyword ht htrivia hword
  same := nofun
  model := nofun
  alike := halike
  origin := fun _ _ => rfl

end Spaced

end Tandem

namespace Model

/-- Blanks and comments are insignificant. A text that is read into a model is read into the same one,
but for places, with a blank and any more blanks and whole comments at a place between two of its
tokens, and has the same imports. -/
theorem read_inserted (M : Model) (registry : Registry) (file : String) {before t after : String}
    (htokens : Tokens after.toList .operand before.toList) (htrivia : Trivia t.toList)
    (ht : ∃ ch cs, t.toList = ch :: cs ∧ isSpace ch = true) {X : Model}
    (hread : M.read registry file (before ++ after) = .ok X) :
    ∃ X', M.read registry file (before ++ t ++ after) = .ok X' ∧ X.Alike (fun _ => .made 0) X' ∧
      (leadingImports file (before ++ after)).map (·.1.map (·.path)) =
        (leadingImports file (before ++ t ++ after)).map (·.1.map (·.path)) := by
  let T := fun M' : Model => Tandem.spaced registry M M' t.toList after.toList
  have hlawful : (T M).Lawful := Tandem.spaced_lawful ht htrivia (.refl _ M)
  have halongside : Alongside registry (Tandem.Beside t.toList after.toList .operand) := by
    intro c c' M M' s d hc hM _
    exact ⟨_, Tandem.spaced_lawful ht htrivia hM, rfl, rfl, rfl, hc.start ht htrivia, fun _ _ => id⟩
  have hstart : Tandem.Beside t.toList after.toList .operand (.ofText (before ++ after))
      (.ofText (before ++ t ++ after)) :=
    .of_tokens id htokens (by simp [Cursor.ofText]) (by simp [Cursor.ofText])
  obtain ⟨⟨imports, last⟩, himports, hread⟩ := ok_of_bind hread
  obtain ⟨N, hN, hX⟩ := ok_of_bind hread
  obtain rfl := Except.ok.inj hX
  obtain ⟨imports', last', himports', hpaths, hlast⟩ := hlawful.importsFrom (fun _ _ => id) hstart
    (Nat.lt_succ_self _) (Nat.lt_succ_self _) himports file (before ++ t ++ after)
  have himports' : leadingImports file (before ++ t ++ after) = .ok (imports', last') := himports'
  obtain ⟨m, d, d', N', hsplit, -, hend, hd, hN'⟩ := halongside.statementsFrom hlast (.refl _ M)
    (Nat.lt_succ_self _) (Nat.lt_succ_self _) hN file (before ++ t ++ after)
  have hend' : d'.start.rest = [] := by
    cases hd.stands ht htrivia with
    | same hsame => rw [← hsame, hend]
    | token _ hw _ hrest _ =>
      obtain ⟨ch, cs, rfl, -⟩ := hw.head
      rw [hend] at hrest
      cases hrest
  refine ⟨N'.nextSource, ?_, ⟨hN'.bindings, hN'.outputs, hN'.modules⟩, ?_⟩
  · show (leadingImports file (before ++ t ++ after) >>= _) = _
    rw [himports']
    show (statementsFrom registry file (before ++ t ++ after) _ last' M >>= _) = _
    rw [hsplit, statementsFrom_end hend']
    rfl
  · rw [himports, himports']
    exact congrArg Except.ok hpaths

/-- A comment before a number. -/
theorem read_inserted_note : ∃ X X', empty.read Catalog.registry "main" "a =1;" = .ok X ∧
    empty.read Catalog.registry "main" "a = // note\n1;" = .ok X' ∧ X.Alike (fun _ => .made 0) X' := by
  have htokens : Tokens "1;".toList .operand "a =".toList := by
    have hname : Token .operand ['a'] [' ', '=', '1', ';'] .mark :=
      .word (by decide) (List.forall_mem_nil _) (by rintro _ ⟨⟩; rfl)
    have hequals : Token .mark ['='] ['1', ';'] .operand := .mark (by decide) (by decide) (by decide)
    exact .token (u := [' ', '=']) hname (.trivia (.blank (by decide) .nil) (.token (u := []) hequals .nil))
  have hnote : Trivia " // note\n".toList := .blank (by decide)
    (@Trivia.comment ['/', '/'] " note".toList [] (.inl rfl) (by decide) (by decide) .nil)
  have hok : (empty.read Catalog.registry "main" "a =1;").isOk = true := by decide +kernel
  cases hread : empty.read Catalog.registry "main" "a =1;" with
  | error e =>
    rw [hread] at hok
    cases hok
  | ok X =>
    obtain ⟨X', hX', halike, -⟩ :=
      read_inserted empty Catalog.registry "main" htokens hnote ⟨' ', _, rfl, rfl⟩ hread
    exact ⟨X, X', rfl, hX', halike⟩

/-- A carriage return breaks a comment: what stands behind it on the line is read as part of the
script. -/
theorem read_inserted_return :
    (empty.read Catalog.registry "main" "a =1;").isOk = true ∧
      (empty.read Catalog.registry "main" "a = // note\rmore\n1;").isOk = false := by
  decide +kernel

end Model

end PartScript
