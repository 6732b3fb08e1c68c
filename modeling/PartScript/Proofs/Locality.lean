/-
  What words, numbers and strings depend on. A token is settled by its own characters and by the
  character after it; a blank after it, or the end of the text, changes nothing. Every token takes a
  run of characters of its class.
-/
import Mathlib.Data.List.TakeWhile
import PartScript.Proofs.Lexemes

namespace PartScript.Grammar

open Grammar.Parser

variable {α β : Type} {c d : Cursor}

/-! ## Rules that look one character ahead -/

/-- A text `y'` in place of `y` goes on alike: with the same character, or with a blank or not at
all. -/
def Follows (y y' : List Char) : Prop := y'.head? = y.head? ∨ ∀ ch ∈ y'.head?, isSpace ch = true

/-- What a rule reads is settled by the characters of a class that it takes, where the text goes on
alike. -/
def Local (class_ : Char → Bool) (p : Parser α) : Prop :=
  ∀ c a d, p c = .ok a d → ∃ run, c.rest = run ++ d.rest ∧ (∀ ch ∈ run, class_ ch = true) ∧
    ∀ c' y, c'.rest = run ++ y → Follows d.rest y → ∃ d', p c' = .ok a d' ∧ d'.rest = y

/-- Where a rule does not apply it does not apply in texts that go on alike. -/
def Shuns (p : Parser α) : Prop :=
  ∀ c c', p.Stops c → Follows c.rest c'.rest → p.Stops c'

/-- A rule applies, or fails for good. -/
def Insists (p : Parser α) : Prop := ∀ c, ¬ p.Stops c

theorem Follows.append {y y' : List Char} (h : Follows y y') (run : List Char) :
    Follows (run ++ y) (run ++ y') := by
  cases run with
  | nil => exact h
  | cons ch run => exact .inl rfl

theorem char_ok {ch : Char} (h : c.rest.head? = some ch) : char ch c = .ok ch c.next := by
  obtain ⟨cs, hcs⟩ := List.head?_eq_some_iff.mp h
  unfold char
  rw [hcs]
  exact if_pos rfl

theorem char_inv {ch x : Char} (h : char ch c = .ok x d) :
    x = ch ∧ c.rest.head? = some ch ∧ d = c.next := by
  by_cases hhead : c.rest.head? = some ch
  · rw [char_ok hhead] at h
    obtain ⟨rfl, rfl⟩ := Outcome.ok.inj h
    exact ⟨rfl, hhead, rfl⟩
  · obtain ⟨stops, hstops⟩ := stops_iff.mp (char_stops hhead)
    rw [hstops] at h
    cases h

theorem someOf_ok {class_ : Char → Bool} {mismatch : Mismatch} (h : c.rest.head?.any class_ = true) :
    someOf class_ mismatch c =
      .ok (c.rest.takeWhile class_) (c.skip (c.rest.takeWhile class_).length) := by
  unfold someOf Cursor.takeWhile
  cases hrest : c.rest with
  | nil => simp [hrest] at h
  | cons ch cs =>
    have hch : class_ ch = true := by simpa [hrest] using h
    simp [hch]

theorem someOf_stops {class_ : Char → Bool} {mismatch : Mismatch}
    (h : c.rest.head?.any class_ = false) : (someOf class_ mismatch).Stops c := by
  have herror : someOf class_ mismatch c = .error [⟨c, mismatch⟩] := by
    unfold someOf Cursor.takeWhile
    cases hrest : c.rest with
    | nil => rfl
    | cons ch cs =>
      have hch : class_ ch = false := by simpa [hrest] using h
      simp [hch]
  exact .of_eq herror

namespace Insists

variable {p : Parser α}

theorem pure (a : α) : Insists (Pure.pure a : Parser α) := fun _ h => h

theorem optional (p : Parser α) : Insists (optional p) := by
  intro c h
  obtain ⟨stops, h⟩ := stops_iff.mp h
  unfold Parser.optional at h
  cases hp : p c <;> rw [hp] at h <;> cases h

theorem committed (p : Parser α) : Insists (committed p) := by
  intro c h
  obtain ⟨stops, h⟩ := stops_iff.mp h
  unfold Parser.committed at h
  cases hp : p c <;> rw [hp] at h <;> cases h

theorem runOf (class_ : Char → Bool) : Insists (runOf class_) := fun _ h => h

theorem bind {f : α → Parser β} (h : Insists p) (hf : ∀ a, Insists (f a)) : Insists (p >>= f) := by
  intro c hstops
  obtain ⟨stops, hstops⟩ := stops_iff.mp hstops
  rw [bind_apply] at hstops
  cases hp : p c with
  | ok a rest =>
    rw [hp] at hstops
    exact hf a rest (.of_eq hstops)
  | error stops' => exact h c (.of_eq hp)
  | failure stops' notice =>
    rw [hp] at hstops
    cases hstops

end Insists

namespace Shuns

variable {p q : Parser α}

theorem bind {f : α → Parser β} (h : Shuns p) (hf : ∀ a, Insists (f a)) : Shuns (p >>= f) := by
  intro c c' hstops hfollows
  obtain ⟨stops, hstops⟩ := stops_iff.mp hstops
  rw [bind_apply] at hstops
  cases hp : p c with
  | ok a rest =>
    rw [hp] at hstops
    exact absurd (.of_eq hstops) (hf a rest)
  | error stops' => exact (h c c' (.of_eq hp) hfollows).bind
  | failure stops' notice =>
    rw [hp] at hstops
    cases hstops

theorem choice (h : Shuns p) (h' : Shuns q) : Shuns (choice [p, q]) := by
  intro c c' hstops hfollows
  obtain ⟨stops, hstops⟩ := stops_iff.mp hstops
  have hboth : p.Stops c ∧ q.Stops c := by
    rw [choice_cons] at hstops
    cases hp : p c with
    | error stops' =>
      rw [hp] at hstops
      refine ⟨.of_eq hp, ?_⟩
      dsimp only at hstops
      unfold Parser.choice at hstops
      cases hq : q c with
      | error stops'' => exact .of_eq hq
      | ok a rest => rw [hq] at hstops; cases hstops
      | failure stops'' notice => rw [hq] at hstops; cases hstops
    | ok a rest => rw [hp] at hstops; cases hstops
    | failure stops' notice => rw [hp] at hstops; cases hstops
  refine Ends.choice fun r hr => ?_
  simp only [List.mem_cons, List.not_mem_nil, or_false] at hr
  rcases hr with rfl | rfl
  · exact h c c' hboth.1 hfollows
  · exact h' c c' hboth.2 hfollows

/-- A character that is not there is not there in a text that goes on alike. -/
theorem char {ch : Char} (hch : isSpace ch = false) : Shuns (char ch) := by
  intro c c' hstops hfollows
  refine char_stops fun hhead => ?_
  rcases hfollows with hsame | hblank
  · obtain ⟨stops, hstops⟩ := stops_iff.mp hstops
    rw [char_ok (hsame.symm.trans hhead)] at hstops
    cases hstops
  · rw [hblank ch hhead] at hch
    cases hch

theorem someOf {class_ : Char → Bool} (hclass : ∀ ch, isSpace ch = true → class_ ch = false)
    (mismatch : Mismatch) : Shuns (someOf class_ mismatch) := by
  intro c c' hstops hfollows
  have hnone : c.rest.head?.any class_ = false := by
    by_contra hsome
    obtain ⟨stops, hstops⟩ := stops_iff.mp hstops
    rw [someOf_ok (by simpa using hsome)] at hstops
    cases hstops
  refine someOf_stops ?_
  rcases hfollows with hsame | hblank
  · rwa [hsame]
  · cases hhead : c'.rest.head? with
    | none => rfl
    | some ch => exact hclass ch (hblank ch hhead)

end Shuns

namespace Local

variable {class_ : Char → Bool} {p q : Parser α}

theorem pure (a : α) : Local class_ (Pure.pure a : Parser α) := by
  intro c b d hb
  obtain ⟨rfl, rfl⟩ := Outcome.ok.inj hb
  exact ⟨[], rfl, nofun, fun c' y hc' _ => ⟨c', rfl, hc'⟩⟩

theorem bind {f : α → Parser β} (h : Local class_ p) (hf : ∀ a, Local class_ (f a)) :
    Local class_ (p >>= f) := by
  intro c b d hb
  obtain ⟨a, mid, ha, hb⟩ := Parser.ok_of_bind hb
  obtain ⟨run, hrun, hclass, hread⟩ := h c a mid ha
  obtain ⟨run', hrun', hclass', hread'⟩ := hf a mid b d hb
  refine ⟨run ++ run', by rw [hrun, hrun', List.append_assoc], fun ch hch => ?_, ?_⟩
  · exact (List.mem_append.mp hch).elim (hclass ch) (hclass' ch)
  · intro c' y hc' hy
    rw [List.append_assoc] at hc'
    obtain ⟨mid', ha', hmid'⟩ := hread c' (run' ++ y) hc' (by rw [hrun']; exact hy.append run')
    obtain ⟨d', hb', hd'⟩ := hread' mid' y hmid' hy
    exact ⟨d', by rw [bind_ok ha', hb'], hd'⟩

theorem optional (h : Local class_ p) (hshuns : Shuns p) : Local class_ (optional p) := by
  intro c o d ho
  rcases ok_of_optional ho with ⟨a, rfl, ha⟩ | ⟨rfl, rfl, hstops⟩
  · obtain ⟨run, hrun, hclass, hread⟩ := h c a d ha
    refine ⟨run, hrun, hclass, fun c' y hc' hy => ?_⟩
    obtain ⟨d', ha', hd'⟩ := hread c' y hc' hy
    exact ⟨d', optional_ok ha', hd'⟩
  · refine ⟨[], rfl, nofun, fun c' y hc' hy => ⟨c', ?_, hc'⟩⟩
    exact (hshuns _ c' hstops (by rw [hc']; exact hy)).optional

theorem committed (h : Local class_ p) : Local class_ (committed p) := by
  intro c a d ha
  obtain ⟨run, hrun, hclass, hread⟩ := h c a d (by
    unfold Parser.committed at ha
    cases hp : p c <;> rw [hp] at ha <;> cases ha
    rfl)
  refine ⟨run, hrun, hclass, fun c' y hc' hy => ?_⟩
  obtain ⟨d', ha', hd'⟩ := hread c' y hc' hy
  exact ⟨d', committed_ok ha', hd'⟩

theorem choice (h : Local class_ p) (h' : Local class_ q) (hshuns : Shuns p) :
    Local class_ (choice [p, q]) := by
  intro c a d ha
  rw [choice_cons] at ha
  cases hp : p c with
  | ok b rest =>
    rw [hp] at ha
    obtain ⟨rfl, rfl⟩ := Outcome.ok.inj ha
    obtain ⟨run, hrun, hclass, hread⟩ := h c b rest hp
    refine ⟨run, hrun, hclass, fun c' y hc' hy => ?_⟩
    obtain ⟨d', ha', hd'⟩ := hread c' y hc' hy
    exact ⟨d', choice_ok ha', hd'⟩
  | error stops =>
    rw [hp] at ha
    have hq : q c = .ok a d := by
      dsimp only at ha
      unfold Parser.choice at ha
      cases hq : q c <;> rw [hq] at ha <;> cases ha
      rfl
    obtain ⟨run, hrun, hclass, hread⟩ := h' c a d hq
    refine ⟨run, hrun, hclass, fun c' y hc' hy => ?_⟩
    obtain ⟨d', ha', hd'⟩ := hread c' y hc' hy
    refine ⟨d', choice_skip (hshuns c c' (.of_eq hp) ?_) (choice_ok ha'), hd'⟩
    rw [hrun, hc']
    exact hy.append run
  | failure stops notice =>
    rw [hp] at ha
    cases ha

theorem char {ch : Char} (hch : class_ ch = true) : Local class_ (char ch) := by
  intro c a d ha
  obtain ⟨rfl, hhead, rfl⟩ := char_inv ha
  obtain ⟨cs, hcs⟩ := List.head?_eq_some_iff.mp hhead
  refine ⟨[a], by rw [Cursor.next_rest, hcs]; rfl, ?_, fun c' y hc' _ => ⟨c'.next, ?_, ?_⟩⟩
  · exact List.forall_mem_singleton.mpr hch
  · exact char_ok (by rw [hc']; rfl)
  · rw [Cursor.next_rest, hc']
    rfl

/-- A run of characters ends where one of another class follows. -/
theorem takeWhile_follows {inner : Char → Bool} (hblank : ∀ ch, isSpace ch = true → inner ch = false)
    {u y : List Char} (h : Follows (u.drop (u.takeWhile inner).length) y) :
    (u.takeWhile inner ++ y).takeWhile inner = u.takeWhile inner := by
  have hhead : ∀ ch ∈ y.head?, inner ch = false := by
    intro ch hch
    rcases h with hsame | hspace
    · have hnot := List.head?_dropWhile_not inner u
      rw [← drop_takeWhile_length, ← hsame, hch] at hnot
      simpa using hnot
    · exact hblank ch (hspace ch hch)
  have hnil : y.takeWhile inner = [] := by
    cases y with
    | nil => rfl
    | cons ch cs => exact List.takeWhile_cons_of_neg (by simp [hhead ch rfl])
  rw [List.takeWhile_append_of_pos fun ch hch => List.mem_takeWhile_imp hch, hnil, List.append_nil]

/-- Every run takes the longest run of its class. -/
theorem of_takeWhile {inner : Char → Bool} (hinner : ∀ ch, inner ch = true → class_ ch = true)
    (hblank : ∀ ch, isSpace ch = true → inner ch = false) {p : Parser (List Char)}
    (h : ∀ c a d, p c = .ok a d → a = c.rest.takeWhile inner ∧ d = c.skip a.length)
    (hread : ∀ c c' d, p c = .ok (c.rest.takeWhile inner) d →
      c'.rest.takeWhile inner = c.rest.takeWhile inner →
        p c' = .ok (c.rest.takeWhile inner) (c'.skip (c.rest.takeWhile inner).length)) :
    Local class_ p := by
  intro c a d ha
  obtain ⟨rfl, rfl⟩ := h c a d ha
  refine ⟨c.rest.takeWhile inner, ?_, fun ch hch => hinner ch (List.mem_takeWhile_imp hch), ?_⟩
  · rw [Cursor.skip_rest, drop_takeWhile_length, List.takeWhile_append_dropWhile]
  · intro c' y hc' hy
    rw [Cursor.skip_rest] at hy
    refine ⟨_, hread c c' _ ha (by rw [hc']; exact takeWhile_follows hblank hy), ?_⟩
    rw [Cursor.skip_rest, hc', List.drop_left]

theorem runOf {inner : Char → Bool} (hinner : ∀ ch, inner ch = true → class_ ch = true)
    (hblank : ∀ ch, isSpace ch = true → inner ch = false) : Local class_ (runOf inner) := by
  refine of_takeWhile hinner hblank (fun c a d ha => ?_) fun c c' d _ hsame => ?_
  · obtain ⟨rfl, rfl⟩ := Outcome.ok.inj ha
    exact ⟨rfl, rfl⟩
  · show Outcome.ok _ _ = _
    rw [hsame]

theorem someOf {inner : Char → Bool} (hinner : ∀ ch, inner ch = true → class_ ch = true)
    (hblank : ∀ ch, isSpace ch = true → inner ch = false) (mismatch : Mismatch) :
    Local class_ (someOf inner mismatch) := by
  refine of_takeWhile hinner hblank (fun c a d ha => ?_) fun c c' d ha hsame => ?_
  · unfold Grammar.someOf at ha
    dsimp only at ha
    split at ha
    · cases ha
    · obtain ⟨rfl, rfl⟩ := Outcome.ok.inj ha
      exact ⟨rfl, rfl⟩
  · unfold Grammar.someOf Cursor.takeWhile at ha ⊢
    dsimp only at ha ⊢
    rw [hsame]
    split at ha
    · cases ha
    · next hne => rw [if_neg hne]

end Local

/-! ## Numbers -/

/-- The characters of numbers. -/
def isNumberPart (ch : Char) : Bool := ch.isDigit || ['.', '+', '-', 'e', 'E'].contains ch

theorem not_digit_of_space {ch : Char} (h : isSpace ch = true) : ch.isDigit = false := by
  simp only [isSpace, Bool.or_eq_true, beq_iff_eq] at h
  rcases h with ((rfl | rfl) | rfl) | rfl <;> decide

theorem isNumberPart_of_digit {ch : Char} (h : ch.isDigit = true) : isNumberPart ch = true := by
  unfold isNumberPart
  rw [h, Bool.true_or]

theorem digits_local : Local isNumberPart digits :=
  .someOf (fun _ => isNumberPart_of_digit) (fun _ => not_digit_of_space) _

theorem digits_shuns : Shuns digits := .someOf (fun _ => not_digit_of_space) _

theorem sign_local : Local isNumberPart sign := by
  have hplus : Local isNumberPart (char '+') := .char (by decide)
  have hminus : Local isNumberPart (char '-') := .char (by decide)
  have hshuns : Shuns (char '+') := .char (by decide)
  exact ((hplus.choice hminus hshuns).optional (hshuns.choice (.char (by decide)))).bind
    fun _ => .pure _

theorem mantissa_local : Local isNumberPart mantissa := by
  have hpoint : Local isNumberPart (char '.') := .char (by decide)
  have hshuns : Shuns (char '.') := .char (by decide)
  have hfraction : Local isNumberPart (runOf Char.isDigit) :=
    .runOf (fun _ => isNumberPart_of_digit) fun _ => not_digit_of_space
  refine Local.choice ?_ ?_ (digits_shuns.bind fun _ => (Insists.optional _).bind fun _ => .pure _)
  · exact digits_local.bind fun _ => ((hpoint.bind fun _ => hfraction).optional
      (hshuns.bind fun _ => .runOf _)).bind fun _ => .pure _
  · exact hpoint.bind fun _ => digits_local.bind fun _ => .pure _

/-- What number stands in a text is settled by its characters and by the one after them. -/
theorem numeral_local : Local isNumberPart numeral := by
  have hmark : Local isNumberPart (choice [char 'e', char 'E']) :=
    (Local.char (by decide)).choice (.char (by decide)) (.char (by decide))
  have hshuns : Shuns (choice [char 'e', char 'E']) :=
    (Shuns.char (by decide)).choice (.char (by decide))
  refine sign_local.bind fun _ => mantissa_local.bind fun _ => Local.bind ?_ fun _ => .pure _
  refine Local.optional (hmark.bind fun _ => sign_local.bind fun _ => digits_local.committed.bind
    fun _ => ?_) (hshuns.bind fun _ => ?_)
  · split <;> exact .pure _
  · refine ((Insists.optional _).bind fun _ => .pure _).bind fun _ =>
      (Insists.committed _).bind fun _ => ?_
    split <;> exact .pure _

/-! ## Words -/

/-- A word takes the longest run of its characters. -/
theorem identifier_takes (c : Cursor) (name : String) (d : Cursor) (h : identifier c = .ok name d) :
    ∃ run, c.rest = run ++ d.rest ∧ ∀ ch ∈ run, isWordPart ch = true := by
  rw [identifier_apply] at h
  split at h
  · obtain ⟨-, rfl⟩ := Outcome.ok.inj h
    refine ⟨c.rest.takeWhile isWordPart, ?_, fun ch hch => List.mem_takeWhile_imp hch⟩
    rw [Cursor.skip_rest, drop_takeWhile_length, List.takeWhile_append_dropWhile]
  · cases h

/-! ## Strings -/

/-- The characters between the quotes of a string. -/
def isStringPart (ch : Char) : Bool := ch != '"' && ch != '\n' && ch != '\r'

theorem stringLiteral_ok {inner y : List Char} (h : c.rest = '"' :: (inner ++ '"' :: y))
    (hinner : ∀ ch ∈ inner, isStringPart ch = true) :
    ∃ d, stringLiteral c = .ok (String.ofList inner) d ∧ d.rest = y := by
  have hquote : char '"' c = .ok '"' c.next := char_ok (by rw [h]; rfl)
  have hrun : c.next.rest.takeWhile isStringPart = inner := by
    rw [Cursor.next_rest, h, List.tail_cons, List.takeWhile_append_of_pos hinner,
      List.takeWhile_cons_of_neg (by decide), List.append_nil]
  have hinside : runOf isStringPart c.next = .ok inner (c.next.skip inner.length) := by
    unfold runOf Cursor.takeWhile
    dsimp only
    rw [hrun]
  have hrest : (c.next.skip inner.length).rest = '"' :: y := by
    rw [Cursor.skip_rest, Cursor.next_rest, h, List.tail_cons, List.drop_left]
  have hclose : labelled "closing quote" (char '"') (c.next.skip inner.length) =
      .ok '"' (c.next.skip inner.length).next := labelled_ok _ (char_ok (by rw [hrest]; rfl))
  refine ⟨(c.next.skip inner.length).next, ?_, by rw [Cursor.next_rest, hrest]; rfl⟩
  unfold stringLiteral
  rw [bind_ok hquote]
  show (runOf isStringPart >>= _) c.next = _
  rw [bind_ok hinside, bind_ok hclose]
  rfl

theorem stringLiteral_inv {s : String} (h : stringLiteral c = .ok s d) :
    ∃ inner, c.rest = '"' :: (inner ++ '"' :: d.rest) ∧ ∀ ch ∈ inner, isStringPart ch = true := by
  have hquote : ∀ {e f : Cursor} {ch : Char}, char '"' e = .ok ch f → e.rest = '"' :: f.rest := by
    intro e f ch he
    obtain ⟨-, hhead, rfl⟩ := char_inv he
    obtain ⟨cs, hcs⟩ := List.head?_eq_some_iff.mp hhead
    rw [Cursor.next_rest, hcs, List.tail_cons]
  obtain ⟨_, e, hopen, h⟩ := Parser.ok_of_bind h
  obtain ⟨inner, f, hinside, h⟩ := Parser.ok_of_bind h
  obtain ⟨_, f', hclose, h⟩ := Parser.ok_of_bind h
  obtain ⟨-, rfl⟩ := Outcome.ok.inj h
  obtain ⟨rfl, rfl⟩ := Outcome.ok.inj hinside
  have hrest := hquote (ok_of_labelled hclose)
  rw [Cursor.skip_rest, drop_takeWhile_length] at hrest
  refine ⟨e.rest.takeWhile isStringPart, ?_, fun ch hch => List.mem_takeWhile_imp hch⟩
  rw [hquote hopen, ← hrest]
  exact congrArg _ (List.takeWhile_append_dropWhile).symm

theorem stringLiteral_stops (h : c.rest.head? ≠ some '"') : stringLiteral.Stops c :=
  (char_stops h).bind

/-! ## Words of the language -/

theorem literally_stops {word : String} (h : ¬ word.toList <+: c.rest) :
    (literally word).Stops c := by
  have herror : literally word c = .error [⟨c, .word⟩] := by
    unfold literally
    exact if_neg fun hprefix => h (List.isPrefixOf_iff_prefix.mp hprefix)
  exact .of_eq herror

/-- A word of the language stands where it is the whole word. -/
theorem keyword_ok {word : String} (h : c.start.rest.takeWhile isWordPart = word.toList) :
    keyword word c = .ok c.start (c.start.skip word.length).start := by
  have hprefix : word.toList <+: c.start.rest := h ▸ List.takeWhile_prefix isWordPart
  have hword : literally word c.start = .ok () (c.start.skip word.length) := by
    unfold literally
    exact if_pos (List.isPrefixOf_iff_prefix.mpr hprefix)
  have hfollow : notFollowedBy isWordPart (c.start.skip word.length) =
      .ok () (c.start.skip word.length) := by
    have hrest : (c.start.skip word.length).rest = c.start.rest.dropWhile isWordPart := by
      rw [Cursor.skip_rest, ← drop_takeWhile_length, h, String.length_toList]
    have hhead := List.head?_dropWhile_not isWordPart c.start.rest
    unfold notFollowedBy
    rw [hrest]
    cases hd : c.start.rest.dropWhile isWordPart with
    | nil => rfl
    | cons ch cs => exact if_neg (by simpa [hd] using hhead)
  refine padded_ok ?_
  show (literally word >>= fun _ => notFollowedBy isWordPart >>= fun _ => Pure.pure c.start)
    c.start = _
  rw [bind_ok hword, bind_ok hfollow]
  rfl

theorem keyword_stops {word : String} (hparts : word.toList.all isWordPart = true)
    (h : c.start.rest.takeWhile isWordPart ≠ word.toList) : (keyword word).Stops c := by
  refine Ends.bind (P := fun d => d = c.start) (Ends.of_ok (trivia_apply c) rfl) ?_
  rintro _ _ - rfl
  refine Stops.bind ?_
  show (literally word >>= fun _ => notFollowedBy isWordPart >>= fun _ => Pure.pure c.start).Stops
    c.start
  by_cases hprefix : word.toList <+: c.start.rest
  · obtain ⟨y, hy⟩ := hprefix
    have hword : literally word c.start = .ok () (c.start.skip word.length) := by
      unfold literally
      exact if_pos (List.isPrefixOf_iff_prefix.mpr ⟨y, hy⟩)
    have hrest : (c.start.skip word.length).rest = y := by
      rw [Cursor.skip_rest, ← hy, ← String.length_toList, List.drop_left]
    refine Ends.bind (P := fun d => d = c.start.skip word.length) (Ends.of_ok hword rfl) ?_
    rintro _ _ - rfl
    refine Stops.bind ?_
    -- the word goes on, or it would be the whole word
    rw [← hy, List.takeWhile_append_of_pos (List.all_eq_true.mp hparts)] at h
    unfold Stops Ends notFollowedBy
    rw [hrest]
    cases y with
    | nil => exact absurd (by simp) h
    | cons ch cs =>
      have hch : isWordPart ch = true := by
        by_contra hch
        exact h (by rw [List.takeWhile_cons_of_neg hch, List.append_nil])
      simp [hch]
  · exact (literally_stops hprefix).bind

end PartScript.Grammar
