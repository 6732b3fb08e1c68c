/-
  Longer texts. A text is read, and so is the text that goes on after it, at its end or after a line
  feed. `places` are the places of a text outside strings and comments; a statement is read up to a
  semicolon at one of them, and if there is one ahead, nothing that is read on the way to it depends
  on how the text goes on. The exception is a comment that only the end of the text breaks: it ends in
  a carriage return, which a line feed after it makes a part of the line's end.
-/
import PartScript.Proofs.Locality
import PartScript.Proofs.Phrases

namespace PartScript

namespace Grammar

open Grammar.Parser

/-! ## Places outside strings and comments -/

/-- What a character of a text is part of. -/
inductive Region where
  | plain
  | comment
  | string
  /-- After the line of a string that is not closed. -/
  | lost
deriving DecidableEq

/-- Whether a comment begins with a character. -/
def opensComment (ch : Char) (cs : List Char) : Bool :=
  ch == '#' || (ch == '/' && cs.head? == some '/')

/-- What the text after a character is part of. -/
def Region.step (ch : Char) (cs : List Char) : Region → Region
  | .plain =>
    if ch = '"' then .string
    else if opensComment ch cs && lineEndsWell cs then .comment
    else .plain
  | .comment => if ch = '\n' then .plain else .comment
  | .string => if ch = '"' then .plain else if ch = '\n' ∨ ch = '\r' then .lost else .string
  | .lost => .lost

/-- The places of a text outside strings and comments, each by the text that is left there. -/
def places (r : Region) : List Char → List (List Char)
  | [] => []
  | ch :: cs => (if r = .plain then [ch :: cs] else []) ++ places (r.step ch cs) cs

/-- Whether a semicolon stands outside strings and comments. -/
def concludes (cs : List Char) : Bool := (places .plain cs).any (·.head? == some ';')

/-- Whether a comment begins here that the end of the text breaks, and a line feed would not. -/
def tornAt : List Char → Bool
  | [] => false
  | ch :: cs => opensComment ch cs && (!lineEndsWell cs && lineEndsWell (cs ++ ['\n']))

/-- Whether a comment of the text is broken by the end of the text alone: its line has one carriage
return, and the text ends with it. -/
def torn (cs : List Char) : Bool := (places .plain cs).any tornAt

theorem lineEndsWell_cons {ch : Char} (hfeed : ch ≠ '\n') (hreturn : ch ≠ '\r') (cs : List Char) :
    lineEndsWell (ch :: cs) = lineEndsWell cs := by
  rw [lineEndsWell.eq_def]
  split <;> simp_all

/-- Only the line up to the first line feed matters; one that ends well still does before a line
feed. -/
theorem lineEndsWell_append (cs later : List Char) :
    lineEndsWell (cs ++ '\n' :: later) = lineEndsWell (cs ++ ['\n']) ∧
      (lineEndsWell cs = true → lineEndsWell (cs ++ ['\n']) = true) := by
  fun_induction lineEndsWell cs with
  | case1 => exact ⟨rfl, fun _ => rfl⟩
  | case2 cs => exact ⟨rfl, fun _ => rfl⟩
  | case3 cs => exact ⟨rfl, fun _ => rfl⟩
  | case4 cs hfeed =>
    cases cs with
    | nil => exact ⟨rfl, nofun⟩
    | cons x xs =>
      have hx : x ≠ '\n' := fun hx => hfeed xs (hx ▸ rfl)
      refine ⟨?_, nofun⟩
      rw [List.cons_append, List.cons_append, List.cons_append, List.cons_append,
        lineEndsWell.eq_4 _ (by simpa using hx), lineEndsWell.eq_4 _ (by simpa using hx)]
  | case5 ch cs hfeed hreturn hlone ih =>
    have hfeed' : ch ≠ '\n' := fun h => hfeed h
    have hreturn' : ch ≠ '\r' := fun h => hlone h
    rw [List.cons_append, List.cons_append, lineEndsWell_cons hfeed' hreturn',
      lineEndsWell_cons hfeed' hreturn']
    exact ih

/-- Unless the end of the text alone breaks it, a comment ends as it does in a longer text. -/
theorem lineEndsWell_longer {ch : Char} {cs : List Char} (hopens : opensComment ch cs = true)
    (htorn : tornAt (ch :: cs) = false) (later : List Char) :
    lineEndsWell (cs ++ '\n' :: later) = lineEndsWell cs := by
  obtain ⟨hsame, hwell⟩ := lineEndsWell_append cs later
  rw [hsame]
  cases hcs : lineEndsWell cs with
  | true => exact hwell hcs
  | false => simpa [tornAt, hopens, hcs] using htorn

/-! ### From one place to the next -/

namespace Region

variable {ch : Char} {cs : List Char}

theorem step_comment (h : ch ≠ '\n') : Region.comment.step ch cs = .comment := if_neg h

theorem step_blank (h : isSpace ch = true) (cs : List Char) :
    Region.plain.step ch cs = .plain ∧ ch ≠ ';' := by
  simp only [isSpace, Bool.or_eq_true, beq_iff_eq] at h
  rcases h with ((rfl | rfl) | rfl) | rfl <;> exact ⟨rfl, by decide⟩

/-- A comment begins with two slashes, or one mark. -/
theorem step_slashes (cs : List Char) : (Region.plain.step '/' ('/' :: cs)).step '/' cs =
    if lineEndsWell cs then .comment else .plain := by
  have hslash : lineEndsWell ('/' :: cs) = lineEndsWell cs :=
    lineEndsWell_cons (by decide) (by decide) cs
  cases hwell : lineEndsWell cs <;> simp [step, opensComment, hslash, hwell]

theorem step_hash (cs : List Char) : Region.plain.step '#' cs =
    if lineEndsWell cs then .comment else .plain := by
  cases hwell : lineEndsWell cs <;> simp [step, opensComment, hwell]

end Region

/-- Reading on from a text in a region leads to `y`, past no semicolon. -/
def LeadsIn (r : Region) (u y : List Char) : Prop :=
  ∃ before, places r u = before ++ places .plain y ∧ ∀ v ∈ before, v.head? ≠ some ';'

/-- Reading on from a text leads to `y`, past no semicolon. -/
def Leads (u y : List Char) : Prop := LeadsIn .plain u y

theorem Leads.refl (u : List Char) : Leads u u := ⟨[], rfl, nofun⟩

namespace LeadsIn

variable {r : Region} {u y cs : List Char} {ch : Char}

theorem step (hch : r = .plain → ch ≠ ';') (h : LeadsIn (r.step ch cs) cs y) :
    LeadsIn r (ch :: cs) y := by
  obtain ⟨before, hplaces, hbefore⟩ := h
  refine ⟨(if r = .plain then [ch :: cs] else []) ++ before, ?_, ?_⟩
  · rw [places, hplaces, List.append_assoc]
  · intro v hv
    rcases List.mem_append.mp hv with hv | hv
    · split at hv
      · next hr =>
        obtain rfl := List.mem_singleton.mp hv
        exact fun h => hch hr (Option.some.inj h)
      · cases hv
    · exact hbefore v hv

/-- Blanks and comments lead to what stands behind them. -/
theorem trivia (inComment : Bool) (u : List Char) :
    LeadsIn (if inComment then .comment else .plain) u (u.drop (triviaLength inComment u)) := by
  fun_induction triviaLength inComment u with
  | case1 inComment => exact ⟨[], by rw [places, List.drop_nil, places]; rfl, List.forall_mem_nil _⟩
  | case2 inComment cs ih =>
    refine .step (fun _ => by decide) ?_
    cases inComment <;> exact ih
  | case3 cs ih => exact .step (fun _ => by decide) (.step (fun _ => by decide) ih)
  | case4 inComment cs hplain ih =>
    obtain rfl : inComment = false := by simpa using hplain
    refine .step (fun _ => by decide) (.step (fun _ => by decide) ?_)
    simp only [Bool.false_eq_true, if_false, Region.step_slashes]
    exact ih
  | case5 cs ih => exact .step (fun _ => by decide) ih
  | case6 inComment cs hplain ih =>
    obtain rfl : inComment = false := by simpa using hplain
    refine .step (fun _ => by decide) ?_
    simp only [Bool.false_eq_true, if_false, Region.step_hash]
    exact ih
  | case7 ch cs hfeed _ _ ih =>
    refine .step (fun h => absurd h (by decide)) ?_
    simp only [if_true, Region.step_comment fun h => hfeed h]
    exact ih
  | case8 inComment ch cs _ _ _ hplain hspace ih =>
    obtain rfl : inComment = false := by simpa using hplain
    refine .step (fun _ => (Region.step_blank hspace cs).2) ?_
    simp only [Bool.false_eq_true, if_false, (Region.step_blank hspace cs).1]
    exact ih
  | case9 inComment ch cs _ _ _ hplain _ =>
    obtain rfl : inComment = false := by simpa using hplain
    exact Leads.refl _

end LeadsIn

namespace Leads

variable {u y : List Char} {ch : Char}

theorem concludes (h : Leads u y) : concludes u = concludes y := by
  obtain ⟨before, hplaces, hbefore⟩ := h
  unfold Grammar.concludes
  rw [hplaces, List.any_append, List.any_eq_false.mpr, Bool.false_or]
  exact fun v hv => by simpa using hbefore v hv

theorem torn (h : Leads u y) (htorn : torn u = false) : Grammar.torn y = false := by
  obtain ⟨before, hplaces, -⟩ := h
  unfold Grammar.torn at htorn
  rw [hplaces, List.any_append, Bool.or_eq_false_iff] at htorn
  exact htorn.2

/-- Characters that are part of no string, comment or statement's end lead on. -/
theorem run {p : Char → Bool} (hp : ['"', '#', '/', ';'].any p = false) {taken : List Char}
    (htaken : ∀ ch ∈ taken, p ch = true) (y : List Char) : Leads (taken ++ y) y := by
  induction taken with
  | nil => exact .refl y
  | cons ch taken ih =>
    have hch : ∀ x ∈ ['"', '#', '/', ';'], ch ≠ x := by
      rintro x hx rfl
      exact List.any_eq_false.mp hp ch hx (htaken ch List.mem_cons_self)
    have hstep : Region.plain.step ch (taken ++ y) = .plain := by
      simp [Region.step, opensComment, hch '"' (by decide), hch '#' (by decide),
        hch '/' (by decide)]
    rw [List.cons_append]
    refine LeadsIn.step (fun _ => hch ';' (by decide)) ?_
    rw [hstep]
    exact ih fun x hx => htaken x (List.mem_cons_of_mem _ hx)

/-- A mark leads to what stands behind it, if it does not begin a comment. -/
theorem mark (hch : ch ∈ marks) {cs : List Char} (hslash : ch = '/' → cs.head? ≠ some '/') :
    Leads (ch :: cs) cs := by
  have hne : ∀ x ∉ marks, ch ≠ x := fun _ => ne_of_mem_of_not_mem hch
  refine LeadsIn.step (fun _ => hne ';' (by decide)) ?_
  have hstep : Region.plain.step ch cs = .plain := by
    have hopens : opensComment ch cs = false := by
      simpa [opensComment, hne '#' (by decide)] using hslash
    simp [Region.step, hne '"' (by decide), hopens]
  rw [hstep]
  exact Leads.refl cs

/-- A string leads to what stands behind it. -/
theorem string {inner : List Char}
    (hinner : ∀ ch ∈ inner, (ch != '"' && ch != '\n' && ch != '\r') = true) (y : List Char) :
    Leads ('"' :: (inner ++ '"' :: y)) y := by
  refine LeadsIn.step (fun _ => by decide) ?_
  show LeadsIn .string _ y
  induction inner with
  | nil => exact .step nofun (Leads.refl y)
  | cons ch inner ih =>
    have hch := hinner ch List.mem_cons_self
    simp only [Bool.and_eq_true, bne_iff_ne] at hch
    have hstep : Region.string.step ch (inner ++ '"' :: y) = .string := by
      simp [Region.step, hch.1.1, hch.1.2, hch.2]
    rw [List.cons_append]
    refine .step nofun ?_
    rw [hstep]
    exact ih fun x hx => hinner x (List.mem_cons_of_mem _ hx)

end Leads

/-! ### Blanks and comments of a longer text -/

section Blanks

variable {r : Region} {ch : Char} {cs u : List Char} {inComment : Bool}

theorem tornAt_step (h : (places r (ch :: cs)).any tornAt = false) :
    (places (r.step ch cs) cs).any tornAt = false := by
  rw [places, List.any_append, Bool.or_eq_false_iff] at h
  exact h.2

theorem tornAt_head (h : (places .plain (ch :: cs)).any tornAt = false) :
    tornAt (ch :: cs) = false := by
  rw [places, List.any_append, Bool.or_eq_false_iff] at h
  simpa using h.1

/-- No comment begins with the end of a text and a line feed. -/
theorem not_slashes_longer {later : List Char}
    (h : ∀ rest : List Char, ch = '/' → cs = '/' :: rest → False) (rest : List Char) (hch : ch = '/')
    (hcs : cs ++ '\n' :: later = '/' :: rest) : False := by
  cases cs with
  | nil => exact absurd (List.cons.inj hcs).1 (by decide)
  | cons x xs => exact h xs hch (congrArg (· :: xs) (List.cons.inj hcs).1)

/-- Blanks and comments are the same in a longer text, where something stands behind them; where they
reach to the end of the text, those of the rest follow after the line feed. -/
theorem triviaLength_longer (inComment : Bool) (later : List Char)
    (htorn : (places (if inComment then .comment else .plain) u).any tornAt = false) :
    triviaLength inComment (u ++ '\n' :: later) =
      if u.drop (triviaLength inComment u) = [] then u.length + 1 + triviaLength false later
      else triviaLength inComment u := by
  -- what is skipped first is skipped in the longer text as well
  have hskip : ∀ (t k : Nat) (cs : List Char),
      (if cs.drop t = [] then cs.length + 1 + triviaLength false later else t) + k =
        if cs.drop t = [] then cs.length + k + 1 + triviaLength false later else t + k := by
    intro t k cs
    split <;> omega
  fun_induction triviaLength inComment u with
  | case1 inComment =>
    rw [List.nil_append, List.drop_nil, if_pos rfl, triviaLength, List.length_nil]
    omega
  | case2 inComment cs ih =>
    have htorn := tornAt_step htorn
    rw [List.cons_append, triviaLength, ih (by cases inComment <;> exact htorn), hskip,
      List.drop_succ_cons, List.length_cons]
  | case3 cs ih =>
    rw [List.cons_append, List.cons_append, triviaLength, if_pos rfl,
      ih (tornAt_step (tornAt_step htorn)), hskip]
    rfl
  | case4 inComment cs hplain ih =>
    obtain rfl : inComment = false := by simpa using hplain
    have hwell : lineEndsWell (cs ++ '\n' :: later) = lineEndsWell cs := by
      have hopens : opensComment '/' ('/' :: cs) = true := rfl
      have hslash := lineEndsWell_longer hopens (tornAt_head htorn) later
      rwa [List.cons_append, lineEndsWell_cons (by decide) (by decide),
        lineEndsWell_cons (by decide) (by decide)] at hslash
    have htorn := tornAt_step (tornAt_step htorn)
    simp only [Bool.false_eq_true, if_false, Region.step_slashes] at htorn
    rw [List.cons_append, List.cons_append, triviaLength, if_neg hplain, hwell, ih htorn, hskip]
    rfl
  | case5 cs ih =>
    rw [List.cons_append, triviaLength, if_pos rfl, ih (tornAt_step htorn), hskip]
    rfl
  | case6 inComment cs hplain ih =>
    obtain rfl : inComment = false := by simpa using hplain
    have hopens : opensComment '#' cs = true := rfl
    have hwell := lineEndsWell_longer hopens (tornAt_head htorn) later
    have htorn := tornAt_step htorn
    simp only [Bool.false_eq_true, if_false, Region.step_hash] at htorn
    rw [List.cons_append, triviaLength, if_neg hplain, hwell, ih htorn, hskip]
    rfl
  | case7 ch cs hfeed hslash hhash ih =>
    have htorn := tornAt_step htorn
    simp only [if_true, Region.step_comment fun h => hfeed h] at htorn
    rw [List.cons_append, triviaLength.eq_5 _ _ _ hfeed (not_slashes_longer hslash) hhash, if_pos rfl,
      ih htorn, hskip]
    rfl
  | case8 inComment ch cs hfeed hslash hhash hplain hspace ih =>
    obtain rfl : inComment = false := by simpa using hplain
    have htorn := tornAt_step htorn
    simp only [Bool.false_eq_true, if_false, (Region.step_blank hspace cs).1] at htorn
    rw [List.cons_append, triviaLength.eq_5 _ _ _ hfeed (not_slashes_longer hslash) hhash, if_neg hplain,
      if_pos hspace, ih htorn, hskip]
    rfl
  | case9 inComment ch cs hfeed hslash hhash hplain hspace =>
    rw [List.cons_append, triviaLength.eq_5 _ _ _ hfeed (not_slashes_longer hslash) hhash, if_neg hplain,
      if_neg hspace, List.drop_zero, if_neg (List.cons_ne_nil _ _)]

end Blanks

/-- What stands in a text behind blanks and comments. -/
def bare (cs : List Char) : List Char := cs.drop (triviaLength false cs)

theorem start_rest (c : Cursor) : c.start.rest = bare c.rest := Cursor.skip_rest _ c

theorem bare_leads (u : List Char) : Leads u (bare u) := LeadsIn.trivia false u

/-- No comment begins behind blanks and comments. -/
theorem no_comment {u cs : List Char} (h : bare u = '/' :: cs) : cs.head? ≠ some '/' := by
  intro hhead
  obtain ⟨rest, rfl⟩ := List.head?_eq_some_iff.mp hhead
  have hlength := Cursor.triviaLength_drop false u
  rw [show u.drop (triviaLength false u) = '/' :: '/' :: rest from h, triviaLength] at hlength
  cases hlength

/-- A semicolon is neither blank nor part of a comment. -/
theorem bare_ne_nil {u : List Char} (h : concludes u = true) : bare u ≠ [] := by
  rintro hnil
  rw [(bare_leads u).concludes, hnil] at h
  cases h

/-- How a longer text goes on: not at all, or with a line feed. -/
def Continuation (ext : List Char) : Prop := ext = [] ∨ ∃ later, ext = '\n' :: later

theorem bare_append {u ext : List Char} (hext : Continuation ext)
    (h : ext ≠ [] → bare u ≠ [] ∧ torn u = false) : bare (u ++ ext) = bare u ++ ext := by
  rcases hext with rfl | ⟨later, rfl⟩
  · simp
  · obtain ⟨hbare, htorn⟩ := h (List.cons_ne_nil _ _)
    have hlength := triviaLength_longer false later htorn
    rw [if_neg (show u.drop (triviaLength false u) ≠ [] from hbare)] at hlength
    unfold bare
    rw [hlength, List.drop_append_of_le_length]
    by_contra hle
    exact hbare (List.drop_eq_nil_of_le (by omega))

/-- Where nothing stands in a text, what stands in a longer one stands after the line feed. -/
theorem bare_append_of_nil {u : List Char} (later : List Char) (hbare : bare u = [])
    (htorn : torn u = false) : bare (u ++ '\n' :: later) = bare later := by
  have hlength := triviaLength_longer false later htorn
  rw [if_pos (show u.drop (triviaLength false u) = [] from hbare)] at hlength
  unfold bare
  rw [hlength, Nat.add_assoc, List.drop_append, List.drop_eq_nil_of_le (by omega), List.nil_append]
  rw [Nat.add_sub_cancel_left, Nat.add_comm, List.drop_succ_cons]

end Grammar

/-! ## Words, numbers and strings of a longer text -/

namespace Tandem

open Grammar Grammar.Parser

variable {T : Tandem}

theorem Stops.of_inexact (hT : ¬ T.exact) (stops stops' : List Stop) : T.Stops stops stops' :=
  fun hexact => absurd hexact hT

theorem Paired.of_stops {α : Type} {P : Cursor → Cursor → Prop} {R : α → α → Prop} {p p' : Parser α}
    {c c' : Cursor} (hT : ¬ T.exact) (h : p.Stops c) (h' : p'.Stops c') :
    T.Paired P R (p c) (p' c') := by
  obtain ⟨stops, hstops⟩ := stops_iff.mp h
  obtain ⟨stops', hstops'⟩ := stops_iff.mp h'
  rw [hstops, hstops']
  exact .error (.of_inexact hT _ _)

/-- A mark is read from both texts, or from none. -/
theorem Paired.mark {P : Cursor → Cursor → Prop} {ch : Char} {c c' : Cursor} (hT : ¬ T.exact)
    (hhead : c.head? = c'.head?) (hafter : c.head? = some ch → P c.after c'.after) :
    T.Paired P Eq (Grammar.mark ch c) (Grammar.mark ch c') := by
  by_cases h : c.head? = some ch
  · rw [mark_ok h, mark_ok (hhead.symm.trans h)]
    exact .ok rfl (hafter h)
  · exact .of_stops hT (mark_stops h) (mark_stops fun h' => h (hhead.trans h'))

/-- A word of the language is read from both texts, or from none. -/
theorem Paired.keyword {P : Cursor → Cursor → Prop} {word : String} {c c' : Cursor} (hT : ¬ T.exact)
    (hword : word ∈ ["import", "export", "as"])
    (hsame : c.start.rest.takeWhile isWordPart = word.toList ↔
      c'.start.rest.takeWhile isWordPart = word.toList)
    (hafter : c.start.rest.takeWhile isWordPart = word.toList →
      P (c.start.skip word.length).start (c'.start.skip word.length).start) :
    T.Paired P (fun _ _ => True) (Grammar.keyword word c) (Grammar.keyword word c') := by
  have hparts : word.toList.all isWordPart = true := by
    clear hsame hafter
    revert word
    decide
  by_cases h : c.start.rest.takeWhile isWordPart = word.toList
  · rw [keyword_ok h, keyword_ok (hsame.mp h)]
    exact .ok True.intro (hafter h)
  · exact .of_stops hT (keyword_stops hparts h) (keyword_stops hparts fun h' => h (hsame.mpr h'))

/-- A rule reads the same in a text and in a longer one. -/
def Prolongs (T : Tandem) (ext : List Char) {α : Type} (R : α → α → Prop) (p : Parser α) : Prop :=
  ∀ c c', c'.rest = c.rest ++ ext → T.Paired (fun d d' => d'.rest = d.rest ++ ext) R (p c) (p c')

/-- A run of characters that excludes the line feed ends where the text does. -/
theorem takeWhile_append {ext : List Char} (hext : Continuation ext) {class_ : Char → Bool}
    (hclass : class_ '\n' = false) (u : List Char) :
    (u ++ ext).takeWhile class_ = u.takeWhile class_ := by
  have hnil : ext.takeWhile class_ = [] := by
    rcases hext with rfl | ⟨later, rfl⟩
    · rfl
    · exact List.takeWhile_cons_of_neg (by simp [hclass])
  rw [List.takeWhile_append, hnil, List.append_nil]
  split
  · next h => exact (List.takeWhile_prefix class_).eq_of_length h |>.symm
  · rfl

theorem skip_append {ext : List Char} {c c' : Cursor} (hc : c'.rest = c.rest ++ ext) {n : Nat}
    (hn : n ≤ c.rest.length) : (c'.skip n).rest = (c.skip n).rest ++ ext := by
  rw [Cursor.skip_rest, Cursor.skip_rest, hc, List.drop_append_of_le_length hn]

namespace Prolongs

variable {ext : List Char} {α β : Type} {R : α → α → Prop} {S : β → β → Prop} {p : Parser α}

theorem pure {a : α} (ha : R a a) : T.Prolongs ext R (Pure.pure a) := fun _ _ hc => .ok ha hc

theorem bind {f : α → Parser β} (h : T.Prolongs ext Eq p) (hf : ∀ a, T.Prolongs ext S (f a)) :
    T.Prolongs ext S (p >>= f) := fun c c' hc =>
  (h c c' hc).bind fun a _ d d' ha hd => ha ▸ hf a d d' hd

theorem optional (h : T.Prolongs ext Eq p) : T.Prolongs ext Eq (optional p) := fun c c' hc =>
  ((h c c' hc).optional hc).imp (fun a a' ha => by
    cases ha with
    | some h => rw [h]
    | none => rfl) fun _ _ => id

theorem committed (h : T.Prolongs ext R p) : T.Prolongs ext R (committed p) := fun c c' hc =>
  (h c c' hc).committed

variable (hT : ¬ T.exact) (hext : Continuation ext)
include hT

theorem labelled (label : String) (h : T.Prolongs ext R p) :
    T.Prolongs ext R (labelled label p) := fun c c' hc => by
  have hpaired := h c c' hc
  unfold Parser.labelled
  revert hpaired
  generalize p c = o, p c' = o'
  intro hpaired
  cases hpaired with
  | ok ha hd => exact .ok ha hd
  | error _ => exact .error (.of_inexact hT _ _)
  | failure _ hnotice => exact .failure (.of_inexact hT _ _) hnotice

theorem choice {ps : List (Parser α)} (h : ∀ p ∈ ps, T.Prolongs ext R p) :
    T.Prolongs ext R (choice ps) := by
  intro c c' hc
  induction ps with
  | nil => exact .error (.of_inexact hT _ _)
  | cons p ps ih =>
    have hp := h p List.mem_cons_self c c' hc
    have hps := ih fun q hq => h q (List.mem_cons_of_mem p hq)
    cases ps with
    | nil =>
      unfold Parser.choice
      revert hp
      generalize p c = o, p c' = o'
      intro hp
      cases hp with
      | ok ha hd => exact .ok ha hd
      | error _ => exact .error (.of_inexact hT _ _)
      | failure hstops hnotice => exact .failure hstops hnotice
    | cons q ps =>
      rw [choice_cons, choice_cons]
      revert hp
      generalize p c = o, p c' = o'
      intro hp
      cases hp with
      | ok ha hd => exact .ok ha hd
      | error _ => exact hps
      | failure hstops hnotice => exact .failure hstops hnotice

include hext

theorem char {ch : Char} (hch : ch ≠ '\n') : T.Prolongs ext Eq (char ch) := by
  intro c c' hc
  by_cases hhead : c.rest.head? = some ch
  · obtain ⟨cs, hcs⟩ := List.head?_eq_some_iff.mp hhead
    rw [char_ok hhead, char_ok (by rw [hc, hcs]; rfl)]
    refine .ok rfl ?_
    rw [Cursor.next_rest, Cursor.next_rest, hc, hcs]
    rfl
  · have hhead' : c'.rest.head? ≠ some ch := by
      rw [hc]
      cases hrest : c.rest with
      | nil =>
        rcases hext with rfl | ⟨later, rfl⟩
        · nofun
        · exact fun h => hch (Option.some.inj h).symm
      | cons x xs => simpa [hrest] using hhead
    exact .of_stops hT (char_stops hhead) (char_stops hhead')

omit hT in
theorem runOf {class_ : Char → Bool} (hclass : class_ '\n' = false) :
    T.Prolongs ext Eq (runOf class_) := by
  intro c c' hc
  have hrun := takeWhile_append hext hclass c.rest
  refine .ok (by rw [hc, hrun]) ?_
  rw [hc, hrun]
  exact skip_append hc (List.takeWhile_prefix class_).length_le

theorem someOf {class_ : Char → Bool} (hclass : class_ '\n' = false) (mismatch : Mismatch) :
    T.Prolongs ext Eq (someOf class_ mismatch) := by
  intro c c' hc
  unfold Grammar.someOf Cursor.takeWhile
  dsimp only
  rw [hc, takeWhile_append hext hclass c.rest]
  split
  · exact .error (.of_inexact hT _ _)
  · exact .ok rfl (skip_append hc (List.takeWhile_prefix class_).length_le)

theorem identifier : T.Prolongs ext Eq identifier :=
  (someOf hT hext (by decide) _).bind fun _ => (runOf hext (by decide)).bind fun _ => .pure rfl

theorem stringLiteral : T.Prolongs ext Eq stringLiteral :=
  (char hT hext (by decide)).bind fun _ => (runOf hext (by decide)).bind fun _ =>
    ((char hT hext (by decide)).labelled hT _).bind fun _ => .pure rfl

theorem sign : T.Prolongs ext Eq sign := by
  refine (Prolongs.optional (.choice hT ?_)).bind fun _ => .pure rfl
  exact List.forall_mem_cons.mpr ⟨char hT hext (by decide),
    List.forall_mem_singleton.mpr (char hT hext (by decide))⟩

theorem digits : T.Prolongs ext Eq digits := someOf hT hext (by decide) _

theorem mantissa : T.Prolongs ext Eq mantissa := by
  refine .choice hT (List.forall_mem_cons.mpr ⟨?_, List.forall_mem_singleton.mpr ?_⟩)
  · exact (digits hT hext).bind fun _ =>
      (((char hT hext (by decide)).bind fun _ => runOf hext (by decide)).optional).bind
        fun _ => .pure rfl
  · exact (char hT hext (by decide)).bind fun _ => (digits hT hext).bind fun _ => .pure rfl

theorem numeral : T.Prolongs ext Eq numeral := by
  refine (sign hT hext).bind fun _ => (mantissa hT hext).bind fun _ => ?_
  refine Prolongs.bind (.optional ((Prolongs.choice hT ?_).bind fun _ => (sign hT hext).bind fun _ =>
    (digits hT hext).committed.bind fun _ => ?_)) fun _ => .pure rfl
  · exact List.forall_mem_cons.mpr ⟨char hT hext (by decide),
      List.forall_mem_singleton.mpr (char hT hext (by decide))⟩
  · split <;> exact .pure rfl

end Prolongs

/-- A text and a longer one, `ext` being what comes after it. `ends` tells whether a semicolon is
ahead, without which no statement ends; where the text goes on there is one, and no comment is
broken by the end of the text. -/
def onward (registry : Registry) (M M' : Model) (ext : List Char) (ends : Bool) : Tandem where
  first := ⟨registry, M⟩
  second := ⟨registry, M'⟩
  near _ c c' := c'.rest = c.rest ++ ext ∧ concludes c.rest = ends ∧
    (ext ≠ [] → ends = true ∧ torn c.rest = false)
  past c c' := ends = true ∧
    ∃ u, c.rest = bare u ∧ c'.rest = bare (u ++ ext) ∧ (ext ≠ [] → torn u = false)
  exact := False
  place := fun _ => .made 0

section Onward

variable {registry : Registry} {M M' : Model} {ext : List Char} {ends : Bool} {s t : Stage}
  {c c' d d' : Cursor}

/-- Both texts go on after what has been read. -/
theorem onward_near (h : (onward registry M M' ext ends).near s c c')
    (hleads : Leads c.rest d.rest) (hd : d'.rest = d.rest ++ ext) :
    (onward registry M M' ext ends).near t d d' :=
  ⟨hd, hleads.concludes.symm.trans h.2.1, fun hext => ⟨(h.2.2 hext).1, hleads.torn (h.2.2 hext).2⟩⟩

/-- A token past no semicolon is read alike. -/
theorem onward_token {α : Type} {R : α → α → Prop} {p : Parser α}
    (hprolongs : (onward registry M M' ext ends).Prolongs ext R p)
    (h : (onward registry M M' ext ends).near s c c')
    (hleads : ∀ a d, p c = .ok a d → Leads c.rest d.rest) :
    (onward registry M M' ext ends).Paired ((onward registry M M' ext ends).near t) R (p c) (p c') := by
  have hpaired := hprolongs c c' h.1
  cases hp : p c <;> cases hp' : p c' <;> rw [hp, hp'] at hpaired <;> cases hpaired
  case ok.ok a d a' d' ha hd => exact .ok ha (onward_near h (hleads a d hp) hd)
  case error.error hstops => exact .error hstops
  case failure.failure hstops hnotice => exact .failure hstops hnotice

variable (hext : Continuation ext)
include hext

theorem onward_start (h : (onward registry M M' ext ends).near s c c') :
    (onward registry M M' ext ends).near t c.start c'.start := by
  refine onward_near h (start_rest c ▸ bare_leads c.rest) ?_
  rw [start_rest, start_rest, h.1, bare_append hext]
  intro hne
  obtain ⟨rfl, htorn⟩ := h.2.2 hne
  exact ⟨bare_ne_nil h.2.1, htorn⟩

/-- The same character stands in both texts. -/
theorem onward_head? (h : (onward registry M M' ext ends).near s c c') : c.head? = c'.head? := by
  have hstart := (onward_start (t := s) hext h).1
  rw [Cursor.head?, Cursor.head?, hstart]
  by_cases hne : ext = []
  · rw [hne, List.append_nil]
  · obtain ⟨rfl, -⟩ := h.2.2 hne
    have hbare := bare_ne_nil h.2.1
    rw [← start_rest] at hbare
    exact (List.head?_append_of_ne_nil _ hbare).symm

/-- Both texts go on after a mark. -/
theorem onward_after (h : (onward registry M M' ext ends).near s c c') {ch : Char} (hch : ch ∈ marks)
    (hhead : c.head? = some ch) : (onward registry M M' ext ends).near t c.after c'.after := by
  obtain ⟨cs, hcs⟩ := List.head?_eq_some_iff.mp (show c.start.rest.head? = some ch from hhead)
  have hstart := onward_start (t := s) hext h
  have hleads : Leads c.start.rest c.start.next.rest := by
    rw [Cursor.next_rest, hcs, List.tail_cons]
    exact Leads.mark hch fun hslash => no_comment (start_rest c ▸ hslash ▸ hcs)
  refine onward_start hext (onward_near (t := s) hstart hleads ?_)
  rw [Cursor.next_rest, Cursor.next_rest, hstart.1, hcs]
  rfl

/-- A semicolon was ahead, and both texts go on after it. -/
theorem onward_past (h : (onward registry M M' ext ends).near s c c') (hhead : c.head? = some ';') :
    (onward registry M M' ext ends).past c.after c'.after := by
  obtain ⟨u, hu⟩ := List.head?_eq_some_iff.mp (show c.start.rest.head? = some ';' from hhead)
  obtain ⟨hrest, hends, htorn⟩ := onward_start (t := s) hext h
  have hnext : c.start.next.rest = u := by rw [Cursor.next_rest, hu, List.tail_cons]
  have hnext' : c'.start.next.rest = u ++ ext := by
    rw [Cursor.next_rest, hrest, hu]
    rfl
  refine ⟨?_, u, ?_, ?_, fun hne => ?_⟩
  · rw [← hends, hu]
    rfl
  · rw [Cursor.after, start_rest, hnext]
  · rw [Cursor.after, start_rest, hnext']
  · have hplain := (htorn hne).2
    rw [hu] at hplain
    exact tornAt_step hplain

/-- Both texts have the same word of the language, or neither has one. -/
theorem onward_keyword (h : (onward registry M M' ext ends).near s c c') {word : String}
    (hword : word ∈ ["import", "export", "as"]) :
    (onward registry M M' ext ends).Paired ((onward registry M M' ext ends).near t) (fun _ _ => True)
      (keyword word c) (keyword word c') := by
  have hstart := onward_start (t := s) hext h
  have hsame : c'.start.rest.takeWhile isWordPart = c.start.rest.takeWhile isWordPart := by
    rw [hstart.1, takeWhile_append hext (by decide)]
  refine .keyword id hword (by rw [hsame]) fun hrun => ?_
  have hlength : word.length = (c.start.rest.takeWhile isWordPart).length := by
    rw [hrun, String.length_toList]
  have hle : word.length ≤ c.start.rest.length :=
    hlength ▸ (List.takeWhile_prefix isWordPart).length_le
  refine onward_start hext (onward_near (t := s) hstart ?_ (skip_append hstart.1 hle))
  rw [Cursor.skip_rest, hlength, drop_takeWhile_length]
  have hall : ∀ ch ∈ c.start.rest.takeWhile isWordPart, isWordPart ch = true :=
    fun _ => List.mem_takeWhile_imp
  have hleads := Leads.run (by decide) hall (c.start.rest.dropWhile isWordPart)
  rwa [List.takeWhile_append_dropWhile] at hleads

theorem onward_lawful (halike : M.Alike (fun _ => .made 0) M') :
    (onward registry M M' ext ends).Lawful where
  word := id
  mark := id
  start := onward_start hext
  marks := fun hch h => .mark id (onward_head? hext h) (onward_after hext h hch)
  semicolon := fun h => .mark id (onward_head? hext h) (onward_past hext h)
  identifier := by
    intro c c' h _ _
    have hread := onward_token (t := .mark) (Prolongs.identifier id hext) h fun name d hname => by
      obtain ⟨run, hrun, hall⟩ := identifier_takes c name d hname
      exact hrun ▸ Leads.run (by decide) hall d.rest
    exact hread.imp (fun _ _ hname => ⟨hname, rfl⟩) fun _ _ => id
  numeral := by
    intro c c' h _ _ _
    refine onward_token (Prolongs.numeral id hext) h fun x d hx => ?_
    obtain ⟨run, hrun, hall, -⟩ := numeral_local c x d hx
    exact hrun ▸ Leads.run (by decide) hall d.rest
  stringLiteral := by
    intro c c' h _ _
    refine onward_token (Prolongs.stringLiteral id hext) h fun value d hvalue => ?_
    obtain ⟨inner, hinner, hall⟩ := stringLiteral_inv hvalue
    exact hinner ▸ Leads.string hall d.rest
  keyword := fun hword h => onward_keyword hext h hword
  same := nofun
  model := nofun
  alike := halike
  origin := fun _ _ => rfl

end Onward

end Tandem

end PartScript
