/-
  Words of a text. A word begins where a letter or an underscore stands that does not continue
  another word, and goes on as long as it can. Reading only asks for a word where one begins: after
  the start of a text, a blank, a comment or a mark.
-/
import PartScript.Grammar.Script
import PartScript.Proofs.Tandem

namespace PartScript.Grammar

open Grammar.Parser

/-! ## Runs of characters -/

theorem takeWhile_append_takeWhile {p q : Char → Bool} (h : ∀ ch, p ch = true → q ch = true)
    (cs : List Char) :
    cs.takeWhile p ++ (cs.drop (cs.takeWhile p).length).takeWhile q = cs.takeWhile q := by
  induction cs with
  | nil => rfl
  | cons ch cs ih =>
    by_cases hch : p ch = true
    · simp [hch, h ch hch, ih]
    · simp [hch]

theorem drop_takeWhile_length (inner : Char → Bool) (u : List Char) :
    u.drop (u.takeWhile inner).length = u.dropWhile inner := by
  have hsplit := List.takeWhile_append_dropWhile (p := inner) (l := u)
  calc u.drop (u.takeWhile inner).length
      = (u.takeWhile inner ++ u.dropWhile inner).drop (u.takeWhile inner).length := by rw [hsplit]
    _ = u.dropWhile inner := List.drop_left

theorem isWordPart_of_start {ch : Char} (h : isWordStart ch = true) : isWordPart ch = true := by
  unfold isWordStart at h
  unfold isWordPart
  simp only [Char.isAlphanum, Bool.or_eq_true] at h ⊢
  tauto

/-- A word is the longest run of its characters where it begins. -/
theorem identifier_apply (c : Cursor) :
    identifier c =
      if (c.rest.head?.any isWordStart) then
        .ok (String.ofList (c.rest.takeWhile isWordPart))
          (c.skip (c.rest.takeWhile isWordPart).length)
      else .error [⟨c, .run⟩] := by
  unfold identifier
  rw [bind_apply]
  unfold someOf Cursor.takeWhile
  cases hrest : c.rest with
  | nil => rfl
  | cons ch cs =>
    by_cases hch : isWordStart ch = true
    · have hnonempty : ((ch :: cs).takeWhile isWordStart).isEmpty = false := by simp [hch]
      have hwhole := takeWhile_append_takeWhile (p := isWordStart) (q := isWordPart)
        (fun _ => isWordPart_of_start) (ch :: cs)
      have hlength := congrArg List.length hwhole
      rw [List.length_append] at hlength
      simp only [hnonempty, Bool.false_eq_true, if_false, List.head?_cons, Option.any_some, hch,
        if_true]
      show Outcome.ok _ _ = _
      simp only [Cursor.skip_rest, Cursor.skip_skip, hrest, hwhole, hlength]
    · have hempty : ((ch :: cs).takeWhile isWordStart).isEmpty = true := by simp [hch]
      simp only [hempty, if_true, List.head?_cons, Option.any_some, hch, Bool.false_eq_true, if_false]

/-! ## Where words begin -/

/-- The words that begin in a text, where `inside` holds behind a character of a word. -/
def identifiersFrom (inside : Bool) : List Char → List String
  | [] => []
  | ch :: cs =>
    let later := identifiersFrom (isWordPart ch) cs
    if isWordStart ch && !inside then
      String.ofList ((ch :: cs).takeWhile isWordPart) :: later
    else later

/-- The identifiers that occur in a text: its longest runs of letters, digits and underscores that
begin with a letter or an underscore. -/
def identifiers (source : String) : List String := identifiersFrom false source.toList

/-- No word goes on from the end of one text to the head of another. -/
def Apart (before after : List Char) : Prop :=
  before.getLast?.any isWordPart = true → after.head?.any isWordPart = false

/-- A word that no character of a word stands in front of occurs in the text. -/
theorem mem_identifiersFrom {inside : Bool} {before after : List Char}
    (hinside : before = [] → inside = false) (hapart : Apart before after)
    (hword : after.head?.any isWordStart = true) :
    String.ofList (after.takeWhile isWordPart) ∈ identifiersFrom inside (before ++ after) := by
  induction before generalizing inside with
  | nil =>
    cases after with
    | nil => cases hword
    | cons ch cs =>
      have hch : isWordStart ch = true := hword
      simp [identifiersFrom, hinside rfl, hch]
  | cons x before ih =>
    have hlater : String.ofList (after.takeWhile isWordPart) ∈
        identifiersFrom (isWordPart x) (before ++ after) := by
      refine ih (fun hnil => ?_) fun hlast => hapart ?_
      · subst hnil
        cases after with
        | nil => cases hword
        | cons ch cs =>
          by_contra hpart
          have hcontinues := hapart (by simpa using hpart)
          have hch : isWordPart ch = true := isWordPart_of_start hword
          simp [hch] at hcontinues
      · cases before with
        | nil => cases hlast
        | cons y ys => simpa using hlast
    rw [List.cons_append, identifiersFrom]
    split
    · exact List.mem_cons_of_mem _ hlater
    · exact hlater

theorem Apart.concat {ch : Char} (h : isWordPart ch = false) (before after : List Char) :
    Apart (before ++ [ch]) after := by
  intro hlast
  rw [List.getLast?_concat, Option.any_some, h] at hlast
  cases hlast

/-- No word goes on over blanks and comments. -/
theorem Apart.trivia {before cs : List Char} {inComment : Bool}
    (h : inComment = false → Apart before cs) :
    Apart (before ++ cs.take (triviaLength inComment cs)) (cs.drop (triviaLength inComment cs)) := by
  have hnext : ∀ {cs before : List Char} {ch : Char} {n : Nat},
      Apart ((before ++ [ch]) ++ cs.take n) (cs.drop n) →
        Apart (before ++ (ch :: cs).take (n + 1)) ((ch :: cs).drop (n + 1)) := by
    intro cs before ch n h
    simpa using h
  have hslash : isWordPart '/' = false := by decide
  have hinside : ∀ {before cs : List Char}, true = false → Apart before cs :=
    fun h => absurd h (by decide)
  fun_induction triviaLength inComment cs generalizing before with
  | case1 => exact fun _ => rfl
  | case2 inComment cs ih => exact hnext (ih fun _ => .concat (by decide) before cs)
  | case3 cs ih => exact hnext (hnext (ih hinside))
  | case4 _ cs _ ih => exact hnext (hnext (ih fun _ => .concat hslash _ cs))
  | case5 cs ih => exact hnext (ih hinside)
  | case6 _ cs _ ih => exact hnext (ih fun _ => .concat (by decide) _ cs)
  | case7 ch cs _ _ _ ih => exact hnext (ih hinside)
  | case8 inComment ch cs _ _ _ _ hspace ih =>
    refine hnext (ih fun _ => .concat ?_ before cs)
    simp only [isSpace, Bool.or_eq_true, beq_iff_eq] at hspace
    rcases hspace with ((rfl | rfl) | rfl) | rfl <;> decide
  | case9 inComment ch cs _ _ _ hcomment _ => simpa using h (by simpa using hcomment)

/-! ## Stops without explanation -/

/-- No diagnostic looks at a word where reading has stopped. -/
def Outcome.Tacit {α : Type} : Outcome α → Prop
  | .ok _ _ => True
  | .error stops => ∀ s ∈ stops, ¬ s.mismatch.Explained
  | .failure stops _ => ∀ s ∈ stops, ¬ s.mismatch.Explained

/-- No diagnostic looks at a word where a rule stops. -/
def Tacit {α : Type} (p : Parser α) : Prop := ∀ c, (p c).Tacit

namespace Tacit

variable {α β : Type} {p : Parser α}

theorem pure (a : α) : Tacit (Pure.pure a : Parser α) := fun _ => True.intro

theorem position : Tacit position := fun _ => True.intro

theorem bind {f : α → Parser β} (h : Tacit p) (hf : ∀ a, Tacit (f a)) : Tacit (p >>= f) := by
  intro c
  have hc := h c
  rw [bind_apply]
  cases hp : p c with
  | ok a rest => exact hf a rest
  | error stops => rwa [hp] at hc
  | failure stops notice => rwa [hp] at hc

theorem labelled {label : String} (hlabel : label ∉ explainedPhrases) (h : Tacit p) :
    Tacit (labelled label p) := by
  intro c
  have hc := h c
  have hconcat : ∀ stops : List Stop, (∀ s ∈ stops, ¬ s.mismatch.Explained) →
      ∀ s ∈ stops ++ [⟨c, .phrase label⟩], ¬ s.mismatch.Explained := by
    intro stops hstops s hs
    rcases List.mem_append.mp hs with hs | hs
    · exact hstops s hs
    · obtain rfl := List.mem_singleton.mp hs
      exact hlabel
  unfold Parser.labelled
  cases hp : p c with
  | ok a rest => exact True.intro
  | error stops => exact hconcat stops (by rwa [hp] at hc)
  | failure stops notice => exact hconcat stops (by rwa [hp] at hc)

theorem committed (h : Tacit p) : Tacit (committed p) := by
  intro c
  have hc := h c
  unfold Parser.committed
  cases hp : p c <;> rw [hp] at hc <;> exact hc

theorem optional (h : Tacit p) : Tacit (optional p) := by
  intro c
  have hc := h c
  unfold Parser.optional
  cases hp : p c <;> rw [hp] at hc
  · exact True.intro
  · exact True.intro
  · exact hc

theorem choice {ps : List (Parser α)} (h : ∀ p ∈ ps, Tacit p) : Tacit (choice ps) := by
  have hlast : ∀ (stops : List Stop) (c : Cursor), (∀ s ∈ stops, ¬ s.mismatch.Explained) →
      ∀ s ∈ stops ++ [⟨c, .alternatives⟩], ¬ s.mismatch.Explained := by
    intro stops c hstops s hs
    rcases List.mem_append.mp hs with hs | hs
    · exact hstops s hs
    · obtain rfl := List.mem_singleton.mp hs
      exact id
  induction ps with
  | nil => exact fun c => hlast [] c nofun
  | cons p ps ih =>
    intro c
    have hc := h p List.mem_cons_self c
    have hps := ih (fun q hq => h q (List.mem_cons_of_mem p hq)) c
    cases ps with
    | nil =>
      unfold Parser.choice
      cases hp : p c <;> rw [hp] at hc
      · exact True.intro
      · exact hlast _ c hc
      · exact hc
    | cons q ps =>
      rw [choice_cons]
      cases hp : p c <;> rw [hp] at hc
      · exact True.intro
      · exact hps
      · exact hc

end Tacit

theorem trivia_tacit : Tacit trivia := fun _ => True.intro

theorem padded_tacit {α : Type} {p : Parser α} (h : Tacit p) : Tacit (padded p) :=
  trivia_tacit.bind fun _ => h.bind fun _ => trivia_tacit.bind fun _ => .pure _

theorem char_tacit (ch : Char) : Tacit (char ch) := by
  intro c
  have hstop : ∀ s ∈ [(⟨c, .character ch⟩ : Stop)], ¬ s.mismatch.Explained := by
    rintro s hs
    obtain rfl := List.mem_singleton.mp hs
    exact id
  unfold char
  split
  · split
    · exact True.intro
    · exact hstop
  · exact hstop

theorem someOf_tacit (class_ : Char → Bool) {mismatch : Mismatch} (h : ¬ mismatch.Explained) :
    Tacit (someOf class_ mismatch) := by
  intro c
  unfold someOf
  dsimp only
  split
  · rintro s hs
    obtain rfl := List.mem_singleton.mp hs
    exact h
  · exact True.intro

theorem runOf_tacit (class_ : Char → Bool) : Tacit (runOf class_) := fun _ => True.intro

theorem mark_tacit (ch : Char) : Tacit (mark ch) := padded_tacit (char_tacit ch)

theorem identifier_tacit : Tacit identifier :=
  (someOf_tacit _ id).bind fun _ => (runOf_tacit _).bind fun _ => .pure _

theorem stringLiteral_tacit : Tacit stringLiteral :=
  (char_tacit _).bind fun _ => (runOf_tacit _).bind fun _ =>
    (Tacit.labelled (by decide) (char_tacit _)).bind fun _ => .pure _

theorem sign_tacit : Tacit sign := by
  refine (Tacit.optional (.choice ?_)).bind fun _ => .pure _
  exact List.forall_mem_cons.mpr ⟨char_tacit _, List.forall_mem_singleton.mpr (char_tacit _)⟩

theorem digits_tacit : Tacit digits := someOf_tacit _ id

theorem mantissa_tacit : Tacit mantissa := by
  refine .choice (List.forall_mem_cons.mpr ⟨?_, List.forall_mem_singleton.mpr ?_⟩)
  · exact digits_tacit.bind fun _ =>
      (Tacit.optional ((char_tacit _).bind fun _ => runOf_tacit _)).bind fun _ => .pure _
  · exact (char_tacit _).bind fun _ => digits_tacit.bind fun _ => .pure _

theorem numeral_tacit : Tacit numeral := by
  refine sign_tacit.bind fun _ => mantissa_tacit.bind fun _ => ?_
  refine (Tacit.optional ((Tacit.choice ?_).bind fun _ => sign_tacit.bind fun _ =>
    digits_tacit.committed.bind fun _ => ?_)).bind fun _ => .pure _
  · exact List.forall_mem_cons.mpr ⟨char_tacit _, List.forall_mem_singleton.mpr (char_tacit _)⟩
  · split
    · exact .pure _
    · exact .pure _

theorem keyword_tacit (word : String) : Tacit (keyword word) := by
  refine padded_tacit (Tacit.position.bind fun start => ?_)
  have hliterally : Tacit (literally word) := by
    intro c
    unfold literally
    split
    · exact True.intro
    · rintro s hs
      obtain rfl := List.mem_singleton.mp hs
      exact id
  have hfollow : Tacit (notFollowedBy isWordPart) := by
    intro c
    unfold notFollowedBy
    split
    · split
      · rintro s hs
        obtain rfl := List.mem_singleton.mp hs
        exact id
      · exact True.intro
    · exact True.intro
  exact hliterally.bind fun _ => hfollow.bind fun _ => .pure start

end PartScript.Grammar
