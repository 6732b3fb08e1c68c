/-
  How rules end. A rule can stop and let another one be tried, or apply and leave the rest to
  what follows; only where it has committed itself does it fail for good. What stands at a place
  is what stands there after blanks and comments.
-/
import PartScript.Proofs.Nesting

namespace PartScript

/-! ## What stands at a place -/

namespace Cursor

/-- Induction on the number of characters left. -/
theorem shortening {P : Cursor → Prop}
    (h : ∀ c : Cursor, (∀ e : Cursor, e.rest.length < c.rest.length → P e) → P c) (c : Cursor) :
    P c := (measure fun c : Cursor => c.rest.length).wf.induction c h

/-- The place after blanks and comments. -/
def start (c : Cursor) : Cursor := c.skip (Grammar.triviaLength false c.rest)

/-- The character that stands at a place. -/
def head? (c : Cursor) : Option Char := c.start.rest.head?

/-- The place after the character that stands at a place. -/
def after (c : Cursor) : Cursor := c.start.next.start

/-- Blanks and comments are skipped to their end. -/
theorem triviaLength_drop (inComment : Bool) (cs : List Char) :
    Grammar.triviaLength false (cs.drop (Grammar.triviaLength inComment cs)) = 0 := by
  fun_induction Grammar.triviaLength inComment cs with
  | case9 inComment c cs hfeed hslash hhash hcomment hspace =>
    rw [List.drop_zero, Grammar.triviaLength.eq_5 _ _ _ hfeed hslash hhash]
    simp [hspace]
  | case1 => rfl
  | _ => assumption

@[simp] theorem start_start (c : Cursor) : c.start.start = c.start := by
  have h : Grammar.triviaLength false c.start.rest = 0 := by
    rw [start, skip_rest]
    exact triviaLength_drop false c.rest
  rw [start, h]
  rfl

@[simp] theorem head?_start (c : Cursor) : c.start.head? = c.head? := by
  rw [head?, start_start, head?]

@[simp] theorem after_start (c : Cursor) : c.start.after = c.after := by
  rw [after, start_start, after]

theorem after_length {c : Cursor} {ch : Char} (h : c.head? = some ch) :
    c.after.rest.length < c.rest.length := by
  have hskip : ∀ n (d : Cursor), (d.skip n).rest.length ≤ d.rest.length := fun n d => by
    rw [skip_rest, List.length_drop]
    exact Nat.sub_le _ _
  have hstart : c.start.rest.length ≤ c.rest.length := hskip _ c
  have hnext : c.start.next.rest.length < c.start.rest.length := by
    rw [next_rest]
    unfold head? at h
    cases hrest : c.start.rest with
    | nil => simp [hrest] at h
    | cons d ds => simp
  exact Nat.lt_of_le_of_lt (hskip _ c.start.next) (Nat.lt_of_lt_of_le hnext hstart)

end Cursor

namespace Grammar.Parser

variable {α β γ : Type} {p q : Parser α} {c d : Cursor} {P Q : Cursor → Prop}

/-! ## Rules that do not fail -/

/-- A rule does not fail for good, and where it applies, reading goes on at a place with `P`. -/
def Ends (p : Parser α) (c : Cursor) (P : Cursor → Prop) : Prop :=
  match p c with
  | .ok _ rest => P rest
  | .error _ => True
  | .failure _ _ => False

/-- A rule does not apply, and has not committed itself. -/
def Stops (p : Parser α) (c : Cursor) : Prop := p.Ends c fun _ => False

theorem stops_iff : p.Stops c ↔ ∃ stops, p c = .error stops := by
  unfold Stops Ends
  cases p c with
  | error stops => exact ⟨fun _ => ⟨stops, rfl⟩, fun _ => True.intro⟩
  | ok a rest => exact ⟨False.elim, nofun⟩
  | failure stops notice => exact ⟨False.elim, nofun⟩

theorem Stops.of_eq {stops : List Stop} (h : p c = .error stops) : p.Stops c :=
  stops_iff.mpr ⟨stops, h⟩

namespace Ends

theorem of_ok {a : α} (h : p c = .ok a d) (hd : P d) : p.Ends c P := by
  unfold Ends
  rw [h]
  exact hd

theorem of_eq {q : Parser α} {e : Cursor} (h : p c = q e) (hq : q.Ends e P) : p.Ends c P := by
  unfold Ends at hq ⊢
  rwa [h]

theorem place {a : α} (h : p.Ends c P) (hp : p c = .ok a d) : P d := by
  unfold Ends at h
  rwa [hp] at h

theorem imp (h : p.Ends c P) (himp : ∀ d, P d → Q d) : p.Ends c Q := by
  unfold Ends at h ⊢
  cases hp : p c with
  | ok a rest => rw [hp] at h; exact himp rest h
  | error stops => exact True.intro
  | failure stops notice => rw [hp] at h; exact h

/-- A rule that ends at places that have `P` only where they do not stops. -/
theorem stops (h : p.Ends c P) (hne : ∀ a d, p c = .ok a d → ¬ P d) : p.Stops c := by
  unfold Stops Ends at *
  cases hp : p c with
  | ok a rest => rw [hp] at h; exact hne a rest hp h
  | error stops => exact True.intro
  | failure stops notice => rw [hp] at h; exact h

theorem pure {a : α} (h : P c) : (Pure.pure a : Parser α).Ends c P := h

theorem bind {f : α → Parser β} (h : p.Ends c P)
    (hf : ∀ a d, p c = .ok a d → P d → (f a).Ends d Q) : (p >>= f).Ends c Q := by
  unfold Ends at h ⊢
  rw [bind_apply]
  cases hp : p c with
  | ok a rest => rw [hp] at h; exact hf a rest hp h
  | error stops => exact True.intro
  | failure stops notice => rw [hp] at h; exact h

theorem map {f : α → β} (h : p.Ends c P) : (f <$> p).Ends c P :=
  bind h fun _ _ _ hd => pure hd

theorem labelled (label : String) (h : p.Ends c P) : (Parser.labelled label p).Ends c P := by
  unfold Ends at h ⊢
  unfold Parser.labelled
  cases hp : p c <;> rw [hp] at h <;> exact h

theorem orReject (start : Cursor) (h : p.Ends c P) : (Parser.orReject start p).Ends c P := by
  unfold Ends at h ⊢
  unfold Parser.orReject
  cases hp : p c <;> rw [hp] at h <;> exact h

theorem choice {ps : List (Parser α)} (h : ∀ p ∈ ps, p.Ends c P) :
    (Parser.choice ps).Ends c P := by
  induction ps with
  | nil => exact True.intro
  | cons p ps ih =>
    have hp := h p List.mem_cons_self
    have hps := ih fun q hq => h q (List.mem_cons_of_mem p hq)
    cases ps with
    | nil =>
      unfold Ends Parser.choice at *
      cases hr : p c <;> rw [hr] at hp <;> exact hp
    | cons q ps =>
      unfold Ends at *
      rw [choice_cons]
      cases hr : p c with
      | error stops => exact hps
      | _ => rw [hr] at hp; exact hp

end Ends

namespace Stops

theorem ends (h : p.Stops c) : p.Ends c P := h.imp fun _ => False.elim

theorem bind {f : α → Parser β} (h : p.Stops c) : (p >>= f).Stops c :=
  Ends.bind h fun _ _ _ => False.elim

theorem optional (h : p.Stops c) : Parser.optional p c = .ok none c := by
  obtain ⟨stops, hp⟩ := stops_iff.mp h
  unfold Parser.optional
  rw [hp]

theorem optional_bind {f : Option α → Parser β} (h : p.Stops c) :
    (Parser.optional p >>= f) c = f none c := by
  rw [bind_apply, h.optional]

theorem choice_cons {ps : List (Parser α)} (h : p.Stops c) :
    choice (p :: q :: ps) c = choice (q :: ps) c := by
  obtain ⟨stops, hp⟩ := stops_iff.mp h
  rw [Parser.choice_cons, hp]

end Stops

section Success

variable {a : α}

theorem bind_ok {f : α → Parser β} (h : p c = .ok a d) : (p >>= f) c = f a d := by
  rw [bind_apply, h]

/-- What a sequence reads is read by its parts. -/
theorem ok_of_bind {f : α → Parser β} {b : β} (h : (p >>= f) c = .ok b d) :
    ∃ a mid, p c = .ok a mid ∧ f a mid = .ok b d := by
  rw [bind_apply] at h
  cases hp : p c with
  | ok a mid =>
    rw [hp] at h
    exact ⟨a, mid, rfl, h⟩
  | _ => simp [hp] at h

theorem labelled_ok (label : String) (h : p c = .ok a d) : labelled label p c = .ok a d := by
  unfold labelled
  rw [h]

theorem ok_of_labelled {label : String} (h : labelled label p c = .ok a d) : p c = .ok a d := by
  unfold labelled at h
  cases hp : p c <;> rw [hp] at h
  · exact h
  · cases h
  · cases h

theorem committed_ok (h : p c = .ok a d) : committed p c = .ok a d := by
  unfold committed
  rw [h]

theorem orReject_ok (start : Cursor) (h : p c = .ok a d) : orReject start p c = .ok a d := by
  unfold orReject
  rw [h]

theorem ok_of_orReject {start : Cursor} (h : orReject start p c = .ok a d) : p c = .ok a d := by
  unfold orReject at h
  cases hp : p c <;> rw [hp] at h
  · exact h
  · cases h
  · cases h

theorem optional_ok (h : p c = .ok a d) : optional p c = .ok (some a) d := by
  unfold optional
  rw [h]

/-- An optional part is there, or its rule stops. -/
theorem ok_of_optional {o : Option α} (h : optional p c = .ok o d) :
    (∃ a, o = some a ∧ p c = .ok a d) ∨ (o = none ∧ d = c ∧ p.Stops c) := by
  unfold optional at h
  cases hp : p c <;> rw [hp] at h
  · obtain ⟨rfl, rfl⟩ := Outcome.ok.inj h
    exact .inl ⟨_, rfl, rfl⟩
  · obtain ⟨rfl, rfl⟩ := Outcome.ok.inj h
    exact .inr ⟨rfl, rfl, .of_eq hp⟩
  · cases h

/-- The first alternative applies. -/
theorem choice_ok {ps : List (Parser α)} (h : p c = .ok a d) : choice (p :: ps) c = .ok a d := by
  cases ps with
  | nil =>
    unfold choice
    rw [h]
  | cons q ps => rw [Parser.choice_cons, h]

/-- An alternative that stops is passed over. -/
theorem choice_skip {ps : List (Parser α)} (h : p.Stops c) (hq : choice (q :: ps) c = .ok a d) :
    choice (p :: q :: ps) c = .ok a d := h.choice_cons.trans hq

/-- What a choice reads is read by an alternative, and those before it stop. -/
theorem ok_of_choice {ps : List (Parser α)} (h : choice ps c = .ok a d) :
    ∃ p ∈ ps, p c = .ok a d := by
  induction ps with
  | nil => cases h
  | cons p ps ih =>
    cases ps with
    | nil =>
      unfold choice at h
      cases hp : p c with
      | ok b rest =>
        rw [hp] at h
        exact ⟨p, List.mem_cons_self, hp.trans h⟩
      | _ => simp [hp] at h
    | cons q ps =>
      rw [Parser.choice_cons] at h
      cases hp : p c with
      | ok b rest =>
        rw [hp] at h
        exact ⟨p, List.mem_cons_self, hp.trans h⟩
      | error stops =>
        rw [hp] at h
        obtain ⟨p', hmem, hp'⟩ := ih h
        exact ⟨p', List.mem_cons_of_mem p hmem, hp'⟩
      | failure stops notice => simp [hp] at h

end Success

/-! ## Outcomes that match -/

/-- Outcomes of one kind, with related values at the same place. -/
inductive Match (R : α → β → Prop) : Outcome α → Outcome β → Prop where
  | ok {a b} (rest : Cursor) : R a b → Match R (.ok a rest) (.ok b rest)
  | error (stops stops' : List Stop) : Match R (.error stops) (.error stops')
  | failure (stops stops' : List Stop) (notice notice' : Option Notice) :
    Match R (.failure stops notice) (.failure stops' notice')

namespace Match

variable {R : α → β → Prop} {p : Parser α} {p' : Parser β} {c' : Cursor}

theorem refl (o : Outcome α) : Match Eq o o := by
  cases o with
  | ok a rest => exact .ok rest rfl
  | error stops => exact .error stops stops
  | failure stops notice => exact .failure stops stops notice notice

theorem symm {o : Outcome α} {o' : Outcome β} (h : Match R o o') :
    Match (fun b a => R a b) o' o := by
  cases h with
  | ok rest hab => exact .ok rest hab
  | error stops stops' => exact .error stops' stops
  | failure stops stops' notice notice' => exact .failure stops' stops notice' notice

theorem bind {δ : Type} {S : γ → δ → Prop} {f : α → Parser γ} {f' : β → Parser δ}
    (h : Match R (p c) (p' c')) (hf : ∀ a b rest, p c = .ok a rest → R a b →
      Match S (f a rest) (f' b rest)) : Match S ((p >>= f) c) ((p' >>= f') c') := by
  rw [bind_apply, bind_apply]
  revert h hf
  generalize p c = o, p' c' = o'
  intro h hf
  cases h with
  | ok rest hab => exact hf _ _ rest rfl hab
  | error stops stops' => exact .error stops stops'
  | failure stops stops' notice notice' => exact .failure stops stops' notice notice'

theorem labelled {p p' : Parser α} (label label' : String) (h : Match Eq (p c) (p' c')) :
    Match Eq (Parser.labelled label p c) (Parser.labelled label' p' c') := by
  unfold Parser.labelled
  revert h
  generalize p c = o, p' c' = o'
  intro h
  cases h with
  | ok rest hab => exact .ok rest hab
  | error stops stops' => exact .error _ _
  | failure stops stops' notice notice' => exact .failure _ _ _ _

theorem ends (h : Match R (p c) (p' c')) (hp : p.Ends c P) : p'.Ends c' P := by
  unfold Ends at hp ⊢
  revert h hp
  generalize p c = o, p' c' = o'
  intro h hp
  cases h <;> exact hp

theorem exists_ok (h : Match R (p c) (p' c')) {a : α} (hp : p c = .ok a d) :
    ∃ b, p' c' = .ok b d := by
  rw [hp] at h
  revert h
  generalize p' c' = o'
  intro h
  cases h with
  | ok rest hab => exact ⟨_, rfl⟩

theorem of_ok {p p' : Parser α} (h : Match Eq (p c) (p' c')) {a : α} (hp : p c = .ok a d) :
    p' c' = .ok a d := by
  rw [hp] at h
  revert h
  generalize p' c' = o'
  intro h
  cases h with
  | ok rest hab => rw [hab]

end Match

/-! ## Rules that begin with blanks and comments -/

/-- A rule begins by skipping blanks and comments. -/
def Skips (p : Parser α) : Prop := ∀ c, p c.start = p c

namespace Skips

theorem bind {f : α → Parser β} (h : Skips p) : Skips (p >>= f) := fun c => by
  rw [bind_apply, bind_apply, h c]

theorem choice {ps : List (Parser α)} (h : ∀ p ∈ ps, Skips p) (c : Cursor) :
    Match Eq (Parser.choice ps c.start) (Parser.choice ps c) := by
  induction ps with
  | nil => exact .error _ _
  | cons p ps ih =>
    have hp := h p List.mem_cons_self c
    have hps := ih fun q hq => h q (List.mem_cons_of_mem p hq)
    cases ps with
    | nil =>
      unfold Parser.choice
      rw [hp]
      cases p c with
      | ok a rest => exact .ok rest rfl
      | error stops => exact .error _ _
      | failure stops notice => exact .failure _ _ _ _
    | cons q ps =>
      rw [choice_cons, choice_cons, hp]
      cases p c with
      | ok a rest => exact .ok rest rfl
      | error stops => exact hps
      | failure stops notice => exact .failure _ _ _ _

end Skips

end Grammar.Parser

/-! ## Marks and words -/

namespace Grammar

open Grammar.Parser

variable {α β : Type} {c d : Cursor} {ch : Char} {P : Cursor → Prop}

theorem trivia_apply (c : Cursor) : trivia c = .ok () c.start := rfl

theorem trivia_bind (f : Unit → Parser α) (c : Cursor) : (trivia >>= f) c = f () c.start := rfl

theorem trivia_skips (f : Unit → Parser α) : Skips (trivia >>= f) := fun c => by
  rw [trivia_bind, trivia_bind, Cursor.start_start]

theorem padded_skips (p : Parser α) : Skips (padded p) := trivia_skips _

theorem padded_ok {p : Parser α} {a : α} (h : p c.start = .ok a d) :
    padded p c = .ok a d.start := by
  unfold padded
  rw [trivia_bind, bind_ok h]
  rfl

theorem ok_of_padded {p : Parser α} {a : α} (h : padded p c = .ok a d) :
    ∃ mid, p c.start = .ok a mid ∧ d = mid.start := by
  obtain ⟨_, _, ht, h⟩ := ok_of_bind h
  obtain ⟨-, rfl⟩ := Outcome.ok.inj ht
  obtain ⟨b, mid, hb, h⟩ := ok_of_bind h
  obtain ⟨rfl, rfl⟩ := Outcome.ok.inj h
  exact ⟨mid, hb, rfl⟩

theorem mark_ok (h : c.head? = some ch) : mark ch c = .ok ch c.after := by
  refine padded_ok (d := c.start.next) ?_
  unfold Cursor.head? at h
  unfold char
  cases hrest : c.start.rest with
  | nil => simp [hrest] at h
  | cons x xs =>
    rw [hrest] at h
    obtain rfl := Option.some.inj h
    exact if_pos rfl

theorem char_stops (h : c.rest.head? ≠ some ch) : (char ch).Stops c := by
  have herror : char ch c = .error [⟨c, .character ch⟩] := by
    unfold char
    cases hrest : c.rest with
    | nil => rfl
    | cons x xs => exact if_neg fun heq => h (by rw [hrest, heq]; rfl)
  exact .of_eq herror

theorem mark_stops (h : c.head? ≠ some ch) : (mark ch).Stops c := by
  refine Ends.bind (P := fun d => d = c.start) (Ends.of_ok (trivia_apply c) rfl) ?_
  rintro _ _ - rfl
  exact (char_stops h).bind

theorem mark_inv {x : Char} (h : mark ch c = .ok x d) : c.head? = some ch ∧ d = c.after := by
  by_cases hc : c.head? = some ch
  · rw [mark_ok hc] at h
    exact ⟨hc, (Outcome.ok.inj h).2.symm⟩
  · obtain ⟨stops, hs⟩ := stops_iff.mp (mark_stops hc)
    rw [hs] at h
    cases h

/-- A mark is there, or the rule for it stops. -/
theorem mark_ends (c : Cursor) : (mark ch).Ends c fun _ => c.head? = some ch := by
  by_cases hc : c.head? = some ch
  · exact Ends.of_ok (mark_ok hc) hc
  · exact (mark_stops hc).ends

section Operators

variable {a b : Char}

theorem operator_left (h : c.head? = some a) : operator a b c = .ok a c.after :=
  choice_ok (mark_ok h)

theorem operator_right (hab : a ≠ b) (h : c.head? = some b) : operator a b c = .ok b c.after := by
  have hne : c.head? ≠ some a := fun heq => hab (Option.some.inj (heq.symm.trans h))
  unfold operator
  rw [(mark_stops hne).choice_cons]
  exact choice_ok (mark_ok h)

theorem operator_stops (ha : c.head? ≠ some a) (hb : c.head? ≠ some b) :
    (operator a b).Stops c := by
  refine Ends.choice fun p hp => ?_
  rcases List.mem_cons.mp hp with rfl | hp
  · exact mark_stops ha
  · obtain rfl := List.mem_singleton.mp hp
    exact mark_stops hb

theorem operator_cases (a b : Char) (c : Cursor) : (operator a b).Stops c ∨
    ((c.head? = some a ∨ c.head? = some b) ∧ ∃ op, operator a b c = .ok op c.after) := by
  by_cases ha : c.head? = some a
  · exact .inr ⟨.inl ha, a, operator_left ha⟩
  · by_cases hb : c.head? = some b
    · have hab : a ≠ b := fun heq => ha (heq ▸ hb)
      exact .inr ⟨.inr hb, b, operator_right hab hb⟩
    · exact .inl (operator_stops ha hb)

/-! ## Chains of operands -/

variable {operand : Char → α → Parser α} {first : Parser α} {left x : α} {n : Nat}

theorem chainLoop_stops (h : (operator a b).Stops c) :
    chainLoop (operator a b) operand n left c = .ok left c := by
  cases n with
  | zero => rfl
  | succ n => exact h.optional_bind

theorem chainLoop_operator {op : Char} (hop : operator a b c = .ok op c.after) :
    chainLoop (operator a b) operand (n + 1) left c =
      (operand op left >>= chainLoop (operator a b) operand n) c.after := by
  show (optional (operator a b) >>= _) c = _
  rw [bind_ok (optional_ok hop)]

theorem chain_first (h : first c = .ok x d) :
    chain first (operator a b) operand c =
      chainLoop (operator a b) operand d.rest.length x d := by
  show (match first c with
    | .ok left rest => chainLoop (operator a b) operand rest.rest.length left rest
    | .error stops => .error stops
    | .failure stops notice => .failure stops notice) = _
  rw [h]

/-- The first operand of a chain ends where the chain does or where an operator stands. -/
theorem ok_of_chain (h : chain first (operator a b) operand c = .ok x d) (hd : P d)
    (ha : ∀ e, e.head? = some a → P e) (hb : ∀ e, e.head? = some b → P e) :
    ∃ y e, first c = .ok y e ∧ P e := by
  obtain ⟨y, e, hfirst, h⟩ := ok_of_bind h
  refine ⟨y, e, hfirst, ?_⟩
  rcases operator_cases a b e with hstops | ⟨hhead, -⟩
  · rw [chainLoop_stops hstops] at h
    rwa [(Outcome.ok.inj h).2]
  · exact hhead.elim (ha e) (hb e)

/-- A chain whose first operand ends where no operator stands ends there. -/
theorem chain_ends (h : first.Ends c P) (ha : ∀ d, P d → d.head? ≠ some a)
    (hb : ∀ d, P d → d.head? ≠ some b) : (chain first (operator a b) operand).Ends c P := by
  refine h.bind fun y d _ hd => ?_
  have hloop : chainLoop (operator a b) operand d.rest.length y d = .ok y d :=
    chainLoop_stops (operator_stops (ha d hd) (hb d hd))
  exact Ends.of_ok hloop hd

end Operators

/-! ### Chains of one kind of operands -/

section Operands

variable {a b : Char} {combine : Char → α → α → α} {p : Parser α}
  (hp : ∀ n, Agree n 0 p p)
include hp

/-- How a chain goes on does not depend on what has been read, nor on a bound that is large
enough. -/
theorem chainLoop_match (n m : Nat) (left left' : α) (c : Cursor) (hn : c.rest.length ≤ n)
    (hm : c.rest.length ≤ m) :
    Match (fun _ _ => True)
      (chainLoop (operator a b) (fun op left => p >>= fun right =>
        Pure.pure (combine op left right)) n left c)
      (chainLoop (operator a b) (fun op left => p >>= fun right =>
        Pure.pure (combine op left right)) m left' c) := by
  induction n generalizing m left left' c with
  | zero =>
    have hstops : (operator a b).Stops c := by
      rcases operator_cases a b c with hstops | ⟨hhead, -⟩
      · exact hstops
      · have := hhead.elim Cursor.after_length Cursor.after_length
        omega
    rw [chainLoop_stops hstops, chainLoop_stops hstops]
    exact .ok c True.intro
  | succ n ih =>
    rcases operator_cases a b c with hstops | ⟨hhead, op, hop⟩
    · rw [chainLoop_stops hstops, chainLoop_stops hstops]
      exact .ok c True.intro
    · have hlt := hhead.elim Cursor.after_length Cursor.after_length
      obtain ⟨m, rfl⟩ := Nat.exists_eq_add_of_le' (show 1 ≤ m by omega)
      rw [chainLoop_operator hop, chainLoop_operator hop]
      refine Match.bind (R := fun _ _ => True)
        (.bind (.refl _) fun _ _ rest _ _ => .ok rest True.intro) fun y y' rest hy _ => ?_
      obtain ⟨x, mid, hx, hy⟩ := ok_of_bind hy
      obtain ⟨-, rfl⟩ := Outcome.ok.inj hy
      have hle := ((hp _ c.after (Nat.lt_succ_self _)).2 x mid hx).2
      exact ih m y y' mid (by omega) (by omega)

/-- After an operator, a chain goes on like one that begins there. -/
theorem chain_match {x : α} {mid : Cursor} {op : Char} (hx : p c = .ok x mid)
    (hop : operator a b mid = .ok op mid.after)
    (hhead : mid.head? = some a ∨ mid.head? = some b) :
    Match (fun _ _ => True)
      (chain p (operator a b) (fun op left => p >>= fun right =>
        Pure.pure (combine op left right)) c)
      (chain p (operator a b) (fun op left => p >>= fun right =>
        Pure.pure (combine op left right)) mid.after) := by
  have hlt := hhead.elim Cursor.after_length Cursor.after_length
  obtain ⟨n, hn⟩ := Nat.exists_eq_add_of_le' (show 1 ≤ mid.rest.length by omega)
  rw [chain_first hx, hn]
  rw [chainLoop_operator hop]
  have hoperand : Match (fun _ _ => True)
      ((p >>= fun right => Pure.pure (combine op x right)) mid.after) (p mid.after) := by
    rw [bind_apply]
    cases p mid.after with
    | ok y last => exact .ok last True.intro
    | error stops => exact .error _ _
    | failure stops notice => exact .failure _ _ _ _
  unfold chain
  refine hoperand.bind fun z y last hz _ => ?_
  obtain ⟨y', last', hy, hz⟩ := ok_of_bind hz
  obtain ⟨-, rfl⟩ := Outcome.ok.inj hz
  have hle := ((hp _ mid.after (Nat.lt_succ_self _)).2 y' last' hy).2
  exact chainLoop_match hp n _ z y last' (by omega) (Nat.le_refl _)

end Operands

end Grammar

end PartScript
