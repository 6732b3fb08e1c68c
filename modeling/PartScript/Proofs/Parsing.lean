/-
  What rules read. A statement about a rule is one about every value that it gives and the
  place that it reads up to; it follows from statements about the rules it combines. Reading
  only moves forward.
-/
import PartScript.Grammar.Lexeme

namespace PartScript

/-! ## Places -/

namespace Cursor

theorem offset_le_next (c : Cursor) : c.offset ≤ c.next.offset := by
  unfold next
  split
  · exact Nat.le_refl _
  · exact Nat.le_succ _
  · exact Nat.le_add_right _ _

theorem offset_lt_next {c : Cursor} (h : c.rest ≠ []) : c.offset < c.next.offset := by
  unfold next
  split
  · next hrest => exact absurd hrest h
  · exact Nat.lt_succ_self _
  · exact Nat.lt_add_of_pos_right (Char.utf8Size_pos _)

theorem offset_le_skip (n : Nat) (c : Cursor) : c.offset ≤ (c.skip n).offset := by
  induction n generalizing c with
  | zero => exact Nat.le_refl _
  | succ n ih => exact Nat.le_trans c.offset_le_next (ih c.next)

theorem skip_length (n : Nat) (c : Cursor) : (c.skip n).rest.length ≤ c.rest.length := by
  rw [skip_rest, List.length_drop]
  exact Nat.sub_le _ _

theorem skip_skip (m n : Nat) (c : Cursor) : (c.skip m).skip n = c.skip (m + n) := by
  induction m generalizing c with
  | zero => rw [Nat.zero_add, skip]
  | succ m ih => rw [Nat.succ_add, skip, skip, ih]

/-- A place is reached from another one over characters of the text, `k` at least. -/
def Onward (k : Nat) (c d : Cursor) : Prop :=
  (∃ n, d = c.skip n) ∧ d.rest.length + k ≤ c.rest.length

namespace Onward

variable {k l : Nat} {c d e : Cursor}

theorem refl (c : Cursor) : Onward 0 c c := ⟨⟨0, rfl⟩, Nat.le_refl _⟩

theorem skip (n : Nat) (c : Cursor) : Onward 0 c (c.skip n) := ⟨⟨n, rfl⟩, skip_length n c⟩

theorem trans (h : Onward k c d) (h' : Onward l d e) : Onward (k + l) c e := by
  obtain ⟨⟨m, rfl⟩, hm⟩ := h
  obtain ⟨⟨n, rfl⟩, hn⟩ := h'
  exact ⟨⟨m + n, skip_skip m n c⟩, by omega⟩

theorem mono (h : Onward k c d) (hl : l ≤ k) : Onward l c d :=
  ⟨h.1, Nat.le_trans (Nat.add_le_add_left hl _) h.2⟩

theorem shorter (h : Onward 1 c d) : d.rest.length < c.rest.length := h.2

end Onward

end Cursor

namespace Grammar.Parser

/-! ## Values and the places after them -/

variable {α β : Type} {p : Parser α} {c : Cursor} {P : α → Cursor → Prop} {Q : β → Cursor → Prop}

theorem bind_apply (f : α → Parser β) :
    (p >>= f) c = match p c with
      | .ok a rest => f a rest
      | .error stops => .error stops
      | .failure stops notice => .failure stops notice := rfl

/-- Whatever a rule reads at a place satisfies `P`. -/
def At (p : Parser α) (c : Cursor) (P : α → Cursor → Prop) : Prop :=
  ∀ a rest, p c = .ok a rest → P a rest

/-- A rule only moves forward. -/
def Moves (p : Parser α) : Prop := ∀ c, p.At c fun _ rest => c.offset ≤ rest.offset

namespace At

theorem imp {P' : α → Cursor → Prop} (h : p.At c P) (himp : ∀ a rest, P a rest → P' a rest) :
    p.At c P' := fun a rest hp => himp a rest (h a rest hp)

theorem pure {a : α} (h : P a c) : (Pure.pure a : Parser α).At c P := by
  rintro b rest hb
  obtain ⟨rfl, rfl⟩ := Outcome.ok.inj hb
  exact h

theorem bind {f : α → Parser β} (hp : p.At c P) (hf : ∀ a rest, P a rest → (f a).At rest Q) :
    (p >>= f).At c Q := by
  intro b last hb
  rw [bind_apply] at hb
  cases hr : p c with
  | ok a rest =>
    rw [hr] at hb
    exact hf a rest (hp a rest hr) b last hb
  | error stops =>
    rw [hr] at hb
    cases hb
  | failure stops notice =>
    rw [hr] at hb
    cases hb

theorem map {f : α → β} (h : p.At c fun a rest => Q (f a) rest) : (f <$> p).At c Q :=
  bind h fun _ _ ha => pure ha

theorem position {P : Cursor → Cursor → Prop} (h : P c c) : Parser.position.At c P := by
  intro a rest ha
  obtain ⟨rfl, rfl⟩ := Outcome.ok.inj ha
  exact h

/-- The place that is reached is where reading goes on. -/
theorem here {f : Cursor → Parser β} (h : (f c).At c Q) : (Parser.position >>= f).At c Q := by
  refine bind (P := fun a rest => a = c ∧ rest = c) (position ⟨rfl, rfl⟩) ?_
  rintro _ _ ⟨rfl, rfl⟩
  exact h

theorem reject (start : Cursor) : (Parser.reject start : Parser α).At c P := by
  intro a rest ha
  cases ha

theorem refuse (start stop : Cursor) (kind : CompileErrorKind) (message : String) :
    (Parser.refuse start stop kind message : Parser α).At c P := by
  intro a rest ha
  cases ha

theorem labelled (label : String) (h : p.At c P) : (Parser.labelled label p).At c P := by
  intro a rest ha
  unfold Parser.labelled at ha
  cases hr : p c with
  | ok b last =>
    rw [hr] at ha
    exact h a rest (hr.trans ha)
  | _ => simp [hr] at ha

theorem committed (h : p.At c P) : (Parser.committed p).At c P := by
  intro a rest ha
  unfold Parser.committed at ha
  cases hr : p c with
  | ok b last =>
    rw [hr] at ha
    exact h a rest (hr.trans ha)
  | _ => simp [hr] at ha

theorem orReject (start : Cursor) (h : p.At c P) : (Parser.orReject start p).At c P := by
  intro a rest ha
  unfold Parser.orReject at ha
  cases hr : p c with
  | ok b last =>
    rw [hr] at ha
    exact h a rest (hr.trans ha)
  | _ => simp [hr] at ha

/-- Looking ahead reads nothing. -/
theorem ahead {P : Cursor → Prop} (h : P c) : (Parser.ahead p).At c fun _ rest => P rest := by
  intro a rest ha
  unfold Parser.ahead at ha
  cases hr : p c with
  | ok b last =>
    rw [hr] at ha
    obtain ⟨-, rfl⟩ := Outcome.ok.inj ha
    exact h
  | _ => simp [hr] at ha

theorem optional {Q' : Option α → Cursor → Prop} (h : p.At c fun a rest => Q' (some a) rest)
    (hnone : Q' none c) : (Parser.optional p).At c Q' := by
  intro a rest ha
  unfold Parser.optional at ha
  cases hr : p c with
  | ok b last =>
    rw [hr] at ha
    obtain ⟨rfl, rfl⟩ := Outcome.ok.inj ha
    exact h b last hr
  | error stops =>
    rw [hr] at ha
    obtain ⟨rfl, rfl⟩ := Outcome.ok.inj ha
    exact hnone
  | failure stops notice => simp [hr] at ha

theorem choice {ps : List (Parser α)} (h : ∀ p ∈ ps, p.At c P) : (Parser.choice ps).At c P := by
  induction ps with
  | nil =>
    intro a rest ha
    cases ha
  | cons p ps ih =>
    have hps : (Parser.choice ps).At c P := ih fun q hq => h q (List.mem_cons_of_mem p hq)
    intro a rest ha
    cases ps with
    | nil =>
      unfold Parser.choice at ha
      cases hr : p c with
      | ok b last =>
        rw [hr] at ha
        exact h p List.mem_cons_self a rest (hr.trans ha)
      | _ => simp [hr] at ha
    | cons q ps =>
      rw [Parser.choice.eq_3] at ha
      · cases hr : p c with
        | ok b last =>
          rw [hr] at ha
          exact h p List.mem_cons_self a rest (hr.trans ha)
        | error stops =>
          rw [hr] at ha
          exact hps a rest ha
        | failure stops notice => simp [hr] at ha
      · simp

theorem furthestChoice {best : Option (List Stop)} {ps : List (Parser α)}
    (h : ∀ p ∈ ps, p.At c P) : (Parser.furthestChoice best ps).At c P := by
  induction ps generalizing best with
  | nil =>
    intro a rest ha
    cases ha
  | cons p ps ih =>
    intro a rest ha
    unfold Parser.furthestChoice at ha
    cases hr : p c with
    | ok b last =>
      rw [hr] at ha
      exact h p List.mem_cons_self a rest (hr.trans ha)
    | error stops =>
      rw [hr] at ha
      have hps := fun q hq => h q (List.mem_cons_of_mem p hq)
      cases best with
      | none => exact ih hps a rest ha
      | some found => exact ih hps a rest ha
    | failure stops notice => simp [hr] at ha

/-- What holds of a value still holds after each extension of it. -/
theorem extend {more : α → Parser α} {n : Nat} {first : α} (h : P first c)
    (hmore : ∀ a rest, P a rest → (more a).At rest P) : (Parser.extend more n first).At c P := by
  induction n generalizing first c with
  | zero => exact pure h
  | succ n ih =>
    have hnext : (Parser.optional (more first)).At c fun longer rest =>
        P (longer.getD first) rest := optional (hmore first c h) h
    refine bind hnext fun longer rest hlonger => ?_
    cases longer with
    | none => exact pure hlonger
    | some a => exact ih hlonger

theorem chainLoop {operator : Parser β} (hoperator : Moves operator)
    {operand : β → α → Parser α}
    (hmore : ∀ a rest, P a rest → ∀ op last, rest.offset ≤ last.offset →
      (operand op a).At last P)
    {n : Nat} {left : α} (h : P left c) : (Parser.chainLoop operator operand n left).At c P := by
  induction n generalizing left c with
  | zero => exact pure h
  | succ n ih =>
    have hnext : (Parser.optional operator).At c fun op rest =>
        (op = none → P left rest) ∧ c.offset ≤ rest.offset :=
      optional ((hoperator c).imp fun op rest hrest => ⟨nofun, hrest⟩)
        ⟨fun _ => h, Nat.le_refl _⟩
    refine bind hnext fun op rest hop => ?_
    cases op with
    | none => exact pure (hop.1 rfl)
    | some op => exact bind (hmore left c h op rest hop.2) fun a last ha => ih ha

/-- What holds of the first operand still holds after each further one. -/
theorem chain {operator : Parser β} (hoperator : Moves operator) {first : Parser α}
    {operand : β → α → Parser α} (hfirst : first.At c P)
    (hmore : ∀ a rest, P a rest → ∀ op last, rest.offset ≤ last.offset →
      (operand op a).At last P) : (Parser.chain first operator operand).At c P :=
  bind hfirst fun _ _ ha => chainLoop hoperator hmore ha

end At

/-! ## Words and marks -/

namespace Moves

theorem pure (a : α) : Moves (Pure.pure a : Parser α) := fun c => .pure (Nat.le_refl c.offset)

theorem bind {f : α → Parser β} (hp : Moves p) (hf : ∀ a, Moves (f a)) : Moves (p >>= f) :=
  fun c => At.bind (hp c) fun a rest hrest =>
    (hf a rest).imp fun _ _ hlast => Nat.le_trans hrest hlast

theorem position : Moves position := fun c => At.position (Nat.le_refl c.offset)

theorem optional (hp : Moves p) : Moves (optional p) :=
  fun c => At.optional (hp c) (Nat.le_refl c.offset)

theorem committed (hp : Moves p) : Moves (committed p) := fun c => At.committed (hp c)

theorem labelled (label : String) (hp : Moves p) : Moves (labelled label p) :=
  fun c => At.labelled label (hp c)

theorem choice {ps : List (Parser α)} (h : ∀ p ∈ ps, Moves p) : Moves (choice ps) :=
  fun c => At.choice fun p hp => h p hp c

end Moves

end Grammar.Parser

namespace Grammar

open Grammar.Parser

theorem trivia_moves : Moves trivia := by
  intro c a rest ha
  obtain ⟨-, rfl⟩ := Outcome.ok.inj ha
  exact c.offset_le_skip _

theorem padded_moves {α : Type} {p : Parser α} (hp : Moves p) : Moves (padded p) :=
  .bind trivia_moves fun _ => .bind hp fun a => .bind trivia_moves fun _ => .pure a

theorem char_moves (ch : Char) : Moves (char ch) := by
  intro c a rest ha
  unfold char at ha
  split at ha
  · split at ha
    · obtain ⟨-, rfl⟩ := Outcome.ok.inj ha
      exact c.offset_le_next
    · cases ha
  · cases ha

theorem mark_moves (ch : Char) : Moves (mark ch) := padded_moves (char_moves ch)

theorem runOf_moves (p : Char → Bool) : Moves (runOf p) := by
  intro c a rest ha
  obtain ⟨-, rfl⟩ := Outcome.ok.inj ha
  exact c.offset_le_skip _

theorem someOf_moves (p : Char → Bool) (mismatch : Mismatch) :
    ∀ c, (someOf p mismatch).At c fun _ rest => c.offset < rest.offset := by
  intro c a rest ha
  unfold someOf Cursor.takeWhile at ha
  simp only at ha
  split at ha
  · cases ha
  · next hrun =>
    obtain ⟨-, rfl⟩ := Outcome.ok.inj ha
    cases hlist : c.rest.takeWhile p with
    | nil => exact absurd (by rw [hlist]; rfl) hrun
    | cons d ds =>
      have hne : c.rest ≠ [] := by
        intro hnil
        rw [hnil] at hlist
        cases hlist
      rw [List.length_cons, Cursor.skip]
      exact Nat.lt_of_lt_of_le (Cursor.offset_lt_next hne) (Cursor.offset_le_skip _ _)

/-- A word has at least one character. -/
theorem identifier_moves (c : Cursor) :
    identifier.At c fun _ rest => c.offset < rest.offset :=
  At.bind (someOf_moves _ _ c) fun _ rest hrest =>
    At.bind (runOf_moves _ rest) fun _ _ hlast => .pure (Nat.lt_of_lt_of_le hrest hlast)

theorem word_moves : Moves identifier := fun c =>
  (identifier_moves c).imp fun _ _ h => Nat.le_of_lt h

theorem literally_moves (word : String) : Moves (literally word) := by
  intro c a rest ha
  unfold literally at ha
  split at ha
  · obtain ⟨-, rfl⟩ := Outcome.ok.inj ha
    exact c.offset_le_skip _
  · cases ha

theorem notFollowedBy_moves (p : Char → Bool) : Moves (notFollowedBy p) := by
  intro c a rest ha
  unfold notFollowedBy at ha
  split at ha
  · split at ha
    · cases ha
    · obtain ⟨-, rfl⟩ := Outcome.ok.inj ha
      exact Nat.le_refl _
  · obtain ⟨-, rfl⟩ := Outcome.ok.inj ha
    exact Nat.le_refl _

theorem keyword_moves (word : String) : Moves (keyword word) :=
  padded_moves <| .bind .position fun start => .bind (literally_moves word) fun _ =>
    .bind (notFollowedBy_moves _) fun _ => .pure start

theorem stringLiteral_moves : Moves stringLiteral :=
  .bind (char_moves _) fun _ => .bind (runOf_moves _) fun _ =>
    .bind (.labelled _ (char_moves _)) fun _ => .pure _

theorem digits_moves : Moves digits := fun c =>
  (someOf_moves _ _ c).imp fun _ _ h => Nat.le_of_lt h

theorem sign_moves : Moves sign := by
  refine .bind (.optional (.choice ?_)) fun _ => .pure _
  exact List.forall_mem_cons.mpr ⟨char_moves _, List.forall_mem_singleton.mpr (char_moves _)⟩

theorem mantissa_moves : Moves mantissa := by
  refine .choice (List.forall_mem_cons.mpr ⟨?_, List.forall_mem_singleton.mpr ?_⟩)
  · exact .bind digits_moves fun whole =>
      .bind (.optional (.bind (char_moves _) fun _ => runOf_moves _)) fun _ => .pure _
  · exact .bind (char_moves _) fun _ => .bind digits_moves fun _ => .pure _

theorem numeral_moves : Moves numeral := by
  refine .bind sign_moves fun negative => .bind mantissa_moves fun digits' => ?_
  refine .bind (.optional (.bind (.choice ?_) fun _ => .bind sign_moves fun down =>
    .bind (.committed digits_moves) fun ds => ?_)) fun _ => .pure _
  · exact List.forall_mem_cons.mpr ⟨char_moves _, List.forall_mem_singleton.mpr (char_moves _)⟩
  · split
    · exact .pure _
    · exact .pure _

theorem number_moves : Moves number :=
  padded_moves (.bind numeral_moves fun _ => .pure _)

end Grammar

end PartScript
