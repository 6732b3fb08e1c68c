/-
  What rules do at places that are watched. Reading skips blanks and comments together and takes
  other characters one at a time, none of which is a carriage return. Places that are closed under
  these two steps are never left: every outcome of a rule names such places only, where reading goes
  on, where it stopped, and between which a diagnostic stands. Every rule that fails says where, and
  every construction that is made comes from a call of a registered type.
-/
import PartScript.Proofs.Loops
import PartScript.Proofs.Reading

namespace PartScript

open Grammar.Parser

namespace Grammar

/-! ## What rules make and say -/

/-- Arguments that are read for a type, whichever rules read their parts, as long as each of these
takes a character at least. -/
def ReadsArguments (g : Grammar) (type : FeatureType) (args : List Argument) : Prop :=
  ∃ ask : Rules, (∀ rule n, Parser.Agree n 1 (ask rule) (ask rule)) ∧
    ∃ c rest, callArguments g ask type c = .ok args rest

/-- A construction that a call of a registered type makes of arguments that are read for it. -/
def Makes (g : Grammar) (f : Feature) : Prop :=
  ∃ name type args origin, g.registry.find? name = some type ∧ g.ReadsArguments type args ∧
    type.construct args origin = .ok f

/-- The diagnostics that rules word themselves. -/
inductive Words (g : Grammar) : CompileErrorKind → String → Prop where
  | expects {name type param} : g.registry.find? name = some type → param ∈ type.signature →
    Words g .malformed s!"Syntax error: {type.name} expects argument '{param.usage}'"
  | foundPoint : Words g .malformed "Syntax error: Place expects a plane datum, found point"
  | foundAxis : Words g .malformed "Syntax error: Place expects a plane datum, found axis"
  | unknownType {name} : isReserved name = false → g.registry.find? name = none →
    Words g .unknownFeatureType (RegistryError.unknownFeatureType name).message
  | invalid {name type args origin cause} : g.registry.find? name = some type →
    g.ReadsArguments type args → type.construct args origin = .error cause →
    Words g .malformed s!"Invalid arguments for {type.name}: {cause.message}"
  | reserved {name} : isReserved name || g.registry.contains name →
    Words g .reservedName s!"'{name}' is reserved and cannot be bound"
  | duplicate {name previous} : g.model.binding? name = some previous →
    Words g .duplicateSymbol
      s!"Duplicate symbol '{name}' (first bound at {previous.file}:{previous.span.line})"

end Grammar

open Grammar

/-- A grammar, and the places that are watched while it reads. -/
structure Watch where
  grammar : Grammar
  place : Cursor → Prop

namespace Watch

variable (W : Watch)

/-- Reading stopped somewhere, and only at places that are watched. -/
def Stopped (stops : List Stop) : Prop := stops ≠ [] ∧ ∀ s ∈ stops, W.place s.cursor

/-- A diagnostic of the grammar that stands between places that are watched. -/
def Noticed (notice : Notice) : Prop :=
  W.grammar.Words notice.kind notice.message ∧
    ∃ start stop, W.place start ∧ W.place stop ∧ notice.span = .between start stop

/-- An outcome that names places that are watched, and values in `R`. -/
inductive Fair {α : Type} (R : α → Prop) : Outcome α → Prop where
  | ok {a rest} : R a → W.place rest → Fair R (.ok a rest)
  | error {stops} : W.Stopped stops → Fair R (.error stops)
  | failure {stops notice} : W.Stopped stops → (∀ n ∈ notice, W.Noticed n) →
    Fair R (.failure stops notice)

/-- A rule that keeps to places that are watched and reads values in `R`. -/
def Orderly {α : Type} (R : α → Prop) (p : Parser α) : Prop := ∀ c, W.place c → W.Fair R (p c)

/-- All constructions are made by calls. -/
def AllMade (features : List Feature) : Prop := ∀ f ∈ features, W.grammar.Makes f

/-- A phrase of which all constructions are made by calls. -/
def Made {α : Type} [Phrase α] (a : α) : Prop := W.AllMade (Phrase.constructions a)

/-- Reading never leaves the places that are watched. -/
structure Lawful : Prop where
  start : ∀ {c}, W.place c → W.place c.start
  next : ∀ {c ch cs}, W.place c → c.rest = ch :: cs → ch ≠ '\r' → W.place c.next

variable {W}

theorem AllMade.nil : W.AllMade [] := nofun

theorem AllMade.append {fs gs : List Feature} (h : W.AllMade fs) (h' : W.AllMade gs) :
    W.AllMade (fs ++ gs) := fun f hf => (List.mem_append.mp hf).elim (h f) (h' f)

/-! ## Outcomes -/

section Outcomes

variable {α β : Type} {R R' : α → Prop} {S : β → Prop} {p : Parser α} {c : Cursor}

namespace Stopped

theorem single (hc : W.place c) (m : Mismatch) : W.Stopped [⟨c, m⟩] :=
  ⟨List.cons_ne_nil _ _, List.forall_mem_singleton.mpr hc⟩

/-- One stop more. -/
theorem concat {stops : List Stop} (h : W.Stopped stops) (hc : W.place c) (m : Mismatch) :
    W.Stopped (stops ++ [⟨c, m⟩]) :=
  ⟨List.append_ne_nil_of_left_ne_nil h.1 _,
    List.forall_mem_append.mpr ⟨h.2, List.forall_mem_singleton.mpr hc⟩⟩

end Stopped

namespace Fair

theorem imp {o : Outcome α} (h : W.Fair R o) (hR : ∀ a, R a → R' a) : W.Fair R' o := by
  cases h with
  | ok ha hrest => exact .ok (hR _ ha) hrest
  | error hstops => exact .error hstops
  | failure hstops hnotice => exact .failure hstops hnotice

theorem bind {f : α → Parser β} (h : W.Fair R (p c))
    (hf : ∀ a d, p c = .ok a d → R a → W.place d → W.Fair S (f a d)) :
    W.Fair S ((p >>= f) c) := by
  rw [bind_apply]
  cases ho : p c <;> rw [ho] at h <;> cases h
  case ok ha hrest => exact hf _ _ ho ha hrest
  case error hstops => exact .error hstops
  case failure hstops hnotice => exact .failure hstops hnotice

/-- An optional part, and what follows it where it is there and where it is not. -/
theorem optional_bind {f : Option α → Parser β} (h : W.Fair R (p c))
    (hsome : ∀ a d, R a → W.place d → W.Fair S (f (some a) d)) (hnone : W.Fair S (f none c)) :
    W.Fair S ((Parser.optional p >>= f) c) := by
  rw [bind_apply, Parser.optional]
  cases ho : p c <;> rw [ho] at h <;> cases h
  case ok ha hrest => exact hsome _ _ ha hrest
  case error => exact hnone
  case failure hstops hnotice => exact .failure hstops hnotice

end Fair

end Outcomes

/-! ## Rules -/

namespace Orderly

variable {α β : Type} {R R' : α → Prop} {S : β → Prop} {p : Parser α}

theorem pure {a : α} (ha : R a) : W.Orderly R (Pure.pure a) := fun _ hc => .ok ha hc

theorem imp (h : W.Orderly R p) (hR : ∀ a, R a → R' a) : W.Orderly R' p := fun c hc =>
  (h c hc).imp hR

theorem bind {f : α → Parser β} (h : W.Orderly R p) (hf : ∀ a, R a → W.Orderly S (f a)) :
    W.Orderly S (p >>= f) := fun c hc => (h c hc).bind fun a d _ ha hd => hf a ha d hd

/-- A value is made of what has been read. -/
theorem map {b : α → β} (h : W.Orderly R p) (hb : ∀ a, R a → S (b a)) :
    W.Orderly S (p >>= fun a => Pure.pure (b a)) := h.bind fun a ha => .pure (hb a ha)

/-- What a rule reads is known to be read by it. -/
theorem noted (h : W.Orderly R p) : W.Orderly (fun a => R a ∧ ∃ c rest, p c = .ok a rest) p :=
  fun c hc => by
    have hfair := h c hc
    cases ho : p c <;> rw [ho] at hfair <;> cases hfair
    case ok ha hrest => exact .ok ⟨ha, c, _, ho⟩ hrest
    case error hstops => exact .error hstops
    case failure hstops hnotice => exact .failure hstops hnotice

/-- The place that is reached is one that is watched. -/
theorem here {f : Cursor → Parser β} (hf : ∀ e, W.place e → W.Orderly S (f e)) :
    W.Orderly S (Parser.position >>= f) := fun c hc => hf c hc c hc

theorem reject {start : Cursor} (hstart : W.place start) : W.Orderly R (Parser.reject start) :=
  fun _ _ => .error (.single hstart _)

theorem refuse {start stop : Cursor} {kind : CompileErrorKind} {message : String}
    (hstart : W.place start) (hstop : W.place stop) (hwords : W.grammar.Words kind message) :
    W.Orderly R (Parser.refuse start stop kind message) := fun _ _ =>
  .failure (.single hstart _) fun n hn => by
    obtain rfl := Option.some.inj hn
    exact ⟨hwords, start, stop, hstart, hstop, rfl⟩

theorem labelled (label : String) (h : W.Orderly R p) :
    W.Orderly R (Parser.labelled label p) := by
  intro c hc
  have hfair := h c hc
  unfold Parser.labelled
  revert hfair
  generalize p c = o
  intro hfair
  cases hfair with
  | ok ha hrest => exact .ok ha hrest
  | error hstops => exact .error (hstops.concat hc _)
  | failure hstops hnotice => exact .failure (hstops.concat hc _) hnotice

theorem committed (h : W.Orderly R p) : W.Orderly R (Parser.committed p) := by
  intro c hc
  have hfair := h c hc
  unfold Parser.committed
  revert hfair
  generalize p c = o
  intro hfair
  cases hfair with
  | ok ha hrest => exact .ok ha hrest
  | error hstops => exact .failure hstops nofun
  | failure hstops hnotice => exact .failure hstops hnotice

theorem orReject {start : Cursor} (hstart : W.place start) (h : W.Orderly R p) :
    W.Orderly R (Parser.orReject start p) := by
  intro c hc
  have hfair := h c hc
  unfold Parser.orReject
  revert hfair
  generalize p c = o
  intro hfair
  cases hfair with
  | ok ha hrest => exact .ok ha hrest
  | error _ => exact .error (.single hstart _)
  | failure hstops hnotice => exact .failure hstops hnotice

/-- Looking ahead does not move. -/
theorem ahead (h : W.Orderly R p) : W.Orderly R (Parser.ahead p) := by
  intro c hc
  have hfair := h c hc
  unfold Parser.ahead
  revert hfair
  generalize p c = o
  intro hfair
  cases hfair with
  | ok ha _ => exact .ok ha hc
  | error hstops => exact .error hstops
  | failure hstops hnotice => exact .failure hstops hnotice

theorem optional (h : W.Orderly R p) :
    W.Orderly (fun found => ∀ a ∈ found, R a) (Parser.optional p) := by
  intro c hc
  have hfair := h c hc
  unfold Parser.optional
  revert hfair
  generalize p c = o
  intro hfair
  cases hfair with
  | ok ha hrest => exact .ok (fun a h => Option.some.inj h ▸ ha) hrest
  | error _ => exact .ok nofun hc
  | failure hstops hnotice => exact .failure hstops hnotice

theorem optional_bind {f : Option α → Parser β} (h : W.Orderly R p)
    (hsome : ∀ a, R a → W.Orderly S (f (some a))) (hnone : W.Orderly S (f none)) :
    W.Orderly S (Parser.optional p >>= f) := fun c hc =>
  (h c hc).optional_bind (fun a d ha hd => hsome a ha d hd) (hnone c hc)

theorem choice {ps : List (Parser α)} (h : ∀ p ∈ ps, W.Orderly R p) :
    W.Orderly R (Parser.choice ps) := by
  intro c hc
  induction ps with
  | nil => exact .error (.single hc _)
  | cons p ps ih =>
    obtain ⟨hp, hps⟩ := List.forall_mem_cons.mp h
    have hfair := hp c hc
    cases ps with
    | nil =>
      unfold Parser.choice
      revert hfair
      generalize p c = o
      intro hfair
      cases hfair with
      | ok ha hrest => exact .ok ha hrest
      | error hstops => exact .error (hstops.concat hc _)
      | failure hstops hnotice => exact .failure hstops hnotice
    | cons q ps =>
      rw [choice_cons]
      revert hfair
      generalize p c = o
      intro hfair
      cases hfair with
      | ok ha hrest => exact .ok ha hrest
      | error _ => exact ih hps
      | failure hstops hnotice => exact .failure hstops hnotice

theorem furthestChoice {ps : List (Parser α)} {best : Option (List Stop)}
    (hbest : ∀ stops ∈ best, W.Stopped stops) (h : ∀ p ∈ ps, W.Orderly R p) :
    W.Orderly R (Parser.furthestChoice best ps) := by
  intro c hc
  induction ps generalizing best with
  | nil =>
    cases best with
    | none => exact .error (.single hc _)
    | some stops => exact .error (hbest stops rfl)
  | cons p ps ih =>
    obtain ⟨hp, hps⟩ := List.forall_mem_cons.mp h
    have hfair := hp c hc
    unfold Parser.furthestChoice
    revert hfair
    generalize p c = o
    intro hfair
    cases hfair with
    | ok ha hrest => exact .ok ha hrest
    | failure hstops hnotice => exact .failure hstops hnotice
    | @error stops hstops =>
      have hone : ∀ found : List Stop, W.Stopped found → ∀ s ∈ some found, W.Stopped s :=
        fun found hfound s hs => Option.some.inj hs ▸ hfound
      cases best with
      | none => exact ih (hone stops hstops) hps
      | some found =>
        refine ih (hone _ ?_) hps
        split
        · exact hstops
        · exact hbest found rfl

theorem extend {more : α → Parser α} (hmore : ∀ a, R a → W.Orderly R (more a)) (n : Nat) {a : α}
    (ha : R a) : W.Orderly R (Parser.extend more n a) := by
  induction n generalizing a with
  | zero => exact .pure ha
  | succ n ih => exact .optional_bind (hmore a ha) (fun _ hb => ih hb) (.pure ha)

theorem chain {first : Parser α} {operator : Parser β} {operand : β → α → Parser α}
    (hfirst : W.Orderly R first) (hoperator : W.Orderly S operator)
    (hoperand : ∀ op a, R a → W.Orderly R (operand op a)) :
    W.Orderly R (Parser.chain first operator operand) := by
  have hloop : ∀ n a, R a → W.Orderly R (Parser.chainLoop operator operand n a) := by
    intro n
    induction n with
    | zero => exact fun a ha => .pure ha
    | succ n ih => exact fun a ha =>
        .optional_bind hoperator (fun op _ => (hoperand op a ha).bind ih) (.pure ha)
  exact hfirst.bind fun a ha c hc => hloop c.rest.length a ha c hc

end Orderly

/-! ## Characters and words -/

/-- A rule of which only the places matter. -/
abbrev Passes {α : Type} (W : Watch) (p : Parser α) : Prop := W.Orderly (fun _ => True) p

theorem Passes.optional {α : Type} {p : Parser α} (h : W.Passes p) : W.Passes (optional p) :=
  (Orderly.optional h).imp fun _ _ => .intro

theorem Passes.either {α : Type} {p q : Parser α} (hp : W.Passes p) (hq : W.Passes q) :
    W.Passes (choice [p, q]) :=
  .choice (List.forall_mem_cons.mpr ⟨hp, List.forall_mem_singleton.mpr hq⟩)

namespace Lawful

variable {α : Type} {R : α → Prop} {p : Parser α} (hW : W.Lawful)
include hW

/-- Characters are taken one at a time. -/
theorem skip {run : List Char} (hrun : '\r' ∉ run) {c : Cursor} (hc : W.place c)
    (h : run <+: c.rest) : W.place (c.skip run.length) := by
  induction run generalizing c with
  | nil => exact hc
  | cons ch run ih =>
    obtain ⟨hch, hrun⟩ := not_or.mp (mt List.mem_cons.mpr hrun)
    obtain ⟨rest, hrest⟩ := h
    refine ih hrun (hW.next hc hrest.symm (Ne.symm hch)) ⟨rest, ?_⟩
    rw [Cursor.next_rest, ← hrest]
    rfl

theorem takeWhile {class_ : Char → Bool} (hclass : class_ '\r' = false) {c : Cursor}
    (hc : W.place c) : W.place (c.skip (c.rest.takeWhile class_).length) := by
  refine hW.skip (fun hmem => ?_) hc (List.takeWhile_prefix class_)
  exact absurd (List.all_eq_true.mp List.all_takeWhile _ hmem) (by simp [hclass])

theorem trivia : W.Passes trivia := fun _ hc => .ok .intro (hW.start hc)

theorem char {ch : Char} (hch : ch ≠ '\r') : W.Passes (char ch) := by
  intro c hc
  unfold Grammar.char
  split
  · next d cs hrest =>
    split
    · next hd => exact .ok .intro (hW.next hc hrest (hd ▸ hch))
    · exact .error (.single hc _)
  · exact .error (.single hc _)

theorem runOf {class_ : Char → Bool} (hclass : class_ '\r' = false) : W.Passes (runOf class_) :=
  fun _ hc => .ok .intro (hW.takeWhile hclass hc)

theorem someOf {class_ : Char → Bool} (hclass : class_ '\r' = false) (mismatch : Mismatch) :
    W.Passes (someOf class_ mismatch) := by
  intro c hc
  unfold Grammar.someOf Cursor.takeWhile
  dsimp only
  split
  · exact .error (.single hc _)
  · exact .ok .intro (hW.takeWhile hclass hc)

theorem identifier : W.Passes identifier :=
  (hW.someOf (by decide) _).bind fun _ _ => (hW.runOf (by decide)).map fun _ _ => .intro

theorem literally {word : String} (hword : '\r' ∉ word.toList) : W.Passes (literally word) := by
  intro c hc
  unfold Grammar.literally
  split
  · next h =>
    have hplace := hW.skip hword hc (List.isPrefixOf_iff_prefix.mp h)
    rw [String.length_toList] at hplace
    exact .ok .intro hplace
  · exact .error (.single hc _)

omit hW in
theorem notFollowedBy (class_ : Char → Bool) : W.Passes (notFollowedBy class_) := by
  intro c hc
  unfold Grammar.notFollowedBy
  split
  · split
    · exact .error (.single hc _)
    · exact .ok .intro hc
  · exact .ok .intro hc

/-- A token between blanks and comments. -/
theorem padded (h : W.Orderly R p) : W.Orderly R (padded p) :=
  hW.trivia.bind fun _ _ => h.bind fun _ ha => hW.trivia.map fun _ _ => ha

theorem mark {ch : Char} (hch : ch ≠ '\r') : W.Passes (mark ch) := hW.padded (hW.char hch)

/-- A word of the language; its value is the place where it stands. -/
theorem keyword {word : String} (hword : '\r' ∉ word.toList) :
    W.Orderly W.place (keyword word) :=
  hW.padded <| .here fun _ he => (hW.literally hword).bind fun _ _ =>
    (notFollowedBy _).map fun _ _ => he

theorem stringLiteral : W.Passes stringLiteral :=
  (hW.char (by decide)).bind fun _ _ => (hW.runOf (by decide)).bind fun _ _ =>
    (Orderly.labelled _ (hW.char (by decide))).map fun _ _ => .intro

theorem sign : W.Passes sign :=
  ((hW.char (by decide)).either (hW.char (by decide))).optional.map fun _ _ => .intro

theorem digits : W.Passes digits := hW.someOf (by decide) _

theorem mantissa : W.Passes mantissa := by
  have hpoint : W.Passes (Grammar.char '.') := hW.char (by decide)
  have hfraction : W.Passes (do let _ ← Grammar.char '.'; Grammar.runOf Char.isDigit) :=
    hpoint.bind fun _ _ => hW.runOf (by decide)
  refine Passes.either ?_ ?_
  · exact hW.digits.bind fun _ _ => hfraction.optional.map fun _ _ => .intro
  · exact hpoint.bind fun _ _ => hW.digits.map fun _ _ => .intro

theorem numeral : W.Passes numeral := by
  have hpower : W.Passes (do
      let _ ← choice [Grammar.char 'e', Grammar.char 'E']
      let down ← Grammar.sign
      let ds ← committed Grammar.digits
      return if down then -(digitsValue ds : Int) else (digitsValue ds : Int)) := by
    refine ((hW.char (by decide)).either (hW.char (by decide))).bind fun _ _ => ?_
    exact hW.sign.bind fun _ _ => hW.digits.committed.map fun _ _ => .intro
  exact hW.sign.bind fun _ _ => hW.mantissa.bind fun _ _ =>
    hpower.optional.map fun _ _ => .intro

theorem number : W.Passes number := hW.padded (hW.numeral.map fun _ _ => .intro)

/-! ## Names and punctuation -/

/-- A word, after blanks and comments, and what follows it. -/
theorem word_bind {f : Cursor → String → Parser α}
    (hf : ∀ e name, W.place e → W.Orderly R (f e name)) :
    W.Orderly R
      (Grammar.trivia >>= fun _ => position >>= fun start => Grammar.identifier >>= f start) :=
  hW.trivia.bind fun _ _ => .here fun e he => hW.identifier.bind fun name _ => hf e name he

/-- What a rule reads after blanks and comments. -/
theorem opened {f : Cursor → Parser α} (hf : ∀ e, W.place e → W.Orderly R (f e)) :
    W.Orderly R (Grammar.trivia >>= fun _ => position >>= f) :=
  hW.trivia.bind fun _ _ => .here hf

/-- Blanks and comments at the end of a phrase. -/
theorem trailing {a : α} (ha : R a) : W.Orderly R (Grammar.trivia >>= fun _ => Pure.pure a) :=
  hW.trivia.map fun _ _ => ha

theorem name : W.Passes (Grammar.padded Grammar.identifier) := hW.padded hW.identifier

theorem string : W.Passes (Grammar.padded Grammar.stringLiteral) := hW.padded hW.stringLiteral

theorem symbol (kind : SymbolKind) : W.Passes (symbol W.grammar kind) := by
  refine hW.word_bind fun e name he => ?_
  split
  · exact hW.trailing .intro
  · exact .reject he

theorem comma : W.Passes comma := .labelled _ (hW.mark (by decide))

theorem closing {bracket : Char} (h : bracket ≠ '\r') : W.Passes (closing bracket) :=
  .labelled _ (hW.mark h)

theorem operator {a b : Char} (ha : a ≠ '\r') (hb : b ≠ '\r') : W.Passes (operator a b) :=
  (hW.mark ha).either (hW.mark hb)

theorem optionWord (choices : List String) : W.Passes (optionWord choices) := by
  refine hW.opened fun start hstart => ?_
  have hmissing : W.Passes fun _ : Cursor =>
      (.error [⟨start, .word⟩, ⟨start, .phrase "option word"⟩] : Outcome String) :=
    fun _ _ => .error ((Stopped.single hstart _).concat hstart _)
  refine .optional_bind hW.identifier (fun word _ => ?_) hmissing
  by_cases hword : choices.contains word = true
  · simp only [hword]
    exact hW.trailing .intro
  · simp only [hword]
    exact hmissing

end Lawful

end Watch

end PartScript
