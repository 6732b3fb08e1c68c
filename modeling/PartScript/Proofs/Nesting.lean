/-
  Phrases within phrases. A rule asks for the rules of its parts only after it has read
  something, so what it reads at a place depends on what these read at later places. The depth to
  which rules are tied together is never used up, and every rule of the grammar is one over all
  rules of the grammar.
-/
import Mathlib.Data.List.Forall2
import PartScript.Grammar.Parse
import PartScript.Proofs.Parsing

namespace PartScript.Grammar

namespace Parser

variable {α β : Type} {n k l : Nat} {p p' : Parser α}

theorem choice_cons (p q : Parser α) (ps : List (Parser α)) (c : Cursor) :
    choice (p :: q :: ps) c = match p c with
      | .ok a rest => .ok a rest
      | .error _ => choice (q :: ps) c
      | .failure stops notice => .failure stops notice :=
  choice.eq_3 _ _ _ (List.cons_ne_nil q ps)

/-- Two rules do the same where fewer than `n` characters are left, and read `k` of them at
least, each once. -/
def Agree (n k : Nat) (p p' : Parser α) : Prop :=
  ∀ c, c.rest.length < n → p c = p' c ∧ p.At c fun _ rest => c.Onward k rest

namespace Agree

theorem mono {n' k' : Nat} (h : Agree n k p p') (hn : n' ≤ n) (hk : k' ≤ k) :
    Agree n' k' p p' := fun c hc =>
  ⟨(h c (Nat.lt_of_lt_of_le hc hn)).1, (h c (Nat.lt_of_lt_of_le hc hn)).2.imp fun _ _ hrest =>
    hrest.mono hk⟩

theorem weaken (h : Agree n k p p') : Agree n 0 p p' := h.mono (Nat.le_refl n) (Nat.zero_le k)

theorem of_at (h : ∀ c, p.At c fun _ rest => c.Onward k rest) :
    Agree n k p p := fun c _ => ⟨rfl, h c⟩

theorem pure (a : α) : Agree n 0 (Pure.pure a : Parser α) (Pure.pure a) :=
  of_at fun c => .pure (.refl c)

theorem position : Agree n 0 Parser.position Parser.position :=
  of_at fun c => .position (.refl c)

/-- Nothing is read where nothing can be. -/
theorem of_never (h : ∀ c a rest, p c ≠ .ok a rest) : Agree n k p p :=
  of_at fun c a rest ha => absurd ha (h c a rest)

theorem reject (start : Cursor) :
    Agree n k (Parser.reject start : Parser α) (Parser.reject start) := of_never nofun

theorem refuse (start stop : Cursor) (kind : CompileErrorKind) (message : String) :
    Agree n k (Parser.refuse start stop kind message : Parser α)
      (Parser.refuse start stop kind message) := of_never nofun

/-- What follows a rule is read where fewer characters are left. -/
theorem bind {f f' : α → Parser β} (h : Agree n k p p') (hf : ∀ a, Agree (n - k) l (f a) (f' a)) :
    Agree n (k + l) (p >>= f) (p' >>= f') := by
  intro c hc
  obtain ⟨heq, hat⟩ := h c hc
  have hrest : ∀ a rest, p c = .ok a rest → rest.rest.length < n - k := fun a rest ha => by
    have := (hat a rest ha).2
    omega
  constructor
  · rw [bind_apply, bind_apply, ← heq]
    cases hp : p c with
    | ok a rest => exact (hf a rest (hrest a rest hp)).1
    | _ => rfl
  · refine At.bind (P := fun a rest => c.Onward k rest ∧ rest.rest.length < n - k)
      (fun a rest ha => ⟨hat a rest ha, hrest a rest ha⟩) ?_
    intro a rest ⟨honward, hlt⟩
    exact ((hf a rest hlt).2).imp fun _ _ hlast => honward.trans hlast

theorem then_ {f f' : α → Parser β} (h : Agree n 0 p p') (hf : ∀ a, Agree n l (f a) (f' a)) :
    Agree n l (p >>= f) (p' >>= f') :=
  (h.bind hf).mono (Nat.le_refl n) (Nat.le_add_left l 0)

theorem after {f f' : α → Parser β} (h : Agree (n + 1) 1 p p')
    (hf : ∀ a, Agree n 0 (f a) (f' a)) : Agree (n + 1) 1 (p >>= f) (p' >>= f') := h.bind hf

theorem map (f : α → β) (h : Agree n k p p') : Agree n k (f <$> p) (f <$> p') :=
  h.bind fun a => .pure (f a)

theorem labelled (label : String) (h : Agree n k p p') :
    Agree n k (Parser.labelled label p) (Parser.labelled label p') := fun c hc =>
  ⟨by unfold Parser.labelled; rw [(h c hc).1], At.labelled label (h c hc).2⟩

theorem committed (h : Agree n k p p') : Agree n k (Parser.committed p) (Parser.committed p') :=
  fun c hc => ⟨by unfold Parser.committed; rw [(h c hc).1], At.committed (h c hc).2⟩

theorem orReject (start : Cursor) (h : Agree n k p p') :
    Agree n k (Parser.orReject start p) (Parser.orReject start p') := fun c hc =>
  ⟨by unfold Parser.orReject; rw [(h c hc).1], At.orReject start (h c hc).2⟩

theorem optional (h : Agree n k p p') :
    Agree n 0 (Parser.optional p) (Parser.optional p') := by
  intro c hc
  obtain ⟨heq, hat⟩ := h c hc
  refine ⟨by unfold Parser.optional; rw [heq], At.optional (hat.imp fun _ _ hrest => ?_) ?_⟩
  · exact hrest.mono (Nat.zero_le k)
  · exact .refl c

/-- An optional part, and what follows it where it is there and where it is not. -/
theorem optional_bind {f f' : Option α → Parser β} (h : Agree (n + 1) 1 p p')
    (hsome : ∀ a, Agree n 0 (f (some a)) (f' (some a)))
    (hnone : Agree (n + 1) l (f none) (f' none)) (hl : l ≤ 1) :
    Agree (n + 1) l (Parser.optional p >>= f) (Parser.optional p' >>= f') := by
  intro c hc
  obtain ⟨heq, hat⟩ := h c hc
  unfold At
  rw [bind_apply, bind_apply, Parser.optional, Parser.optional, ← heq]
  cases hp : p c with
  | error stops => exact hnone c hc
  | failure stops notice => exact ⟨rfl, fun _ _ => nofun⟩
  | ok a rest =>
    have hrest := hat a rest hp
    obtain ⟨hsame, hlast⟩ := hsome a rest (Nat.lt_of_lt_of_le hrest.shorter (Nat.le_of_lt_succ hc))
    exact ⟨hsame, fun b last hb => (hrest.trans (hlast b last hb)).mono hl⟩

/-- Where a rule that may read nothing has read something, what follows it is read where fewer
characters are left. -/
theorem some_bind {p p' : Parser (Option α)} {f f' : Option α → Parser β} (h : Agree (n + 1) 0 p p')
    (hat : ∀ c, c.rest.length < n + 1 → p.At c fun found rest => c.Onward found.toList.length rest)
    (hsome : ∀ a, Agree n 0 (f (some a)) (f' (some a)))
    (hnone : Agree (n + 1) 0 (f none) (f' none)) : Agree (n + 1) 0 (p >>= f) (p' >>= f') := by
  intro c hc
  unfold At
  rw [bind_apply, bind_apply, ← (h c hc).1]
  cases hp : p c with
  | error stops => exact ⟨rfl, fun _ _ => nofun⟩
  | failure stops notice => exact ⟨rfl, fun _ _ => nofun⟩
  | ok found rest =>
    have hrest := hat c hc found rest hp
    cases found with
    | some a =>
      obtain ⟨hsame, hlast⟩ := hsome a rest (Nat.lt_of_lt_of_le hrest.shorter (Nat.le_of_lt_succ hc))
      exact ⟨hsame, fun b last hb => (hrest.trans (hlast b last hb)).mono (Nat.zero_le _)⟩
    | none =>
      obtain ⟨hsame, hlast⟩ := hnone rest (Nat.lt_of_le_of_lt hrest.2 hc)
      exact ⟨hsame, fun b last hb => hrest.trans (hlast b last hb)⟩

theorem ahead (h : Agree n k p p') : Agree n 0 (Parser.ahead p) (Parser.ahead p') := fun c hc =>
  ⟨by unfold Parser.ahead; rw [(h c hc).1], At.ahead (.refl c)⟩

/-- Each of several rules that agree with others reads on. -/
theorem at_of_mem {ps ps' : List (Parser α)} (h : List.Forall₂ (Agree n k) ps ps') {c : Cursor}
    (hc : c.rest.length < n) : ∀ p ∈ ps, p.At c fun _ rest => c.Onward k rest := by
  intro p hp
  induction h with
  | nil => cases hp
  | cons hp' _ ih =>
    rcases List.mem_cons.mp hp with rfl | hp
    · exact (hp' c hc).2
    · exact ih hp

theorem choice {ps ps' : List (Parser α)} (h : List.Forall₂ (Agree n k) ps ps') :
    Agree n k (Parser.choice ps) (Parser.choice ps') := by
  intro c hc
  refine ⟨?_, At.choice (at_of_mem h hc)⟩
  induction h with
  | nil => rfl
  | @cons p p' ps ps' hp hps ih =>
    cases hps with
    | nil =>
      unfold Parser.choice
      rw [(hp c hc).1]
    | cons hq hqs =>
      rw [choice_cons, choice_cons, (hp c hc).1, ih]

theorem furthestChoice {ps ps' : List (Parser α)} (h : List.Forall₂ (Agree n k) ps ps')
    (best : Option (List Stop)) :
    Agree n k (Parser.furthestChoice best ps) (Parser.furthestChoice best ps') := by
  intro c hc
  refine ⟨?_, At.furthestChoice (at_of_mem h hc)⟩
  induction h generalizing best with
  | nil => rfl
  | @cons p p' ps ps' hp hps ih =>
    unfold Parser.furthestChoice
    rw [← (hp c hc).1]
    cases p c with
    | error stops => cases best <;> exact ih _
    | _ => rfl

theorem extend {more more' : α → Parser α} (h : ∀ a, Agree (n + 1) 1 (more a) (more' a))
    (m : Nat) (first : α) :
    Agree (n + 1) 0 (Parser.extend more m first) (Parser.extend more' m first) := by
  induction m generalizing first with
  | zero => exact .pure first
  | succ m ih =>
    refine .optional_bind (h first) (fun a => ?_) (.pure first) (Nat.zero_le 1)
    exact (ih a).mono (Nat.le_succ n) (Nat.le_refl 0)

variable {operator : Parser β} {operand operand' : β → α → Parser α}

theorem chainLoop (hoperator : Agree (n + 1) 1 operator operator)
    (hoperand : ∀ op left, Agree n 0 (operand op left) (operand' op left)) (m : Nat) (left : α) :
    Agree (n + 1) 0 (Parser.chainLoop operator operand m left)
      (Parser.chainLoop operator operand' m left) := by
  induction m generalizing left with
  | zero => exact .pure left
  | succ m ih =>
    refine .optional_bind hoperator (fun op => ?_) (.pure left) (Nat.zero_le 1)
    exact (hoperand op left).then_ fun longer => (ih longer).mono (Nat.le_succ n) (Nat.le_refl 0)

theorem chain {first first' : Parser α} (hfirst : Agree (n + 1) k first first')
    (hoperator : Agree (n + 1) 1 operator operator)
    (hoperand : ∀ op left, Agree n 0 (operand op left) (operand' op left)) :
    Agree (n + 1) k (Parser.chain first operator operand)
      (Parser.chain first' operator operand') := by
  refine hfirst.bind (l := 0) fun left c hc => ?_
  exact chainLoop hoperator hoperand c.rest.length left c (by omega)

end Agree

end Parser

open Grammar.Parser

/-! ## Words and marks -/

variable {n : Nat}

theorem trivia_agree : Agree n 0 trivia trivia := .of_at fun c a rest ha => by
  obtain ⟨-, rfl⟩ := Outcome.ok.inj ha
  exact .skip _ c

theorem padded_agree {α : Type} {k : Nat} {p p' : Parser α} (h : Agree n k p p') :
    Agree n k (padded p) (padded p') :=
  trivia_agree.then_ fun _ => h.bind fun a => (trivia_agree.then_ fun _ => .pure a)

theorem char_agree (ch : Char) : Agree n 1 (char ch) (char ch) := .of_at fun c a rest ha => by
  unfold char at ha
  split at ha
  · next d ds hrest =>
    split at ha
    · obtain ⟨-, rfl⟩ := Outcome.ok.inj ha
      refine ⟨⟨1, rfl⟩, ?_⟩
      rw [Cursor.next_rest, hrest]
      exact Nat.le_refl _
    · cases ha
  · cases ha

theorem mark_agree (ch : Char) : Agree n 1 (mark ch) (mark ch) := padded_agree (char_agree ch)

theorem runOf_agree (p : Char → Bool) : Agree n 0 (runOf p) (runOf p) := by
  refine .of_at fun c a rest ha => ?_
  obtain ⟨-, rfl⟩ := Outcome.ok.inj ha
  exact .skip _ c

theorem someOf_agree (p : Char → Bool) (mismatch : Mismatch) :
    Agree n 1 (someOf p mismatch) (someOf p mismatch) := .of_at fun c a rest ha => by
  unfold someOf Cursor.takeWhile at ha
  simp only at ha
  split at ha
  · cases ha
  · next hrun =>
    obtain ⟨-, rfl⟩ := Outcome.ok.inj ha
    have hpos : 0 < (c.rest.takeWhile p).length :=
      List.length_pos_iff.mpr fun hnil => hrun (by rw [hnil]; rfl)
    have hle := (List.takeWhile_prefix p (l := c.rest)).length_le
    refine ⟨⟨_, rfl⟩, ?_⟩
    rw [Cursor.skip_rest, List.length_drop]
    omega

theorem identifier_agree : Agree n 1 identifier identifier :=
  (someOf_agree _ _).bind fun _ => (runOf_agree _).then_ fun _ => .pure _

theorem stringLiteral_agree : Agree n 1 stringLiteral stringLiteral :=
  (char_agree _).bind (l := 0) fun _ => (runOf_agree _).then_ fun _ =>
    (Agree.labelled _ (char_agree _)).weaken.then_ fun _ => .pure _

theorem digits_agree : Agree n 1 digits digits := someOf_agree _ _

theorem sign_agree : Agree n 0 sign sign :=
  (Agree.optional (.choice (.cons (char_agree _) (.cons (char_agree _) .nil)))).then_ fun _ =>
    .pure _

theorem mantissa_agree : Agree n 1 mantissa mantissa := by
  refine .choice (.cons ?_ (.cons ?_ .nil))
  · exact digits_agree.bind (l := 0) fun _ => (Agree.optional (p := do
      let _ ← char '.'
      runOf Char.isDigit) ((char_agree _).bind fun _ => runOf_agree _)).then_ fun _ => .pure _
  · exact (char_agree _).bind (l := 0) fun _ => digits_agree.weaken.then_ fun _ => .pure _

theorem numeral_agree : Agree n 1 numeral numeral := by
  refine sign_agree.then_ fun _ => mantissa_agree.bind (l := 0) fun _ => ?_
  refine Agree.then_ (Agree.optional (k := 0) ?_) fun _ => .pure _
  refine (Agree.choice (.cons (char_agree _) (.cons (char_agree _) .nil))).weaken.then_ fun _ => ?_
  exact sign_agree.then_ fun _ => digits_agree.committed.weaken.then_ fun _ => by
    split <;> exact .pure _

theorem number_agree : Agree n 1 number number :=
  padded_agree (numeral_agree.bind fun _ => .pure _)

theorem symbol_agree (g : Grammar) (kind : SymbolKind) :
    Agree n 1 (symbol g kind) (symbol g kind) := by
  refine trivia_agree.then_ fun _ => Agree.position.then_ fun start => ?_
  refine identifier_agree.bind (l := 0) fun name => ?_
  split
  · exact trivia_agree.then_ fun _ => .pure _
  · exact .reject start

theorem comma_agree : Agree n 1 comma comma := .labelled _ (mark_agree ',')

theorem closing_agree (bracket : Char) : Agree n 1 (closing bracket) (closing bracket) :=
  .labelled _ (mark_agree bracket)

theorem operator_agree (a b : Char) : Agree n 1 (operator a b) (operator a b) :=
  .choice (.cons (mark_agree a) (.cons (mark_agree b) .nil))

theorem optionWord_agree (choices : List String) :
    Agree n 0 (optionWord choices) (optionWord choices) := by
  refine trivia_agree.then_ fun _ => Agree.position.then_ fun start => ?_
  refine identifier_agree.optional.then_ fun word => ?_
  have hmissing : ∀ stops : List Stop,
      Agree n 0 (fun _ => .error stops : Parser String) fun _ => .error stops :=
    fun _ => .of_never nofun
  cases word with
  | none => exact hmissing _
  | some word =>
    by_cases hword : choices.contains word = true
    · simp only [hword]
      exact trivia_agree.then_ fun _ => .pure _
    · simp only [hword]
      exact hmissing _

theorem featureName_agree (g : Grammar) : Agree n 1 (featureName g) (featureName g) := by
  refine trivia_agree.then_ fun _ => Agree.position.then_ fun start => ?_
  refine identifier_agree.bind (l := 0) fun name => ?_
  split
  · exact .reject start
  · split
    · exact trivia_agree.then_ fun _ => .pure _
    · exact trivia_agree.then_ fun _ => .pure _
    · exact .reject start

theorem subResult_agree (base : FeatureRef) (n : Nat) :
    Agree n 1 (subResult base) (subResult base) :=
  (mark_agree '!').bind (l := 0) fun _ => (padded_agree identifier_agree).weaken.then_ fun _ => .pure _

/-! ## Rules over rules that agree -/

theorem pairOf_agree {α : Type} {p p' : Parser α} (h : Agree n 0 p p') :
    Agree n 0 (pairOf p) (pairOf p') :=
  h.then_ fun a => comma_agree.weaken.then_ fun _ => h.then_ fun b => .pure (a, b)

theorem parenthesized_agree {α : Type} {p p' : Parser α} (h : Agree n 0 p p') :
    Agree (n + 1) 1 (parenthesized p) (parenthesized p') :=
  (mark_agree '(').after fun _ => h.then_ fun a => (closing_agree ')').weaken.then_ fun _ =>
    .pure a

/-! ## Phrases over a parser for what they begin with -/

/-- Reads a component of the vector that `operand` reads. -/
def componentOf (operand : Parser VectorExpr) : Parser ScalarExpr := do
  trivia
  let start ← position
  let operand ← operand
  let _ ← orReject start (mark '.')
  let word ← padded identifier
  match Component.named.lookup word with
  | some which => return .component operand which
  | none => reject start

/-- Reads a reference value of the feature that `feature` reads. -/
def featureValueOf (feature : Parser FeatureRef) : Parser ScalarExpr := do
  trivia
  let start ← position
  let feature ← feature
  let _ ← orReject start (mark '$')
  let name ← committed (labelled "reference value name" (padded identifier))
  return .value feature name

/-- Reads a part of the datum that `datum` reads. -/
def datumPartOf (datum : Parser DatumExpr) : Parser VectorExpr := do
  trivia
  let start ← position
  let datum ← datum
  let _ ← orReject start (mark '.')
  let word ← orReject start (padded identifier)
  match DatumPart.named.lookup word with
  | some part => return .part datum part
  | none => reject start

/-- Reads a reference point of the feature that `feature` reads. -/
def featurePointOf (feature : Parser FeatureRef) : Parser VectorExpr := do
  trivia
  let start ← position
  let feature ← feature
  let _ ← orReject start (mark '@')
  let name ← committed (labelled "reference point name" (padded identifier))
  return .point feature name

/-- Reads a signed power of what `primary` reads, where `unary` reads what a sign or a power is
followed by. -/
def powerOf (primary unary : Parser ScalarExpr) : Parser ScalarExpr := do
  match ← optional (mark '-') with
  | some _ => return .neg (← unary)
  | none =>
    let base ← primary
    match ← optional (mark '^') with
    | some _ => return .binary .pow base (← unary)
    | none => return base

/-- Reads a constructor call whose arguments `arguments` reads. -/
def constructorOf (g : Grammar) (arguments : FeatureType → Parser (List Argument)) :
    Parser Feature := do
  trivia
  let start ← position
  let name ← identifier
  let afterName ← position
  let _ ← mark '('
  match g.registry.find? name with
  | none =>
    if isReserved name then reject start
    else
      refuse start afterName .unknownFeatureType
        (RegistryError.unknownFeatureType name).message
  | some type =>
    let arguments ← committed (arguments type)
    let _ ← committed (closing ')')
    let stop ← position
    match type.construct arguments (.text g.model.sources (.between start stop)) with
    | .ok feature => return feature
    | .error cause =>
      refuse start stop .malformed s!"Invalid arguments for {type.name}: {cause.message}"

/-- Reads the next argument of a call with `argument`, together with the comma before it. -/
def following (argument : Parser Argument) (typeName : String) (param : Param)
    (mandatory first : Bool) : Parser (Option Argument) := do
  if first then
    if mandatory then return some (← argument)
    else optional argument
  else
    let here ← position
    match ← optional (mark ',') with
    | some _ => return some (← argument)
    | none =>
      if mandatory then
        refuse here here .malformed
          s!"Syntax error: {typeName} expects argument '{param.usage}'"
      else return none

section Openings

variable {vector vector' : Parser VectorExpr} {datum datum' : Parser DatumExpr}
  {feature feature' : Parser FeatureRef}

theorem componentOf_agree (h : Agree (n + 1) 1 vector vector') :
    Agree (n + 1) 1 (componentOf vector) (componentOf vector') := by
  refine trivia_agree.then_ fun _ => Agree.position.then_ fun start => h.after fun operand => ?_
  refine (Agree.orReject start (mark_agree '.')).weaken.then_ fun _ => ?_
  refine (padded_agree identifier_agree).weaken.then_ fun word => ?_
  split
  · exact .pure _
  · exact .reject start

theorem featureValueOf_agree (h : Agree (n + 1) 1 feature feature') :
    Agree (n + 1) 1 (featureValueOf feature) (featureValueOf feature') := by
  refine trivia_agree.then_ fun _ => Agree.position.then_ fun start => h.after fun feature => ?_
  refine (Agree.orReject start (mark_agree '$')).weaken.then_ fun _ => ?_
  exact ((padded_agree identifier_agree).labelled _).committed.weaken.then_ fun name => .pure _

theorem datumPartOf_agree (h : Agree (n + 1) 1 datum datum') :
    Agree (n + 1) 1 (datumPartOf datum) (datumPartOf datum') := by
  refine trivia_agree.then_ fun _ => Agree.position.then_ fun start => h.after fun datum => ?_
  refine (Agree.orReject start (mark_agree '.')).weaken.then_ fun _ => ?_
  refine (Agree.orReject start (padded_agree identifier_agree)).weaken.then_ fun word => ?_
  split
  · exact .pure _
  · exact .reject start

theorem featurePointOf_agree (h : Agree (n + 1) 1 feature feature') :
    Agree (n + 1) 1 (featurePointOf feature) (featurePointOf feature') := by
  refine trivia_agree.then_ fun _ => Agree.position.then_ fun start => h.after fun feature => ?_
  refine (Agree.orReject start (mark_agree '@')).weaken.then_ fun _ => ?_
  exact ((padded_agree identifier_agree).labelled _).committed.weaken.then_ fun name => .pure _

theorem powerOf_agree {primary primary' unary unary' : Parser ScalarExpr}
    (h : Agree (n + 1) 1 primary primary') (hunary : Agree n 0 unary unary') :
    Agree (n + 1) 1 (powerOf primary unary) (powerOf primary' unary') := by
  refine .optional_bind (mark_agree '-') (fun _ => hunary.then_ fun _ => .pure _) ?_ (Nat.le_refl 1)
  refine h.after fun base => (mark_agree '^').optional.then_ fun caret => ?_
  cases caret with
  | some _ => exact hunary.then_ fun _ => .pure _
  | none => exact .pure base

/-- The arguments of a call begin after its name. -/
theorem constructorOf_agree (g : Grammar) {arguments arguments' : FeatureType → Parser (List Argument)}
    (h : ∀ type, Agree n 0 (arguments type) (arguments' type)) :
    Agree (n + 1) 1 (constructorOf g arguments) (constructorOf g arguments') := by
  refine trivia_agree.then_ fun _ => Agree.position.then_ fun start => ?_
  refine identifier_agree.after fun name => Agree.position.then_ fun afterName => ?_
  refine (mark_agree '(').weaken.then_ fun _ => ?_
  cases g.registry.find? name with
  | none =>
    simp only
    split
    · exact .reject start
    · exact .refuse _ _ _ _
  | some type =>
    refine (h type).committed.then_ fun as => ?_
    refine (closing_agree ')').committed.weaken.then_ fun _ => Agree.position.then_ fun stop => ?_
    split
    · exact .pure _
    · exact .refuse _ _ _ _

theorem following_agree {p p' : Parser Argument} (h : Agree n 0 p p') (typeName : String)
    (param : Param) (mandatory first : Bool) :
    Agree n 0 (following p typeName param mandatory first)
      (following p' typeName param mandatory first) := by
  have hsome := h.then_ fun a => Agree.pure (n := n) (some a)
  unfold following
  cases first with
  | true =>
    cases mandatory with
    | true => exact hsome
    | false => exact h.optional
  | false =>
    refine Agree.position.then_ fun here => (mark_agree ',').optional.then_ fun found => ?_
    cases found with
    | some _ => exact hsome
    | none =>
      cases mandatory with
      | true => exact .refuse _ _ _ _
      | false => exact .pure _

/-- Where a further argument is read, so is a character. -/
theorem following_at {p : Parser Argument} {c : Cursor}
    (h : ∀ d, d.rest.length ≤ c.rest.length → p.At d fun _ rest => d.Onward 1 rest)
    (typeName : String) (param : Param) (mandatory first : Bool) :
    (following p typeName param mandatory first).At c fun next rest =>
      c.Onward next.toList.length rest := by
  have hsome : ∀ d, d.rest.length ≤ c.rest.length →
      (do return some (← p) : Parser (Option Argument)).At d fun next rest =>
        d.Onward next.toList.length rest :=
    fun d hd => .bind (h d hd) fun _ _ hrest => .pure hrest
  unfold following
  cases first with
  | true =>
    cases mandatory with
    | true => exact hsome c (Nat.le_refl _)
    | false => exact .optional (h c (Nat.le_refl _)) (.refl c)
  | false =>
    refine .here ?_
    have hcomma := (mark_agree ',' c (Nat.lt_succ_self _)).2
    refine .bind (P := fun found rest => c.Onward found.toList.length rest)
      (.optional hcomma (.refl c)) fun found rest hrest => ?_
    cases found with
    | some _ =>
      refine (hsome rest (Nat.le_of_add_right_le hrest.2)).imp fun next last hlast => ?_
      exact (hrest.trans hlast).mono (Nat.le_add_left _ _)
    | none =>
      cases mandatory with
      | true => exact .refuse _ _ _ _
      | false => exact .pure hrest

end Openings

/-- After what a call reads in its parentheses, the closing one has to follow. -/
theorem closed_agree {α : Type} {p p' : Parser α} (h : Agree n 0 p p') :
    Agree n 0 (do let a ← p; let _ ← committed (closing ')'); return a)
      (do let a ← p'; let _ ← committed (closing ')'); return a) :=
  h.then_ fun _ => (closing_agree ')').committed.weaken.then_ fun _ => .pure _

section Rules

variable {g : Grammar} {ask ask' : Rules} (hask : ∀ rule, Agree n 0 (ask rule) (ask' rule))
include hask

/-! ### Calls -/

theorem argument_agree (kind : ParamKind) : Agree n 0 (argument ask kind) (argument ask' kind) := by
  cases kind with
  | scalar => exact (hask .scalar).then_ fun _ => .pure _
  | vector => exact (hask .vector).then_ fun _ => .pure _
  | datum => exact (hask .datum).then_ fun _ => .pure _
  | feature => exact (hask .feature).then_ fun _ => .pure _
  | selection => exact (hask .selection).then_ fun _ => .pure _
  | keyword choices => exact (optionWord_agree choices).then_ fun _ => .pure _

theorem nextArgument_agree (typeName : String) (param : Param) (mandatory first : Bool) :
    Agree n 0 (nextArgument ask typeName param mandatory first)
      (nextArgument ask' typeName param mandatory first) :=
  following_agree (argument_agree hask param.kind) typeName param mandatory first

theorem variadicArguments_agree (typeName : String) (param : Param) (least m : Nat) :
    ∀ (count : Nat) (read : List Argument),
      Agree n 0 (variadicArguments ask typeName param least m count read)
        (variadicArguments ask' typeName param least m count read) := by
  induction m with
  | zero => exact fun _ _ => .pure _
  | succ m ih =>
    refine fun count read => (nextArgument_agree hask typeName param _ _).then_ fun next => ?_
    cases next with
    | none => exact .pure _
    | some a => exact ih _ _

theorem argumentsFrom_agree (typeName : String) (signature : Signature) :
    ∀ read, Agree n 0 (argumentsFrom ask typeName signature read)
      (argumentsFrom ask' typeName signature read) := by
  induction signature with
  | nil => exact fun _ => .pure _
  | cons param params ih =>
    intro read
    unfold argumentsFrom
    split
    case h_1 =>
      intro c hc
      exact variadicArguments_agree hask typeName param _ _ 0 read c hc
    all_goals
      refine (nextArgument_agree hask typeName param _ _).then_ fun next => ?_
      cases next with
      | none => exact .pure _
      | some a => exact ih _

theorem placementArguments_agree :
    Agree n 0 (placementArguments g ask) (placementArguments g ask') := by
  have hvector : ∀ label, Agree n 0 (labelled label ask.vector) (labelled label ask'.vector) :=
    fun label => (hask .vector).labelled label
  have hcomma : Agree n 0 comma comma := comma_agree.weaken
  have hplane : Agree n 0 (placementPlane ask) (placementPlane ask') :=
    (hask .datum).then_ fun _ => (mark_agree ')').ahead.then_ fun _ => .pure _
  refine ((hask .feature).labelled "feature").then_ fun base => hcomma.then_ fun _ => ?_
  refine Agree.position.then_ fun start => hplane.optional.then_ fun plane => ?_
  cases plane with
  | some plane =>
    refine Agree.position.then_ fun stop => ?_
    split
    · exact .refuse _ _ _ _
    · exact .refuse _ _ _ _
    · exact .pure _
  | none =>
    refine (hvector "origin vector").then_ fun origin => hcomma.then_ fun _ => ?_
    refine (hvector "x direction").then_ fun ex => hcomma.then_ fun _ => ?_
    exact (hvector "z direction").then_ fun ez => .pure _

theorem callArguments_agree (type : FeatureType) :
    Agree n 0 (callArguments g ask type) (callArguments g ask' type) := by
  unfold callArguments
  cases type.written with
  | declared => exact argumentsFrom_agree hask _ _ []
  | placement => exact placementArguments_agree hask

theorem constructor_agree : Agree (n + 1) 1 (constructor g ask) (constructor g ask') :=
  constructorOf_agree g (callArguments_agree hask)

theorem featurePrimary_agree :
    Agree (n + 1) 1 (featurePrimary g ask) (featurePrimary g ask') := by
  refine .choice (.cons ?_ (.cons ?_ (.cons (featureName_agree g) .nil)))
  · exact (constructor_agree hask).after fun _ => .pure _
  · exact (mark_agree '(').after fun _ => (hask .feature).then_ fun _ =>
      (mark_agree ')').weaken.then_ fun _ => .pure _

theorem featureOver_agree : Agree (n + 1) 1 (featureOver g ask) (featureOver g ask') := by
  refine ((featurePrimary_agree hask).labelled "feature").after fun primary c hc => ?_
  exact (Agree.extend (subResult_agree · (n + 1)) c.rest.length primary).mono (Nat.le_succ n)
    (Nat.le_refl 0) c hc

/-! ### Datums and vectors -/

theorem datumCall_agree : Agree (n + 1) 1 (datumCall ask) (datumCall ask') := by
  have hvector : Agree n 0 ask.vector ask'.vector := hask .vector
  refine trivia_agree.then_ fun _ => Agree.position.then_ fun start => ?_
  refine identifier_agree.after fun name => (mark_agree '(').weaken.then_ fun _ => ?_
  split
  · exact closed_agree (hvector.committed.map _)
  · exact closed_agree ((pairOf_agree hvector).committed.map _)
  · exact closed_agree ((pairOf_agree hvector).committed.map _)
  · exact closed_agree (.reject start)

theorem datumOver_agree : Agree (n + 1) 1 (datumOver g ask) (datumOver g ask') :=
  .labelled _ <| .choice <| .cons (datumCall_agree hask) <|
    .cons (parenthesized_agree (hask .datum)) <|
    .cons ((symbol_agree g .datum).bind fun _ => .pure _) .nil

theorem components_agree (bracket : Char) :
    Agree n 0 (components ask bracket) (components ask' bracket) := by
  have hscalar : Agree n 0 ask.scalar ask'.scalar := hask .scalar
  have hcomma : Agree n 0 comma comma := comma_agree.weaken
  refine Agree.then_ (.committed ?_) fun v =>
    (closing_agree bracket).committed.weaken.then_ fun _ => .pure v
  exact hscalar.then_ fun x => hcomma.then_ fun _ => hscalar.then_ fun y =>
    hcomma.then_ fun _ => hscalar.then_ fun z => .pure _

theorem vectorLiteral_agree : Agree (n + 1) 1 (vectorLiteral ask) (vectorLiteral ask') :=
  (mark_agree '[').after fun _ => components_agree hask ']'

theorem vectorCall_agree : Agree (n + 1) 1 (vectorCall ask) (vectorCall ask') := by
  have hvector : Agree n 0 (committed ask.vector) (committed ask'.vector) :=
    Agree.committed (hask .vector)
  have hclosing : Agree n 0 (committed (closing ')')) (committed (closing ')')) :=
    (closing_agree ')').committed.weaken
  refine trivia_agree.then_ fun _ => Agree.position.then_ fun start => ?_
  refine identifier_agree.after fun name => (mark_agree '(').weaken.then_ fun _ => ?_
  split
  · exact components_agree hask ')'
  · exact hvector.then_ fun _ => comma_agree.committed.weaken.then_ fun _ =>
      hvector.then_ fun _ => hclosing.then_ fun _ => .pure _
  · exact hvector.then_ fun _ => hclosing.then_ fun _ => .pure _
  · exact .reject start

theorem vectorPrimary_agree : Agree (n + 1) 1 (vectorPrimary g ask) (vectorPrimary g ask') :=
  .labelled _ <| .choice <| .cons (vectorLiteral_agree hask) <| .cons (vectorCall_agree hask) <|
    .cons (datumPartOf_agree (datumOver_agree hask)) <|
    .cons (featurePointOf_agree (featureOver_agree hask)) <|
    .cons (parenthesized_agree (hask .vector)) <|
    .cons ((symbol_agree g .vector).bind fun _ => .pure _) .nil

/-! ### Scalars, vectors and selections -/

theorem scalarCall_agree : Agree (n + 1) 1 (scalarCall ask) (scalarCall ask') := by
  have hvector : Agree n 0 ask.vector ask'.vector := hask .vector
  refine trivia_agree.then_ fun _ => Agree.position.then_ fun start => ?_
  refine identifier_agree.after fun name => (mark_agree '(').weaken.then_ fun _ => ?_
  split
  · exact closed_agree ((pairOf_agree hvector).committed.map _)
  · exact closed_agree (hvector.committed.map _)
  · split
    · exact closed_agree ((Agree.committed (hask .scalar)).map _)
    · exact closed_agree (.reject start)

theorem scalarPrimary_agree : Agree (n + 1) 1 (scalarPrimary g ask) (scalarPrimary g ask') :=
  .labelled _ <| .choice <| .cons (number_agree.bind fun _ => .pure _) <|
    .cons (scalarCall_agree hask) <| .cons (componentOf_agree (vectorPrimary_agree hask)) <|
    .cons (parenthesized_agree (hask .scalar)) <|
    .cons (featureValueOf_agree (featureOver_agree hask)) <|
    .cons ((symbol_agree g .scalar).bind fun _ => .pure _) .nil

theorem scalarUnaryOver_agree :
    Agree (n + 1) 1 (scalarUnaryOver g ask) (scalarUnaryOver g ask') :=
  powerOf_agree (scalarPrimary_agree hask) (hask .scalarUnary)

theorem scalarTerm_agree : Agree (n + 1) 1 (scalarTerm g ask) (scalarTerm g ask') :=
  .chain (scalarUnaryOver_agree hask) (operator_agree _ _) fun _ _ =>
    ((scalarUnaryOver_agree hask).mono (Nat.le_succ n) (Nat.zero_le 1)).then_ fun _ => .pure _

theorem vectorUnaryOver_agree :
    Agree (n + 1) 1 (vectorUnaryOver g ask) (vectorUnaryOver g ask') :=
  .optional_bind (mark_agree '-') (fun _ => (hask .vectorUnary).then_ fun _ => .pure _)
    (vectorPrimary_agree hask) (Nat.le_refl 1)

theorem vectorFactorOver_agree :
    Agree (n + 1) 1 (vectorFactorOver g ask) (vectorFactorOver g ask') := by
  have hscaled : Agree (n + 1) 1 (scaledVector g ask) (scaledVector g ask') :=
    (scalarUnaryOver_agree hask).after fun _ => (mark_agree '*').weaken.then_ fun _ =>
      (hask .vectorFactor).then_ fun _ => .pure _
  exact .optional_bind hscaled (fun _ => .pure _) (vectorUnaryOver_agree hask) (Nat.le_refl 1)

theorem vectorTerm_agree : Agree (n + 1) 1 (vectorTerm g ask) (vectorTerm g ask') :=
  .chain (vectorFactorOver_agree hask) (operator_agree _ _) fun _ _ =>
    ((scalarUnaryOver_agree hask).mono (Nat.le_succ n) (Nat.zero_le 1)).then_ fun _ => .pure _

theorem query_agree : Agree (n + 1) 1 (query ask) (query ask') := by
  refine trivia_agree.then_ fun _ => Agree.position.then_ fun start => ?_
  refine identifier_agree.after fun name => ?_
  split
  · exact .reject start
  · refine (mark_agree '(').weaken.then_ fun _ => ?_
    refine Agree.then_ (Agree.committed (hask .feature)) fun feature => ?_
    refine Agree.then_ (Agree.optional (k := 0) ?_) fun filter =>
      (closing_agree ')').committed.weaken.then_ fun _ => .pure _
    exact (mark_agree ',').weaken.then_ fun _ =>
      ((padded_agree stringLiteral_agree).labelled _).committed.weaken

theorem selectionPrimary_agree :
    Agree (n + 1) 1 (selectionPrimary g ask) (selectionPrimary g ask') :=
  .labelled _ <| .choice <| .cons (query_agree hask) <|
    .cons (parenthesized_agree (hask .selection)) <|
    .cons ((symbol_agree g .selection).bind fun _ => .pure _) .nil

/-- What a rule reads depends on what the rules for its parts read at later places, and is at
least one character. -/
theorem ruleOver_agree (rule : Rule) :
    Agree (n + 1) 1 (ruleOver g ask rule) (ruleOver g ask' rule) := by
  have hlater : ∀ {α : Type} {p p' : Parser α}, Agree (n + 1) 1 p p' → Agree n 0 p p' :=
    fun h => h.mono (Nat.le_succ n) (Nat.zero_le 1)
  cases rule with
  | scalar =>
    exact .chain (scalarTerm_agree hask) (operator_agree _ _) fun _ _ =>
      (hlater (scalarTerm_agree hask)).then_ fun _ => .pure _
  | scalarUnary => exact scalarUnaryOver_agree hask
  | vector =>
    exact .chain (vectorTerm_agree hask) (operator_agree _ _) fun _ _ =>
      (hlater (vectorTerm_agree hask)).then_ fun _ => .pure _
  | vectorFactor => exact vectorFactorOver_agree hask
  | vectorUnary => exact vectorUnaryOver_agree hask
  | datum => exact datumOver_agree hask
  | selection =>
    exact .chain (selectionPrimary_agree hask) (operator_agree _ _) fun _ _ =>
      (hlater (selectionPrimary_agree hask)).then_ fun _ => .pure _
  | feature => exact featureOver_agree hask

end Rules

/-! ## The grammar as a whole -/

/-- Rules tied together to any two depths do the same where fewer characters are left. -/
theorem within_agree (g : Grammar) {depth depth' : Nat} (h : n ≤ depth) (h' : n ≤ depth')
    (rule : Rule) : Agree n 1 (within g depth rule) (within g depth' rule) := by
  induction n generalizing depth depth' rule with
  | zero => exact fun c hc => absurd hc (Nat.not_lt_zero _)
  | succ n ih =>
    obtain ⟨depth, rfl⟩ := Nat.exists_eq_add_of_le' (Nat.le_trans (Nat.le_add_left 1 n) h)
    obtain ⟨depth', rfl⟩ := Nat.exists_eq_add_of_le' (Nat.le_trans (Nat.le_add_left 1 n) h')
    refine ruleOver_agree (fun rule => (ih ?_ ?_ rule).weaken) rule
    · exact Nat.le_of_succ_le_succ h
    · exact Nat.le_of_succ_le_succ h'

theorem parse_agree (g : Grammar) (depth : Nat) (rule : Rule) :
    Agree depth 1 (within g depth rule) (g.parse rule) := fun c hc => by
  have h := within_agree g hc (Nat.le_refl _) rule c (Nat.lt_succ_self _)
  exact ⟨h.1, (within_agree g (Nat.le_refl _) (Nat.le_refl _) rule c hc).2⟩

/-- Every rule of the grammar is one over all rules of the grammar. -/
theorem parse_eq (g : Grammar) (rule : Rule) : g.parse rule = ruleOver g g.parse rule := by
  funext c
  have hask := fun rule => (parse_agree g c.rest.length rule).weaken
  exact (ruleOver_agree hask rule c (Nat.lt_succ_self _)).1

theorem parse_scalarUnary (g : Grammar) : g.parse.scalarUnary = scalarUnaryOver g g.parse :=
  parse_eq g .scalarUnary

theorem parse_vectorUnary (g : Grammar) : g.parse.vectorUnary = vectorUnaryOver g g.parse :=
  parse_eq g .vectorUnary

theorem parse_vectorFactor (g : Grammar) : g.parse.vectorFactor = vectorFactorOver g g.parse :=
  parse_eq g .vectorFactor

/-- Every rule reads characters of the text, one at least. -/
theorem parse_onward (g : Grammar) (rule : Rule) (c : Cursor) :
    (g.parse rule).At c fun _ rest => c.Onward 1 rest :=
  (within_agree g (Nat.le_refl _) (Nat.le_refl _) rule c (Nat.lt_succ_self _)).2

theorem parse_shortens (g : Grammar) (rule : Rule) (c : Cursor) :
    (g.parse rule).At c fun _ rest => rest.rest.length < c.rest.length :=
  (parse_onward g rule c).imp fun _ _ => Cursor.Onward.shorter

end PartScript.Grammar
