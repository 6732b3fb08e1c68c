/-
  Two readings side by side. Two grammars read two texts that correspond to each other place by
  place. If the words, numbers, strings and marks that they find at corresponding places are the
  same, then so is everything that they read there, phrase by phrase: the same rules apply, stop and
  fail, with the same values but for their places, and reading goes on at corresponding places.

  What corresponds is left open, up to what the phrases need: the correspondence is at its finest
  where a phrase may begin, and coarser where only marks can follow. The one pass over the grammar
  is by induction on the depth to which rules are tied together, one lemma per rule; the loops of
  both sides run under one bound that neither reaches.
-/
import PartScript.Proofs.Loops
import PartScript.Proofs.Moved

namespace PartScript

open Grammar.Parser

namespace Grammar

/-! ## Correspondence -/

/-- What may stand at a place. -/
inductive Stage where
  /-- A phrase may begin. -/
  | operand
  /-- A word may begin. -/
  | word
  /-- Only a mark or a word of the language may stand. -/
  | mark
deriving DecidableEq

/-- The marks of the script language, but for the semicolon. -/
def marks : List Char :=
  ['(', ')', '[', ']', ',', '=', '+', '-', '*', '/', '^', '|', '!', '@', '$', '.']

theorem not_class_of_mark {ch : Char} (class_ : Char → Bool) (hclass : marks.any class_ = false)
    (h : ch ∈ marks) : class_ ch = false :=
  Bool.eq_false_of_not_eq_true (List.any_eq_false.mp hclass ch h)

/-- After a closing bracket only marks follow, after any other mark a phrase may. -/
def Stage.after (ch : Char) : Stage := if ch = ')' ∨ ch = ']' then .mark else .operand

/-- Whether a diagnostic looks at the word in place of what was expected. -/
def Mismatch.Explained : Mismatch → Prop
  | .phrase label => label ∈ explainedPhrases
  | _ => False

end Grammar

open Grammar

/-- Two grammars and the places of two texts that correspond to each other. -/
structure Tandem where
  first : Grammar
  second : Grammar
  /-- Where something may stand in both texts. -/
  near : Stage → Cursor → Cursor → Prop
  /-- Where both texts go on after a statement. -/
  past : Cursor → Cursor → Prop
  /-- Whether both texts are one, so that errors have to be the same, too. -/
  exact : Prop
  /-- The part of an origin in which both readings agree. -/
  place : Origin → Origin

namespace Tandem

variable (T : Tandem)

/-- Both registries know the same under a name. -/
def Knows (name : String) : Prop := T.first.registry.find? name = T.second.registry.find? name

/-- Stops of both readings. Those of one text are the same, and where a diagnostic looks for a word
a phrase may begin. -/
def Stops (stops stops' : List Stop) : Prop :=
  T.exact → stops = stops' ∧
    ∀ s ∈ stops, s.mismatch.Explained → T.near .operand s.cursor s.cursor

/-- Outcomes of both readings: of one kind, with related values at related places. -/
inductive Paired {α : Type} (P : Cursor → Cursor → Prop) (R : α → α → Prop) :
    Outcome α → Outcome α → Prop where
  | ok {a a' rest rest'} : R a a' → P rest rest' → Paired P R (.ok a rest) (.ok a' rest')
  | error {stops stops'} : T.Stops stops stops' → Paired P R (.error stops) (.error stops')
  | failure {stops stops' notice notice'} : T.Stops stops stops' →
      (T.exact → notice = notice') →
      Paired P R (.failure stops notice) (.failure stops' notice')

/-- Two rules do the same at places that correspond. -/
def Agrees {α : Type} (s : Stage) (R : α → α → Prop) (P : Cursor → Cursor → Prop)
    (p p' : Parser α) : Prop :=
  ∀ c c', T.near s c c' → T.Paired P R (p c) (p' c')

/-! ### Values that are the same but for their places -/

def Scalar (e e' : ScalarExpr) : Prop := e.moved T.place = e'.moved T.place

def Vector (e e' : VectorExpr) : Prop := e.moved T.place = e'.moved T.place

def Datum (e e' : DatumExpr) : Prop := e.moved T.place = e'.moved T.place

def Selection (e e' : SelectionExpr) : Prop := e.moved T.place = e'.moved T.place

def Feature (r r' : FeatureRef) : Prop := r.moved T.place = r'.moved T.place

def Construction (x x' : PartScript.Feature) : Prop := x.moved T.place = x'.moved T.place

def Argument (a a' : PartScript.Argument) : Prop := a.moved T.place = a'.moved T.place

def Arguments (as as' : List PartScript.Argument) : Prop :=
  as.map (·.moved T.place) = as'.map (·.moved T.place)

def Bound (v v' : BoundValue) : Prop := v.moved T.place = v'.moved T.place

def Statement (s s' : Grammar.Statement) : Prop := s.moved T.place = s'.moved T.place

/-- The values of a rule. -/
def Value : (rule : Rule) → rule.Value → rule.Value → Prop
  | .scalar => T.Scalar
  | .scalarUnary => T.Scalar
  | .vector => T.Vector
  | .vectorFactor => T.Vector
  | .vectorUnary => T.Vector
  | .datum => T.Datum
  | .selection => T.Selection
  | .feature => T.Feature

/-! ### What two readings have to agree in -/

/-- At corresponding places both readings find the same words, numbers, strings and marks. -/
structure Lawful : Prop where
  word : ∀ {c c'}, T.near .operand c c' → T.near .word c c'
  mark : ∀ {c c'}, T.near .word c c' → T.near .mark c c'
  start : ∀ {s c c'}, T.near s c c' → T.near s c.start c'.start
  marks : ∀ {c c'} {ch : Char}, ch ∈ Grammar.marks → T.near .mark c c' →
    T.Paired (T.near (.after ch)) Eq (Grammar.mark ch c) (Grammar.mark ch c')
  semicolon : ∀ {c c'}, T.near .mark c c' →
    T.Paired T.past Eq (Grammar.mark ';' c) (Grammar.mark ';' c')
  identifier : ∀ {c c'}, T.near .word c c' → c.start = c → c'.start = c' →
    T.Paired (T.near .mark) (fun name name' => name = name' ∧ T.Knows name)
      (Grammar.identifier c) (Grammar.identifier c')
  numeral : ∀ {c c'}, T.near .operand c c' → c.start = c → c'.start = c' →
    c.head? ≠ some '-' → T.Paired (T.near .mark) Eq (Grammar.numeral c) (Grammar.numeral c')
  stringLiteral : ∀ {c c'}, T.near .word c c' → c.start = c → c'.start = c' →
    T.Paired (T.near .mark) Eq (Grammar.stringLiteral c) (Grammar.stringLiteral c')
  keyword : ∀ {c c'} {word : String}, word ∈ ["import", "export", "as"] → T.near .mark c c' →
    T.Paired (T.near .word) (fun _ _ => True) (Grammar.keyword word c) (Grammar.keyword word c')
  same : T.exact → ∀ {s c c'}, T.near s c c' → c = c'
  model : T.exact → T.first.model = T.second.model
  alike : T.first.model.Alike T.place T.second.model
  origin : ∀ {s t c c' d d'}, T.near s c c' → T.near t d d' →
    T.place (.text T.first.model.sources (.between c d)) =
      T.place (.text T.second.model.sources (.between c' d'))

variable {T}

/-! ## Outcomes -/

section Outcomes

variable {α β : Type} {P Q : Cursor → Cursor → Prop} {R : α → α → Prop} {S : β → β → Prop}
  {s t : Stage} {p p' : Parser α} {c c' : Cursor}

theorem Lawful.below (h : T.Lawful) : T.near s c c' → T.near .mark c c' := by
  cases s with
  | operand => exact fun hc => h.mark (h.word hc)
  | word => exact h.mark
  | mark => exact id

namespace Stops

theorem nil : T.Stops [] [] := fun _ => ⟨rfl, nofun⟩

/-- One stop more, at corresponding places. -/
theorem concat (h : T.Lawful) {stops stops' : List Stop} (hstops : T.Stops stops stops')
    (hc : T.near s c c') {m : Mismatch} (hm : m.Explained → s = .operand) :
    T.Stops (stops ++ [⟨c, m⟩]) (stops' ++ [⟨c', m⟩]) := by
  intro hexact
  obtain ⟨rfl, hnear⟩ := hstops hexact
  obtain rfl := h.same hexact hc
  refine ⟨rfl, fun stop hstop hexplained => ?_⟩
  rcases List.mem_append.mp hstop with hstop | hstop
  · exact hnear stop hstop hexplained
  · obtain rfl := List.mem_singleton.mp hstop
    obtain rfl := hm hexplained
    exact hc

theorem single (h : T.Lawful) (hc : T.near s c c') {m : Mismatch} (hm : ¬ m.Explained) :
    T.Stops [⟨c, m⟩] [⟨c', m⟩] := nil.concat h hc fun hexplained => absurd hexplained hm

theorem furthest {stops stops' found found' : List Stop} (h : T.Stops stops stops')
    (hfound : T.Stops found found') :
    T.Stops (if reach found < reach stops then stops else found)
      (if reach found' < reach stops' then stops' else found') := by
  intro hexact
  obtain ⟨rfl, hnear⟩ := h hexact
  obtain ⟨rfl, hnear'⟩ := hfound hexact
  split
  · exact ⟨rfl, hnear⟩
  · exact ⟨rfl, hnear'⟩

end Stops

namespace Paired

/-- Where one side reads a value, so does the other. -/
theorem of_ok {o o' : Outcome α} {a : α} {d : Cursor} (h : T.Paired P R o o') (ho : o = .ok a d) :
    ∃ a' d', o' = .ok a' d' ∧ R a a' ∧ P d d' := by
  subst ho
  cases h with
  | ok ha hd => exact ⟨_, _, rfl, ha, hd⟩

/-- Where one side stops, so does the other. -/
theorem stops (h : T.Paired P R (p c) (p' c')) (hp : p.Stops c) : p'.Stops c' := by
  obtain ⟨stops, hstops⟩ := stops_iff.mp hp
  rw [hstops] at h
  generalize ho : p' c' = o at h
  cases h with
  | error _ => exact .of_eq ho

theorem imp {R' : α → α → Prop} {o o' : Outcome α} (h : T.Paired P R o o')
    (hR : ∀ a a', R a a' → R' a a') (hP : ∀ d d', P d d' → Q d d') : T.Paired Q R' o o' := by
  cases h with
  | ok ha hd => exact .ok (hR _ _ ha) (hP _ _ hd)
  | error hstops => exact .error hstops
  | failure hstops hnotice => exact .failure hstops hnotice

theorem bind {f f' : α → Parser β} (h : T.Paired P R (p c) (p' c'))
    (hf : ∀ a a' d d', R a a' → P d d' → T.Paired Q S (f a d) (f' a' d')) :
    T.Paired Q S ((p >>= f) c) ((p' >>= f') c') := by
  rw [bind_apply, bind_apply]
  revert h
  generalize p c = o, p' c' = o'
  intro h
  cases h with
  | ok ha hd => exact hf _ _ _ _ ha hd
  | error hstops => exact .error hstops
  | failure hstops hnotice => exact .failure hstops hnotice

theorem committed (h : T.Paired P R (p c) (p' c')) :
    T.Paired P R (Parser.committed p c) (Parser.committed p' c') := by
  unfold Parser.committed
  revert h
  generalize p c = o, p' c' = o'
  intro h
  cases h with
  | ok ha hd => exact .ok ha hd
  | error hstops => exact .failure hstops fun _ => rfl
  | failure hstops hnotice => exact .failure hstops hnotice

theorem labelled (hT : T.Lawful) {label : String} (hc : T.near s c c')
    (hlabel : label ∈ explainedPhrases → s = .operand) (h : T.Paired P R (p c) (p' c')) :
    T.Paired P R (Parser.labelled label p c) (Parser.labelled label p' c') := by
  unfold Parser.labelled
  revert h
  generalize p c = o, p' c' = o'
  intro h
  cases h with
  | ok ha hd => exact .ok ha hd
  | error hstops => exact .error (hstops.concat hT hc hlabel)
  | failure hstops hnotice => exact .failure (hstops.concat hT hc hlabel) hnotice

theorem orReject (hT : T.Lawful) {start start' : Cursor} (hstart : T.near s start start')
    (h : T.Paired P R (p c) (p' c')) :
    T.Paired P R (Parser.orReject start p c) (Parser.orReject start' p' c') := by
  unfold Parser.orReject
  revert h
  generalize p c = o, p' c' = o'
  intro h
  cases h with
  | ok ha hd => exact .ok ha hd
  | error _ => exact .error (.single hT hstart id)
  | failure hstops hnotice => exact .failure hstops hnotice

theorem reject (hT : T.Lawful) {start start' : Cursor} (hstart : T.near s start start') :
    T.Paired P R (Parser.reject start c) (Parser.reject start' c') :=
  .error (.single hT hstart id)

theorem refuse (hT : T.Lawful) {start start' stop stop' : Cursor} {kind : CompileErrorKind}
    {message message' : String} (hstart : T.near s start start') (hstop : T.near t stop stop')
    (hmessage : T.exact → message = message') :
    T.Paired P R (Parser.refuse start stop kind message c)
      (Parser.refuse start' stop' kind message' c') := by
  refine .failure (.single hT hstart id) fun hexact => ?_
  rw [hT.same hexact hstart, hT.same hexact hstop, hmessage hexact]

/-- An optional part is read by both sides, or by neither where both rules stop. -/
theorem optional_bind {f f' : Option α → Parser β} (h : T.Paired P R (p c) (p' c'))
    (hsome : ∀ a a' d d', R a a' → P d d' → T.Paired Q S (f (some a) d) (f' (some a') d'))
    (hnone : p.Stops c → T.Paired Q S (f none c) (f' none c')) :
    T.Paired Q S ((Parser.optional p >>= f) c) ((Parser.optional p' >>= f') c') := by
  rw [bind_apply, bind_apply, Parser.optional, Parser.optional]
  cases ho : p c <;> cases ho' : p' c' <;> rw [ho, ho'] at h <;> cases h
  case ok.ok ha hd => exact hsome _ _ _ _ ha hd
  case error.error => exact hnone (.of_eq ho)
  case failure.failure hstops hnotice => exact .failure hstops hnotice

theorem optional (h : T.Paired P R (p c) (p' c')) (hc : P c c') :
    T.Paired P (Option.Rel R) (Parser.optional p c) (Parser.optional p' c') := by
  unfold Parser.optional
  revert h
  generalize p c = o, p' c' = o'
  intro h
  cases h with
  | ok ha hd => exact .ok (.some ha) hd
  | error _ => exact .ok .none hc
  | failure hstops hnotice => exact .failure hstops hnotice

theorem ahead {Q : Cursor → Cursor → Prop} (h : T.Paired P R (p c) (p' c')) (hQ : Q c c') :
    T.Paired Q R (Parser.ahead p c) (Parser.ahead p' c') := by
  unfold Parser.ahead
  revert h
  generalize p c = o, p' c' = o'
  intro h
  cases h with
  | ok ha _ => exact .ok ha hQ
  | error hstops => exact .error hstops
  | failure hstops hnotice => exact .failure hstops hnotice

theorem choice (hT : T.Lawful) (hc : T.near s c c') {ps ps' : List (Parser α)}
    (h : List.Forall₂ (fun p p' => T.Paired P R (p c) (p' c')) ps ps') :
    T.Paired P R (Parser.choice ps c) (Parser.choice ps' c') := by
  induction h with
  | nil => exact .error (.single hT hc id)
  | @cons p p' ps ps' hp hps ih =>
    cases hps with
    | nil =>
      unfold Parser.choice
      revert hp
      generalize p c = o, p' c' = o'
      intro hp
      cases hp with
      | ok ha hd => exact .ok ha hd
      | error hstops => exact .error (hstops.concat hT hc False.elim)
      | failure hstops hnotice => exact .failure hstops hnotice
    | cons _ _ =>
      rw [choice_cons, choice_cons]
      revert hp
      generalize p c = o, p' c' = o'
      intro hp
      cases hp with
      | ok ha hd => exact .ok ha hd
      | error _ => exact ih
      | failure hstops hnotice => exact .failure hstops hnotice

theorem furthestChoice (hT : T.Lawful) (hc : T.near s c c') {best best' : Option (List Stop)}
    (hbest : Option.Rel T.Stops best best') {ps ps' : List (Parser α)}
    (h : List.Forall₂ (fun p p' => T.Paired P R (p c) (p' c')) ps ps') :
    T.Paired P R (Parser.furthestChoice best ps c) (Parser.furthestChoice best' ps' c') := by
  induction h generalizing best best' with
  | nil =>
    cases hbest with
    | none => exact .error (.single hT hc id)
    | some hstops => exact .error hstops
  | @cons p p' ps ps' hp _ ih =>
    unfold Parser.furthestChoice
    revert hp
    generalize p c = o, p' c' = o'
    intro hp
    cases hp with
    | ok ha hd => exact .ok ha hd
    | failure hstops hnotice => exact .failure hstops hnotice
    | error hstops =>
      cases hbest with
      | none => exact ih (.some hstops)
      | some hfound => exact ih (.some (hstops.furthest hfound))

end Paired

/-! ## Rules -/

namespace Agrees

theorem pure {a a' : α} (ha : R a a') (hP : ∀ c c', T.near s c c' → P c c') :
    T.Agrees s R P (Pure.pure a) (Pure.pure a') := fun c c' hc => .ok ha (hP c c' hc)

theorem bind {f f' : α → Parser β} (h : T.Agrees s R (T.near t) p p')
    (hf : ∀ a a', R a a' → T.Agrees t S P (f a) (f' a')) :
    T.Agrees s S P (p >>= f) (p' >>= f') := fun c c' hc =>
  (h c c' hc).bind fun a a' d d' ha hd => hf a a' ha d d' hd

/-- A value is made of what has been read. -/
theorem map {b b' : α → β} (h : T.Agrees s R P p p') (hb : ∀ a a', R a a' → S (b a) (b' a')) :
    T.Agrees s S P (p >>= fun a => Pure.pure (b a)) (p' >>= fun a => Pure.pure (b' a)) :=
  fun c c' hc => (h c c' hc).bind fun a a' _ _ ha hd => .ok (hb a a' ha) hd

theorem committed (h : T.Agrees s R P p p') :
    T.Agrees s R P (Parser.committed p) (Parser.committed p') := fun c c' hc => (h c c' hc).committed

variable (hT : T.Lawful)
include hT

theorem of_word (h : T.Agrees .word R P p p') : T.Agrees .operand R P p p' := fun c c' hc =>
  h c c' (hT.word hc)

theorem labelled {label : String} (hlabel : label ∈ explainedPhrases → s = .operand)
    (h : T.Agrees s R P p p') :
    T.Agrees s R P (Parser.labelled label p) (Parser.labelled label p') := fun c c' hc =>
  (h c c' hc).labelled hT hc hlabel

theorem orReject {start start' : Cursor} (hstart : T.near t start start')
    (h : T.Agrees s R P p p') :
    T.Agrees s R P (Parser.orReject start p) (Parser.orReject start' p') := fun c c' hc =>
  (h c c' hc).orReject hT hstart

theorem reject {start start' : Cursor} (hstart : T.near t start start') :
    T.Agrees s R P (Parser.reject start) (Parser.reject start') := fun _ _ _ => .reject hT hstart

theorem refuse {start start' stop stop' : Cursor} {t' : Stage} {kind : CompileErrorKind}
    {message message' : String} (hstart : T.near t start start') (hstop : T.near t' stop stop')
    (hmessage : T.exact → message = message') :
    T.Agrees s R P (Parser.refuse start stop kind message)
      (Parser.refuse start' stop' kind message') := fun _ _ _ => .refuse hT hstart hstop hmessage

theorem choice {ps ps' : List (Parser α)} (h : List.Forall₂ (T.Agrees s R P) ps ps') :
    T.Agrees s R P (Parser.choice ps) (Parser.choice ps') := fun c c' hc =>
  .choice hT hc (h.imp fun _ _ hp => hp c c' hc)

omit hT in
/-- What follows an optional part, where it is there and where it is not. -/
theorem optional_bind {f f' : Option α → Parser β} (h : T.Agrees s R (T.near t) p p')
    (hsome : ∀ a a', R a a' → T.Agrees t S P (f (some a)) (f' (some a')))
    (hnone : T.Agrees s S P (f none) (f' none)) :
    T.Agrees s S P (Parser.optional p >>= f) (Parser.optional p' >>= f') := fun c c' hc =>
  (h c c' hc).optional_bind (fun a a' d d' ha hd => hsome a a' ha d d' hd) fun _ => hnone c c' hc

omit hT in
/-- The place that is reached is one that corresponds. -/
theorem here {f f' : Cursor → Parser β}
    (hf : ∀ e e', T.near s e e' → T.Agrees s S P (f e) (f' e')) :
    T.Agrees s S P (Parser.position >>= f) (Parser.position >>= f') := fun c c' hc =>
  hf c c' hc c c' hc

/-- Both sides skip what stands between phrases. -/
theorem opened {f f' : Cursor → Parser β}
    (hf : ∀ e e', T.near s e e' → T.Agrees s S P (f e) (f' e')) :
    T.Agrees s S P (trivia >>= fun _ => Parser.position >>= f)
      (trivia >>= fun _ => Parser.position >>= f') := fun c c' hc =>
  hf c.start c'.start (hT.start hc) c.start c'.start (hT.start hc)

omit hT in
/-- Both sides read the same extensions. -/
theorem extend {more more' : α → Parser α}
    (hmore : ∀ a a', R a a' → T.Agrees s R (T.near s) (more a) (more' a'))
    (hreads : ∀ a n, Parser.Agree n 1 (more a) (more a))
    (hreads' : ∀ a n, Parser.Agree n 1 (more' a) (more' a))
    (hend : ∀ a c, c.rest = [] → (more a).Stops c)
    (hend' : ∀ a c, c.rest = [] → (more' a).Stops c) {a a' : α} (ha : R a a') :
    T.Agrees s R (T.near s) (fun c => Parser.extend more c.rest.length a c)
      (fun c => Parser.extend more' c.rest.length a' c) := by
  have hloop : ∀ n a a', R a a' →
      T.Agrees s R (T.near s) (Parser.extend more n a) (Parser.extend more' n a') := by
    intro n
    induction n with
    | zero => exact fun a a' ha => .pure ha fun _ _ => id
    | succ n ih => exact fun a a' ha =>
        .optional_bind (hmore a a' ha) (fun b b' hb => ih b b' hb) (.pure ha fun _ _ => id)
  intro c c' hc
  have hbound := extend_bound hreads hend a (Nat.le_refl _)
    (Nat.le_max_left c.rest.length c'.rest.length)
  have hbound' := extend_bound hreads' hend' a' (Nat.le_refl _)
    (Nat.le_max_right c.rest.length c'.rest.length)
  dsimp only
  rw [hbound, hbound']
  exact hloop _ a a' ha c c' hc

omit hT in
/-- Both sides read the same operators and operands. -/
theorem chain {first first' : Parser α} {operator : Parser β} {operand operand' : β → α → Parser α}
    (hfirst : T.Agrees s R (T.near t) first first')
    (hoperator : T.Agrees t Eq (T.near .operand) operator operator)
    (hoperand : ∀ op a a', R a a' → T.Agrees .operand R (T.near t) (operand op a) (operand' op a'))
    (hreads : ∀ n, Parser.Agree n 1 operator operator)
    (hend : ∀ c, c.rest = [] → operator.Stops c)
    (hmoves : ∀ op a n, Parser.Agree n 0 (operand op a) (operand op a))
    (hmoves' : ∀ op a n, Parser.Agree n 0 (operand' op a) (operand' op a)) :
    T.Agrees s R (T.near t) (Parser.chain first operator operand)
      (Parser.chain first' operator operand') := by
  have hloop : ∀ n a a', R a a' → T.Agrees t R (T.near t)
      (Parser.chainLoop operator operand n a) (Parser.chainLoop operator operand' n a') := by
    intro n
    induction n with
    | zero => exact fun a a' ha => .pure ha fun _ _ => id
    | succ n ih =>
      refine fun a a' ha => .optional_bind hoperator (fun op op' hop => ?_)
        (.pure ha fun _ _ => id)
      subst hop
      exact (hoperand op a a' ha).bind fun b b' hb => ih b b' hb
  refine hfirst.bind fun a a' ha c c' hc => ?_
  have hbound := chainLoop_bound hreads hend hmoves a (Nat.le_refl _)
    (Nat.le_max_left c.rest.length c'.rest.length)
  have hbound' := chainLoop_bound hreads hend hmoves' a' (Nat.le_refl _)
    (Nat.le_max_right c.rest.length c'.rest.length)
  rw [hbound, hbound']
  exact hloop _ a a' ha c c' hc

end Agrees

end Outcomes

/-! ## Words and marks -/

namespace Lawful

variable {α : Type} {P : Cursor → Cursor → Prop} {R : α → α → Prop} {s : Stage} (hT : T.Lawful)
include hT

/-- A mark after which a phrase may begin. -/
theorem operandMark {ch : Char} (hch : ch ∈ Grammar.marks) (hafter : Stage.after ch = .operand) :
    T.Agrees s Eq (T.near .operand) (Grammar.mark ch) (Grammar.mark ch) := fun _ _ hc =>
  hafter ▸ hT.marks hch (hT.below hc)

/-- A mark after which only marks follow. -/
theorem closingMark {ch : Char} (hch : ch ∈ Grammar.marks) (hafter : Stage.after ch = .mark) :
    T.Agrees s Eq (T.near .mark) (Grammar.mark ch) (Grammar.mark ch) := fun _ _ hc =>
  hafter ▸ hT.marks hch (hT.below hc)

theorem comma : T.Agrees .mark Eq (T.near .operand) Grammar.comma Grammar.comma :=
  .labelled hT (by decide) (hT.operandMark (by decide) (by decide))

theorem closing {bracket : Char} (h : bracket = ')' ∨ bracket = ']') :
    T.Agrees .mark Eq (T.near .mark) (Grammar.closing bracket) (Grammar.closing bracket) := by
  rcases h with rfl | rfl
  · exact .labelled hT (by decide) (hT.closingMark (by decide) (by decide))
  · exact .labelled hT (by decide) (hT.closingMark (by decide) (by decide))

theorem operator {a b : Char} (ha : a ∈ Grammar.marks ∧ Stage.after a = .operand)
    (hb : b ∈ Grammar.marks ∧ Stage.after b = .operand) :
    T.Agrees .mark Eq (T.near .operand) (Grammar.operator a b) (Grammar.operator a b) :=
  .choice hT (.cons (hT.operandMark ha.1 ha.2) (.cons (hT.operandMark hb.1 hb.2) .nil))

/-- A word, after blanks and comments, and what follows it. -/
theorem word_bind {f f' : Cursor → String → Parser α}
    (hf : ∀ e e' name, T.near .word e e' → T.Knows name → T.Agrees .mark R P (f e name) (f' e' name)) :
    T.Agrees .word R P
      (trivia >>= fun _ => Parser.position >>= fun start => Grammar.identifier >>= f start)
      (trivia >>= fun _ => Parser.position >>= fun start => Grammar.identifier >>= f' start) := by
  intro c c' hc
  have hstart := hT.start hc
  refine (hT.identifier hstart c.start_start c'.start_start).bind ?_
  rintro name _ d d' ⟨rfl, hknows⟩ hd
  exact hf _ _ name hstart hknows d d' hd

/-- A token between blanks and comments. -/
theorem padded {p p' : Parser α} {s t : Stage}
    (h : ∀ c c', T.near s c c' → c.start = c → c'.start = c' → T.Paired (T.near t) R (p c) (p' c')) :
    T.Agrees s R (T.near t) (Grammar.padded p) (Grammar.padded p') := fun c c' hc =>
  (h c.start c'.start (hT.start hc) c.start_start c'.start_start).bind fun _ _ _ _ ha hd =>
    .ok ha (hT.start hd)

theorem name : T.Agrees .word Eq (T.near .mark) (Grammar.padded Grammar.identifier)
    (Grammar.padded Grammar.identifier) :=
  hT.padded fun _ _ hc hs hs' => (hT.identifier hc hs hs').imp (fun _ _ h => h.1) fun _ _ => id

theorem string : T.Agrees .word Eq (T.near .mark) (Grammar.padded Grammar.stringLiteral)
    (Grammar.padded Grammar.stringLiteral) :=
  hT.padded fun _ _ hc hs hs' => hT.stringLiteral hc hs hs'

/-- A number, where no minus sign stands. -/
theorem number {c c' : Cursor} (hc : T.near .operand c c') (hsign : c.head? ≠ some '-') :
    T.Paired (T.near .mark) Eq (Grammar.number c) (Grammar.number c') := by
  have hnumeral := hT.numeral (hT.start hc) c.start_start c'.start_start (by
    rwa [Cursor.head?_start])
  have hread : T.Paired (T.near .mark) Eq
      ((do return (← Grammar.numeral).toFloat : Parser Float) c.start)
      ((do return (← Grammar.numeral).toFloat : Parser Float) c'.start) :=
    hnumeral.bind fun _ _ _ _ h hd => .ok (congrArg Decimal.toFloat h) hd
  exact hread.bind fun _ _ _ _ h hd => .ok h (hT.start hd)

/-- Blanks and comments at the end of a phrase. -/
theorem trailing {a a' : α} (ha : R a a') :
    T.Agrees s R (T.near s) (trivia >>= fun _ => Pure.pure a) (trivia >>= fun _ => Pure.pure a') :=
  fun _ _ hc => .ok ha (hT.start hc)

/-- A bound name. -/
theorem symbol (kind : SymbolKind) :
    T.Agrees .word Eq (T.near .mark) (T.first.symbol kind) (T.second.symbol kind) := by
  refine hT.word_bind fun e e' name he _ => ?_
  rw [hT.alike.kindOf? name]
  by_cases hkind : T.second.model.kindOf? name = some kind
  · simp only [hkind, if_true]
    exact hT.trailing rfl
  · simp only [hkind, if_false]
    exact .reject hT he

/-- The name of a feature. -/
theorem featureName : T.Agrees .word T.Feature (T.near .mark) (Grammar.featureName T.first)
    (Grammar.featureName T.second) := by
  refine hT.word_bind fun e e' name he hknows => ?_
  have hcontains : T.first.registry.contains name = T.second.registry.contains name := by
    rw [Registry.contains, hknows, Registry.contains]
  rw [hcontains, hT.alike.kindOf? name]
  split
  · exact .reject hT he
  · split
    · exact hT.trailing rfl
    · exact hT.trailing rfl
    · exact .reject hT he

/-- One of a set of words. -/
theorem optionWord (choices : List String) :
    T.Agrees .operand Eq (T.near .mark) (Grammar.optionWord choices) (Grammar.optionWord choices) := by
  intro c c' hc
  have hstart := hT.start (hT.word hc)
  have hmissing : ∀ s, T.Agrees s Eq (T.near .mark)
      (fun _ => .error [⟨c.start, .word⟩, ⟨c.start, .phrase "option word"⟩] : Parser String)
      (fun _ => .error [⟨c'.start, .word⟩, ⟨c'.start, .phrase "option word"⟩] : Parser String) :=
    fun _ _ _ _ => .error ((Stops.single hT hstart id).concat hT hstart fun h =>
      absurd h (by decide : "option word" ∉ explainedPhrases))
  have hfound : ∀ word, T.Agrees .mark Eq (T.near .mark)
      (if choices.contains word then (trivia >>= fun _ => Pure.pure word) else
        fun _ => .error [⟨c.start, .word⟩, ⟨c.start, .phrase "option word"⟩] : Parser String)
      (if choices.contains word then (trivia >>= fun _ => Pure.pure word) else
        fun _ => .error [⟨c'.start, .word⟩, ⟨c'.start, .phrase "option word"⟩] : Parser String) := by
    intro word
    cases choices.contains word with
    | true => exact hT.trailing rfl
    | false => exact hmissing .mark
  refine (hT.identifier hstart c.start_start c'.start_start).optional_bind ?_ ?_
  · rintro word _ d d' ⟨rfl, -⟩ hd
    exact hfound word d d' hd
  · exact fun _ => hmissing .word _ _ hstart

end Lawful

end Tandem

end PartScript
