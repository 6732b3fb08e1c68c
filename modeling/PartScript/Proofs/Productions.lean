/-
  The language as a set of token sequences. The productions of the sub-grammars are those of their
  documentation (`Derivation` lists them), with the two forms of a placement, and the sentences are
  what they produce, without any order in which alternatives are tried and without trees. What a
  number looks like is a parameter.

  A text is related to its tokens apart from the productions: it spells them, with blanks and
  comments between them, each token whole.
-/
import PartScript.Proofs.Derivation
import PartScript.Proofs.Locality

namespace PartScript.Grammar

/-! ## Tokens -/

/-- The tokens of phrases. -/
inductive Terminal where
  | word (name : String)
  | number (cs : List Char)
  | string (inner : List Char)
  | mark (ch : Char)

namespace Terminal

/-- The characters of a token. -/
def text : Terminal → List Char
  | .word name => name.toList
  | .number cs => cs
  | .string inner => '"' :: (inner ++ ['"'])
  | .mark ch => [ch]

/-- What stands in front of the rest of a text is a whole token: a word that does not go on, a
number whose digits do not, a string with its quotes, or a mark. -/
def Whole : Terminal → List Char → Prop
  | .word name, after => name.toList.head?.any isWordStart = true ∧
      (∀ x ∈ name.toList, isWordPart x = true) ∧ ∀ x ∈ after.head?, isWordPart x = false
  | .number _, after => ∀ x ∈ after.head?, x.isDigit = false
  | .string inner, _ => ∀ x ∈ inner, isStringPart x = true
  | .mark _, _ => True

/-- A token that is no number other than one of a class. -/
def Fits (numeral : List Char → Prop) (t : Terminal) : Prop := ∀ cs, t = .number cs → numeral cs

end Terminal

/-- The text from one place to another spells tokens, with blanks and comments around them. -/
inductive Spells : Cursor → List Terminal → Cursor → Prop where
  | nil {c} : Spells c [] c.start
  | cons {c t ts rest d} : c.start.rest = t.text ++ rest → t.Whole rest →
    Spells (c.start.skip t.text.length) ts d → Spells c (t :: ts) d

namespace Spells

variable {c d e : Cursor} {t : Terminal} {ts us : List Terminal} {rest : List Char}

theorem of_start (h : Spells c.start ts d) : Spells c ts d := by
  generalize hc : c.start = c' at h
  cases h with
  | nil =>
    rw [← hc, Cursor.start_start]
    exact .nil
  | cons htext hwhole hrest =>
    rw [← hc, Cursor.start_start] at htext hrest
    exact .cons htext hwhole hrest

theorem start (h : Spells c ts d) : Spells c.start ts d := by
  have hc := Cursor.start_start c
  cases h with
  | nil =>
    have hnil : Spells c.start [] c.start.start := .nil
    rwa [hc] at hnil
  | cons htext hwhole hrest =>
    rw [← hc] at htext hrest
    exact .cons htext hwhole hrest

theorem append (h : Spells c ts d) (h' : Spells d us e) : Spells c (ts ++ us) e := by
  induction h with
  | nil => exact h'.of_start
  | cons htext hwhole _ ih => exact .cons htext hwhole (ih h')

/-- After its tokens a text has nothing left to skip. -/
theorem settled (h : Spells c ts d) : d.start = d := by
  induction h with
  | nil => exact Cursor.start_start _
  | cons _ _ _ ih => exact ih

theorem single (htext : c.start.rest = t.text ++ rest) (hwhole : t.Whole rest)
    (hd : d = (c.start.skip t.text.length).start) : Spells c [t] d :=
  hd ▸ .cons htext hwhole .nil

end Spells

/-! ## Numbers -/

/-- Decimal digits, one at least. -/
def IsDigits (cs : List Char) : Prop := cs ≠ [] ∧ ∀ x ∈ cs, x.isDigit = true

/-- An exponent, or nothing. -/
inductive IsExponent : List Char → Prop where
  | none : IsExponent []
  | some {mark sign ds} : mark ∈ ['e', 'E'] → sign ∈ [[], ['+'], ['-']] → IsDigits ds →
    IsExponent (mark :: (sign ++ ds))

/-- Digits with an optional fraction. -/
inductive IsMantissa : List Char → Prop where
  | whole {ds} : IsDigits ds → IsMantissa ds
  | fraction {ds fs} : IsDigits ds → (∀ x ∈ fs, x.isDigit = true) → IsMantissa (ds ++ '.' :: fs)

/-- An unsigned decimal number: digits with an optional fraction and an optional exponent. -/
inductive Unsigned : List Char → Prop where
  | intro {ms es} : IsMantissa ms → IsExponent es → Unsigned (ms ++ es)

/-- The numbers that are read. A plus sign may stand in front, and the digits before the point may be
missing where there are some behind it. -/
inductive Accepted : List Char → Prop where
  | whole {sign ms es} : sign ∈ [[], ['+']] → IsMantissa ms → IsExponent es →
    Accepted (sign ++ (ms ++ es))
  | point {sign fs es} : sign ∈ [[], ['+']] → IsDigits fs → IsExponent es →
    Accepted (sign ++ '.' :: (fs ++ es))

/-! ## Productions -/

/-- A token or a phrase. -/
inductive Constituent where
  | token (t : Terminal)
  | phrase (sort : Nonterminal)

abbrev Constituent.mark (ch : Char) : Constituent := .token (.mark ch)

abbrev Constituent.word (name : String) : Constituent := .token (.word name)

abbrev Constituent.rule (rule : Rule) : Constituent := .phrase (.rule rule)

/-- What stands before an argument: nothing before the first one of a list, or a comma. -/
def separator (first : Bool) : List Constituent := if first then [] else [.mark ',']

/-- The productions of phrases. Names of values have to be bound to values of the kind. The name of
a feature may be bound later, so it has to be one that can be bound. An argument that is left out ends
its list. -/
inductive Produces (g : Grammar) (numeral : List Char → Prop) :
    Nonterminal → List Constituent → Prop where
  -- Scalars
  | scalarTerm : Produces g numeral (.rule .scalar) [.phrase .scalarTerm]
  | scalarSum {ch} : ch ∈ ['+', '-'] →
    Produces g numeral (.rule .scalar) [.rule .scalar, .mark ch, .phrase .scalarTerm]
  | scalarUnary : Produces g numeral .scalarTerm [.rule .scalarUnary]
  | scalarProduct {ch} : ch ∈ ['*', '/'] →
    Produces g numeral .scalarTerm [.phrase .scalarTerm, .mark ch, .rule .scalarUnary]
  | scalarNeg : Produces g numeral (.rule .scalarUnary) [.mark '-', .rule .scalarUnary]
  | scalarPrimary : Produces g numeral (.rule .scalarUnary) [.phrase .scalarPrimary]
  | power :
    Produces g numeral (.rule .scalarUnary) [.phrase .scalarPrimary, .mark '^', .rule .scalarUnary]
  | number {cs} : numeral cs → Produces g numeral .scalarPrimary [.token (.number cs)]
  | call {name fn} : (name, fn) ∈ ScalarFn.named →
    Produces g numeral .scalarPrimary [.word name, .mark '(', .rule .scalar, .mark ')']
  | dot : Produces g numeral .scalarPrimary
    [.word "dot", .mark '(', .rule .vector, .mark ',', .rule .vector, .mark ')']
  | magnitude :
    Produces g numeral .scalarPrimary [.word "mag", .mark '(', .rule .vector, .mark ')']
  | component {name which} : (name, which) ∈ Component.named →
    Produces g numeral .scalarPrimary [.phrase .vectorPrimary, .mark '.', .word name]
  | scalarEnclosed : Produces g numeral .scalarPrimary [.mark '(', .rule .scalar, .mark ')']
  | value {name} : Produces g numeral .scalarPrimary [.rule .feature, .mark '$', .word name]
  | scalarName {name} : g.model.kindOf? name = some .scalar →
    Produces g numeral .scalarPrimary [.word name]
  -- Vectors
  | vectorTerm : Produces g numeral (.rule .vector) [.phrase .vectorTerm]
  | vectorSum {ch} : ch ∈ ['+', '-'] →
    Produces g numeral (.rule .vector) [.rule .vector, .mark ch, .phrase .vectorTerm]
  | vectorFactor : Produces g numeral .vectorTerm [.rule .vectorFactor]
  | vectorProduct {ch} : ch ∈ ['*', '/'] →
    Produces g numeral .vectorTerm [.phrase .vectorTerm, .mark ch, .rule .scalarUnary]
  | scaled :
    Produces g numeral (.rule .vectorFactor) [.rule .scalarUnary, .mark '*', .rule .vectorFactor]
  | vectorUnary : Produces g numeral (.rule .vectorFactor) [.rule .vectorUnary]
  | vectorNeg : Produces g numeral (.rule .vectorUnary) [.mark '-', .rule .vectorUnary]
  | vectorPrimary : Produces g numeral (.rule .vectorUnary) [.phrase .vectorPrimary]
  | bracketed : Produces g numeral .vectorPrimary
    [.mark '[', .rule .scalar, .mark ',', .rule .scalar, .mark ',', .rule .scalar, .mark ']']
  | components : Produces g numeral .vectorPrimary
    [.word "Vector", .mark '(', .rule .scalar, .mark ',', .rule .scalar, .mark ',', .rule .scalar,
      .mark ')']
  | cross : Produces g numeral .vectorPrimary
    [.word "cross", .mark '(', .rule .vector, .mark ',', .rule .vector, .mark ')']
  | normalize :
    Produces g numeral .vectorPrimary [.word "normalize", .mark '(', .rule .vector, .mark ')']
  | part {name which} : (name, which) ∈ DatumPart.named →
    Produces g numeral .vectorPrimary [.rule .datum, .mark '.', .word name]
  | point {name} : Produces g numeral .vectorPrimary [.rule .feature, .mark '@', .word name]
  | vectorEnclosed : Produces g numeral .vectorPrimary [.mark '(', .rule .vector, .mark ')']
  | vectorName {name} : g.model.kindOf? name = some .vector →
    Produces g numeral .vectorPrimary [.word name]
  -- Datums
  | datumPoint :
    Produces g numeral (.rule .datum) [.word "Point", .mark '(', .rule .vector, .mark ')']
  | axis : Produces g numeral (.rule .datum)
    [.word "Axis", .mark '(', .rule .vector, .mark ',', .rule .vector, .mark ')']
  | plane : Produces g numeral (.rule .datum)
    [.word "Plane", .mark '(', .rule .vector, .mark ',', .rule .vector, .mark ')']
  | datumEnclosed : Produces g numeral (.rule .datum) [.mark '(', .rule .datum, .mark ')']
  | datumName {name} : g.model.kindOf? name = some .datum →
    Produces g numeral (.rule .datum) [.word name]
  -- Selections
  | selectionPrimary : Produces g numeral (.rule .selection) [.phrase .selectionPrimary]
  | selectionSum {ch} : ch ∈ ['|', '-'] →
    Produces g numeral (.rule .selection) [.rule .selection, .mark ch, .phrase .selectionPrimary]
  | query {name kind} : (name, kind) ∈ EntityKind.named →
    Produces g numeral .selectionPrimary [.word name, .mark '(', .rule .feature, .mark ')']
  | filtered {name kind inner} : (name, kind) ∈ EntityKind.named →
    Produces g numeral .selectionPrimary
      [.word name, .mark '(', .rule .feature, .mark ',', .token (.string inner), .mark ')']
  | selectionEnclosed :
    Produces g numeral .selectionPrimary [.mark '(', .rule .selection, .mark ')']
  | selectionName {name} : g.model.kindOf? name = some .selection →
    Produces g numeral .selectionPrimary [.word name]
  -- Features
  | featurePrimary : Produces g numeral (.rule .feature) [.phrase .featurePrimary]
  | subResult {name} : Produces g numeral (.rule .feature) [.rule .feature, .mark '!', .word name]
  | constructor {name type} : g.registry.find? name = some type → type.written = .declared →
    Produces g numeral .featurePrimary
      [.word name, .mark '(', .phrase (.arguments type.signature true), .mark ')']
  | placedOnPlane {name type} : g.registry.find? name = some type → type.written = .placement →
    Produces g numeral .featurePrimary
      [.word name, .mark '(', .rule .feature, .mark ',', .rule .datum, .mark ')']
  | placedInFrame {name type} : g.registry.find? name = some type → type.written = .placement →
    Produces g numeral .featurePrimary
      [.word name, .mark '(', .rule .feature, .mark ',', .rule .vector, .mark ',', .rule .vector,
        .mark ',', .rule .vector, .mark ')']
  | featureEnclosed : Produces g numeral .featurePrimary [.mark '(', .rule .feature, .mark ')']
  | featureName {name} : isReserved name = false → g.registry.contains name = false →
    g.model.kindOf? name = none ∨ g.model.kindOf? name = some .feature →
    Produces g numeral .featurePrimary [.word name]
  -- Arguments
  | scalarArgument : Produces g numeral (.argument .scalar) [.rule .scalar]
  | vectorArgument : Produces g numeral (.argument .vector) [.rule .vector]
  | datumArgument : Produces g numeral (.argument .datum) [.rule .datum]
  | featureArgument : Produces g numeral (.argument .feature) [.rule .feature]
  | selectionArgument : Produces g numeral (.argument .selection) [.rule .selection]
  | optionWord {word choices} : word ∈ choices →
    Produces g numeral (.argument (.keyword choices)) [.word word]
  | noParameter {first} : Produces g numeral (.arguments [] first) []
  | required {name kind params first} :
    Produces g numeral (.arguments (⟨name, kind, .required⟩ :: params) first)
      (separator first ++ [.phrase (.argument kind), .phrase (.arguments params false)])
  | given {name kind fallback params first} :
    Produces g numeral (.arguments (⟨name, kind, .optional fallback⟩ :: params) first)
      (separator first ++ [.phrase (.argument kind), .phrase (.arguments params false)])
  | omitted {name kind fallback params first} :
    Produces g numeral (.arguments (⟨name, kind, .optional fallback⟩ :: params) first) []
  | several {name kind least params first} :
    Produces g numeral (.arguments (⟨name, kind, .variadic least⟩ :: params) first)
      (separator first ++ [.phrase (.argument kind),
        .phrase (.arguments (⟨name, kind, .variadic (least - 1)⟩ :: params) false)])
  | enough {name kind params first} :
    Produces g numeral (.arguments (⟨name, kind, .variadic 0⟩ :: params) first) []

/-- The token sequences that tokens and phrases stand for. -/
inductive Derivable (g : Grammar) (numeral : List Char → Prop) :
    List Constituent → List Terminal → Prop where
  | nil : Derivable g numeral [] []
  | token {t parts ts} : Derivable g numeral parts ts →
    Derivable g numeral (.token t :: parts) (t :: ts)
  | phrase {sort parts body us ts} : Produces g numeral sort body → Derivable g numeral body us →
    Derivable g numeral parts ts → Derivable g numeral (.phrase sort :: parts) (us ++ ts)

section Sentences

variable {g : Grammar} {numeral numeral' : List Char → Prop} {sort : Nonterminal}
  {parts parts' body : List Constituent} {ts us : List Terminal} {t : Terminal}

namespace Derivable

theorem append (h : Derivable g numeral parts ts) (h' : Derivable g numeral parts' us) :
    Derivable g numeral (parts ++ parts') (ts ++ us) := by
  induction h with
  | nil => exact h'
  | token _ ih => exact .token ih
  | phrase hproduces hbody _ _ ih =>
    rw [List.append_assoc]
    exact .phrase hproduces hbody ih

theorem produce (hproduces : Produces g numeral sort body) (h : Derivable g numeral body ts) :
    Derivable g numeral [.phrase sort] ts := List.append_nil ts ▸ .phrase hproduces h .nil

end Derivable

/-! ### The numbers of a sentence -/

theorem Produces.fits (h : Produces g numeral sort body) :
    ∀ t, .token t ∈ body → t.Fits numeral := by
  have hseparator : ∀ first t, .token t ∈ separator first → t.Fits numeral := by
    intro first t ht cs hcs
    cases first <;> simp_all [separator]
  cases h with
  | number hnumeral =>
    intro t ht cs hcs
    obtain rfl : t = _ := by simpa using ht
    exact Terminal.number.inj hcs ▸ hnumeral
  | required | given | several =>
    intro t ht
    exact hseparator _ t (by simpa using ht)
  | _ =>
    intro t ht cs hcs
    simp_all

/-- A number is one of its class wherever it stands in a sentence. -/
theorem Derivable.fits (h : Derivable g numeral parts ts)
    (hparts : ∀ t, .token t ∈ parts → t.Fits numeral) : ∀ t ∈ ts, t.Fits numeral := by
  induction h with
  | nil => nofun
  | token _ ih =>
    exact List.forall_mem_cons.mpr ⟨hparts _ List.mem_cons_self,
      ih fun t ht => hparts t (List.mem_cons_of_mem _ ht)⟩
  | phrase hproduces _ _ ihbody ih =>
    exact List.forall_mem_append.mpr ⟨ihbody hproduces.fits,
      ih fun t ht => hparts t (List.mem_cons_of_mem _ ht)⟩

theorem Derivable.mem_of_token (h : Derivable g numeral parts ts) (ht : .token t ∈ parts) :
    t ∈ ts := by
  induction h with
  | nil => cases ht
  | token _ ih =>
    rcases List.mem_cons.mp ht with heq | ht
    · exact Constituent.token.inj heq ▸ List.mem_cons_self
    · exact List.mem_cons_of_mem _ (ih ht)
  | phrase _ _ _ _ ih =>
    rcases List.mem_cons.mp ht with heq | ht
    · cases heq
    · exact List.mem_append_right _ (ih ht)

theorem Produces.change (h : Produces g numeral sort body)
    (hbody : ∀ t, .token t ∈ body → t.Fits numeral') : Produces g numeral' sort body := by
  cases h with
  | number => exact .number (hbody _ List.mem_cons_self _ rfl)
  | _ => constructor <;> assumption

/-- A sentence is one for every class that has its numbers. -/
theorem Derivable.change (h : Derivable g numeral parts ts) (hts : ∀ t ∈ ts, t.Fits numeral') :
    Derivable g numeral' parts ts := by
  induction h with
  | nil => exact .nil
  | token _ ih => exact .token (ih (List.forall_mem_cons.mp hts).2)
  | phrase hproduces hbody _ ihbody ih =>
    obtain ⟨hus, hts⟩ := List.forall_mem_append.mp hts
    exact .phrase (hproduces.change fun t ht => hus t (hbody.mem_of_token ht)) (ihbody hus) (ih hts)

/-! ### How a sentence begins -/

/-- A list of arguments may be empty. -/
def Nonterminal.isList : Nonterminal → Bool
  | .operands _ _ | .arguments _ _ => true
  | _ => false

/-- The first part is a token with a property, or a phrase that is no list. -/
def StartsWith (P : Terminal → Prop) : List Constituent → Prop
  | [] => False
  | .token t :: _ => P t
  | .phrase sort :: _ => sort.isList = false

/-- A sentence begins with a token with which a production of a phrase begins. -/
theorem Derivable.head {P : Terminal → Prop}
    (hP : ∀ sort body, Produces g numeral sort body → sort.isList = false → StartsWith P body)
    (h : Derivable g numeral parts ts) (hparts : StartsWith P parts) : ∃ t us, ts = t :: us ∧ P t := by
  induction h with
  | nil => cases hparts
  | token => exact ⟨_, _, rfl, hparts⟩
  | phrase hproduces _ _ ihbody _ =>
    obtain ⟨t, us, rfl, ht⟩ := ihbody (hP _ _ hproduces hparts)
    exact ⟨t, us ++ _, rfl, ht⟩

/-- No phrase begins with a plus sign that is not part of a number. -/
theorem Produces.not_plus (h : Produces g numeral sort body) (hsort : sort.isList = false) :
    StartsWith (fun t => t.Fits numeral ∧ t ≠ .mark '+') body := by
  have hfits := h.fits
  cases h with
  | number => exact ⟨hfits _ List.mem_cons_self, nofun⟩
  | noParameter | required | given | omitted | several | enough => cases hsort
  | _ => first | rfl | exact ⟨hfits _ List.mem_cons_self, nofun⟩

end Sentences

/-- An unsigned number begins with a digit. -/
theorem Unsigned.head {cs : List Char} (h : Unsigned cs) : ∃ x ∈ cs.head?, x.isDigit = true := by
  have hdigits : ∀ {ds tail : List Char}, IsDigits ds → ∃ x ∈ (ds ++ tail).head?, x.isDigit = true := by
    intro ds tail ⟨hne, hall⟩
    obtain ⟨x, xs, rfl⟩ := List.exists_cons_of_ne_nil hne
    exact ⟨x, rfl, hall x List.mem_cons_self⟩
  obtain ⟨hms, -⟩ := h
  cases hms with
  | whole hds => exact hdigits hds
  | fraction hds =>
    rw [List.append_assoc]
    exact hdigits hds

/-- A text that begins with a plus sign spells no phrase, where numbers are unsigned ones. -/
theorem Derivable.not_plus {g : Grammar} {rule : Rule} {c d : Cursor} {ts : List Terminal}
    (h : Derivable g Unsigned [.rule rule] ts) (hspells : Spells c ts d) :
    c.start.rest.head? ≠ some '+' := by
  intro hplus
  obtain ⟨t, us, rfl, hfits, hmark⟩ := h.head (fun _ _ => Produces.not_plus) rfl
  cases hspells with
  | @cons _ _ _ rest _ htext hwhole _ =>
    rw [htext] at hplus
    cases t with
    | word name =>
      obtain ⟨x, hx, hstart⟩ := Option.any_eq_true .. |>.mp hwhole.1
      rw [Terminal.text, List.head?_append, hx, Option.some_or] at hplus
      obtain rfl := Option.some.inj hplus
      exact absurd hstart (by decide)
    | number cs =>
      obtain ⟨x, hx, hdigit⟩ := (hfits cs rfl).head
      rw [Terminal.text, List.head?_append, hx, Option.some_or] at hplus
      obtain rfl := Option.some.inj hplus
      exact absurd hdigit (by decide)
    | string inner => cases hplus
    | mark ch => exact hmark (congrArg _ (Option.some.inj hplus))

end PartScript.Grammar
