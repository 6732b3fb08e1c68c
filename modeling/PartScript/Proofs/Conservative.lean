/-
  Registries that agree on the words of a text. Reading a text asks the registry for nothing but
  words that occur in the text, where they occur as a whole: on success and on every failure, in the
  rules as in the diagnostics. So further types, or the same types in another order, change nothing
  for a text that does not mention them.

  Both readings stand at the same place all along. What is kept is that a word may begin there
  wherever a rule, or a diagnostic, reads one.
-/
import PartScript.Proofs.Lexemes
import PartScript.Proofs.Phrases

namespace PartScript

open Grammar Grammar.Parser

/-! ## Places in a text -/

namespace Cursor

variable {source : String} {c d : Cursor} {k : Nat}

/-- A place in a text. -/
def Within (source : String) (c : Cursor) : Prop := ∃ before, source.toList = before ++ c.rest

/-- A place in a text where a word may begin. -/
def Opens (source : String) (c : Cursor) : Prop :=
  ∃ before, source.toList = before ++ c.rest ∧ Apart before c.rest

theorem Opens.within (h : c.Opens source) : c.Within source := ⟨h.choose, h.choose_spec.1⟩

theorem Opens.ofText (source : String) : (Cursor.ofText source).Opens source := ⟨[], rfl, nofun⟩

theorem Within.onward (h : c.Within source) (hd : c.Onward k d) : d.Within source := by
  obtain ⟨before, hsource⟩ := h
  obtain ⟨⟨n, rfl⟩, -⟩ := hd
  refine ⟨before ++ c.rest.take n, ?_⟩
  rw [skip_rest, List.append_assoc, List.take_append_drop, hsource]

theorem Within.opens (h : c.Within source) (hhead : c.rest.head?.any isWordPart = false) :
    c.Opens source := ⟨h.choose, h.choose_spec, fun _ => hhead⟩

theorem Opens.start (h : c.Opens source) : c.start.Opens source := by
  obtain ⟨before, hsource, hapart⟩ := h
  refine ⟨before ++ c.rest.take (triviaLength false c.rest), ?_, ?_⟩
  · rw [Cursor.start, skip_rest, List.append_assoc, List.take_append_drop, hsource]
  · rw [Cursor.start, skip_rest]
    exact Apart.trivia fun _ => hapart

/-- After a character that is not part of a word, a word may begin. -/
theorem Within.after {ch : Char} (h : c.Within source) (hhead : c.head? = some ch)
    (hch : isWordPart ch = false) : c.after.Opens source := by
  obtain ⟨before, hsource⟩ := h.onward (.skip (triviaLength false c.rest) c)
  refine Opens.start ⟨before ++ [ch], ?_, .concat hch before _⟩
  obtain ⟨cs, hcs⟩ : ∃ cs, c.start.rest = ch :: cs := by
    unfold head? at hhead
    cases hrest : c.start.rest with
    | nil => simp [hrest] at hhead
    | cons x cs => exact ⟨cs, by simpa [hrest] using hhead⟩
  rw [next_rest, hcs, List.tail_cons, List.append_assoc]
  exact hsource.trans (congrArg (before ++ ·) hcs)

/-- A word that is read where it may begin occurs in the text. -/
theorem Opens.mem_identifiers {name : String} (h : c.Opens source)
    (hname : identifier c = .ok name d) : name ∈ identifiers source := by
  obtain ⟨before, hsource, hapart⟩ := h
  rw [identifier_apply] at hname
  split at hname
  · next hword =>
    obtain ⟨rfl, -⟩ := Outcome.ok.inj hname
    rw [identifiers, hsource]
    exact mem_identifiersFrom (fun _ => rfl) hapart hword
  · cases hname

/-- After a word of the language, another word may begin. -/
theorem Within.keyword {word : String} {x : Cursor} (h : c.Within source)
    (hkeyword : Grammar.keyword word c = .ok x d) : d.Opens source := by
  have hc := h.onward (.skip (triviaLength false c.rest) c)
  obtain ⟨mid, hmid, rfl⟩ := ok_of_padded hkeyword
  obtain ⟨start, _, hstart, hmid⟩ := Parser.ok_of_bind hmid
  obtain ⟨rfl, rfl⟩ := Outcome.ok.inj hstart
  obtain ⟨_, e, hword, hmid⟩ := Parser.ok_of_bind hmid
  obtain ⟨_, f, hfollow, hmid⟩ := Parser.ok_of_bind hmid
  obtain ⟨-, rfl⟩ := Outcome.ok.inj hmid
  have he := hc.onward ((literally_agree word _ (Nat.lt_succ_self _)).2 _ e hword)
  refine Opens.start (Within.opens (he.onward
    ((notFollowedBy_agree isWordPart _ (Nat.lt_succ_self _)).2 _ f hfollow)) ?_)
  unfold notFollowedBy at hfollow
  split at hfollow
  · next ch cs hrest =>
    split at hfollow
    · cases hfollow
    · next hch =>
      obtain ⟨-, rfl⟩ := Outcome.ok.inj hfollow
      simpa [hrest] using hch
  · next hrest =>
    obtain ⟨-, rfl⟩ := Outcome.ok.inj hfollow
    rw [hrest]
    rfl

end Cursor

/-! ## One text read with two registries -/

/-- A text that is read with two registries into one model. -/
def Tandem.alongside (registry registry' : Registry) (M : Model) (source : String) : Tandem where
  first := ⟨registry, M⟩
  second := ⟨registry', M⟩
  near s c c' := c = c' ∧ match s with
    | .mark => c.Within source
    | _ => c.Opens source
  past c c' := c = c' ∧ c.Opens source
  exact := True
  place := id

/-- Registries agree on the words of a text. -/
def Registry.AgreeOn (source : String) (registry registry' : Registry) : Prop :=
  ∀ name ∈ identifiers source, registry.find? name = registry'.find? name

namespace Registry.AgreeOn

variable {registry registry' : Registry} {M : Model} {source : String}

/-- An outcome corresponds to itself if no diagnostic looks at its stops. -/
theorem paired {α : Type} {T : Tandem} {P : Cursor → Cursor → Prop} {R : α → α → Prop}
    {o : Outcome α} (htacit : o.Tacit) (h : ∀ a d, o = .ok a d → R a a ∧ P d d) :
    T.Paired P R o o := by
  cases o with
  | ok a d => exact .ok (h a d rfl).1 (h a d rfl).2
  | error stops => exact .error fun _ => ⟨rfl, fun s hs hexplained => absurd hexplained (htacit s hs)⟩
  | failure stops notice =>
    exact .failure (fun _ => ⟨rfl, fun s hs hexplained => absurd hexplained (htacit s hs)⟩) fun _ => rfl

theorem lawful (h : registry.AgreeOn source registry') :
    (Tandem.alongside registry registry' M source).Lawful where
  word := id
  mark := fun hc => ⟨hc.1, hc.2.within⟩
  start := by
    rintro s c _ ⟨rfl, hc⟩
    cases s with
    | mark => exact ⟨rfl, Cursor.Within.onward hc (.skip _ c)⟩
    | word => exact ⟨rfl, Cursor.Opens.start hc⟩
    | operand => exact ⟨rfl, Cursor.Opens.start hc⟩
  marks := by
    rintro c _ ch hch ⟨rfl, hc⟩
    refine paired (mark_tacit ch c) fun x d hx => ⟨rfl, rfl, ?_⟩
    obtain ⟨hhead, rfl⟩ := mark_inv hx
    have hopens := Cursor.Within.after hc hhead (not_class_of_mark _ (by decide) hch)
    cases Stage.after ch with
    | mark => exact hopens.within
    | word => exact hopens
    | operand => exact hopens
  semicolon := by
    rintro c _ ⟨rfl, hc⟩
    refine paired (mark_tacit ';' c) fun x d hx => ⟨rfl, rfl, ?_⟩
    obtain ⟨hhead, rfl⟩ := mark_inv hx
    exact Cursor.Within.after hc hhead (by decide)
  identifier := by
    rintro c _ ⟨rfl, hc⟩ - -
    refine paired (identifier_tacit c) fun name d hname => ⟨⟨rfl, h name ?_⟩, rfl, ?_⟩
    · exact Cursor.Opens.mem_identifiers hc hname
    · exact (Cursor.Opens.within hc).onward
        ((identifier_agree c (Nat.lt_succ_self _)).2 name d hname)
  numeral := by
    rintro c _ ⟨rfl, hc⟩ - - -
    refine paired (numeral_tacit c) fun x d hx => ⟨rfl, rfl, ?_⟩
    exact (Cursor.Opens.within hc).onward ((numeral_agree c (Nat.lt_succ_self _)).2 x d hx)
  stringLiteral := by
    rintro c _ ⟨rfl, hc⟩ - -
    refine paired (stringLiteral_tacit c) fun x d hx => ⟨rfl, rfl, ?_⟩
    exact (Cursor.Opens.within hc).onward ((stringLiteral_agree c (Nat.lt_succ_self _)).2 x d hx)
  keyword := by
    rintro c _ word - ⟨rfl, hc⟩
    exact paired (keyword_tacit word c) fun x d hx => ⟨True.intro, rfl, Cursor.Within.keyword hc hx⟩
  same := fun _ _ _ _ hc => hc.1
  model := fun _ => rfl
  alike := .refl id M
  origin := by
    rintro s t c _ d _ ⟨rfl, -⟩ ⟨rfl, -⟩
    rfl

/-! ### Diagnostics -/

theorem contains (h : registry.AgreeOn source registry') {name : String}
    (hname : name ∈ identifiers source) : registry.contains name = registry'.contains name := by
  rw [Registry.contains, h name hname, Registry.contains]

/-- The explanation of a stop looks up a word that occurs in the text. -/
theorem explanation (h : registry.AgreeOn source registry') {s : Stop}
    (hs : s.mismatch.Explained → s.cursor.Opens source) :
    Grammar.explanation? ⟨registry, M⟩ s = Grammar.explanation? ⟨registry', M⟩ s := by
  unfold Grammar.explanation?
  split
  · next label hlabel =>
    split
    · next hexplained =>
      have hopens : s.cursor.Opens source := hs (by
        rw [hlabel]
        exact List.contains_iff_mem.mp hexplained)
      split
      · next word d hword => rw [h.contains (hopens.mem_identifiers hword)]
      · rfl
    · rfl
  · rfl

end Registry.AgreeOn

theorem Grammar.mem_of_furthest? {stops : List Stop} {s : Stop} (h : furthest? stops = some s) :
    s ∈ stops := by
  unfold furthest? at h
  dsimp only at h
  split at h
  · next found hfound =>
    obtain rfl := Option.some.inj h
    exact List.mem_of_mem_filter (List.mem_of_find?_eq_some hfound)
  · exact List.mem_of_mem_filter (List.mem_of_mem_head? h)

namespace Registry.AgreeOn

variable {registry registry' : Registry} {M : Model} {source : String}

theorem diagnose (h : registry.AgreeOn source registry') {stops : List Stop}
    (hstops : ∀ s ∈ stops, s.mismatch.Explained → s.cursor.Opens source) (notice : Option Notice)
    (file : String) :
    Grammar.diagnose ⟨registry, M⟩ stops notice file source =
      Grammar.diagnose ⟨registry', M⟩ stops notice file source := by
  unfold Grammar.diagnose
  cases notice with
  | some n => rfl
  | none =>
    have hexplanation : (furthest? stops).bind (Grammar.explanation? ⟨registry, M⟩) =
        (furthest? stops).bind (Grammar.explanation? ⟨registry', M⟩) := by
      cases hfurthest : furthest? stops with
      | none => rfl
      | some s => exact h.explanation (hstops s (mem_of_furthest? hfurthest))
    dsimp only
    rw [hexplanation]

/-! ### Texts -/

/-- Statements that are read one after the other give the same, or fail in the same way. -/
theorem statementsFrom (h : registry.AgreeOn source registry') (file : String) (n : Nat) {c : Cursor}
    (hc : c.Opens source) (M : Model) :
    Grammar.statementsFrom registry file source n c M =
      Grammar.statementsFrom registry' file source n c M := by
  induction n generalizing c M with
  | zero => rfl
  | succ n ih =>
    have hpaired : (Tandem.alongside registry registry' M source).Paired _ _
        (statement ⟨registry, M⟩ (c.skip (triviaLength false c.rest)))
        (statement ⟨registry', M⟩ (c.skip (triviaLength false c.rest))) :=
      Tandem.statement h.lawful c.start c.start ⟨rfl, hc.start⟩
    unfold Grammar.statementsFrom
    dsimp only
    split
    · rfl
    · split
      · rfl
      · revert hpaired
        generalize statement ⟨registry, M⟩ _ = o, statement ⟨registry', M⟩ _ = o'
        intro hpaired
        cases hpaired with
        | error hstops =>
          obtain ⟨rfl, hopens⟩ := hstops True.intro
          exact congrArg Except.error (h.diagnose (fun s hs hm => (hopens s hs hm).2) none file)
        | failure hstops hnotice =>
          obtain ⟨rfl, hopens⟩ := hstops True.intro
          obtain rfl := hnotice True.intro
          exact congrArg Except.error (h.diagnose (fun s hs hm => (hopens s hs hm).2) _ file)
        | @ok parsed parsed' rest rest' hparsed hrest =>
          obtain ⟨rfl, hopens⟩ := hrest
          have hsame : parsed.moved id = parsed'.moved id := hparsed
          rw [Statement.moved_id, Statement.moved_id] at hsame
          subst hsame
          dsimp only
          cases addStatement M parsed _ file source with
          | error e => rfl
          | ok extended => exact ih hopens extended

/-- Reading the imports of a text ends where a word may begin. -/
theorem importsFrom_opens {file : String} {n : Nat} {c last : Cursor}
    {imports : List ImportDeclaration} (hc : c.Opens source)
    (hread : importsFrom file source n c = .ok (imports, last)) : last.Opens source := by
  induction n generalizing c imports with
  | zero =>
    obtain ⟨-, rfl⟩ := Prod.mk.inj (Except.ok.inj hread)
    exact hc
  | succ n ih =>
    have hempty : Registry.empty.AgreeOn source .empty := fun _ _ => rfl
    have hpaired := Tandem.importDeclaration (hempty.lawful (M := .empty)) c c ⟨rfl, hc⟩
    unfold importsFrom at hread
    cases hdeclaration : importDeclaration c with
    | ok declaration rest =>
      rw [hdeclaration] at hpaired hread
      obtain ⟨⟨more, last'⟩, hmore, hread⟩ := PartScript.ok_of_bind hread
      obtain ⟨-, rfl⟩ := Prod.mk.inj (Except.ok.inj hread)
      cases hpaired with
      | ok _ hrest => exact ih hrest.2 hmore
    | error stops =>
      rw [hdeclaration] at hread
      obtain ⟨-, rfl⟩ := Prod.mk.inj (Except.ok.inj hread)
      exact hc
    | failure stops notice =>
      rw [hdeclaration] at hread
      cases hread

/-- A text is read alike with registries that agree on its words. -/
theorem read (h : registry.AgreeOn source registry') (M : Model) (file : String) :
    M.read registry file source = M.read registry' file source := by
  unfold Model.read
  cases himports : leadingImports file source with
  | error e => rfl
  | ok imports =>
    obtain ⟨imports, c⟩ := imports
    have hc := importsFrom_opens (.ofText source) himports
    show (do let extended ← Grammar.statementsFrom registry file source (c.rest.length + 1) c M
             return extended.nextSource : Except CompileError Model) = _
    rw [h.statementsFrom file _ hc M]
    rfl

end Registry.AgreeOn

/-! ## Registries with more types, or in another order -/

namespace Registry

variable {registry registry' first second : Registry} {types types' : List FeatureType}
  {name : String}

theorem find?_append (registry : Registry) (types : List FeatureType) (name : String) :
    find? ⟨registry.types ++ types⟩ name =
      (registry.find? name).or (types.find? (·.name == name)) :=
  List.find?_append

/-- Types that are registered one after the other are added at the end, each under a name of its
own. -/
theorem types_of_register (h : types.foldlM register registry = .ok registry') :
    registry' = ⟨registry.types ++ types⟩ ∧ (types.map (·.name)).Nodup ∧
      ∀ type ∈ types, registry.contains type.name = false := by
  induction types generalizing registry with
  | nil =>
    obtain rfl := Except.ok.inj h
    exact ⟨by simp, .nil, nofun⟩
  | cons type types ih =>
    rw [List.foldlM_cons] at h
    obtain ⟨extended, hregister, h⟩ := ok_of_bind h
    unfold register at hregister
    split at hregister
    · cases hregister
    · split at hregister
      · cases hregister
      · next hfree =>
        obtain rfl := Except.ok.inj hregister
        obtain ⟨rfl, hnodup, hnew⟩ := ih h
        have hlater : ∀ other ∈ types,
            registry.contains other.name = false ∧ other.name ≠ type.name := by
          intro other hother
          have hother := hnew other hother
          rw [contains, find?_append, Option.isSome_or, Bool.or_eq_false_iff] at hother
          refine ⟨hother.1, fun heq => ?_⟩
          rw [heq] at hother
          simp at hother
        refine ⟨by simp, ?_, List.forall_mem_cons.mpr ⟨by simpa using hfree, fun other hother =>
          (hlater other hother).1⟩⟩
        rw [List.map_cons, List.nodup_cons]
        refine ⟨fun hmem => ?_, hnodup⟩
        obtain ⟨other, hother, hname⟩ := List.mem_map.mp hmem
        exact (hlater other hother).2 hname

/-- The order of types of different names does not matter. -/
theorem find?_perm (h : types.Perm types') (hnodup : (types.map (·.name)).Nodup) :
    types.find? (·.name == name) = types'.find? (·.name == name) := by
  induction h with
  | nil => rfl
  | cons type _ ih =>
    rw [List.find?_cons, List.find?_cons, ih (List.nodup_cons.mp hnodup).2]
  | swap type other types =>
    have hne : other.name ≠ type.name := fun heq => by simp [heq] at hnodup
    by_cases htype : type.name = name
    · subst htype
      simp [hne]
    · simp [List.find?_cons, htype]
  | trans h _ ih ih' => exact (ih hnodup).trans (ih' ((h.map _).nodup_iff.mp hnodup))

end Registry

namespace Model

/-- Extending the registry is conservative. Registries that agree on every identifier of a text read
it alike, into the same model or with the same error; so do a registry and one with further types
whose names the text does not mention, and registries with the same further types in another
order. -/
theorem read_conservative (M : Model) (file source : String) :
    (∀ registry registry' : Registry,
      (∀ name ∈ identifiers source, registry.find? name = registry'.find? name) →
        M.read registry file source = M.read registry' file source) ∧
    (∀ (registry registry' : Registry) (types : List FeatureType),
      types.foldlM Registry.register registry = .ok registry' →
      (∀ type ∈ types, type.name ∉ identifiers source) →
        M.read registry' file source = M.read registry file source) ∧
    ∀ (registry first second : Registry) (types types' : List FeatureType), types.Perm types' →
      types.foldlM Registry.register registry = .ok first →
      types'.foldlM Registry.register registry = .ok second →
        M.read first file source = M.read second file source := by
  refine ⟨fun registry registry' h => Registry.AgreeOn.read h M file, ?_, ?_⟩
  · intro registry registry' types hregister hnew
    obtain ⟨rfl, -, -⟩ := Registry.types_of_register hregister
    refine Registry.AgreeOn.read (fun name hname => ?_) M file
    have hnone : types.find? (·.name == name) = none := by
      refine List.find?_eq_none.mpr fun type htype heq => hnew type htype ?_
      rwa [beq_iff_eq.mp heq]
    rw [Registry.find?_append, hnone, Option.or_none]
  · intro registry first second types types' hperm hfirst hsecond
    obtain ⟨rfl, hnodup, -⟩ := Registry.types_of_register hfirst
    obtain ⟨rfl, -, -⟩ := Registry.types_of_register hsecond
    refine Registry.AgreeOn.read (fun name _ => ?_) M file
    rw [Registry.find?_append, Registry.find?_append, Registry.find?_perm hperm hnodup]

/-- A script that mentions one type. -/
def oneBox : String := "corner = [0, 0, 0]; b = Box(corner, [1, 1, 1]);"

example : identifiers oneBox = ["corner", "b", "Box", "corner"] := by decide +kernel

/-- The script is read with boxes alone, with all built-in types, and with spheres registered after
boxes or before them, and binds the same. -/
theorem read_conservative_box :
    let boxes : Registry := ⟨[Catalog.box]⟩
    let both : Registry := ⟨[Catalog.box, Catalog.sphere]⟩
    let swapped : Registry := ⟨[Catalog.sphere, Catalog.box]⟩
    (empty.read boxes "main" oneBox).isOk = true ∧
      empty.read boxes "main" oneBox = empty.read Catalog.registry "main" oneBox ∧
      empty.read both "main" oneBox = empty.read boxes "main" oneBox ∧
      empty.read both "main" oneBox = empty.read swapped "main" oneBox := by
  intro boxes both swapped
  obtain ⟨hagree, hmore, horder⟩ := read_conservative empty "main" oneBox
  refine ⟨by decide +kernel, ?_, ?_, ?_⟩
  · exact hagree boxes Catalog.registry (by decide +kernel)
  · exact hmore boxes both [Catalog.sphere] rfl (by decide +kernel)
  · exact horder .empty both swapped [Catalog.box, Catalog.sphere] [Catalog.sphere, Catalog.box]
      (.swap _ _ []) rfl rfl

end Model

end PartScript
