/-
  Texts read side by side, declaration by declaration and statement by statement. Where the places
  that two texts are read from correspond to each other, and each statement leads on to places that
  do, the second text adds to a model what the first one adds, until nothing is left of the first.
-/
import PartScript.Proofs.Locality
import PartScript.Proofs.Phrases

namespace PartScript

open Grammar Grammar.Parser

namespace Grammar

/-! ## One statement after the other -/

section Steps

variable {registry : Registry} {file source : String} {n : Nat} {c d : Cursor} {M N X : Model}
  {s : Statement}

theorem statementsFrom_end (h : c.start.rest = []) :
    statementsFrom registry file source n c M = .ok M := by
  cases n with
  | zero => rfl
  | succ n => exact if_pos (List.isEmpty_iff.mpr h)

theorem statementsFrom_next (hword : (keyword "import").Stops c.start)
    (hs : statement ⟨registry, M⟩ c.start = .ok s d)
    (hadd : addStatement M s (.between c.start d) file source = .ok N) :
    statementsFrom registry file source (n + 1) c M = statementsFrom registry file source n d N := by
  have hlonger := (statement_finishes c.start s d hs).1.shorter
  have hbare : c.start.rest.isEmpty = false := by
    rw [Bool.eq_false_iff, ne_eq, List.isEmpty_iff_length_eq_zero]
    omega
  obtain ⟨stops, hstops⟩ := stops_iff.mp hword
  have hstart : c.skip (triviaLength false c.rest) = c.start := rfl
  rw [statementsFrom]
  simp only [hstart, hbare, hstops, hs, hadd, Bool.false_eq_true, if_false]
  rfl

/-- Where a text is read, either nothing is left of it, or a statement that does not begin like an
import. -/
theorem statementsFrom_cases (h : statementsFrom registry file source (n + 1) c M = .ok X) :
    (c.start.rest = [] ∧ X = M) ∨ ∃ s d N, (keyword "import").Stops c.start ∧
      statement ⟨registry, M⟩ c.start = .ok s d ∧
      addStatement M s (.between c.start d) file source = .ok N ∧
      statementsFrom registry file source n d N = .ok X := by
  have hstart : c.skip (triviaLength false c.rest) = c.start := rfl
  unfold statementsFrom at h
  dsimp only at h
  rw [hstart] at h
  split at h
  · next hempty => exact .inl ⟨List.isEmpty_iff.mp hempty, (Except.ok.inj h).symm⟩
  · split at h
    · cases h
    · next hword =>
      split at h
      · next s d hs =>
        obtain ⟨N, hadd, hmore⟩ := PartScript.ok_of_bind h
        refine .inr ⟨s, d, N, keyword_stops (by decide) fun hrun => ?_, hs, hadd, hmore⟩
        exact hword _ _ (keyword_ok hrun)
      · cases h
      · cases h

theorem statementsFrom_stops (h : statementsFrom registry file source (n + 1) c M = .ok X) :
    (keyword "import").Stops c.start := by
  rcases statementsFrom_cases h with ⟨hend, -⟩ | ⟨_, _, _, hword, -⟩
  · refine keyword_stops (by decide) ?_
    rw [Cursor.start_start, hend]
    decide
  · exact hword

/-- An import declaration stops where its word does. -/
theorem importDeclaration_stops (h : (keyword "import").Stops c.start) :
    importDeclaration.Stops c := by
  have hopened : importDeclaration c = (keyword "import" >>= fun _ => do
      let path ← committed (labelled "import path" (padded stringLiteral))
      let _ ← committed semicolon
      let stop ← position
      return ⟨path, .between c.start stop⟩ : Parser ImportDeclaration) c.start := rfl
  exact Ends.of_eq hopened h.bind

/-- A text whose first word is none of the language has no imports. -/
theorem leadingImports_of_stops (h : (keyword "import").Stops (Cursor.ofText source).start) :
    leadingImports file source = .ok ([], .ofText source) := by
  obtain ⟨stops, hstops⟩ := stops_iff.mp (importDeclaration_stops h)
  unfold leadingImports importsFrom
  dsimp only
  rw [hstops]

theorem leadingImports_nil (h : leadingImports file source = .ok ([], c)) :
    c = .ofText source := by
  unfold leadingImports importsFrom at h
  dsimp only at h
  split at h
  · obtain ⟨_, -, h⟩ := PartScript.ok_of_bind h
    cases h
  · exact (Prod.mk.inj (Except.ok.inj h)).2.symm
  · cases h

end Steps

end Grammar

/-! ## Two texts -/

/-- Places from which two texts are read alike: a statement that is read from one is read from the
other, and leads on to such places. -/
def Grammar.Alongside (registry : Registry) (P : Cursor → Cursor → Prop) : Prop :=
  ∀ ⦃c c' : Cursor⦄ ⦃M M' : Model⦄ ⦃s : Grammar.Statement⦄ ⦃d : Cursor⦄, P c c' →
    M.Alike (fun _ => .made 0) M' → statement ⟨registry, M⟩ c.start = .ok s d →
    ∃ T : Tandem, T.Lawful ∧ T.first = ⟨registry, M⟩ ∧ T.second = ⟨registry, M'⟩ ∧
      T.place = (fun _ => .made 0) ∧ T.near .operand c.start c'.start ∧ ∀ d d', T.past d d' → P d d'

namespace Grammar.Alongside

variable {registry : Registry} {P : Cursor → Cursor → Prop} {file source : String}
  {c c' : Cursor} {M M' X : Model}

/-- The statements of the first text are read from the second one, and then what is left there. -/
theorem statementsFrom (hP : Alongside registry P) {n n' : Nat} (hc : P c c')
    (hM : M.Alike (fun _ => .made 0) M') (hn : c.rest.length < n) (hn' : c'.rest.length < n')
    (h : Grammar.statementsFrom registry file source n c M = .ok X) (file' source' : String) :
    ∃ m d d' X', Grammar.statementsFrom registry file' source' n' c' M' =
        Grammar.statementsFrom registry file' source' m d' X' ∧
      d'.rest.length < m ∧ d.start.rest = [] ∧ P d d' ∧ X.Alike (fun _ => .made 0) X' := by
  induction n generalizing n' c c' M M' with
  | zero => exact absurd hn (Nat.not_lt_zero _)
  | succ n ih =>
    rcases statementsFrom_cases h with ⟨hend, rfl⟩ | ⟨s, d, N, hword, hs, hadd, hmore⟩
    · exact ⟨n', c, c', M', rfl, hn', hend, hc, hM⟩
    · obtain ⟨T, hT, hfirst, hsecond, hplace, hnear, hpast⟩ := hP hc hM hs
      obtain ⟨s', d', hs', hsame, hd⟩ :=
        (Tandem.statement hT c.start c'.start hnear).of_ok (hfirst ▸ hs)
      have hword' : (keyword "import").Stops c'.start :=
        (hT.keyword (by decide) (hT.below hnear)).stops hword
      rw [hsecond] at hs'
      have hsame' : s.moved (fun _ => .made 0) = s'.moved (fun _ => .made 0) := by
        rw [← hplace]
        exact hsame
      obtain ⟨N', hadd', hN⟩ := hM.addStatement hsame' hadd (.between c'.start d') file' source'
      obtain ⟨n', rfl⟩ := Nat.exists_eq_add_of_le' (Nat.lt_of_le_of_lt (Nat.zero_le _) hn')
      rw [statementsFrom_next hword' hs' hadd']
      have hle := Cursor.skip_length (triviaLength false c.rest) c
      have hle' := Cursor.skip_length (triviaLength false c'.rest) c'
      have hlt := (statement_finishes c.start s d hs).1.shorter
      have hlt' := (statement_finishes c'.start s' d' hs').1.shorter
      exact ih (hpast d d' hd) hN (by unfold Cursor.start at *; omega)
        (by unfold Cursor.start at *; omega) hmore

end Grammar.Alongside

/-- The import declarations at the head of two texts have the same paths. -/
theorem Tandem.Lawful.importsFrom {T : Tandem} (hT : T.Lawful)
    (hpast : ∀ d d', T.past d d' → T.near .operand d d') {file source : String}
    {n n' : Nat} {c c' last : Cursor} {imports : List ImportDeclaration} (hc : T.near .operand c c')
    (hn : c.rest.length < n) (hn' : c'.rest.length < n')
    (h : Grammar.importsFrom file source n c = .ok (imports, last)) (file' source' : String) :
    ∃ imports' last', Grammar.importsFrom file' source' n' c' = .ok (imports', last') ∧
      imports.map (·.path) = imports'.map (·.path) ∧ T.near .operand last last' := by
  induction n generalizing n' c c' imports with
  | zero => exact absurd hn (Nat.not_lt_zero _)
  | succ n ih =>
    obtain ⟨n', rfl⟩ := Nat.exists_eq_add_of_le' (Nat.lt_of_le_of_lt (Nat.zero_le _) hn')
    have hpaired := Tandem.importDeclaration hT c c' hc
    unfold Grammar.importsFrom at h ⊢
    cases hd : Grammar.importDeclaration c with
    | ok declaration rest =>
      obtain ⟨declaration', rest', hd', hpath, hrest⟩ := hpaired.of_ok hd
      rw [hd] at h
      obtain ⟨⟨more, last⟩, hmore, h⟩ := PartScript.ok_of_bind h
      obtain ⟨rfl, rfl⟩ := Prod.mk.inj (Except.ok.inj h)
      have hlt := (importDeclaration_at c declaration rest hd).2.1.shorter
      have hlt' := (importDeclaration_at c' declaration' rest' hd').2.1.shorter
      have hle := Cursor.skip_length (triviaLength false c.rest) c
      have hle' := Cursor.skip_length (triviaLength false c'.rest) c'
      have hleft : rest.rest.length < n := by unfold Cursor.start at *; omega
      have hleft' : rest'.rest.length < n' := by unfold Cursor.start at *; omega
      obtain ⟨more', last', hmore', hpaths, hlast⟩ := ih (hpast _ _ hrest) hleft hleft' hmore
      refine ⟨declaration' :: more', last', ?_, ?_, hlast⟩
      · rw [hd']
        show (Grammar.importsFrom file' source' n' rest' >>= _) = _
        rw [hmore']
        rfl
      · rw [List.map_cons, List.map_cons, hpath, hpaths]
    | error stops =>
      rw [hd] at h hpaired
      obtain ⟨rfl, rfl⟩ := Prod.mk.inj (Except.ok.inj h)
      obtain ⟨stops', hstops'⟩ := stops_iff.mp
        ((Tandem.importDeclaration hT c c' hc).stops (.of_eq hd))
      exact ⟨[], c', by rw [hstops'], rfl, hc⟩
    | failure stops notice =>
      rw [hd] at h
      cases h

end PartScript
