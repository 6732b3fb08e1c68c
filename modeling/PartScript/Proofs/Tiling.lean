/-
  What loading adds. A load that fails leaves everything as it was. One that succeeds adds, for
  each text that it reads, the bindings and output requests of the statements of that text, in
  their order; and the imports and statements of a text follow each other without a gap, from
  the first character that is neither blank nor part of a comment to the end of the text.

  The induction is on the statements still to be read. What it needs of a single statement is
  that it takes characters of the text, one at least (`statement_onward`), and that it ends where
  nothing is left to skip, after the blanks that follow its semicolon (`statement_settled`).
-/
import Mathlib.Data.String.Basic
import PartScript.Proofs.Completeness
import PartScript.Proofs.Imports
import PartScript.Proofs.Workshops

namespace PartScript

open Grammar.Parser

/-! ## Places in a text -/

namespace Cursor

/-- The number of bytes up to the end of the text. -/
def extent (c : Cursor) : Nat := c.offset + String.utf8Len c.rest

theorem extent_next (c : Cursor) : c.next.extent = c.extent := by
  unfold extent next
  split
  · rfl
  · next rest h =>
    have hfeed : '\n'.utf8Size = 1 := by decide
    rw [h, String.utf8Len_cons, hfeed]
    dsimp only
    omega
  · next ch rest _ h =>
    rw [h, String.utf8Len_cons]
    dsimp only
    omega

theorem extent_skip (n : Nat) (c : Cursor) : (c.skip n).extent = c.extent := by
  induction n generalizing c with
  | zero => rfl
  | succ n ih => rw [skip, ih, extent_next]

/-- A place in a text. -/
def In (source : String) (c : Cursor) : Prop := ∃ n, c = (ofText source).skip n

namespace In

variable {source : String} {c d : Cursor} {k : Nat}

theorem ofText (source : String) : In source (Cursor.ofText source) := ⟨0, rfl⟩

theorem onward (h : In source c) (hd : Onward k c d) : In source d := by
  obtain ⟨m, rfl⟩ := h
  obtain ⟨⟨n, rfl⟩, -⟩ := hd
  exact ⟨m + n, skip_skip m n _⟩

theorem start (h : In source c) : In source c.start := h.onward (.skip _ c)

/-- At the end of a text all its bytes have been passed. -/
theorem offset_end (h : In source c) (hend : c.rest = []) : c.offset = source.utf8ByteSize := by
  obtain ⟨n, rfl⟩ := h
  have hextent := extent_skip n (Cursor.ofText source)
  unfold extent at hextent
  rw [hend] at hextent
  have hsize : String.utf8Len source.toList = source.utf8ByteSize := by
    rw [← String.utf8ByteSize_ofList, String.ofList_toList]
  simpa [Cursor.ofText, hsize] using hextent

end In

/-- Reading has passed at least one byte. -/
theorem Onward.offset_lt {c d : Cursor} (h : Onward 1 c d) : c.offset < d.offset := by
  obtain ⟨⟨n, rfl⟩, hlt⟩ := h
  cases n with
  | zero => exact absurd hlt (Nat.not_succ_le_self _)
  | succ n =>
    have hrest : c.rest ≠ [] := by
      intro hnil
      rw [hnil] at hlt
      exact absurd hlt (Nat.not_succ_le_zero _)
    exact Nat.lt_of_lt_of_le (offset_lt_next hrest) (offset_le_skip n c.next)

end Cursor

/-- Ranges that follow each other without a gap from one byte to another, none of them empty. -/
def SourceSpan.Tile : List SourceSpan → Nat → Nat → Prop
  | [], start, stop => start = stop
  | span :: rest, start, stop => span.start = start ∧ start < span.stop ∧ Tile rest span.stop stop

theorem SourceSpan.Tile.append {spans spans' : List SourceSpan} {start middle stop : Nat}
    (h : Tile spans start middle) (h' : Tile spans' middle stop) :
    Tile (spans ++ spans') start stop := by
  induction spans generalizing start with
  | nil =>
    obtain rfl := h
    exact h'
  | cons span rest ih => exact ⟨h.1, h.2.1, ih h.2.2⟩

/-! ## Single statements -/

namespace Grammar

variable {α β : Type} {g : Grammar} {p : Parser α} {f : α → Parser β} {c : Cursor} {k n : Nat}

theorem literally_agree (word : String) : Parser.Agree n 0 (literally word) (literally word) := by
  refine .of_at fun c a rest ha => ?_
  unfold literally at ha
  split at ha
  · obtain ⟨-, rfl⟩ := Outcome.ok.inj ha
    exact .skip _ c
  · cases ha

theorem notFollowedBy_agree (class_ : Char → Bool) :
    Parser.Agree n 0 (notFollowedBy class_) (notFollowedBy class_) := by
  refine .of_at fun c a rest ha => ?_
  unfold notFollowedBy at ha
  split at ha
  · split at ha
    · cases ha
    · obtain ⟨-, rfl⟩ := Outcome.ok.inj ha
      exact .refl c
  · obtain ⟨-, rfl⟩ := Outcome.ok.inj ha
    exact .refl c

theorem keyword_agree (word : String) : Parser.Agree n 0 (keyword word) (keyword word) :=
  padded_agree <| Agree.position.then_ fun start => (literally_agree word).then_ fun _ =>
    (notFollowedBy_agree _).then_ fun _ => .pure start

/-- A rule reads `k` characters of the text at least and stops where nothing is left to skip. -/
def Finishes (k : Nat) (p : Parser α) : Prop :=
  ∀ c, p.At c fun _ rest => c.Onward k rest ∧ rest.start = rest

namespace Finishes

theorem mono {l : Nat} (h : Finishes k p) (hl : l ≤ k) : Finishes l p := fun c =>
  (h c).imp fun _ _ hrest => ⟨hrest.1.mono hl, hrest.2⟩

theorem bind {l : Nat} (hp : ∀ n, Parser.Agree n k p p) (hf : ∀ a, Finishes l (f a)) :
    Finishes (k + l) (p >>= f) := fun c =>
  .bind (hp _ c (Nat.lt_succ_self _)).2 fun a rest hrest =>
    (hf a rest).imp fun _ _ hlast => ⟨hrest.trans hlast.1, hlast.2⟩

theorem then_ (hp : ∀ n, Parser.Agree n 0 p p) (hf : ∀ a, Finishes k (f a)) :
    Finishes k (p >>= f) := (bind hp hf).mono (Nat.le_add_left k 0)

/-- A value is made of what has been read. -/
theorem map {b : α → β} (h : Finishes k p) : Finishes k (p >>= fun a => Pure.pure (b a)) :=
  fun c => .bind (h c) fun _ _ hrest => .pure hrest

theorem committed (h : Finishes k p) : Finishes k (committed p) := fun c => .committed (h c)

theorem refuse (start stop : Cursor) (kind : CompileErrorKind) (message : String) :
    Finishes k (refuse start stop kind message : Parser α) := fun _ => .refuse start stop kind message

theorem semicolon : Finishes 1 semicolon := by
  intro c
  refine At.labelled _ fun x rest h => ⟨(mark_agree ';' c (Nat.lt_succ_self _)).2 x rest h, ?_⟩
  obtain ⟨-, rfl⟩ := mark_inv h
  exact Cursor.start_start _

theorem ended (h : ∀ n, Parser.Agree n 0 p p) : Finishes 1 (ended p) :=
  .then_ h fun _ => semicolon.map

end Finishes

theorem boundValue_finishes : Finishes 1 (boundValue g) := by
  have hvalue : ∀ (rule : Rule) {b : rule.Value → BoundValue},
      Finishes 1 (ended (g.parse rule) >>= fun a => Pure.pure (b a)) := fun rule _ =>
    (Finishes.ended fun n => parse_self_agree g n rule).map
  intro c
  refine .furthestChoice (List.forall_mem_cons.mpr ⟨?_, List.forall_mem_cons.mpr ⟨?_,
    List.forall_mem_cons.mpr ⟨?_, List.forall_mem_cons.mpr ⟨?_,
      List.forall_mem_singleton.mpr ?_⟩⟩⟩⟩)
  · exact hvalue .feature c
  · exact hvalue .selection c
  · exact hvalue .datum c
  · exact hvalue .vector c
  · exact hvalue .scalar c

theorem bindingStatement_finishes : Finishes 1 (bindingStatement g) := by
  refine .then_ (fun _ => trivia_agree) fun _ => .then_ (fun _ => .position) fun start => ?_
  refine .bind (l := 0) (fun _ => identifier_agree.labelled _) fun name => ?_
  refine .then_ (fun _ => .position) fun afterName => ?_
  refine .then_ (fun _ => ((mark_agree '=').labelled _).weaken) fun _ => ?_
  split
  · exact .refuse _ _ _ _
  · split
    · exact .refuse _ _ _ _
    · exact (boundValue_finishes.committed.map).mono (Nat.zero_le 1)

theorem outputBody_finishes : Finishes 1 (outputBody g) := by
  have hpath : ∀ n, Parser.Agree n 0 (optional do
      let _ ← keyword "as"
      committed (labelled "output path" (padded stringLiteral))) (optional do
      let _ ← keyword "as"
      committed (labelled "output path" (padded stringLiteral))) := fun n =>
    .optional ((keyword_agree "as").then_ fun _ =>
      ((padded_agree stringLiteral_agree).labelled _).committed)
  exact .then_ (fun n => parse_self_agree g n .feature) fun _ => .then_ hpath fun _ =>
    Finishes.semicolon.map

/-- A statement takes characters of the text and the blanks that follow it. -/
theorem statement_finishes : Finishes 1 (statement g) := by
  refine .then_ (fun _ => (keyword_agree "export").optional) fun found => ?_
  cases found with
  | some _ => exact outputBody_finishes.committed
  | none => exact bindingStatement_finishes

/-- An import declaration tells the range that it takes. -/
theorem importDeclaration_at (c : Cursor) : importDeclaration.At c fun declaration rest =>
    declaration.span = .between c.start rest ∧ c.start.Onward 1 rest ∧ rest.start = rest := by
  have hpath := fun d : Cursor => (((padded_agree stringLiteral_agree).labelled "import path"
    ).committed d (Nat.lt_succ_self _)).2
  refine .bind (P := fun _ d => d = c.start) (fun _ _ h => (Outcome.ok.inj h).2.symm) ?_
  rintro _ _ rfl
  refine .here <| .bind (keyword_agree "import" c.start (Nat.lt_succ_self _)).2 fun _ d hd => ?_
  refine .bind (hpath d) fun path e he => .bind (Finishes.semicolon.committed e) fun _ rest hr => ?_
  exact .here <| .pure ⟨rfl, ((hd.trans he).trans hr.1).mono (by decide), hr.2⟩

end Grammar

/-! ## Texts -/

/-- A statement of a text and the range that it takes. -/
structure Sentence where
  statement : Grammar.Statement
  span : SourceSpan

namespace Sentence

/-- The binding that a statement in a file adds. -/
def binding? (file : String) (s : Sentence) : Option Binding :=
  match s.statement with
  | .binding name value => some ⟨name, Model.nameValue name value, s.span, file⟩
  | .output _ _ => none

/-- The output request that a statement in a file adds. -/
def output? (file : String) (s : Sentence) : Option OutputRequest :=
  match s.statement with
  | .binding _ _ => none
  | .output feature path => some ⟨feature, path, s.span, file⟩

/-- A statement is what stands in its range of a text, read with these bindings. -/
def ReadWith (registry : Registry) (source : String) (bindings : List Binding) (s : Sentence) :
    Prop :=
  ∃ (M : Model) (c rest : Cursor), M.bindings = bindings ∧ c.In source ∧
    Grammar.statement ⟨registry, M⟩ c = .ok s.statement rest ∧ s.span = .between c rest

end Sentence

/-- A text that is loaded, with what it consists of. -/
structure Part where
  path : String
  source : String
  imports : List Grammar.ImportDeclaration
  statements : List Sentence

namespace Part

/-- The bindings that a text adds. -/
def bindings (part : Part) : List Binding := part.statements.filterMap (Sentence.binding? part.path)

/-- The output requests that a text adds. -/
def outputs (part : Part) : List OutputRequest :=
  part.statements.filterMap (Sentence.output? part.path)

/-- The ranges of the imports and statements of a text. -/
def spans (part : Part) : List SourceSpan :=
  part.imports.map (·.span) ++ part.statements.map (·.span)

/-- A text consists of its imports and statements, and each statement is read with the bindings
before it. -/
structure ReadWith (registry : Registry) (known : List Binding) (part : Part) : Prop where
  imports : ∃ last, Grammar.leadingImports part.path part.source = .ok (part.imports, last)
  statements : ∀ before s after, part.statements = before ++ s :: after →
    s.ReadWith registry part.source (known ++ before.filterMap (Sentence.binding? part.path))
  tile : SourceSpan.Tile part.spans (Cursor.ofText part.source).start.offset
    part.source.utf8ByteSize

end Part

/-- A model is another one with what some texts add to it, each read on top of those before. -/
structure Model.Adds (registry : Registry) (M : Model) (parts : List Part) (M' : Model) : Prop where
  bindings : M'.bindings = M.bindings ++ parts.flatMap Part.bindings
  outputs : M'.outputs = M.outputs ++ parts.flatMap Part.outputs
  read : ∀ before part after, parts = before ++ part :: after →
    part.ReadWith registry (M.bindings ++ before.flatMap Part.bindings)

/-! ## Reading a text -/

/-- What statements from a place to the end of a text add to a model. -/
structure Sentence.Added (registry : Registry) (file source : String) (c : Cursor) (M : Model)
    (statements : List Sentence) (M' : Model) : Prop where
  bindings : M'.bindings = M.bindings ++ statements.filterMap (binding? file)
  outputs : M'.outputs = M.outputs ++ statements.filterMap (output? file)
  modules : M'.modules = M.modules
  read : ∀ before s after, statements = before ++ s :: after →
    s.ReadWith registry source (M.bindings ++ before.filterMap (binding? file))
  tile : SourceSpan.Tile (statements.map (·.span)) c.start.offset source.utf8ByteSize

namespace Sentence.Added

variable {registry : Registry} {file source : String} {c rest : Cursor} {M M₁ M' : Model}

/-- At the end of a text there is nothing to add. -/
theorem nothing (hc : c.In source) (hend : c.start.rest = []) :
    Added registry file source c M [] M where
  bindings := (List.append_nil _).symm
  outputs := (List.append_nil _).symm
  modules := rfl
  read := fun before _ _ h => by simp at h
  tile := hc.start.offset_end hend

theorem first {parsed : Grammar.Statement} {span : SourceSpan}
    (h : Grammar.addStatement M parsed span file source = .ok M₁) :
    M₁.bindings = M.bindings ++ [⟨parsed, span⟩].filterMap (binding? file) ∧
      M₁.outputs = M.outputs ++ [⟨parsed, span⟩].filterMap (output? file) ∧
      M₁.modules = M.modules := by
  cases parsed with
  | binding name value =>
    simp only [Grammar.addStatement, Model.bind?] at h
    split at h
    · next extended hbind =>
      obtain rfl := Except.ok.inj h
      split at hbind
      · obtain rfl := Option.some.inj hbind
        exact ⟨rfl, (List.append_nil _).symm, rfl⟩
      · cases hbind
    · cases h
  | output feature path =>
    obtain rfl := Except.ok.inj h
    exact ⟨(List.append_nil _).symm, rfl, rfl⟩

/-- One statement, and those after it. -/
theorem cons {parsed : Grammar.Statement} {statements : List Sentence} (hc : c.In source)
    (hparsed : Grammar.statement ⟨registry, M⟩ c.start = .ok parsed rest)
    (hadd : Grammar.addStatement M parsed (.between c.start rest) file source = .ok M₁)
    (h : Added registry file source rest M₁ statements M') :
    Added registry file source c M (⟨parsed, .between c.start rest⟩ :: statements) M' := by
  obtain ⟨hbindings, houtputs, hmodules⟩ := first hadd
  obtain ⟨honward, hstart⟩ := Grammar.statement_finishes c.start parsed rest hparsed
  have htile := h.tile
  rw [hstart] at htile
  refine ⟨?_, ?_, h.modules.trans hmodules, ?_, rfl, honward.offset_lt, htile⟩
  · rw [h.bindings, hbindings, List.append_assoc, ← List.filterMap_append]
    rfl
  · rw [h.outputs, houtputs, List.append_assoc, ← List.filterMap_append]
    rfl
  · rintro before s after hsplit
    rcases List.cons_eq_append_iff.mp hsplit with ⟨rfl, hsame⟩ | ⟨before', rfl, hrest⟩
    · obtain ⟨rfl, -⟩ := List.cons_eq_cons.mp hsame.symm
      exact ⟨M, c.start, rest, (List.append_nil _).symm, hc.start, hparsed, rfl⟩
    · have hread := h.read before' s after hrest
      rw [hbindings, List.append_assoc, ← List.filterMap_append] at hread
      exact hread

end Sentence.Added

/-- Statements are read to the end of the text, if the bound on their number is large enough. -/
theorem statementsFrom_added {registry : Registry} {file source : String} {n : Nat} {c : Cursor}
    {M M' : Model} (hc : c.In source) (hn : c.rest.length < n)
    (h : Grammar.statementsFrom registry file source n c M = .ok M') :
    ∃ statements, Sentence.Added registry file source c M statements M' := by
  induction n generalizing c M with
  | zero => exact absurd hn (Nat.not_lt_zero _)
  | succ n ih =>
    unfold Grammar.statementsFrom at h
    extract_lets start g at h
    split at h
    · next hend =>
      obtain rfl := Except.ok.inj h
      exact ⟨[], .nothing hc (List.isEmpty_iff.mp hend)⟩
    · split at h
      · cases h
      · split at h
        · next parsed rest hparsed =>
          obtain ⟨extended, hadd, h⟩ := ok_of_bind h
          have honward := (Grammar.statement_finishes start parsed rest hparsed).1
          have hshort : rest.rest.length < n :=
            Nat.lt_of_lt_of_le honward.shorter
              (Nat.le_trans (Cursor.skip_length _ c) (Nat.le_of_lt_succ hn))
          obtain ⟨statements, hadded⟩ := ih (hc.start.onward honward) hshort h
          exact ⟨_, hadded.cons hc hparsed hadd⟩
        · cases h
        · cases h

/-- Import declarations are read one after the other. -/
theorem importsFrom_tile {file source : String} {n : Nat} {c last : Cursor}
    {imports : List Grammar.ImportDeclaration} (hc : c.In source)
    (h : Grammar.importsFrom file source n c = .ok (imports, last)) :
    last.In source ∧
      SourceSpan.Tile (imports.map (·.span)) c.start.offset last.start.offset := by
  induction n generalizing c imports with
  | zero =>
    obtain ⟨rfl, rfl⟩ := Prod.mk.inj (Except.ok.inj h)
    exact ⟨hc, rfl⟩
  | succ n ih =>
    unfold Grammar.importsFrom at h
    split at h
    · next declaration rest hdeclaration =>
      obtain ⟨⟨more, last'⟩, hmore, h⟩ := ok_of_bind h
      obtain ⟨rfl, rfl⟩ := Prod.mk.inj (Except.ok.inj h)
      obtain ⟨hspan, honward, hstart⟩ := Grammar.importDeclaration_at c declaration rest hdeclaration
      obtain ⟨hlast, htile⟩ := ih (hc.start.onward honward) hmore
      rw [hstart] at htile
      rw [List.map_cons, hspan]
      exact ⟨hlast, rfl, honward.offset_lt, htile⟩
    · obtain ⟨rfl, rfl⟩ := Prod.mk.inj (Except.ok.inj h)
      exact ⟨hc, rfl⟩
    · cases h

namespace Model

variable {registry : Registry} {M M' : Model}

/-- A text that is read adds its statements, and no module. -/
theorem read_adds {path source : String} (h : M.read registry path source = .ok M') :
    ∃ imports last statements,
      Grammar.leadingImports path source = .ok (imports, last) ∧ M'.modules = M.modules ∧
        M.Adds registry [⟨path, source, imports, statements⟩] M' := by
  obtain ⟨⟨imports, last⟩, himports, h⟩ := ok_of_bind h
  obtain ⟨extended, hread, h⟩ := ok_of_bind h
  obtain rfl := Except.ok.inj h
  obtain ⟨hlast, htile⟩ := importsFrom_tile (.ofText source) himports
  obtain ⟨statements, hadded⟩ := statementsFrom_added hlast (Nat.lt_succ_self _) hread
  refine ⟨imports, last, statements, himports, hadded.modules, ?_, ?_, ?_⟩
  · rw [List.flatMap_singleton]
    exact hadded.bindings
  · rw [List.flatMap_singleton]
    exact hadded.outputs
  · rintro before part after hsplit
    rcases List.cons_eq_append_iff.mp hsplit with ⟨rfl, hsame⟩ | ⟨before', rfl, hrest⟩
    · obtain ⟨rfl, -⟩ := List.cons_eq_cons.mp hsame.symm
      refine ⟨⟨last, himports⟩, fun before s after hs => ?_, htile.append hadded.tile⟩
      rw [List.flatMap_nil, List.append_nil]
      exact hadded.read before s after hs
    · simp at hrest

theorem Adds.append {M₁ : Model} {parts parts' : List Part} (h : M.Adds registry parts M₁)
    (h' : M₁.Adds registry parts' M') : M.Adds registry (parts ++ parts') M' where
  bindings := by rw [h'.bindings, h.bindings, List.append_assoc, List.flatMap_append]
  outputs := by rw [h'.outputs, h.outputs, List.append_assoc, List.flatMap_append]
  read := by
    rintro before part after hsplit
    rcases List.append_eq_append_iff.mp hsplit with ⟨before', rfl, hrest⟩ | ⟨after', hpart, hrest⟩
    · have hread := h'.read before' part after hrest
      rwa [h.bindings, List.append_assoc, ← List.flatMap_append] at hread
    · rcases List.cons_eq_append_iff.mp hrest with ⟨rfl, hparts'⟩ | ⟨after'', rfl, -⟩
      · have hread := h'.read [] part after hparts'
        rw [List.append_nil] at hpart
        rwa [h.bindings, hpart, List.flatMap_nil, List.append_nil] at hread
      · exact h.read before part after'' hpart

theorem Adds.nil (M : Model) : M.Adds registry [] M where
  bindings := (List.append_nil _).symm
  outputs := (List.append_nil _).symm
  read := fun before _ _ h => by simp at h

/-- Texts are read in their order, and each is then a module that has been loaded. -/
theorem readModules_adds {texts : List (String × String)} (hdistinct : (texts.map (·.1)).Nodup)
    (hfresh : ∀ path ∈ texts.map (·.1), M.isLoaded path = false)
    (h : readModules registry texts M = .ok M') :
    ∃ parts, parts.map (fun part => (part.path, part.source)) = texts ∧
      M'.modules = M.modules ++ texts.map (·.1) ∧ M.Adds registry parts M' := by
  induction texts generalizing M with
  | nil =>
    obtain rfl := Except.ok.inj h
    exact ⟨[], rfl, (List.append_nil _).symm, .nil M⟩
  | cons text rest ih =>
    obtain ⟨path, source⟩ := text
    obtain ⟨extended, hread, h⟩ := ok_of_bind h
    obtain ⟨imports, -, statements, -, hmodules, hadds⟩ := read_adds hread
    have hloaded : ∀ other, extended.isLoaded other = M.isLoaded other := fun other => by
      unfold isLoaded
      rw [hmodules]
    have hmark : extended.markLoaded path = { extended with modules := M.modules ++ [path] } := by
      unfold markLoaded
      rw [hloaded, hfresh path List.mem_cons_self, hmodules]
      rfl
    rw [hmark] at h
    rw [List.map_cons, List.nodup_cons] at hdistinct
    have hrest : ∀ other ∈ rest.map (·.1),
        isLoaded { extended with modules := M.modules ++ [path] } other = false := by
      intro other hother
      have hnot := hfresh other (List.mem_cons_of_mem _ hother)
      have hne : other ≠ path := fun heq => hdistinct.1 (heq ▸ hother)
      unfold isLoaded at hnot ⊢
      simpa [hne] using hnot
    obtain ⟨parts, hparts, hmodules', hadds'⟩ := ih hdistinct.2 hrest h
    refine ⟨⟨path, source, imports, statements⟩ :: parts, ?_, ?_, ?_⟩
    · rw [List.map_cons, hparts]
    · rw [hmodules', List.append_assoc]
      rfl
    · have hfirst : M.Adds registry [⟨path, source, imports, statements⟩]
          { extended with modules := M.modules ++ [path] } := ⟨hadds.bindings, hadds.outputs, hadds.read⟩
      exact hfirst.append hadds'

/-- A project adds the modules that its entry needs, each after what it imports. -/
theorem readProject_adds {library : Library} {entry : String}
    (h : (M.readProject registry library entry).1 = .ok M') :
    ∃ walk parts, library.walk M.isLoaded (ModulePath.normalize entry) = (.ok (), walk) ∧
      parts.map (fun part => (part.path, part.source)) = walk.order ∧
      M'.modules = M.modules ++ walk.paths ∧ M.Adds registry parts M' := by
  have hcovers := library.walk_covers M.isLoaded (ModulePath.normalize entry)
  unfold readProject at h
  split at h
  · next walk hwalk =>
    rw [hwalk] at hcovers
    obtain ⟨hsound, -, -⟩ := hcovers
    have hfresh : ∀ path ∈ walk.order.map (·.1), M.isLoaded path = false :=
      fun path hpath => (hsound.needed path hpath).fresh
    have hdistinct : walk.paths.Nodup := by simpa using hsound.distinct
    obtain ⟨parts, hparts, hmodules, hadds⟩ := readModules_adds hdistinct hfresh h
    exact ⟨walk, parts, hwalk, hparts, hmodules, hadds⟩
  · cases h

/-- A script adds its statements. It has no imports and is not a module. -/
theorem readScript_adds {source : String} (h : M.readScript registry source = .ok M') :
    ∃ statements, M'.modules = M.modules ∧
      M.Adds registry [⟨scriptName, source, [], statements⟩] M' := by
  obtain ⟨⟨imports, last⟩, himports, h⟩ := ok_of_bind h
  cases imports with
  | cons declaration _ => cases h
  | nil =>
    obtain ⟨imports', last', statements, himports', hmodules, hadds⟩ := read_adds h
    obtain ⟨rfl, -⟩ := Prod.mk.inj (Except.ok.inj (himports.symm.trans himports'))
    exact ⟨statements, hmodules, hadds⟩

end Model

/-! ## Loads -/

/-- The texts that a project adds are those of the modules that its entry needs, each after what
it imports. -/
def Library.Gives (library : Library) (M : Model) (entry : String) (parts : List Part)
    (M' : Model) : Prop :=
  ∃ walk, library.walk M.isLoaded (ModulePath.normalize entry) = (.ok (), walk) ∧
    parts.map (fun part => (part.path, part.source)) = walk.order ∧
    library.DependenciesFirst M.isLoaded walk.paths ∧ M'.modules = M.modules ++ walk.paths

/-- The texts that a load adds, and the modules that have been loaded then. -/
def Load.Gives (M : Model) (parts : List Part) (M' : Model) : Load → Prop
  | .script source => M'.modules = M.modules ∧
    ∃ statements, parts = [⟨Model.scriptName, source, [], statements⟩]
  | .project entry sources => ∃ library, Library.ofSources entry sources = .ok library ∧
    library.Gives M entry parts M'
  | .modules entry library => library.Gives M entry parts M'

theorem Model.readProject_gives {registry : Registry} {M M' : Model} {library : Library}
    {entry : String} (h : (M.readProject registry library entry).1 = .ok M') :
    ∃ parts, library.Gives M entry parts M' ∧ M.Adds registry parts M' := by
  have hcovers := library.walk_covers M.isLoaded (ModulePath.normalize entry)
  obtain ⟨walk, parts, hwalk, hparts, hmodules, hadds⟩ := readProject_adds h
  rw [hwalk] at hcovers
  exact ⟨parts, ⟨walk, hwalk, hparts, hcovers.1.ordered, hmodules⟩, hadds⟩

theorem Model.loaded_gives {registry : Registry} {M M' : Model} {what : Load}
    (h : M.loaded registry what = .ok M') :
    ∃ parts, what.Gives M parts M' ∧ M.Adds registry parts M' := by
  cases what with
  | script source =>
    obtain ⟨statements, hmodules, hadds⟩ := readScript_adds h
    exact ⟨_, ⟨hmodules, statements, rfl⟩, hadds⟩
  | project entry sources =>
    obtain ⟨library, hlibrary, h⟩ := ok_of_bind h
    obtain ⟨parts, hgives, hadds⟩ := readProject_gives h
    exact ⟨parts, ⟨library, hlibrary, hgives⟩, hadds⟩
  | modules entry library => exact readProject_gives h

namespace Workshop

/-- A load that fails leaves a workshop as it was. One that succeeds leaves all that has been
built, and adds to the names of one session what stands in the texts that it reads. -/
theorem load_adds (shop : Workshop) (id : Nat) (what : Load) :
    (∀ e shop', shop.load id what = (.error e, shop') → shop' = shop) ∧
    (∀ shop', shop.load id what = (.ok (), shop') →
      ∃ M' parts, shop' = shop.setModel id M' ∧ (∀ other, shop'.state other = shop.state other) ∧
        what.Gives (shop.session id).model parts M' ∧
        (shop.session id).model.Adds shop.registry parts M') := by
  rw [load_eq]
  cases h : (shop.session id).model.loaded shop.registry what with
  | error e =>
    refine ⟨fun _ shop' hfail => ((Prod.mk.inj hfail).2).symm, fun shop' hok => ?_⟩
    cases (Prod.mk.inj hok).1
  | ok M' =>
    refine ⟨fun _ shop' hfail => ?_, fun shop' hok => ?_⟩
    · cases (Prod.mk.inj hfail).1
    · obtain rfl := (Prod.mk.inj hok).2
      obtain ⟨parts, hgives, hadds⟩ := Model.loaded_gives h
      exact ⟨M', parts, rfl, fun other => state_setModel shop id other M', hgives, hadds⟩

/-- An entry module that imports another one. -/
def rounded : Load :=
  .project "main" [("radius", "r = 1; # shared"),
    ("main", "import \"radius\";\n\ns = r;\nt = s + s;\n")]

set_option maxRecDepth 100000 in
/-- Both modules are added to an empty session, to which a script that binds a name twice adds
nothing. -/
theorem load_adds_rounded :
    let shop := create Catalog.registry (Symbolic.backend []) .session
    (∃ e, shop.load 0 (.script "a = b; a = c;") = (.error e, shop)) ∧
    ∃ shop' parts, shop.load 0 rounded = (.ok (), shop') ∧ shop'.state 0 = shop.state 0 ∧
      (shop'.session 0).model.modules = ["radius", "main"] ∧
      Model.empty.Adds Catalog.registry parts (shop'.session 0).model := by
  intro shop
  constructor
  · have hfails : (shop.load 0 (.script "a = b; a = c;")).1.isOk = false := by decide +kernel
    rcases h : shop.load 0 (.script "a = b; a = c;") with ⟨e | _, shop'⟩
    · exact ⟨e, by rw [(load_adds shop 0 _).1 e shop' h]⟩
    · rw [h] at hfails
      cases hfails
  · have hloads : (shop.load 0 rounded).1 = .ok () := by decide +kernel
    have hmodules : ((shop.load 0 rounded).2.session 0).model.modules = ["radius", "main"] := by
      decide +kernel
    rcases h : shop.load 0 rounded with ⟨outcome, shop'⟩
    rw [h] at hloads hmodules
    obtain rfl : outcome = .ok () := hloads
    obtain ⟨M', parts, rfl, hstate, -, hadds⟩ := (load_adds shop 0 rounded).2 shop' h
    have hmodel : ((shop.setModel 0 M').session 0).model = M' := by
      rw [session_setModel, if_pos rfl]
    exact ⟨_, parts, rfl, hstate 0, hmodules, hmodel ▸ hadds⟩

end Workshop

end PartScript
