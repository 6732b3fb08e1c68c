/-
  Where errors point. A place in a text is known by what stands before it: its offset counts the
  bytes of that, its line the line feeds in it, and its column the characters after the last of
  these. Lines are listed without a carriage return right before their line feed, so a place between
  the two would lie behind the end of its line in the listing. No rule ever reaches one: blanks are
  skipped together, and nothing else takes a carriage return.
-/
import Mathlib.Data.List.DropRight
import PartScript.Build.Symbolic
import PartScript.Proofs.Orderly

namespace PartScript

open Grammar Grammar.Parser

/-! ## Lines -/

namespace Text

variable {c : Char} {cs seen before after : List Char}

/-- The part of the last line of a text. -/
def lastLine (cs : List Char) : List Char := cs.rtakeWhile (· != '\n')

theorem lastLine_concat (h : c ≠ '\n') : lastLine (cs ++ [c]) = lastLine cs ++ [c] :=
  List.rtakeWhile_concat_pos (· != '\n') cs c (by simpa using h)

/-- Nothing before a line feed stands on the line after it. -/
theorem lastLine_feed (cs before : List Char) :
    lastLine (cs ++ '\n' :: before) = lastLine before := by
  induction before using List.reverseRecOn with
  | nil => exact List.rtakeWhile_concat_neg (· != '\n') cs '\n' (by simp)
  | append_singleton before c ih =>
    rw [← List.cons_append, ← List.append_assoc]
    by_cases hfeed : c = '\n'
    · subst hfeed
      have hnil : ∀ xs, lastLine (xs ++ ['\n']) = [] := fun xs =>
        List.rtakeWhile_concat_neg (· != '\n') xs '\n' (by simp)
      rw [hnil, hnil]
    · rw [lastLine_concat hfeed, lastLine_concat hfeed, ih]

theorem lastLine_eq_self (h : '\n' ∉ cs) : lastLine cs = cs :=
  List.rtakeWhile_eq_self_iff.mpr fun c hc => by
    have hne : c ≠ '\n' := fun heq => h (heq ▸ hc)
    simpa using hne

theorem linesFrom_cons (h : c ≠ '\n') : linesFrom seen (c :: cs) = linesFrom (c :: seen) cs := by
  rw [linesFrom]
  exact h

theorem dropReturn_of_ne (h : seen.head? ≠ some '\r') : dropReturn seen = seen := by
  unfold dropReturn
  split
  · exact absurd rfl h
  · rfl

/-- A carriage return and its line feed are on both sides. -/
def Torn (before after : List Char) : Prop :=
  before.getLast? = some '\r' ∧ after.head? = some '\n'

/-- What is left of the line at a place, as the line is listed: up to the line feed, or to the
carriage return right before it. -/
def lineRest : List Char → List Char
  | [] => []
  | c :: cs => if c = '\n' ∨ c = '\r' ∧ cs.head? = some '\n' then [] else c :: lineRest cs

/-- The current line is listed with what has been seen of it and what is left of it. -/
theorem linesFrom_head (h : ¬ Torn seen.reverse after) :
    (linesFrom seen after).getD 0 [] = seen.reverse ++ lineRest after := by
  induction after generalizing seen with
  | nil => cases seen <;> simp [linesFrom, lineRest]
  | cons c after ih =>
    by_cases hfeed : c = '\n'
    · subst hfeed
      have hseen : seen.head? ≠ some '\r' := fun hreturn =>
        h ⟨by rw [List.getLast?_reverse, hreturn], rfl⟩
      rw [linesFrom, dropReturn_of_ne hseen, List.getD_cons_zero, lineRest, if_pos (.inl rfl),
        List.append_nil]
    · rw [linesFrom_cons hfeed, lineRest]
      by_cases htorn : c = '\r' ∧ after.head? = some '\n'
      · obtain ⟨rfl, hhead⟩ := htorn
        obtain ⟨cs, rfl⟩ := List.head?_eq_some_iff.mp hhead
        rw [if_pos (.inr ⟨rfl, hhead⟩), linesFrom, List.getD_cons_zero, List.append_nil]
        rfl
      · have hnot : ¬ Torn (c :: seen).reverse after := fun h =>
          htorn ⟨by simpa using h.1, h.2⟩
        rw [if_neg (not_or.mpr ⟨hfeed, htorn⟩), ih hnot, List.reverse_cons, List.append_assoc,
          List.singleton_append]

/-- The line of a place is listed with what stands before the place on it and what is left of it. -/
theorem linesFrom_line (h : ¬ Torn (seen.reverse ++ before) after) (hseen : '\n' ∉ seen) :
    (linesFrom seen (before ++ after)).getD (before.count '\n') [] =
      lastLine (seen.reverse ++ before) ++ lineRest after := by
  induction before generalizing seen with
  | nil =>
    rw [List.append_nil] at h ⊢
    rw [lastLine_eq_self (mt List.mem_reverse.mp hseen)]
    exact linesFrom_head h
  | cons c before ih =>
    by_cases hfeed : c = '\n'
    · subst hfeed
      have hafter : ¬ Torn (([] : List Char).reverse ++ before) after := fun hbefore =>
        h ⟨by simp_all [Torn, List.getLast?_append, List.getLast?_cons], hbefore.2⟩
      rw [lastLine_feed, List.cons_append, linesFrom, List.count_cons_self, List.getD_cons_succ]
      exact ih hafter List.not_mem_nil
    · have hassoc : seen.reverse ++ c :: before = (c :: seen).reverse ++ before := by simp
      rw [hassoc] at h ⊢
      rw [List.cons_append, linesFrom_cons hfeed, List.count_cons_of_ne hfeed]
      exact ih h fun hmem => (List.mem_cons.mp hmem).elim (fun heq => hfeed heq.symm) hseen

theorem lines_getD (text : String) (n : Nat) :
    ((lines text).getD n "").toList = (linesFrom [] text.toList).getD n [] := by
  rw [lines, List.getD_eq_getElem?_getD, List.getD_eq_getElem?_getD, List.getElem?_map]
  cases (linesFrom [] text.toList)[n]? with
  | none => rfl
  | some line => exact String.toList_ofList

end Text

/-! ## Places -/

namespace Cursor

/-- What stands before a place in a text, and what the place says of it. -/
structure Stands (source : String) (before : List Char) (c : Cursor) : Prop where
  text : source.toList = before ++ c.rest
  offset : c.offset = String.utf8Len before
  line : c.line = before.count '\n' + 1
  column : c.column = (Text.lastLine before).length + 1

/-- A place in a text that is not between a carriage return and its line feed. -/
def Sits (source : String) (c : Cursor) : Prop :=
  ∃ before, c.Stands source before ∧ ¬ Text.Torn before c.rest

variable {source : String} {before : List Char} {c : Cursor}

theorem stands_ofText (source : String) : (ofText source).Stands source [] :=
  ⟨rfl, rfl, rfl, rfl⟩

theorem Stands.next {ch : Char} {cs : List Char} (h : c.Stands source before)
    (hrest : c.rest = ch :: cs) : c.next.Stands source (before ++ [ch]) := by
  have htext : source.toList = (before ++ [ch]) ++ cs := by simp [h.text, hrest]
  have hlen : String.utf8Len (before ++ [ch]) = String.utf8Len before + ch.utf8Size := by simp
  by_cases hfeed : ch = '\n'
  · subst hfeed
    have hnext : c.next = ⟨cs, c.offset + 1, c.line + 1, 1⟩ := by simp [Cursor.next, hrest]
    rw [hnext]
    refine ⟨htext, ?_, ?_, ?_⟩
    · rw [hlen, h.offset]
      rfl
    · simp [h.line]
    · rw [Text.lastLine_feed]
      rfl
  · have hnext : c.next = ⟨cs, c.offset + ch.utf8Size, c.line, c.column + 1⟩ := by
      unfold Cursor.next
      rw [hrest]
      split
      · next heq => cases heq
      · next heq => exact absurd (List.cons.inj heq).1 hfeed
      · next heq =>
        obtain ⟨rfl, rfl⟩ := List.cons.inj heq
        rfl
    rw [hnext]
    refine ⟨htext, ?_, ?_, ?_⟩
    · rw [hlen, h.offset]
    · simp [h.line, hfeed]
    · rw [Text.lastLine_concat hfeed, List.length_append, h.column]
      rfl

theorem Stands.skip (n : Nat) (h : c.Stands source before) :
    ∃ before, (c.skip n).Stands source before := by
  induction n generalizing c before with
  | zero => exact ⟨before, h⟩
  | succ n ih =>
    cases hrest : c.rest with
    | nil =>
      have hnext : c.next = c := by simp [Cursor.next, hrest]
      rw [Cursor.skip, hnext]
      exact ih h
    | cons ch cs => exact ih (h.next hrest)

/-- After blanks and comments no line feed follows. -/
theorem start_head?_ne_feed (c : Cursor) : c.start.rest.head? ≠ some '\n' := by
  intro hhead
  have hnone : triviaLength false c.start.rest = 0 := by
    rw [start, skip_rest]
    exact triviaLength_drop false c.rest
  cases hrest : c.start.rest with
  | nil => simp [hrest] at hhead
  | cons ch cs =>
    obtain rfl : ch = '\n' := by simpa [hrest] using hhead
    rw [hrest, triviaLength] at hnone
    exact absurd hnone (Nat.succ_ne_zero _)

theorem sits_ofText (source : String) : (ofText source).Sits source :=
  ⟨[], stands_ofText source, fun h => nomatch h.1⟩

theorem Sits.start (h : c.Sits source) : c.start.Sits source := by
  obtain ⟨before, hbefore, -⟩ := h
  obtain ⟨after, hafter⟩ := hbefore.skip (triviaLength false c.rest)
  exact ⟨after, hafter, fun htorn => c.start_head?_ne_feed htorn.2⟩

theorem Sits.next {ch : Char} {cs : List Char} (h : c.Sits source) (hrest : c.rest = ch :: cs)
    (hch : ch ≠ '\r') : c.next.Sits source := by
  obtain ⟨before, hbefore, -⟩ := h
  refine ⟨before ++ [ch], hbefore.next hrest, fun htorn => hch ?_⟩
  have hlast : (before ++ [ch]).getLast? = some '\r' := htorn.1
  simpa using hlast

/-- The line of a place that is not within the end of a line. -/
theorem Stands.line_toList (h : c.Stands source before) (htorn : ¬ Text.Torn before c.rest) :
    ((Text.lines source).getD (c.line - 1) "").toList =
      Text.lastLine before ++ Text.lineRest c.rest := by
  have hline := @Text.linesFrom_line [] before c.rest htorn nofun
  rw [Text.lines_getD, h.line, h.text]
  exact hline

/-- What stands before a place on its line is listed. -/
theorem Stands.lastLine_isPrefix (h : c.Stands source before) (htorn : ¬ Text.Torn before c.rest) :
    Text.lastLine before <+: ((Text.lines source).getD (c.line - 1) "").toList := by
  rw [h.line_toList htorn]
  exact List.prefix_append _ _

end Cursor

/-- The places of a text at which its rules keep. -/
def Grammar.watch (g : Grammar) (source : String) : Watch := ⟨g, (·.Sits source)⟩

theorem Grammar.watch_lawful (g : Grammar) (source : String) : (g.watch source).Lawful :=
  ⟨Cursor.Sits.start, Cursor.Sits.next⟩

/-! ## The stop that is reported -/

namespace Grammar

/-- A stop that no other one lies behind. -/
def Furthest (stops : List Stop) (s : Stop) : Prop :=
  s ∈ stops ∧ ∀ t ∈ stops, t.cursor.offset ≤ s.cursor.offset

theorem reach_concat (stops : List Stop) (s : Stop) :
    reach (stops ++ [s]) = max (reach stops) s.cursor.offset := by
  simp [reach, List.foldl_append]

theorem offset_le_reach {stops : List Stop} : ∀ s ∈ stops, s.cursor.offset ≤ reach stops := by
  induction stops using List.reverseRecOn with
  | nil => nofun
  | append_singleton stops t ih =>
    intro s hs
    rw [reach_concat]
    rcases List.mem_append.mp hs with hs | hs
    · exact Nat.le_trans (ih s hs) (Nat.le_max_left _ _)
    · obtain rfl := List.mem_singleton.mp hs
      exact Nat.le_max_right _ _

theorem exists_reach {stops : List Stop} (h : stops ≠ []) :
    ∃ s ∈ stops, s.cursor.offset = reach stops := by
  induction stops using List.reverseRecOn with
  | nil => exact absurd rfl h
  | append_singleton stops t ih =>
    rw [reach_concat]
    rcases Nat.le_total (reach stops) t.cursor.offset with hle | hle
    · exact ⟨t, by simp, (Nat.max_eq_right hle).symm⟩
    · by_cases hstops : stops = []
      · subst hstops
        exact ⟨t, by simp, (Nat.max_eq_right (Nat.zero_le _)).symm⟩
      · obtain ⟨s, hs, hreach⟩ := ih hstops
        exact ⟨s, List.mem_append_left _ hs, by rw [hreach, Nat.max_eq_left hle]⟩

/-- Where reading stopped at all, a furthest stop is reported. -/
theorem exists_furthest {stops : List Stop} (h : stops ≠ []) :
    ∃ s, furthest? stops = some s ∧ Furthest stops s := by
  obtain ⟨t, ht, hreach⟩ := exists_reach h
  have hlast : t ∈ stops.filter fun s => s.cursor.offset = reach stops :=
    List.mem_filter.mpr ⟨ht, decide_eq_true hreach⟩
  have hsome : ∃ s, furthest? stops = some s ∧
      s ∈ stops.filter fun s => s.cursor.offset = reach stops := by
    unfold furthest?
    dsimp only
    split
    · next found hfound => exact ⟨found, rfl, List.mem_of_find?_eq_some hfound⟩
    · cases hfilter : stops.filter fun s => s.cursor.offset = reach stops with
      | nil =>
        rw [hfilter] at hlast
        cases hlast
      | cons s rest => exact ⟨s, rfl, List.mem_cons_self⟩
  obtain ⟨s, hs, hmem⟩ := hsome
  obtain ⟨hmem, heq⟩ := List.mem_filter.mp hmem
  exact ⟨s, hs, hmem, fun u hu => of_decide_eq_true heq ▸ offset_le_reach u hu⟩

/-! ## Where texts fail -/

/-- Where the imports of a text cannot be read: at a furthest stop of one. -/
inductive ImportsFail : Cursor → SourceSpan → Prop where
  | here {c stops notice s} : importDeclaration c = .failure stops notice → Furthest stops s →
    ImportsFail c (.between s.cursor s.cursor)
  | later {c declaration rest span} : importDeclaration c = .ok declaration rest →
    ImportsFail rest span → ImportsFail c span

/-- A place where a statement other than an import has to be read. -/
def Awaits (c : Cursor) : Prop :=
  c.start.rest ≠ [] ∧ ∀ place stop, keyword "import" c.start ≠ .ok place stop

/-- Where the statements of a text cannot be read: at an import among them, over the range of a
diagnostic of the grammar, at a furthest stop, or over a statement that cannot be added. -/
inductive StatementsFail (registry : Registry) (file source : String) :
    Cursor → Model → SourceSpan → Prop where
  | late {c model place stop} : c.start.rest ≠ [] → keyword "import" c.start = .ok place stop →
    StatementsFail registry file source c model (.between c.start stop)
  | notice {c model stops notice} : Awaits c →
    statement ⟨registry, model⟩ c.start = .failure stops (some notice) →
    StatementsFail registry file source c model notice.span
  | failure {c model stops s} : Awaits c →
    statement ⟨registry, model⟩ c.start = .failure stops none → Furthest stops s →
    StatementsFail registry file source c model (.between s.cursor s.cursor)
  | error {c model stops s} : Awaits c → statement ⟨registry, model⟩ c.start = .error stops →
    Furthest stops s → StatementsFail registry file source c model (.between s.cursor s.cursor)
  | refused {c model parsed rest e} : Awaits c →
    statement ⟨registry, model⟩ c.start = .ok parsed rest →
    addStatement model parsed (.between c.start rest) file source = .error e →
    StatementsFail registry file source c model (.between c.start rest)
  | later {c model parsed rest extended span} : Awaits c →
    statement ⟨registry, model⟩ c.start = .ok parsed rest →
    addStatement model parsed (.between c.start rest) file source = .ok extended →
    StatementsFail registry file source rest extended span →
    StatementsFail registry file source c model span

/-- What an error of reading a text says. -/
inductive Phrased (registry : Registry) : CompileErrorKind → String → Prop where
  | mismatch (m : Mismatch) : Phrased registry .malformed m.message
  | unknown (word : String) :
    Phrased registry .malformed s!"Syntax error: unknown identifier '{word}'"
  | otherKind (word : String) (found : SymbolKind) (label : String) :
    Phrased registry .malformed s!"Syntax error: '{word}' is a {found.name}, expected {label}"
  | words {model kind message} : Words ⟨registry, model⟩ kind message →
    Phrased registry kind message
  | late : Phrased registry .malformed "Syntax error: imports must precede all other statements"
  | duplicate (name : String) : Phrased registry .duplicateSymbol s!"Duplicate symbol '{name}'"
  | noLoader (path : String) :
    Phrased registry .unreadableImport s!"Failed to load import '{path}': no loader configured"

/-- An error at a range that begins at a place of the text. -/
def Points (registry : Registry) (file source : String) (e : CompileError) (span : SourceSpan) :
    Prop :=
  (∃ kind message, Phrased registry kind message ∧ e = .atSpan kind message file source span) ∧
    ∃ start stop, start.Sits source ∧ span = .between start stop

section Errors

variable {g : Grammar} {registry : Registry} {file source : String} {stops : List Stop}
  {e : CompileError} {n : Nat} {c : Cursor} {M : Model}

theorem malformedAt_points (h : (g.watch source).Stopped stops) :
    ∃ s, Furthest stops s ∧
      Points registry file source (malformedAt stops file source) (.between s.cursor s.cursor) := by
  obtain ⟨s, hs, hfurthest⟩ := exists_furthest h.1
  refine ⟨s, hfurthest, ⟨.malformed, s.mismatch.message, .mismatch _, ?_⟩, s.cursor, s.cursor,
    h.2 s hfurthest.1, rfl⟩
  rw [malformedAt, hs]

theorem explanation_phrased {s : Stop} {message : String} (h : g.explanation? s = some message) :
    Phrased registry .malformed message := by
  unfold explanation? at h
  split at h
  · split at h
    · split at h
      · split at h
        · cases h
        · split at h
          · exact Option.some.inj h ▸ .unknown _
          · exact Option.some.inj h ▸ .otherKind _ _ _
      · cases h
    · cases h
  · cases h

/-- Without a notice the error stands at a furthest stop, however it is worded. -/
theorem diagnose_points (h : (g.watch source).Stopped stops) :
    ∃ s, Furthest stops s ∧
      Points registry file source (g.diagnose stops none file source)
        (.between s.cursor s.cursor) := by
  obtain ⟨s, hs, hfurthest⟩ := exists_furthest h.1
  have hplace : ∃ start stop, start.Sits source ∧
      SourceSpan.between s.cursor s.cursor = .between start stop :=
    ⟨s.cursor, s.cursor, h.2 s hfurthest.1, rfl⟩
  refine ⟨s, hfurthest, ?_, hplace⟩
  unfold diagnose
  dsimp only
  rw [malformedAt, hs, Option.bind_some]
  cases hexplained : g.explanation? s with
  | none => exact ⟨.malformed, _, .mismatch _, rfl⟩
  | some message => exact ⟨.malformed, message, explanation_phrased hexplained, rfl⟩

theorem importsFrom_points (hc : c.Sits source) (h : importsFrom file source n c = .error e) :
    ∃ span, ImportsFail c span ∧ Points registry file source e span := by
  induction n generalizing c with
  | zero => cases h
  | succ n ih =>
    have hfair := Watch.importDeclaration (watch_lawful ⟨registry, .empty⟩ source) c hc
    unfold importsFrom at h
    cases hdeclaration : importDeclaration c <;> rw [hdeclaration] at h hfair <;> cases hfair
    case error => cases h
    case failure hstopped _ =>
      obtain rfl := Except.error.inj h
      obtain ⟨s, hfurthest, hpoints⟩ := malformedAt_points hstopped
      exact ⟨_, .here hdeclaration hfurthest, hpoints⟩
    case ok declaration rest _ hrest =>
      dsimp only at h
      cases hmore : importsFrom file source n rest with
      | ok more =>
        rw [hmore] at h
        cases h
      | error e' =>
        rw [hmore] at h
        obtain rfl := Except.error.inj h
        obtain ⟨span, hfail, hpoints⟩ := ih hrest hmore
        exact ⟨span, .later hdeclaration hfail, hpoints⟩

/-- Where the imports of a text end, and where they stand. -/
theorem importsFrom_sits (hc : c.Sits source) {imports : List ImportDeclaration} {last : Cursor}
    (h : importsFrom file source n c = .ok (imports, last)) :
    last.Sits source ∧ ∀ d ∈ imports, ∃ start stop, start.Sits source ∧ d.span = .between start stop := by
  induction n generalizing c imports with
  | zero =>
    obtain ⟨rfl, rfl⟩ := Prod.mk.inj (Except.ok.inj h)
    exact ⟨hc, nofun⟩
  | succ n ih =>
    have hfair := Watch.importDeclaration (watch_lawful ⟨.empty, .empty⟩ source) c hc
    unfold importsFrom at h
    cases hdeclaration : importDeclaration c <;> rw [hdeclaration] at h hfair <;> cases hfair
    case error =>
      obtain ⟨rfl, rfl⟩ := Prod.mk.inj (Except.ok.inj h)
      exact ⟨hc, nofun⟩
    case failure => cases h
    case ok declaration rest hspan hrest =>
      dsimp only at h
      cases hmore : importsFrom file source n rest with
      | error e =>
        rw [hmore] at h
        cases h
      | ok found =>
        obtain ⟨more, last'⟩ := found
        rw [hmore] at h
        obtain ⟨rfl, rfl⟩ := Prod.mk.inj (Except.ok.inj h)
        obtain ⟨hend, hmore⟩ := ih hrest hmore
        obtain ⟨start, stop, hstart, -, hdspan⟩ := hspan
        exact ⟨hend, List.forall_mem_cons.mpr ⟨⟨start, stop, hstart, hdspan⟩, hmore⟩⟩

theorem addStatement_error {parsed : Statement} {span : SourceSpan}
    (h : addStatement M parsed span file source = .error e) :
    ∃ kind message, Phrased registry kind message ∧
      e = .atSpan kind message file source span := by
  cases parsed with
  | output feature path => cases h
  | binding name value =>
    unfold addStatement at h
    dsimp only at h
    split at h
    · cases h
    · exact ⟨_, _, .duplicate name, (Except.error.inj h).symm⟩

theorem statementsFrom_points (hc : c.Sits source)
    (h : statementsFrom registry file source n c M = .error e) :
    ∃ span, StatementsFail registry file source c M span ∧
      Points registry file source e span := by
  induction n generalizing c M with
  | zero => cases h
  | succ n ih =>
    have hfair := Watch.statement (watch_lawful ⟨registry, M⟩ source) c.start hc.start
    change (watch ⟨registry, M⟩ source).Fair _ (statement ⟨registry, M⟩ c.start) at hfair
    unfold statementsFrom at h
    dsimp only at h
    rw [show c.skip (triviaLength false c.rest) = c.start from rfl] at h
    split at h
    · cases h
    · next hsome =>
      have hrest : c.start.rest ≠ [] := fun hnil => hsome (List.isEmpty_iff.mpr hnil)
      split at h
      · next place stop hkeyword =>
        exact ⟨_, .late hrest hkeyword, ⟨_, _, .late, (Except.error.inj h).symm⟩, c.start, stop,
          hc.start, rfl⟩
      · next hkeyword =>
        have hawaits : Awaits c := ⟨hrest, hkeyword⟩
        cases hstatement : statement ⟨registry, M⟩ c.start <;> rw [hstatement] at h hfair <;>
          cases hfair
        case error hstopped =>
          obtain rfl := Except.error.inj h
          obtain ⟨s, hfurthest, hpoints⟩ := diagnose_points hstopped
          exact ⟨_, .error hawaits hstatement hfurthest, hpoints⟩
        case failure stops notice hstopped hnotice =>
          obtain rfl := Except.error.inj h
          cases notice with
          | none =>
            obtain ⟨s, hfurthest, hpoints⟩ := diagnose_points hstopped
            exact ⟨_, .failure hawaits hstatement hfurthest, hpoints⟩
          | some notice =>
            obtain ⟨hwords, start, stop, hstart, -, hspan⟩ := hnotice notice rfl
            exact ⟨_, .notice hawaits hstatement, ⟨_, _, .words hwords, rfl⟩, start, stop, hstart,
              hspan⟩
        case ok parsed rest _ hsits =>
          dsimp only at h
          cases hadd : addStatement M parsed (.between c.start rest) file source with
          | error e' =>
            rw [hadd] at h
            obtain rfl := Except.error.inj h
            exact ⟨_, .refused hawaits hstatement hadd, addStatement_error hadd, c.start, rest,
              hc.start, rfl⟩
          | ok extended =>
            rw [hadd] at h
            obtain ⟨span, hfail, hpoints⟩ := ih hsits h
            exact ⟨span, .later hawaits hstatement hadd hfail, hpoints⟩

end Errors

end Grammar

/-- Where a script cannot be loaded: where its imports cannot be read, at the first of them, which it
must not have, or where its statements cannot be read. -/
inductive Model.ScriptFails (M : Model) (registry : Registry) (source : String) : SourceSpan → Prop where
  | imports {span} : ImportsFail (Cursor.ofText source) span → ScriptFails M registry source span
  | declared {declaration more last} :
    leadingImports scriptName source = .ok (declaration :: more, last) →
    ScriptFails M registry source declaration.span
  | statements {last span} : leadingImports scriptName source = .ok ([], last) →
    StatementsFail registry scriptName source last M span → ScriptFails M registry source span

/-- A text cannot be read where its imports cannot be, or its statements. -/
theorem Model.read_points {M : Model} {registry : Registry} {file source : String}
    {e : CompileError} (h : M.read registry file source = .error e) :
    ∃ span, (ImportsFail (Cursor.ofText source) span ∨
      ∃ imports last, leadingImports file source = .ok (imports, last) ∧
        StatementsFail registry file source last M span) ∧
      Points registry file source e span := by
  have hsits := Cursor.sits_ofText source
  unfold read at h
  cases himports : leadingImports file source with
  | error e' =>
    rw [himports] at h
    obtain rfl := Except.error.inj h
    obtain ⟨span, hfail, hpoints⟩ := importsFrom_points hsits himports
    exact ⟨span, .inl hfail, hpoints⟩
  | ok found =>
    obtain ⟨imports, last⟩ := found
    obtain ⟨hlast, -⟩ := importsFrom_sits hsits himports
    rw [himports] at h
    replace h : (statementsFrom registry file source (last.rest.length + 1) last M >>=
      fun extended => .ok extended.nextSource) = .error e := h
    cases hstatements : statementsFrom registry file source (last.rest.length + 1) last M with
    | ok extended =>
      rw [hstatements] at h
      cases h
    | error e' =>
      rw [hstatements] at h
      obtain rfl := Except.error.inj h
      obtain ⟨span, hfail, hpoints⟩ := statementsFrom_points hlast hstatements
      exact ⟨span, .inr ⟨imports, last, rfl, hfail⟩, hpoints⟩

theorem Model.readScript_points {M : Model} {registry : Registry} {source : String}
    {e : CompileError} (h : M.readScript registry source = .error e) :
    ∃ span, M.ScriptFails registry source span ∧ Points registry scriptName source e span := by
  have hsits := Cursor.sits_ofText source
  unfold readScript at h
  cases himports : leadingImports scriptName source with
  | error e' =>
    rw [himports] at h
    obtain rfl := Except.error.inj h
    obtain ⟨span, hfail, hpoints⟩ := importsFrom_points hsits himports
    exact ⟨span, .imports hfail, hpoints⟩
  | ok found =>
    obtain ⟨imports, last⟩ := found
    rw [himports] at h
    cases imports with
    | cons declaration more =>
      obtain ⟨-, hspans⟩ := importsFrom_sits hsits himports
      obtain ⟨start, stop, hstart, hspan⟩ := hspans declaration List.mem_cons_self
      exact ⟨_, .declared himports, ⟨_, _, .noLoader _, (Except.error.inj h).symm⟩, start, stop,
        hstart, hspan⟩
    | nil =>
      obtain ⟨span, hfail | ⟨imports, last', himports', hfail⟩, hpoints⟩ := read_points h
      · exact ⟨span, .imports hfail, hpoints⟩
      · rw [himports] at himports'
        obtain ⟨rfl, rfl⟩ := Prod.mk.inj (Except.ok.inj himports')
        exact ⟨span, .statements himports hfail, hpoints⟩

/-- The carets stand under the place if the line is listed up to there. -/
theorem CompileError.caretLine_toList {width : Nat} {span : SourceSpan}
    (h : span.column - 1 ≤ width) :
    ∃ k, (caretLine width span).toList =
      List.replicate (span.column - 1) ' ' ++ List.replicate (k + 1) '^' := by
  have hcarets : ∀ m n : Nat, ∃ k, min (max m 1) (max n 1) = k + 1 := fun m n =>
    ⟨min (max m 1) (max n 1) - 1, by omega⟩
  obtain ⟨k, hk⟩ := hcarets span.length (width - min (span.column - 1) width)
  refine ⟨k, ?_⟩
  unfold caretLine
  dsimp only
  rw [String.toList_ofList, hk, Nat.min_eq_left h]

/-- An error of loading a script points at its source. It stands where the text fails: at the start
of the range that is reported, or at a furthest place at which reading stopped. What stands before
that place gives its line, by the line feeds in it, and its column, by the characters after the last
of these. The snippet is this line as it is listed, which is empty behind the last one. It begins
with what stands before the place, and the first caret stands right under the place. -/
theorem Workshop.load_errors_point {shop shop' : Workshop} {id : Nat} {source : String}
    {e : CompileError} (h : shop.loadScript id source = (.error e, shop')) :
    ∃ span before after, (shop.session id).model.ScriptFails shop.registry source span ∧
      e = .atSpan e.kind e.message Model.scriptName source span ∧
      source.toList = before ++ after ∧ span.start = String.utf8Len before ∧
      (1 ≤ e.line ∧ e.line = before.count '\n' + 1) ∧
      (1 ≤ e.column ∧ e.column = (Text.lastLine before).length + 1) ∧ e.hasLocation = true ∧
      e.snippet = (Text.lines source).getD (e.line - 1) "" ∧
      Text.lastLine before <+: e.snippet.toList ∧
      ∃ k, e.pointer.toList =
        List.replicate (e.column - 1) ' ' ++ List.replicate (k + 1) '^' := by
  have hread : (shop.session id).model.readScript shop.registry source = .error e := by
    unfold loadScript adopt at h
    split at h
    · cases h
    · next hread =>
      exact hread.trans (congrArg Except.error (Except.error.inj (Prod.mk.inj h).1))
  obtain ⟨span, hfails, ⟨kind, message, -, rfl⟩, start, stop, ⟨before, hstands, htorn⟩, rfl⟩ :=
    Model.readScript_points hread
  have hprefix := hstands.lastLine_isPrefix htorn
  have hwidth : start.column - 1 ≤ ((Text.lines source).getD (start.line - 1) "").length := by
    rw [hstands.column, ← String.length_toList]
    exact hprefix.length_le
  refine ⟨_, before, start.rest, hfails, rfl, hstands.text, hstands.offset, ⟨?_, hstands.line⟩,
    ⟨?_, hstands.column⟩, ?_, rfl, hprefix, CompileError.caretLine_toList hwidth⟩
  · show 1 ≤ start.line
    rw [hstands.line]
    exact Nat.le_add_left 1 _
  · show 1 ≤ start.column
    rw [hstands.column]
    exact Nat.le_add_left 1 _
  · show (decide (start.line ≠ 0) && decide (start.column ≠ 0)) = true
    rw [hstands.line, hstands.column]
    rfl

/-- A script in which a value is missing. Its lines end with a carriage return and a line feed. -/
def unfinished : String := "a = 1;\r\nb = # later\r\n  ;\r\n"

set_option maxRecDepth 100000 in
/-- The semicolon is found in place of a value, on the third line. -/
theorem Workshop.load_errors_point_unfinished :
    let shop := create Catalog.registry (Symbolic.backend []) .session
    let e : CompileError :=
      ⟨.malformed, "Syntax error: expected feature", "<script>", 3, 3, "  ;", "  ^"⟩
    (shop.loadScript 0 unfinished).1 = .error e ∧ e.hasLocation = true ∧
      ∃ span before after,
        (shop.session 0).model.ScriptFails Catalog.registry unfinished span ∧
        unfinished.toList = before ++ after ∧ span.start = String.utf8Len before ∧
        before.count '\n' = 2 ∧ (Text.lastLine before).length = 2 := by
  intro shop e
  have hfails : (shop.loadScript 0 unfinished).1 = .error e := by decide +kernel
  have hload : shop.loadScript 0 unfinished = (.error e, (shop.loadScript 0 unfinished).2) :=
    Prod.ext hfails rfl
  obtain ⟨span, before, after, hscript, -, htext, hstart, ⟨-, hline⟩, ⟨-, hcolumn⟩, hlocation, -⟩ :=
    load_errors_point hload
  exact ⟨hfails, hlocation, span, before, after, hscript, htext, hstart,
    (Nat.succ.inj hline).symm, (Nat.succ.inj hcolumn).symm⟩

end PartScript
