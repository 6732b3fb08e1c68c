/-
  How far the carets of an error reach. The indent of a pointer is a column, which counts
  characters, while the length of a span counts bytes. The carets are cut off at the end of the
  line, so the two measures agree for a span that goes on to there, and for a span of characters of
  one byte. Between the two the carets reach behind the span.
-/
import PartScript.Proofs.Positions

namespace PartScript

namespace Text

variable {cs : List Char}

theorem length_le_utf8Len (cs : List Char) : cs.length ≤ String.utf8Len cs := by
  induction cs with
  | nil => exact Nat.le_refl _
  | cons c cs ih =>
    rw [List.length_cons, String.utf8Len_cons]
    exact Nat.add_le_add ih c.utf8Size_pos

/-- A text takes one byte per character if each of its characters takes one. -/
theorem utf8Len_eq_length_iff : String.utf8Len cs = cs.length ↔ ∀ c ∈ cs, c.utf8Size = 1 := by
  induction cs with
  | nil => exact ⟨nofun, fun _ => rfl⟩
  | cons c cs ih =>
    have hsize := c.utf8Size_pos
    have hle := length_le_utf8Len cs
    rw [String.utf8Len_cons, List.length_cons, List.forall_mem_cons, ← ih]
    omega

end Text

namespace Cursor

variable {source : String} {before mid : List Char} {start stop : Cursor}

/-- Within the end of a line the line is listed without the carriage return before the place. -/
theorem Stands.line_torn (h : start.Stands source before) (htorn : Text.Torn before start.rest) :
    ((Text.lines source).getD (start.line - 1) "").toList.length + 1 =
      (Text.lastLine before).length := by
  obtain ⟨hlast, hhead⟩ := htorn
  obtain ⟨front, rfl⟩ := List.getLast?_eq_some_iff.mp hlast
  obtain ⟨cs, hrest⟩ := List.head?_eq_some_iff.mp hhead
  have hnot : ¬ Text.Torn (([] : List Char).reverse ++ front) ('\r' :: '\n' :: cs) := fun hfront =>
    nomatch hfront.2
  have hline := Text.linesFrom_line hnot nofun
  have htext : source.toList = front ++ '\r' :: '\n' :: cs := by simp [h.text, hrest]
  have hcount : (front ++ ['\r']).count '\n' = front.count '\n' := by simp
  rw [Text.lines_getD, h.line, hcount, Nat.add_sub_cancel, htext, hline,
    Text.lastLine_concat (by decide), List.length_append, List.length_append]
  rfl

theorem Stands.between_length (hstart : start.Stands source before)
    (hstop : stop.Stands source (before ++ mid)) :
    (SourceSpan.between start stop).length = String.utf8Len mid := by
  show stop.offset - start.offset = _
  rw [hstop.offset, hstart.offset, String.utf8Len_append, Nat.add_sub_cancel_left]

end Cursor

namespace CompileError

variable {kind : CompileErrorKind} {message file source : String} {start stop : Cursor}
  {before mid : List Char}

/-- A pointer with a space under each character of `indent` and a caret under each character of
`part`, or one caret if there is none. -/
def underline (indent part : List Char) : String :=
  String.ofList (List.replicate indent.length ' ' ++ List.replicate (max part.length 1) '^')

theorem underline_length (indent part : List Char) :
    (underline indent part).toList.length = indent.length + max part.length 1 := by
  rw [underline, String.toList_ofList, List.length_append, List.length_replicate,
    List.length_replicate]

/-- The carets of an error are one for each byte of its span, cut off at the end of the line. -/
theorem pointer_eq (hstart : start.Stands source before)
    (hstop : stop.Stands source (before ++ mid)) (htorn : ¬ Text.Torn before start.rest) :
    (atSpan kind message file source (.between start stop)).pointer =
      underline (Text.lastLine before)
        ((Text.lineRest start.rest).take (String.utf8Len mid)) := by
  have hline := congrArg List.length (hstart.line_toList htorn)
  rw [String.length_toList, List.length_append] at hline
  have hindent : min (start.column - 1) ((Text.lines source).getD (start.line - 1) "").length =
      (Text.lastLine before).length := by
    rw [hstart.column, hline]
    omega
  have hcarets : ∀ bytes rest : Nat, min (max bytes 1) (max rest 1) = max (min bytes rest) 1 := by
    omega
  show caretLine ((Text.lines source).getD (start.line - 1) "").length (.between start stop) = _
  unfold caretLine underline
  dsimp only
  rw [show (SourceSpan.between start stop).column = start.column from rfl, hindent, hline,
    hstart.between_length hstop, Nat.add_sub_cancel_left, hcarets, List.length_take]

/-- The caret of a place within the end of a line stands under its carriage return. -/
theorem pointer_torn (hstart : start.Stands source before)
    (htorn : Text.Torn before start.rest) :
    (atSpan kind message file source (.between start stop)).pointer.toList.length =
      (Text.lastLine before).length := by
  have hline := hstart.line_torn htorn
  rw [String.length_toList] at hline
  show (caretLine ((Text.lines source).getD (start.line - 1) "").length
    (.between start stop)).toList.length = _
  unfold caretLine
  dsimp only
  rw [String.toList_ofList, List.length_append, List.length_replicate, List.length_replicate,
    show (SourceSpan.between start stop).column = start.column from rfl, hstart.column]
  omega

/-- A pointer covers as much of a line as another one if both end at the same character. -/
theorem take_utf8Len_covers {indent line : List Char}
    (h : underline indent (line.take (String.utf8Len mid)) = underline indent (line.take mid.length)) :
    line.length ≤ mid.length ∨ ∀ c ∈ mid, c.utf8Size = 1 := by
  have hlength := congrArg (fun pointer => pointer.toList.length) h
  have hle := Text.length_le_utf8Len mid
  simp only [underline_length, List.length_take] at hlength
  rw [← Text.utf8Len_eq_length_iff]
  cases mid with
  | nil => exact .inr rfl
  | cons c mid =>
    rw [List.length_cons] at hlength hle ⊢
    omega

/-- What the pointer of an error at a span covers. Unless the span begins within the end of a line,
the spaces are the characters before it on its line, and the carets are as many characters of the
line, from the span on, as the span has bytes, and at least one. So they cover the part of the span
that lies on its line, exactly if the span does not begin within the end of a line, and goes on to
the end of its line or has no character of more than one byte. -/
theorem pointer_covers_iff (hstart : start.Stands source before)
    (hstop : stop.Stands source (before ++ mid)) :
    let e := atSpan kind message file source (.between start stop)
    let line := Text.lineRest start.rest
    (¬ Text.Torn before start.rest →
      e.snippet.toList = Text.lastLine before ++ line ∧
        e.pointer = underline (Text.lastLine before) (line.take (String.utf8Len mid))) ∧
      (e.pointer = underline (Text.lastLine before) (line.take mid.length) ↔
        ¬ Text.Torn before start.rest ∧
          (line.length ≤ mid.length ∨ ∀ c ∈ mid, c.utf8Size = 1)) := by
  intro e line
  refine ⟨fun htorn => ⟨hstart.line_toList htorn, pointer_eq hstart hstop htorn⟩, ?_, ?_⟩
  · intro hcovers
    have htorn : ¬ Text.Torn before start.rest := fun htorn => by
      have hlength : e.pointer.toList.length = (Text.lastLine before).length :=
        pointer_torn hstart htorn
      rw [hcovers, underline_length] at hlength
      omega
    exact ⟨htorn, take_utf8Len_covers ((pointer_eq hstart hstop htorn).symm.trans hcovers)⟩
  · rintro ⟨htorn, hends | hbytes⟩
    · have hle := Text.length_le_utf8Len mid
      have hpointer : e.pointer = underline _ (line.take (String.utf8Len mid)) :=
        pointer_eq hstart hstop htorn
      rw [hpointer, List.take_of_length_le hends, List.take_of_length_le (Nat.le_trans hends hle)]
    · rw [← Text.utf8Len_eq_length_iff.mpr hbytes]
      exact pointer_eq hstart hstop htorn

/-- A span over a line and its end. -/
theorem pointer_covers_iff_line :
    let source := "import \"é\";\r\nx = 1;"
    let start := Cursor.ofText source
    let stop := start.skip 13
    (start.Stands source [] ∧ stop.Stands source ([] ++ "import \"é\";\r\n".toList)) ∧
      (atSpan .malformed "" "" source (.between start stop)).pointer =
        underline [] "import \"é\";".toList := by
  intro source start stop
  have hstart : start.Stands source [] := Cursor.stands_ofText source
  have hstop : stop.Stands source ([] ++ "import \"é\";\r\n".toList) := by
    constructor <;> decide +kernel
  have htorn : ¬ Text.Torn [] start.rest := fun htorn => nomatch htorn.1
  have hends : (Text.lineRest start.rest).length ≤ "import \"é\";\r\n".toList.length := by
    decide +kernel
  have hpart : (Text.lineRest start.rest).take "import \"é\";\r\n".toList.length =
      "import \"é\";".toList := by decide +kernel
  refine ⟨⟨hstart, hstop⟩, ?_⟩
  rw [← hpart]
  exact (pointer_covers_iff hstart hstop).2.mpr ⟨htorn, .inl hends⟩

/-- The error about a module reports the range of its declaration. Where the name of the module has
a character of two bytes and a statement follows on the line, there is a caret under the statement:
the twelve characters of the range have thirteen carets. -/
theorem pointer_overhangs :
    let source := "import \"é\"; x = 1;"
    let start := Cursor.ofText source
    let stop := start.skip 12
    let part := "import \"é\"; ".toList
    let e := atSpan .unreadableImport "Failed to load import 'é': no loader configured" "<script>"
      source (.between start stop)
    (start.Stands source [] ∧ stop.Stands source ([] ++ part)) ∧
      (Text.lineRest start.rest).take part.length = part ∧
      ((Workshop.create Catalog.registry (Symbolic.backend []) .session).loadScript 0 source).1 =
        .error e ∧
      e.pointer = "^^^^^^^^^^^^^" ∧ underline [] part = "^^^^^^^^^^^^" ∧
      e.pointer ≠ underline (Text.lastLine []) part := by
  intro source start stop part e
  have hstop : stop.Stands source ([] ++ part) := by constructor <;> decide +kernel
  exact ⟨⟨Cursor.stands_ofText source, hstop⟩, by decide +kernel⟩

end CompileError

end PartScript
