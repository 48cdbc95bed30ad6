import SymbolicCalculus.Proofs.Derivative.Location
import SymbolicCalculus.Proofs.Diagnostic.Lines

/-! # What a report points at

The report on a failed derivative shows the expression on one line. The row
below marks the text of the first logarithm and nothing else.
-/

namespace SymbolicCalculus

/-- Whether a row has more than a blank at a column. -/
def Marks (line : String) (column : Nat) : Prop := ∃ c ∈ line.toList[column]?, c ≠ ' '

namespace Span

variable {span : Span}

theorem connector_lt (h : span.start < span.stop) : span.start + span.connector < span.stop := by
  rw [connector, length]
  omega

/-- The row that marks a span. -/
def underline (span : Span) (label : String) : String :=
  span.annotation (some label) |>.1

/-- The row that leads from the underline to the label. -/
def labelRow (span : Span) (label : String) : String :=
  span.annotation (some label) |>.2

theorem labelRow_eq (span : Span) (label : String) :
    span.labelRow label = row (span.start + span.connector) ' ' ++ "╰" ++
      row (span.length - span.connector - 1 + 2) '─' ++ " " ++ label := rfl

theorem toList_underline (span : Span) (label : String) :
    (span.underline label).toList =
      List.replicate span.start ' ' ++ (List.replicate span.connector '─' ++
        '┬' :: List.replicate (span.length - span.connector - 1) '─') := by
  unfold underline annotation
  simp [row]

/-- The underline, column by column. -/
theorem getElem?_underline (h : span.start < span.stop) (label : String) (column : Nat) :
    (span.underline label).toList[column]? =
      if column < span.start then some ' '
      else if column = span.start + span.connector then some '┬'
      else if column < span.stop then some '─'
      else none := by
  have hconnector := connector_lt h
  rw [toList_underline, List.getElem?_append, List.getElem?_append, List.getElem?_cons]
  simp only [List.getElem?_replicate, List.length_replicate, length]
  split_ifs <;> first | rfl | omega

theorem marks_underline_iff (h : span.start < span.stop) (label : String) {column : Nat} :
    Marks (span.underline label) column ↔ span.start ≤ column ∧ column < span.stop := by
  have hconnector := connector_lt h
  rw [Marks, getElem?_underline h]
  split_ifs with hbefore hmiddle hinside
  · simp [hbefore]
  · simp only [Option.mem_def, Option.some.injEq, exists_eq_left']
    exact iff_of_true (by decide) (by omega)
  · simp only [Option.mem_def, Option.some.injEq, exists_eq_left']
    exact iff_of_true (by decide) (by omega)
  · simp [hinside]

/-- The underline never ends in a blank. -/
theorem isLine_underline (span : Span) (label : String) : IsLine (span.underline label) := by
  constructor
  · simp [toList_underline]
  · refine ⟨(List.replicate (span.length - span.connector - 1) '─').getLast?.getD '┬', ?_, ?_⟩
    · rw [toList_underline, List.getLast?_append, List.getLast?_append, List.getLast?_cons]
      rfl
    · rw [List.getLast?_replicate]
      split <;> decide

theorem plainLines_underline (span : Span) (label : String) :
    plainLines ("   │ " ++ span.underline label) = ["   │ " ++ span.underline label] := by
  refine IsLine.plainLines_eq ((isLine_underline span label).append (by decide)) ?_
  simp [toList_underline]

theorem plainLines_labelRow (span : Span) {label : String} (hlabel : IsLine label)
    (hescape : '\x1b' ∉ label.toList) :
    plainLines ("   │ " ++ span.labelRow label) = ["   │ " ++ span.labelRow label] := by
  rw [labelRow_eq]
  refine IsLine.plainLines_eq ?_ ?_
  · simp only [← String.append_assoc]
    refine hlabel.append ?_
    simp [row]
  · simp [row, hescape]

end Span

namespace Tag

theorem isLine_word (tag : Tag) : IsLine tag.word := by
  have hall : ∀ tag ∈ all, IsLine tag.word := by decide
  exact hall tag tag.mem_all

theorem escape_not_mem_word (tag : Tag) : '\x1b' ∉ tag.word.toList := by
  have hall : ∀ tag ∈ all, '\x1b' ∉ tag.word.toList := by decide
  exact hall tag tag.mem_all

end Tag

section Unimplemented

variable (node : Unimplemented)

theorem plainLines_headline :
    plainLines ("Error: " ++ (Cause.unimplemented node).message) =
      ["Error: cannot differentiate `" ++ node.tag.word ++ "` symbolically"] := by
  have hfront : "Error: " ++ "cannot differentiate `" = "Error: cannot differentiate `" := by decide
  unfold Cause.message
  rw [← String.append_assoc, ← String.append_assoc, hfront]
  refine IsLine.plainLines_eq ((by decide : IsLine "` symbolically").append ?_) ?_
  · simp [node.tag.isLine_word.feed]
  · simp [node.tag.escape_not_mem_word]

/-- The colours in the help are not seen. -/
theorem plainLines_help :
    plainLines ("   │ Help: " ++ ("differentiation is not implemented for " ++
        colored 52 235 152 (node.tag.word ++ "(...)") ++ "; remove it from the expression")) =
      ["   │ Help: differentiation is not implemented for " ++ node.tag.word ++
        "(...)" ++ "; remove it from the expression"] := by
  have hfront : "   │ Help: " ++ "differentiation is not implemented for " =
      "   │ Help: differentiation is not implemented for " := by decide
  have hname : '\x1b' ∉ (node.tag.word ++ "(...)").toList := by
    simp [node.tag.escape_not_mem_word]
  rw [← String.append_assoc, ← String.append_assoc, hfront]
  apply IsLine.plainLines_of_dropColors
  · refine (by decide : IsLine "; remove it from the expression").append ?_
    simp [node.tag.isLine_word.feed]
  · rw [String.toList_append, String.toList_append, List.append_assoc,
      dropColors_append (by decide), dropColors_colored hname, dropColors_of_not_mem (by decide)]
    simp only [String.toList_append, List.append_assoc]

end Unimplemented

/-- The place of a report, whatever colours its source is named with. -/
theorem plainLines_place {id : String} (hid : '\n' ∉ id.toList) (column : Nat) :
    plainLines ("   ╭─[" ++ id ++ ":1:" ++ toString column ++ "]") =
      ["   ╭─[" ++ String.ofList (dropColors 0 id.toList) ++ ":1:" ++ toString column ++ "]"] := by
  have hdigits {c : Char} (hc : ¬ c.isDigit) : c ∉ Nat.toDigits 10 column :=
    fun h => hc ((isDigitRow_toDigits column).isDigit c h)
  have hshown : '\n' ∉ dropColors 0 id.toList :=
    fun hfeed => hid ((dropColors_sublist 0 id.toList).subset hfeed)
  apply IsLine.plainLines_of_dropColors
  · refine (by decide : IsLine "]").append ?_
    simp [hshown, hdigits]
  · -- The colon after the name ends any colour sequence that the name begins.
    have hescape : '\x1b' ∉ '1' :: ':' :: (Nat.toDigits 10 column ++ [']']) := by
      simp [hdigits]
    have hcolors := dropColors_append_colon (Nat.zero_le id.toList.length) hescape
    have hfront := dropColors_append (by decide : '\x1b' ∉ "   ╭─[".toList)
      (id.toList ++ ':' :: '1' :: ':' :: (Nat.toDigits 10 column ++ [']']))
    rw [hcolors] at hfront
    simpa using hfront

namespace Diagnostic

variable {id source : String} {node : Unimplemented} {span : Span}

theorem firstLabel?_unimplemented :
    firstLabel? ⟨[span], .unimplemented node⟩ = some ("this `" ++ node.tag.word ++ "` node") := by
  have hlabel : ("this `" ++ node.tag.word ++ "` node").isEmpty = false := by
    simp
  simp only [firstLabel?, Cause.labels, hlabel]
  rfl

/-- The report on a node without a derivative has nine lines, whatever the
source, the span and the node are. -/
theorem report_unimplemented (hid : '\n' ∉ id.toList) (hsource : IsLine source) :
    report id source ⟨[span], .unimplemented node⟩ =
      ["Error: cannot differentiate `" ++ node.tag.word ++ "` symbolically",
        "   ╭─[" ++ String.ofList (dropColors 0 id.toList) ++ ":1:" ++
          toString (span.start + 1) ++ "]",
        "   │",
        " 1 │ " ++ source,
        "   │ " ++ span.underline ("this `" ++ node.tag.word ++ "` node"),
        "   │ " ++ span.labelRow ("this `" ++ node.tag.word ++ "` node"),
        "   │",
        "   │ Help: differentiation is not implemented for " ++ node.tag.word ++ "(...)" ++
          "; remove it from the expression",
        "───╯"] := by
  have hlabel : IsLine ("this `" ++ node.tag.word ++ "` node") := by
    refine (by decide : IsLine "` node").append ?_
    simp [node.tag.isLine_word.feed]
  have hunderline := span.plainLines_underline ("this `" ++ node.tag.word ++ "` node")
  have hrow := span.plainLines_labelRow hlabel (by simp [node.tag.escape_not_mem_word])
  have hmargin : plainLines "   │" = ["   │"] := IsLine.plainLines_eq (by decide) (by decide)
  have hend : plainLines "───╯" = ["───╯"] := IsLine.plainLines_eq (by decide) (by decide)
  have hvisible : visibleLines (" 1 │ " ++ source) = [" 1 │ " ++ source] :=
    (hsource.append (by decide)).visibleLines_eq
  unfold Span.underline at hunderline ⊢
  unfold Span.labelRow at hrow ⊢
  simp only [report, firstLabel?_unimplemented, Diagnostic.message, Cause.help?,
    List.flatMap_cons, List.flatMap_nil, plainLines_headline, plainLines_place hid, hmargin,
    hvisible, hunderline, hrow, plainLines_help, hend, List.cons_append, List.nil_append,
    List.append_nil]

theorem report_unimplemented_ln (hid : '\n' ∉ id.toList) (hsource : IsLine source) (path : Path) :
    report id source ⟨[span], .unimplemented ⟨.function .ln, path⟩⟩ =
      ["Error: cannot differentiate `ln` symbolically",
        "   ╭─[" ++ String.ofList (dropColors 0 id.toList) ++ ":1:" ++
          toString (span.start + 1) ++ "]",
        "   │",
        " 1 │ " ++ source,
        "   │ " ++ span.underline "this `ln` node",
        "   │ " ++ span.labelRow "this `ln` node",
        "   │",
        "   │ Help: differentiation is not implemented for ln(...)" ++
          "; remove it from the expression",
        "───╯"] := by
  have hheadline : "Error: cannot differentiate `" ++ "ln" ++ "` symbolically" =
      "Error: cannot differentiate `ln` symbolically" := by decide
  have hlabel : "this `" ++ "ln" ++ "` node" = "this `ln` node" := by decide
  have hhelp : "   │ Help: differentiation is not implemented for " ++ "ln" ++ "(...)" =
      "   │ Help: differentiation is not implemented for ln(...)" := by decide
  rw [report_unimplemented hid hsource]
  simp only [Tag.word, NamedFunction.symbol, hheadline, hlabel, hhelp]

end Diagnostic

namespace Expr

variable {e node : Expr} {path : Path}

theorem exists_columns (hnode : e.get? path = some node) :
    ∃ span, (e.textWithSpan path).2 = some span ∧ span.start = (e.around path).1.length ∧
      span.stop = (e.around path).1.length + node.text.length := by
  rw [textWithSpan_eq, hnode]
  exact ⟨_, rfl, rfl, rfl⟩

/-- The report on a failed derivative points at the first logarithm: the source
line is the expression, the column counts the bytes before the logarithm, and the
row below marks the characters of the logarithm and no others. The connector of
the label hangs from one of them. -/
theorem report_points_at_log (hlog : e.HasLog) {id : String} (hid : '\n' ∉ id.toList) :
    ∃ path argument span underline label,
      e.derivative = .error ⟨[span], .unimplemented ⟨.function .ln, path⟩⟩ ∧
        e.get? path = some (apply .ln argument) ∧
        (∀ other argument, e.get? other = some (apply .ln argument) →
          path = other ∨ List.Lex (· < ·) path other) ∧
        (e.textWithSpan path).2 = some span ∧ span.start = (e.around path).1.utf8ByteSize ∧
        e.text = (e.around path).1 ++ (apply .ln argument).text ++ (e.around path).2 ∧
        Diagnostic.report id e.text ⟨[span], .unimplemented ⟨.function .ln, path⟩⟩ =
          ["Error: cannot differentiate `ln` symbolically",
            "   ╭─[" ++ String.ofList (dropColors 0 id.toList) ++ ":1:" ++
              toString (span.start + 1) ++ "]",
            "   │",
            " 1 │ " ++ e.text,
            "   │ " ++ underline,
            "   │ " ++ label,
            "   │",
            "   │ Help: differentiation is not implemented for ln(...)" ++
              "; remove it from the expression",
            "───╯"] ∧
        (∀ column, Marks underline column ↔
          (e.around path).1.length ≤ column ∧
            column < (e.around path).1.length + (apply .ln argument).text.length) ∧
        ∃ connector lead, Marks underline connector ∧
          label = row connector ' ' ++ "╰" ++ row lead '─' ++ " " ++ "this `ln` node" := by
  obtain ⟨path, hfirst⟩ := hasLog_iff_firstLog?.mp hlog
  obtain ⟨⟨argument, hnode⟩, hfirstLog⟩ := isFirstLog_of_firstLog? hfirst
  obtain ⟨span, hspan, hstart, hstop⟩ := exists_columns hnode
  have hlt : span.start < span.stop := by
    rw [hstart, hstop]
    exact Nat.lt_add_of_pos_right (text_length_pos _)
  have hresult := derivativeWithSteps_of_firstLog? hfirst ()
  rw [diagnose, hspan] at hresult
  refine ⟨path, argument, span, span.underline "this `ln` node", span.labelRow "this `ln` node",
    hresult, hnode, hfirstLog, hspan, ?_, text_eq_around hnode,
    Diagnostic.report_unimplemented_ln hid e.isLine_text path, ?_, span.start + span.connector, _,
    ?_, Span.labelRow_eq span _⟩
  · rw [hstart, (ascii_around hnode).1.utf8ByteSize]
  · intro column
    rw [Span.marks_underline_iff hlt, hstart, hstop]
  · rw [Span.marks_underline_iff hlt]
    exact ⟨Nat.le_add_right _ _, Span.connector_lt hlt⟩

/-- In `x * ln(x)` the columns 4 to 8 are marked. -/
theorem report_points_at_log_product :
    (multiply var (apply .ln var)).HasLog ∧ '\n' ∉ "input".toList ∧
      ∃ underline label,
        Diagnostic.report "input" "x * ln(x)" ⟨[⟨4, 9⟩], .unimplemented ⟨.function .ln, [1]⟩⟩ =
          ["Error: cannot differentiate `ln` symbolically", "   ╭─[input:1:5]", "   │",
            " 1 │ x * ln(x)", "   │ " ++ underline, "   │ " ++ label, "   │",
            "   │ Help: differentiation is not implemented for ln(...)" ++
              "; remove it from the expression",
            "───╯"] ∧
        ∀ column, Marks underline column ↔ 4 ≤ column ∧ column < 9 := by
  have hlog : (multiply var (apply .ln var)).HasLog := by decide
  have hid : '\n' ∉ "input".toList := by decide
  have htext : (multiply var (apply .ln var)).text = "x * ln(x)" := by decide
  have hcomputed : (multiply var (apply .ln var)).derivative =
    .error ⟨[⟨4, 9⟩], .unimplemented ⟨.function .ln, [1]⟩⟩ := rfl
  obtain ⟨path, argument, span, underline, label, hresult, hnode, -, -, -, -, hreport, hmarks, -⟩ :=
    report_points_at_log hlog hid
  rw [hcomputed] at hresult
  cases hresult
  cases hnode
  rw [htext] at hreport
  exact ⟨hlog, hid, underline, label, hreport, hmarks⟩

end Expr

end SymbolicCalculus
