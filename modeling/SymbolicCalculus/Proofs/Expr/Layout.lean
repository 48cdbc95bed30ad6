import SymbolicCalculus.Expr.Rendering
import SymbolicCalculus.Proofs.Expr.Nodes

/-! # Layout of infix text

The text of an expression is put together from the texts of its children, and
the text of a node does not depend on where the node stands. What is written
around a node is determined by the path to it, and so is its span.
-/

namespace SymbolicCalculus

/-- A text, between parentheses if they are needed. -/
def enclosed (needed : Bool) (text : String) : String :=
  if needed then "(" ++ text ++ ")" else text

def opening (needed : Bool) : String := if needed then "(" else ""

def closing (needed : Bool) : String := if needed then ")" else ""

theorem enclosed_eq (needed : Bool) (text : String) :
    enclosed needed text = opening needed ++ text ++ closing needed := by
  cases needed <;> simp [enclosed, opening, closing]

/-- Drawing with `body` appends the text to any canvas. -/
structure Appends (body : Canvas → Canvas) (text : String) : Prop where
  text_eq : ∀ canvas, (body canvas).text = canvas.text ++ text
  length_eq : ∀ canvas, (body canvas).length = canvas.length + text.length

namespace Appends

variable {body body' : Canvas → Canvas} {text text' : String}

theorem write (text : String) : Appends (·.write text) text :=
  ⟨fun _ => rfl, fun _ => rfl⟩

theorem comp (h : Appends body text) (h' : Appends body' text') :
    Appends (fun canvas => body' (body canvas)) (text ++ text') := by
  constructor
  · intro canvas
    rw [h'.text_eq, h.text_eq, String.append_assoc]
  · intro canvas
    rw [h'.length_eq, h.length_eq, String.length_append, Nat.add_assoc]

theorem parenthesize (h : Appends body text) (needed : Bool) :
    Appends (Canvas.parenthesize needed body) (enclosed needed text) := by
  cases needed with
  | false => exact h
  | true => exact ((write "(").comp h).comp (write ")")

theorem mark (h : Appends body text) (marked : Prop) [Decidable marked] :
    Appends (fun canvas => if marked then (body canvas).mark canvas.length else body canvas)
      text := by
  by_cases hmarked : marked
  · simpa only [hmarked, if_true] using ⟨h.text_eq, h.length_eq⟩
  · simpa only [hmarked, if_false] using h

end Appends

namespace Expr

variable (operator : Operator) (function : NamedFunction) (f g : Expr)

/-- The text of the left operand of an operator, as the operator writes it. -/
def leftText : String :=
  enclosed (operator.binding.needsParentheses f.binding operator.groupsRight) f.text

def rightText : String :=
  enclosed (operator.binding.needsParentheses g.binding (!operator.groupsRight)) g.text

def negatedText : String :=
  enclosed (Binding.signed.needsParentheses f.binding true) f.text

theorem text_eq_of_appends {e : Expr} {text : String} (h : Appends (e.draw none) text) :
    e.text = text := by
  rw [Expr.text, h.text_eq]
  exact String.empty_append

theorem appends_draw_constant (value : Binary64) (target : Option Path) :
    Appends ((constant value).draw target)
      (String.ofList (NumberLayout.plain.number value)) :=
  (Appends.write _).mark _

section Children

variable {f g : Expr} (hf : ∀ target, Appends (f.draw target) f.text)
variable (hg : ∀ target, Appends (g.draw target) g.text) (target : Option Path)

include hf in
theorem appends_draw_negate : Appends ((negate f).draw target) ("-" ++ f.negatedText) :=
  ((Appends.write "-").comp ((hf _).parenthesize _)).mark _

include hf in
theorem appends_draw_apply :
    Appends ((apply function f).draw target) (function.symbol ++ "(" ++ f.text ++ ")") :=
  (((Appends.write _).comp (hf _)).comp (Appends.write ")")).mark _

include hf hg in
theorem appends_draw_binary :
    Appends ((binary operator f g).draw target)
      (leftText operator f ++ operator.symbol ++ rightText operator g) :=
  ((((hf _).parenthesize _).comp (Appends.write _)).comp ((hg _).parenthesize _)).mark _

end Children

/-- Drawing appends the text of the expression, whatever is marked. -/
theorem appends_draw (e : Expr) (target : Option Path) : Appends (e.draw target) e.text := by
  -- The text of a node is what it draws without a target, so each case shows that
  -- the target is not read.
  induction e generalizing target with
  | constant value =>
      rw [text_eq_of_appends (appends_draw_constant value none)]
      exact appends_draw_constant value target
  | var => exact (Appends.write _).mark _
  | negate f ih =>
      rw [text_eq_of_appends (appends_draw_negate ih none)]
      exact appends_draw_negate ih target
  | apply function f ih =>
      rw [text_eq_of_appends (appends_draw_apply function ih none)]
      exact appends_draw_apply function ih target
  | binary operator f g ihf ihg =>
      rw [text_eq_of_appends (appends_draw_binary operator ihf ihg none)]
      exact appends_draw_binary operator ihf ihg target

theorem text_constant (value : Binary64) :
    (constant value).text = String.ofList (NumberLayout.plain.number value) :=
  text_eq_of_appends (appends_draw_constant value none)

theorem text_var : var.text = variableName := rfl

theorem text_negate : (negate f).text = "-" ++ f.negatedText :=
  text_eq_of_appends (appends_draw_negate f.appends_draw none)

theorem text_apply : (apply function f).text = function.symbol ++ "(" ++ f.text ++ ")" :=
  text_eq_of_appends (appends_draw_apply function f.appends_draw none)

theorem text_apply_eq_enclosed :
    (apply function f).text = function.symbol ++ enclosed true f.text := by
  simp only [text_apply, enclosed, if_true, String.append_assoc]

theorem text_binary :
    (binary operator f g).text = leftText operator f ++ operator.symbol ++ rightText operator g :=
  text_eq_of_appends (appends_draw_binary operator f.appends_draw g.appends_draw none)

/-- What an expression writes before and after the child at an index. -/
def frame : Expr → Nat → String × String
  | negate f, _ =>
      let needed := Binding.signed.needsParentheses f.binding true
      ("-" ++ opening needed, closing needed)
  | apply function _, _ => (function.symbol ++ "(", ")")
  | binary operator f g, 0 =>
      let needed := operator.binding.needsParentheses f.binding operator.groupsRight
      (opening needed, closing needed ++ operator.symbol ++ rightText operator g)
  | binary operator f g, _ =>
      let needed := operator.binding.needsParentheses g.binding (!operator.groupsRight)
      (leftText operator f ++ operator.symbol ++ opening needed, closing needed)
  | _, _ => ("", "")

/-- What an expression writes before and after the node at the end of a path. -/
def around : Expr → Path → String × String
  | _, [] => ("", "")
  | e, index :: path =>
      match e.child? index with
      | some child =>
          ((e.frame index).1 ++ (child.around path).1, (child.around path).2 ++ (e.frame index).2)
      | none => ("", "")

section Around

variable {e child node : Expr} {index : Nat} {path : Path}

theorem text_eq_frame (hchild : e.child? index = some child) :
    e.text = (e.frame index).1 ++ child.text ++ (e.frame index).2 := by
  cases e with
  | constant value => cases hchild
  | var => cases hchild
  | negate f =>
      obtain ⟨rfl, rfl⟩ := child?_negate_eq_some_iff.mp hchild
      simp [text_negate, negatedText, enclosed_eq, frame, String.append_assoc]
  | apply function f =>
      obtain ⟨rfl, rfl⟩ := child?_apply_eq_some_iff.mp hchild
      rw [text_apply, frame]
  | binary operator f g =>
      rcases child?_binary_eq_some_iff.mp hchild with ⟨rfl, rfl⟩ | ⟨rfl, rfl⟩
      · simp [text_binary, leftText, enclosed_eq, frame, String.append_assoc]
      · simp [text_binary, rightText, enclosed_eq, frame, String.append_assoc]

theorem around_nil (e : Expr) : e.around [] = ("", "") := by
  cases e <;> rfl

theorem around_cons (hchild : e.child? index = some child) (path : Path) :
    e.around (index :: path) =
      ((e.frame index).1 ++ (child.around path).1, (child.around path).2 ++ (e.frame index).2) := by
  rw [around, hchild]

theorem around_singleton (hchild : e.child? index = some child) :
    e.around [index] = e.frame index := by
  rw [around_cons hchild, around_nil, String.append_empty, String.empty_append]

/-- What is written around a node below another one is what that one writes around
it, inside what is written around that one. -/
theorem around_append {front : Path} (hnode : e.get? front = some node) (rest : Path) :
    e.around (front ++ rest) =
      ((e.around front).1 ++ (node.around rest).1, (node.around rest).2 ++ (e.around front).2) := by
  induction front generalizing e with
  | nil =>
      rw [get?_nil, Option.some.injEq] at hnode
      simp [around_nil, hnode]
  | cons index front ih =>
      rw [get?_cons] at hnode
      obtain ⟨child, hchild, hnode⟩ := Option.bind_eq_some_iff.mp hnode
      rw [List.cons_append, around_cons hchild, around_cons hchild, ih hnode]
      simp only [String.append_assoc]

/-- The text of a node stands in the text of the whole, between what is written
around it. -/
theorem text_eq_around (hnode : e.get? path = some node) :
    e.text = (e.around path).1 ++ node.text ++ (e.around path).2 := by
  induction path generalizing e with
  | nil =>
      rw [get?_nil, Option.some.injEq] at hnode
      simp [around_nil, hnode]
  | cons index path ih =>
      rw [get?_cons] at hnode
      obtain ⟨child, hchild, hnode⟩ := Option.bind_eq_some_iff.mp hnode
      rw [text_eq_frame hchild, ih hnode, around_cons hchild]
      simp only [String.append_assoc]

theorem span_parenthesize (needed : Bool) (body : Canvas → Canvas) (canvas : Canvas) :
    (canvas.parenthesize needed body).span = (body (canvas.write (opening needed))).span := by
  cases needed <;> simp [Canvas.parenthesize, Canvas.write, opening]

theorem span_draw_none (e : Expr) (canvas : Canvas) : (e.draw none canvas).span = canvas.span := by
  induction e generalizing canvas with
  | constant value => rfl
  | var => rfl
  | negate f ih =>
      simp only [draw, targetBelow, reduceCtorEq, if_false, span_parenthesize, ih]
      rfl
  | apply function f ih =>
      simp only [draw, targetBelow, reduceCtorEq, if_false, Canvas.write, ih]
  | binary operator f g ihf ihg =>
      simp only [draw, targetBelow, reduceCtorEq, if_false, span_parenthesize, ihg]
      simp only [Canvas.write, span_parenthesize, ihf]

/-- What is marked at the end of a path through a child is marked in the child,
after what stands before the child. -/
theorem span_draw_cons (hchild : e.child? index = some child) (path : Path) (canvas : Canvas) :
    ∃ canvas' : Canvas,
      canvas'.length = canvas.length + (e.frame index).1.length ∧ canvas'.span = canvas.span ∧
        (e.draw (some (index :: path)) canvas).span = (child.draw (some path) canvas').span := by
  cases e with
  | constant value => cases hchild
  | var => cases hchild
  | negate f =>
      obtain ⟨rfl, rfl⟩ := child?_negate_eq_some_iff.mp hchild
      refine ⟨(canvas.write "-").write (opening (Binding.signed.needsParentheses f.binding true)),
        ?_, rfl, ?_⟩
      · simp only [Canvas.write, frame, String.length_append, Nat.add_assoc]
      · simp [draw, targetBelow, span_parenthesize]
  | apply function f =>
      obtain ⟨rfl, rfl⟩ := child?_apply_eq_some_iff.mp hchild
      refine ⟨canvas.write (function.symbol ++ "("), rfl, rfl, ?_⟩
      simp [draw, targetBelow, Canvas.write]
  | binary operator f g =>
      rcases child?_binary_eq_some_iff.mp hchild with ⟨rfl, rfl⟩ | ⟨rfl, rfl⟩
      · refine ⟨canvas.write
          (opening (operator.binding.needsParentheses f.binding operator.groupsRight)),
          rfl, rfl, ?_⟩
        simp [draw, targetBelow, span_parenthesize, span_draw_none, Canvas.write]
      · -- Nothing is marked in the left operand, which is drawn as its text.
        have hleft := (f.appends_draw none).parenthesize
          (operator.binding.needsParentheses f.binding operator.groupsRight)
        refine ⟨((canvas.parenthesize
            (operator.binding.needsParentheses f.binding operator.groupsRight)
            (f.draw none)).write operator.symbol).write
          (opening (operator.binding.needsParentheses g.binding (!operator.groupsRight))),
          ?_, ?_, ?_⟩
        · simp only [Canvas.write, hleft.length_eq, frame, leftText, String.length_append,
            Nat.add_assoc]
        · simp only [Canvas.write, span_parenthesize, span_draw_none]
        · simp [draw, targetBelow, span_parenthesize]

theorem span_draw_of_child?_eq_none (hchild : e.child? index = none) (path : Path)
    (canvas : Canvas) : (e.draw (some (index :: path)) canvas).span = canvas.span := by
  have hbelow {at' : Nat} (hat : index ≠ at') : targetBelow at' (some (index :: path)) = none := by
    simp [targetBelow, hat]
  cases e with
  | constant value => rfl
  | var => rfl
  | negate f =>
      have hindex : index ≠ 0 := by
        rintro rfl
        cases hchild
      simp [draw, hbelow hindex, span_parenthesize, span_draw_none, Canvas.write]
  | apply function f =>
      have hindex : index ≠ 0 := by
        rintro rfl
        cases hchild
      simp [draw, hbelow hindex, span_draw_none, Canvas.write]
  | binary operator f g =>
      have hzero : index ≠ 0 := by
        rintro rfl
        cases hchild
      have hone : index ≠ 1 := by
        rintro rfl
        cases hchild
      simp [draw, hbelow hzero, hbelow hone, span_parenthesize, span_draw_none, Canvas.write]

theorem span_draw_some (e : Expr) (path : Path) (canvas : Canvas) :
    (e.draw (some path) canvas).span =
      match e.get? path with
      | some node =>
          let start := canvas.length + (e.around path).1.length
          some ⟨start, start + node.text.length⟩
      | none => canvas.span := by
  induction path generalizing e canvas with
  | nil =>
      have hlength := (e.appends_draw none).length_eq canvas
      have hdraw : e.draw (some []) canvas = (e.draw none canvas).mark canvas.length := by
        cases e <;> simp [draw, targetBelow]
      simp [hdraw, Canvas.mark, get?_nil, around_nil, hlength]
  | cons index path ih =>
      cases hchild : e.child? index with
      | none => simp [span_draw_of_child?_eq_none hchild, get?_cons, hchild]
      | some child =>
          obtain ⟨canvas', hlength, hspan, hdraw⟩ := span_draw_cons hchild path canvas
          rw [hdraw, ih, get?_cons, hchild, hlength, hspan, around_cons hchild]
          simp [String.length_append, Nat.add_assoc]

/-- The text with a span is the text, with the span of the node at the path. -/
theorem textWithSpan_eq (e : Expr) (path : Path) :
    e.textWithSpan path =
      (e.text, (e.get? path).map fun node =>
        ⟨(e.around path).1.length, (e.around path).1.length + node.text.length⟩) := by
  refine Prod.ext ?_ ?_
  · exact ((e.appends_draw (some path)).text_eq {}).trans String.empty_append
  · refine (e.span_draw_some path {}).trans ?_
    cases e.get? path with
    | none => rfl
    | some node => simp

end Around

end Expr

end SymbolicCalculus
