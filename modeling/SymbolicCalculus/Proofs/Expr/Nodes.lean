import SymbolicCalculus.Expr.Basic

/-! # Nodes of an expression

A node is what a path leads to. Statements about all nodes, or about some node
with a given tag, are taken apart along the tree.
-/

namespace SymbolicCalculus.Expr

variable {operator : Operator} {function : NamedFunction} {e f g child node : Expr}
variable {index : Nat} {path : Path}

@[simp] theorem child?_constant {value : Binary64} : (constant value).child? index = none := rfl

@[simp] theorem child?_var : var.child? index = none := rfl

@[simp] theorem child?_negate_eq_some_iff :
    (negate f).child? index = some child ↔ index = 0 ∧ f = child := by
  cases index <;> simp [child?]

@[simp] theorem child?_apply_eq_some_iff :
    (apply function f).child? index = some child ↔ index = 0 ∧ f = child := by
  cases index <;> simp [child?]

@[simp] theorem child?_binary_eq_some_iff :
    (binary operator f g).child? index = some child ↔
      (index = 0 ∧ f = child) ∨ (index = 1 ∧ g = child) := by
  rcases index with _ | _ | index <;> simp [child?]

@[simp] theorem get?_nil (e : Expr) : e.get? [] = some e := by
  cases e <;> rfl

theorem get?_cons (e : Expr) (index : Nat) (path : Path) :
    e.get? (index :: path) = (e.child? index).bind (·.get? path) := by
  cases e <;> rfl

theorem get?_append (e : Expr) (path rest : Path) :
    e.get? (path ++ rest) = (e.get? path).bind (·.get? rest) := by
  induction path generalizing e with
  | nil => rw [List.nil_append, get?_nil, Option.bind_some]
  | cons index path ih =>
      rw [List.cons_append, get?_cons, get?_cons]
      cases e.child? index with
      | none => rfl
      | some child => exact ih child

theorem get?_eq_some_iff :
    e.get? path = some node ↔
      (path = [] ∧ node = e) ∨
        ∃ index rest child, path = index :: rest ∧ e.child? index = some child ∧
          child.get? rest = some node := by
  cases path with
  | nil => simp [eq_comm]
  | cons index rest =>
      simp only [get?_cons, Option.bind_eq_some_iff, List.cons_ne_nil, false_and, false_or,
        List.cons.injEq]
      constructor
      · rintro ⟨child, hchild, hnode⟩
        exact ⟨index, rest, child, ⟨rfl, rfl⟩, hchild, hnode⟩
      · rintro ⟨_, _, child, ⟨rfl, rfl⟩, hchild, hnode⟩
        exact ⟨child, hchild, hnode⟩

/-- What holds of an expression whenever it holds of its children holds of all
expressions. -/
theorem induction_children {motive : Expr → Prop}
    (step : ∀ e, (∀ index child, e.child? index = some child → motive child) → motive e)
    (e : Expr) : motive e := by
  induction e with
  | constant value => exact step _ (by simp)
  | var => exact step _ (by simp)
  | negate f ih => exact step _ (by simpa using ih)
  | apply function f ih => exact step _ (by simpa using ih)
  | binary operator f g ihf ihg =>
      apply step
      intro index child hchild
      rcases child?_binary_eq_some_iff.mp hchild with ⟨-, rfl⟩ | ⟨-, rfl⟩
      · exact ihf
      · exact ihg

/-- Every node of the expression satisfies `p`. -/
def ForallNodes (p : Expr → Prop) (e : Expr) : Prop :=
  ∀ path node, e.get? path = some node → p node

section ForallNodes

variable {p : Expr → Prop}

theorem forallNodes_iff :
    e.ForallNodes p ↔
      p e ∧ ∀ index child, e.child? index = some child → child.ForallNodes p := by
  constructor
  · intro h
    refine ⟨h [] e (get?_nil e), ?_⟩
    intro index child hchild path node hnode
    exact h (index :: path) node (get?_eq_some_iff.mpr
      (.inr ⟨index, path, child, rfl, hchild, hnode⟩))
  · rintro ⟨hroot, hchildren⟩ path node hnode
    rcases get?_eq_some_iff.mp hnode with ⟨-, rfl⟩ | ⟨index, rest, child, -, hchild, hnode⟩
    · exact hroot
    · exact hchildren index child hchild rest node hnode

theorem forallNodes_constant {value : Binary64} :
    (constant value).ForallNodes p ↔ p (constant value) := by
  rw [forallNodes_iff]
  simp

theorem forallNodes_var : var.ForallNodes p ↔ p var := by
  rw [forallNodes_iff]
  simp

theorem forallNodes_negate :
    (negate f).ForallNodes p ↔ p (negate f) ∧ f.ForallNodes p := by
  rw [forallNodes_iff]
  simp

theorem forallNodes_apply :
    (apply function f).ForallNodes p ↔ p (apply function f) ∧ f.ForallNodes p := by
  rw [forallNodes_iff]
  simp

theorem forallNodes_binary :
    (binary operator f g).ForallNodes p ↔
      p (binary operator f g) ∧ f.ForallNodes p ∧ g.ForallNodes p := by
  rw [forallNodes_iff]
  simp [or_imp, forall_and]

end ForallNodes

/-- Every constant of the expression satisfies `p`. -/
def ForallConstants (p : Binary64 → Prop) (e : Expr) : Prop :=
  e.ForallNodes fun node => ∀ value, node = constant value → p value

section ForallConstants

variable {p : Binary64 → Prop}

theorem forallConstants_constant {value : Binary64} :
    (constant value).ForallConstants p ↔ p value := by
  simp [ForallConstants, forallNodes_constant]

theorem forallConstants_var : var.ForallConstants p := by
  simp [ForallConstants, forallNodes_var]

theorem forallConstants_negate : (negate f).ForallConstants p ↔ f.ForallConstants p := by
  simp [ForallConstants, forallNodes_negate]

theorem forallConstants_apply : (apply function f).ForallConstants p ↔ f.ForallConstants p := by
  simp [ForallConstants, forallNodes_apply]

theorem forallConstants_binary :
    (binary operator f g).ForallConstants p ↔ f.ForallConstants p ∧ g.ForallConstants p := by
  simp [ForallConstants, forallNodes_binary]

end ForallConstants

/-- Some node of the expression has the given tag. -/
def Mentions (tag : Tag) : Expr → Prop
  | constant _ => tag = .constant
  | var => tag = .var
  | negate f => tag = .negate ∨ f.Mentions tag
  | apply function f => tag = .function function ∨ f.Mentions tag
  | binary operator f g => tag = .operator operator ∨ f.Mentions tag ∨ g.Mentions tag

instance Mentions.decidable (tag : Tag) : (e : Expr) → Decidable (e.Mentions tag)
  | constant _ => inferInstanceAs (Decidable (tag = .constant))
  | var => inferInstanceAs (Decidable (tag = .var))
  | negate f =>
      have := Mentions.decidable tag f
      inferInstanceAs (Decidable (tag = .negate ∨ f.Mentions tag))
  | apply function f =>
      have := Mentions.decidable tag f
      inferInstanceAs (Decidable (tag = .function function ∨ f.Mentions tag))
  | binary operator f g =>
      have := Mentions.decidable tag f
      have := Mentions.decidable tag g
      inferInstanceAs (Decidable (tag = .operator operator ∨ f.Mentions tag ∨ g.Mentions tag))

abbrev HasVariable (e : Expr) : Prop := e.Mentions .var

abbrev HasLog (e : Expr) : Prop := e.Mentions (.function .ln)

theorem mentions_iff {tag : Tag} :
    e.Mentions tag ↔
      e.tag = tag ∨ ∃ index child, e.child? index = some child ∧ child.Mentions tag := by
  cases e <;> simp [Mentions, Expr.tag, @eq_comm _ _ tag, or_and_right, exists_or, and_assoc]

/-- To mention a tag is to have a node with that tag at the end of some path. -/
theorem mentions_iff_get? {tag : Tag} (e : Expr) :
    e.Mentions tag ↔ ∃ path node, e.get? path = some node ∧ node.tag = tag := by
  induction e using induction_children with
  | step e ih =>
      rw [mentions_iff]
      constructor
      · rintro (htag | ⟨index, child, hchild, hmentions⟩)
        · exact ⟨[], e, get?_nil e, htag⟩
        · obtain ⟨path, node, hnode, htag⟩ := (ih index child hchild).mp hmentions
          exact ⟨index :: path, node, get?_eq_some_iff.mpr
            (.inr ⟨index, path, child, rfl, hchild, hnode⟩), htag⟩
      · rintro ⟨path, node, hnode, htag⟩
        rcases get?_eq_some_iff.mp hnode with ⟨-, rfl⟩ | ⟨index, rest, child, -, hchild, hnode⟩
        · exact .inl htag
        · exact .inr ⟨index, child, hchild, (ih index child hchild).mpr ⟨rest, node, hnode, htag⟩⟩

end SymbolicCalculus.Expr
