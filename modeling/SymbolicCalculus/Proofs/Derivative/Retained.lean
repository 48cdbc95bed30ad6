import SymbolicCalculus.Proofs.Derivative.Repetition
import SymbolicCalculus.Proofs.Expr.Count

/-! # Retained powers

A power is retained if its derivative is not dropped, that is, if it is not inside the
base of a power with a constant exponent. The retained powers of an expression are
those of its children, except below such a base, and perhaps its root.
-/

namespace SymbolicCalculus.Expr

variable {p : Expr → Expr → Prop} {e f g child : Expr} {operator : Operator}
variable {function : NamedFunction} {index : Nat}

/-- The path leads to a power whose operands satisfy `p` and whose derivative is not
dropped. -/
def RetainsPower (p : Expr → Expr → Prop) (e : Expr) (path : Path) : Prop :=
  ∃ f g, e.get? path = some (power f g) ∧ p f g ∧ ¬ e.Dropped path

/-- The number of such powers. -/
noncomputable def retainedPowers (p : Expr → Expr → Prop) (e : Expr) : Nat :=
  e.count fun path node => (∃ f g, node = power f g ∧ p f g) ∧ ¬ e.Dropped path

theorem encard_retainsPower (p : Expr → Expr → Prop) (e : Expr) :
    {path | e.RetainsPower p path}.encard = e.retainedPowers p := by
  unfold retainedPowers
  rw [← encard_eq_count]
  congr 1
  ext path
  constructor
  · rintro ⟨f, g, hnode, hpower, hdropped⟩
    exact ⟨_, hnode, ⟨f, g, rfl, hpower⟩, hdropped⟩
  · rintro ⟨_, hnode, ⟨f, g, rfl, hpower⟩, hdropped⟩
    exact ⟨f, g, hnode, hpower, hdropped⟩

/-- Only a power drops derivatives, and only that of its base. -/
theorem dropped_cons_of_not_base (hchild : e.child? index = some child)
    (hbase : index = 0 → ∀ f g, e ≠ power f g) (path : Path) :
    e.Dropped (index :: path) ↔ child.Dropped path := by
  rw [dropped_cons_iff hchild, or_iff_right_iff_imp]
  rintro ⟨hindex, f, g, he, -⟩
  exact absurd he (hbase hindex f g)

theorem retainedPowers_constant (value : Binary64) : (constant value).retainedPowers p = 0 := by
  unfold retainedPowers
  rw [count_constant]
  simp [power]

theorem retainedPowers_var : var.retainedPowers p = 0 := by
  unfold retainedPowers
  rw [count_var]
  simp [power]

theorem retainedPowers_negate : (negate f).retainedPowers p = f.retainedPowers p := by
  have hdropped (path : Path) : (negate f).Dropped (0 :: path) ↔ f.Dropped path :=
    dropped_cons_of_not_base rfl (by simp [power]) path
  unfold retainedPowers
  rw [count_negate]
  simp [power, hdropped]

theorem retainedPowers_apply : (apply function f).retainedPowers p = f.retainedPowers p := by
  have hdropped (path : Path) : (apply function f).Dropped (0 :: path) ↔ f.Dropped path :=
    dropped_cons_of_not_base rfl (by simp [power]) path
  unfold retainedPowers
  rw [count_apply]
  simp [power, hdropped]

theorem retainedPowers_binary (hoperator : operator ≠ .power) :
    (binary operator f g).retainedPowers p = f.retainedPowers p + g.retainedPowers p := by
  have hleft (path : Path) : (binary operator f g).Dropped (0 :: path) ↔ f.Dropped path :=
    dropped_cons_of_not_base rfl (by simp [power, hoperator]) path
  have hright (path : Path) : (binary operator f g).Dropped (1 :: path) ↔ g.Dropped path :=
    dropped_cons_of_not_base rfl (by simp) path
  unfold retainedPowers
  rw [count_binary]
  simp [power, hoperator, hleft, hright]

open Classical in
/-- The base of a power with a constant exponent is not retained. -/
theorem retainedPowers_power :
    (binary .power f g).retainedPowers p =
      (if g.HasVariable then f.retainedPowers p else 0) + g.retainedPowers p +
        if p f g then 1 else 0 := by
  have hleft (path : Path) :
      (binary .power f g).Dropped (0 :: path) ↔ ¬ g.HasVariable ∨ f.Dropped path := by
    rw [dropped_cons_iff rfl]
    simp [power]
  have hright (path : Path) : (binary .power f g).Dropped (1 :: path) ↔ g.Dropped path :=
    dropped_cons_of_not_base rfl (by simp) path
  have hroot : ((∃ f' g', binary .power f g = power f' g' ∧ p f' g') ∧
      ¬ (binary .power f g).Dropped []) ↔ p f g := by
    simp [power, not_dropped_nil]
  unfold retainedPowers
  rw [count_binary]
  simp only [hleft, hright, hroot]
  by_cases hg : g.HasVariable
  · simp [hg]
  · have hbase : (f.count fun path node =>
        (∃ f g, node = power f g ∧ p f g) ∧ ¬ (¬ g.HasVariable ∨ f.Dropped path)) = 0 := by
      rw [count_eq_zero_iff]
      exact fun _ _ _ h => h.2 (.inl hg)
    rw [hbase, if_neg hg]

/-- Where only variable exponents are asked for, an expression without the variable
has no such power. -/
theorem retainedPowers_of_not_hasVariable (hp : ∀ f g, p f g → g.HasVariable)
    (hvariable : ¬ e.HasVariable) : e.retainedPowers p = 0 := by
  unfold retainedPowers
  rw [count_eq_zero_iff]
  rintro path _ hnode ⟨⟨f, g, rfl, hpower⟩, -⟩
  obtain ⟨rest, node, hrest, htag⟩ := (mentions_iff_get? g).mp (hp f g hpower)
  refine hvariable ((mentions_iff_get? e).mpr ⟨path ++ 1 :: rest, node, ?_, htag⟩)
  rw [get?_append, hnode, Option.bind_some, get?_cons]
  exact hrest

end SymbolicCalculus.Expr
