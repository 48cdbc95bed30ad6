import SymbolicCalculus.Proofs.Derivative.Outcome

/-! # Zeros in derivatives

Zero derivatives are left out, so rules write no zero into a sum, a difference or a
quotient. The rule for variable exponents is the exception: where the base has no
derivative, it writes zero times the logarithm of the exponent.
-/

namespace SymbolicCalculus

/-- Every zero in the expression is a left factor beside a logarithm. -/
inductive Expr.ZerosBesideLogs : Expr → Prop where
  | constant {value : Binary64} (h : value.isZero = false) : ZerosBesideLogs (.constant value)
  | var : ZerosBesideLogs .var
  | negate {f : Expr} (hf : ZerosBesideLogs f) : ZerosBesideLogs (.negate f)
  | apply {f : Expr} (function : NamedFunction) (hf : ZerosBesideLogs f) :
      ZerosBesideLogs (.apply function f)
  | binary {f g : Expr} (operator : Operator) (hf : ZerosBesideLogs f)
      (hg : ZerosBesideLogs g) : ZerosBesideLogs (.binary operator f g)
  | zeroTimesLog {g : Expr} (hg : ZerosBesideLogs g) :
      ZerosBesideLogs (.multiply .zero (.apply .ln g))

/-- The same of a derivative. One that is zero holds no zeros. -/
def Derivative.ZerosBesideLogs : Derivative → Prop
  | zero => True
  | expr e => e.ZerosBesideLogs

variable {e f g : Expr} {df dg : Derivative}

namespace Rules

open Expr.ZerosBesideLogs

theorem zerosBesideLogs_one : Expr.one.ZerosBesideLogs := .constant (by decide)

theorem zerosBesideLogs_two : Expr.two.ZerosBesideLogs := .constant (by decide)

theorem zerosBesideLogs_negate (hdf : df.ZerosBesideLogs) :
    (negate df).2.ZerosBesideLogs := by
  cases df with
  | zero => trivial
  | expr df => exact .negate hdf

section Operands

variable (hf : f.ZerosBesideLogs) (hg : g.ZerosBesideLogs)
variable (hdf : df.ZerosBesideLogs) (hdg : dg.ZerosBesideLogs)
include hf hg hdf hdg

theorem zerosBesideLogs_product : (product f g df dg).2.ZerosBesideLogs := by
  cases df with
  | zero =>
      cases dg with
      | zero => trivial
      | expr dg => exact .binary .multiply hf hdg
  | expr df =>
      cases dg with
      | zero => exact .binary .multiply hdf hg
      | expr dg => exact .binary .add (.binary .multiply hdf hg) (.binary .multiply hf hdg)

theorem zerosBesideLogs_quotient : (quotient f g df dg).2.ZerosBesideLogs := by
  have hsquare := binary .power hg zerosBesideLogs_two
  cases df with
  | zero =>
      cases dg with
      | zero => trivial
      | expr dg => exact .binary .multiply hf (.binary .divide (.negate hdg) hsquare)
  | expr df =>
      cases dg with
      | zero => exact .binary .multiply (.binary .divide zerosBesideLogs_one hg) hdf
      | expr dg =>
          have hleft := binary .multiply hdf hg
          exact .binary .divide (.binary .subtract hleft (.binary .multiply hf hdg)) hsquare

/-- The zero that stands for the derivative of a constant base gets the logarithm of
the exponent for its other factor. -/
theorem zerosBesideLogs_power : (power f g df dg).2.ZerosBesideLogs := by
  have hpower := binary .power hf hg
  cases dg with
  | zero =>
      cases df with
      | zero => trivial
      | expr df =>
          have hexponent := binary .subtract hg zerosBesideLogs_one
          exact .binary .multiply hg (.binary .power hf hexponent)
  | expr dg =>
      have hquotient := binary .multiply hf (binary .divide hdg hg)
      cases df with
      | zero => exact .binary .multiply hpower (.binary .add (.zeroTimesLog hg) hquotient)
      | expr df =>
          have hlogarithm := binary .multiply hdf (apply .ln hg)
          exact .binary .multiply hpower (.binary .add hlogarithm hquotient)

theorem zerosBesideLogs_operator (o : Operator) :
    (operator o f g df dg).2.ZerosBesideLogs := by
  cases o with
  | add =>
      cases df <;> cases dg <;> first | trivial | assumption | exact .binary .add hdf hdg
  | subtract =>
      cases df <;> cases dg <;>
        first | trivial | assumption | exact .negate hdg | exact .binary .subtract hdf hdg
  | multiply => exact zerosBesideLogs_product hf hg hdf hdg
  | divide => exact zerosBesideLogs_quotient hf hg hdf hdg
  | power => exact zerosBesideLogs_power hf hg hdf hdg

end Operands

theorem zerosBesideLogs_function {function : NamedFunction} {chain : Expr → Expr → Step × Expr}
    (hchain : chain? function = some chain) (hf : f.ZerosBesideLogs)
    (hdf : df.ZerosBesideLogs) : (Rules.function chain f df).2.ZerosBesideLogs := by
  cases df with
  | zero => trivial
  | expr df =>
      change (chain f df).2.ZerosBesideLogs
      replace hdf : df.ZerosBesideLogs := hdf
      cases function with
      | sin =>
          cases hchain
          dsimp only
          split
          · exact .apply .cos hf
          · exact .binary .multiply hdf (.apply .cos hf)
      | cos =>
          cases hchain
          dsimp only
          split
          · exact .negate (.apply .sin hf)
          · exact .negate (.binary .multiply hdf (.apply .sin hf))
      | tan =>
          cases hchain
          exact .binary .divide hdf (.binary .power (.apply .cos hf) zerosBesideLogs_two)
      | exp =>
          cases hchain
          dsimp only
          split
          · exact .apply .exp hf
          · exact .binary .multiply hdf (.apply .exp hf)
      | sqrt =>
          cases hchain
          exact .binary .divide hdf (.binary .multiply zerosBesideLogs_two (.apply .sqrt hf))
      | ln => cases hchain

end Rules

namespace Expr

theorem zerosBesideLogs_of_forallConstants
    (h : e.ForallConstants fun value => value.isZero = false) : e.ZerosBesideLogs := by
  induction e with
  | constant value => exact .constant (forallConstants_constant.mp h)
  | var => exact .var
  | negate f ih => exact .negate (ih (forallConstants_negate.mp h))
  | apply function f ih => exact .apply function (ih (forallConstants_apply.mp h))
  | binary operator f g ihf ihg =>
      obtain ⟨hf, hg⟩ := forallConstants_binary.mp h
      exact .binary operator (ihf hf) (ihg hg)

theorem zerosBesideLogs_derived (hlog : ¬ e.HasLog)
    (h : e.ForallConstants fun value => value.isZero = false) : e.derived.ZerosBesideLogs := by
  induction e, hlog using induction_of_not_hasLog with
  | constant value => trivial
  | var => exact Rules.zerosBesideLogs_one
  | negate f _ _ ih =>
      rw [derived_negate]
      exact Rules.zerosBesideLogs_negate (ih (forallConstants_negate.mp h))
  | apply function chain f _ _ hchain ih =>
      have hf := forallConstants_apply.mp h
      rw [derived_apply hchain]
      exact Rules.zerosBesideLogs_function hchain (zerosBesideLogs_of_forallConstants hf) (ih hf)
  | binary operator f g _ _ _ ihf ihg =>
      obtain ⟨hf, hg⟩ := forallConstants_binary.mp h
      rw [derived_binary]
      exact Rules.zerosBesideLogs_operator (zerosBesideLogs_of_forallConstants hf)
        (zerosBesideLogs_of_forallConstants hg) (ihf hf) (ihg hg) operator

/-- The path leads to the left factor of a product of zero and a logarithm. -/
def IsFactorOfLog (e : Expr) (path : Path) : Prop :=
  ∃ front g, path = front ++ [0] ∧ e.get? front = some (.multiply .zero (.apply .ln g))

theorem IsFactorOfLog.of_child {child : Expr} {index : Nat} {path : Path}
    (hchild : e.child? index = some child) (h : child.IsFactorOfLog path) :
    e.IsFactorOfLog (index :: path) := by
  obtain ⟨front, g, rfl, hproduct⟩ := h
  refine ⟨index :: front, g, rfl, ?_⟩
  rw [get?_cons, hchild, Option.bind_some, hproduct]

theorem exists_child_of_get? {node : Expr} {path : Path} (hnode : e.get? path = some node)
    (hne : e ≠ node) :
    ∃ index rest child, path = index :: rest ∧ e.child? index = some child ∧
      child.get? rest = some node :=
  (get?_eq_some_iff.mp hnode).resolve_left fun h => hne h.2.symm

/-- Every path to a zero leads to such a factor. -/
theorem ZerosBesideLogs.isFactorOfLog (h : e.ZerosBesideLogs) {path : Path} {value : Binary64}
    (hnode : e.get? path = some (.constant value)) (hzero : value.isZero = true) :
    e.IsFactorOfLog path := by
  induction h generalizing path with
  | @constant value' hvalue =>
      have hne : Expr.constant value' ≠ .constant value := by
        rintro ⟨⟩
        simp [hvalue] at hzero
      obtain ⟨_, _, _, -, hchild, -⟩ := exists_child_of_get? hnode hne
      cases hchild
  | var =>
      obtain ⟨_, _, _, -, hchild, -⟩ := exists_child_of_get? hnode nofun
      cases hchild
  | negate hf ih =>
      obtain ⟨_, rest, _, rfl, hchild, hnode⟩ := exists_child_of_get? hnode nofun
      obtain ⟨rfl, rfl⟩ := child?_negate_eq_some_iff.mp hchild
      exact (ih hnode).of_child hchild
  | apply function hf ih =>
      obtain ⟨_, rest, _, rfl, hchild, hnode⟩ := exists_child_of_get? hnode nofun
      obtain ⟨rfl, rfl⟩ := child?_apply_eq_some_iff.mp hchild
      exact (ih hnode).of_child hchild
  | binary operator hf hg ihf ihg =>
      obtain ⟨_, rest, _, rfl, hchild, hnode⟩ := exists_child_of_get? hnode nofun
      rcases child?_binary_eq_some_iff.mp hchild with ⟨rfl, rfl⟩ | ⟨rfl, rfl⟩
      · exact (ihf hnode).of_child hchild
      · exact (ihg hnode).of_child hchild
  | @zeroTimesLog g hg ih =>
      obtain ⟨_, rest, _, rfl, hchild, hnode⟩ := exists_child_of_get? hnode nofun
      rcases child?_binary_eq_some_iff.mp hchild with ⟨rfl, rfl⟩ | ⟨rfl, rfl⟩
      · -- The zero has no children, so the path ends here.
        rcases get?_eq_some_iff.mp hnode with ⟨rfl, -⟩ | ⟨_, _, _, -, hchild, -⟩
        · exact ⟨[], g, rfl, get?_nil _⟩
        · cases hchild
      · obtain ⟨_, rest, _, rfl, hchild', hnode⟩ := exists_child_of_get? hnode nofun
        obtain ⟨rfl, rfl⟩ := child?_apply_eq_some_iff.mp hchild'
        exact ((ih hnode).of_child hchild').of_child hchild

end Expr

end SymbolicCalculus
