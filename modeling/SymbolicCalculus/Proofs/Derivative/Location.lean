import SymbolicCalculus.Proofs.Derivative.Outcome
import SymbolicCalculus.Proofs.Expr.Spans

/-! # Where differentiation fails

A run stops at the first logarithm in the order of paths, and the diagnostic
points at the text of that logarithm inside the text of the whole expression.
-/

namespace SymbolicCalculus

namespace Expr

/-- The path leads to a logarithm, and it comes before all others that do. A path
comes before those that extend it. -/
structure IsFirstLog (e : Expr) (path : Path) : Prop where
  exists_get? : ∃ argument, e.get? path = some (apply .ln argument)
  first : ∀ other argument, e.get? other = some (apply .ln argument) →
    path = other ∨ List.Lex (· < ·) path other

section FirstLog

variable {e child : Expr} {index : Nat} {path : Path}

theorem isFirstLog_ln (argument : Expr) : (apply .ln argument).IsFirstLog [] :=
  ⟨⟨argument, get?_nil _⟩, fun other _ _ => by cases other <;> simp⟩

theorem hasLog_of_get? {argument : Expr} (hnode : e.get? path = some (apply .ln argument)) :
    e.HasLog :=
  e.mentions_iff_get?.mpr ⟨path, _, hnode, rfl⟩

/-- The first logarithm of a node that is none is the first one of its first
child that has one. -/
theorem IsFirstLog.of_child (h : child.IsFirstLog path) (hchild : e.child? index = some child)
    (hroot : ∀ argument, e ≠ apply .ln argument)
    (hfirst : ∀ index' child', e.child? index' = some child' → child'.HasLog → index ≤ index') :
    e.IsFirstLog (index :: path) := by
  constructor
  · obtain ⟨argument, hnode⟩ := h.exists_get?
    refine ⟨argument, ?_⟩
    rw [get?_cons, hchild]
    exact hnode
  · intro other argument hnode
    rcases get?_eq_some_iff.mp hnode with
      ⟨-, heq⟩ | ⟨index', rest, child', rfl, hchild', hnode⟩
    · exact absurd heq.symm (hroot argument)
    · -- The other logarithm is in a later child, or in this one.
      rcases Nat.lt_or_eq_of_le (hfirst index' child' hchild' (hasLog_of_get? hnode)) with
        hlt | rfl
      · exact .inr (.rel hlt)
      · obtain rfl : child = child' := Option.some.inj (hchild.symm.trans hchild')
        rcases h.first rest argument hnode with rfl | hlex
        · exact .inl rfl
        · exact .inr (.cons hlex)

/-- The logarithm that a run meets first is the first one in the order of paths. -/
theorem isFirstLog_of_firstLog? (h : e.firstLog? = some path) : e.IsFirstLog path := by
  induction e generalizing path with
  | constant value => cases h
  | var => cases h
  | negate f ih =>
      obtain ⟨rest, hrest, rfl⟩ := Option.map_eq_some_iff.mp h
      exact (ih hrest).of_child rfl nofun fun _ _ _ _ => Nat.zero_le _
  | apply function f ih =>
      by_cases hfunction : function = .ln
      · subst hfunction
        cases h
        exact isFirstLog_ln f
      · rw [firstLog?_apply hfunction] at h
        obtain ⟨rest, hrest, rfl⟩ := Option.map_eq_some_iff.mp h
        refine (ih hrest).of_child rfl ?_ fun _ _ _ _ => Nat.zero_le _
        rintro argument ⟨⟩
        exact hfunction rfl
  | binary operator f g ihf ihg =>
      rcases Option.or_eq_some_iff.mp h with hleft | ⟨hnone, hright⟩
      · obtain ⟨rest, hrest, rfl⟩ := Option.map_eq_some_iff.mp hleft
        exact (ihf hrest).of_child rfl nofun fun _ _ _ _ => Nat.zero_le _
      · obtain ⟨rest, hrest, rfl⟩ := Option.map_eq_some_iff.mp hright
        refine (ihg hrest).of_child rfl nofun ?_
        intro index' child' hchild' hlog
        rcases child?_binary_eq_some_iff.mp hchild' with ⟨-, rfl⟩ | ⟨rfl, -⟩
        · -- The left operand has none, or the run would have stopped there.
          exact absurd hlog (firstLog?_eq_none_iff.mp (Option.map_eq_none_iff.mp hnone))
        · exact Nat.le_refl 1

end FirstLog

section Locate

variable {e : Expr}

/-- With a logarithm anywhere, differentiation fails, and the diagnostic points
at the first one: at its path, and at its text inside the whole text, up to the
parenthesis that closes it. -/
theorem derivativeWithSteps_locates_log {σ : Type} [Collector σ] (collector : σ)
    (hlog : e.HasLog) :
    ∃ path argument span,
      (e.derivativeWithSteps collector).1 =
          .error ⟨[span], .unimplemented ⟨.function .ln, path⟩⟩ ∧
        e.get? path = some (apply .ln argument) ∧
        (∀ other argument, e.get? other = some (apply .ln argument) →
          path = other ∨ List.Lex (· < ·) path other) ∧
        span.start < span.stop ∧ span.stop ≤ e.text.utf8ByteSize ∧
        span.bytes e.text = (apply .ln argument).text.toByteArray ∧
        (apply .ln argument).text = "ln(" ++ argument.text ++ ")" ∧ Balanced argument.text := by
  obtain ⟨path, hfirst⟩ := hasLog_iff_firstLog?.mp hlog
  obtain ⟨⟨argument, hnode⟩, hfirstLog⟩ := isFirstLog_of_firstLog? hfirst
  obtain ⟨span, hspan, hlt, hstop, hbytes⟩ := exists_span hnode
  refine ⟨path, argument, span, ?_, hnode, hfirstLog, hlt, hstop, hbytes, text_apply .ln argument,
    argument.balanced_text⟩
  rw [derivativeWithSteps_of_firstLog? hfirst, diagnose, hspan]
  rfl

/-- Of two nested logarithms the outer one is pointed at. -/
theorem derivativeWithSteps_locates_log_nested :
    (multiply var (apply .ln (apply .ln var))).HasLog ∧
      ∃ path span,
        ((multiply var (apply .ln (apply .ln var))).derivativeWithSteps (#[] : Array Step)).1 =
            .error ⟨[span], .unimplemented ⟨.function .ln, path⟩⟩ ∧
          (path = [1] ∨ List.Lex (· < ·) path [1]) ∧ span.start < span.stop := by
  have hlog : (multiply var (apply .ln (apply .ln var))).HasLog := by decide
  obtain ⟨path, argument, span, hresult, -, hfirst, hlt, -⟩ :=
    derivativeWithSteps_locates_log (#[] : Array Step) hlog
  exact ⟨hlog, path, span, hresult, hfirst [1] _ rfl, hlt⟩

end Locate

end Expr

end SymbolicCalculus
