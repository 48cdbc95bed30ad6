import SymbolicCalculus.Proofs.Expr.Reading

/-! # Expressions that share a text

Different expressions may have one text. A constant with its sign bit set is
written like the negation of its magnitude, wherever it stands, and all NaNs are
written alike. Apart from NaNs there is no other way to share a text.
-/

namespace SymbolicCalculus

namespace Binary64

variable {b b' : Binary64}

theorem eq_of_abs_eq (h : b.abs = b'.abs) (hsign : b.negative = b'.negative) : b = b' := by
  cases b
  cases b'
  simp_all [abs]

/-- The text of a number with its sign bit set is a minus before that of its
magnitude. -/
theorem number_of_negative (hnan : b.isNaN = false) (hsign : b.negative = true) :
    NumberLayout.plain.number b = '-' :: NumberLayout.plain.number b.abs := by
  have hnan' : ¬ b.isNaN := Bool.eq_false_iff.mp hnan
  have hnanAbs : ¬ b.abs.isNaN := hnan'
  have hsignAbs : ¬ b.abs.negative := Bool.false_ne_true
  rw [NumberLayout.number, if_neg hnan', if_pos hsign, NumberLayout.number, if_neg hnanAbs,
    if_neg hsignAbs]
  -- The sign bit is not among the fields that a magnitude is written from.
  rfl

end Binary64

namespace Expr

variable {a b f g : Expr} {value : Binary64}

/-- No constant of the expression is a NaN. -/
def NanFree (e : Expr) : Prop := e.ForallConstants fun value => value.isNaN = false

section Canonical

theorem canonical_of_negative (hnan : value.isNaN = false) (hsign : value.negative = true) :
    (constant value).canonical = negate (constant value.abs) := by
  simp [canonical, hnan, hsign]

theorem canonical_of_not_negative (hnan : value.isNaN = false) (hsign : value.negative = false) :
    (constant value).canonical = constant value := by
  simp [canonical, hnan, hsign]

end Canonical

section Text

theorem text_of_negative (hnan : value.isNaN = false) (hsign : value.negative = true) :
    (negate (constant value.abs)).text = (constant value).text := by
  have hneeded : Binding.signed.needsParentheses (constant value.abs).binding true = false := rfl
  rw [text_negate, negatedText, hneeded, enclosed, if_neg Bool.false_ne_true, text_constant,
    text_constant, Binary64.number_of_negative hnan hsign]
  exact String.ofList_append.symm

/-- Without NaNs the canonical form is written like the expression. In every place
it also binds like it, so it stands between parentheses where the expression does. -/
theorem text_canonical (h : a.NanFree) :
    a.canonical.binding = a.binding ∧ a.canonical.text = a.text := by
  induction a with
  | constant value =>
      have hnan := forallConstants_constant.mp h
      cases hsign : value.negative with
      | true =>
          rw [canonical_of_negative hnan hsign, text_of_negative hnan hsign]
          simp [binding, hsign]
      | false =>
          rw [canonical_of_not_negative hnan hsign]
          exact ⟨rfl, rfl⟩
  | var => exact ⟨rfl, rfl⟩
  | negate f ih =>
      obtain ⟨hbinding, htext⟩ := ih (forallConstants_negate.mp h)
      refine ⟨rfl, ?_⟩
      rw [canonical, text_negate, text_negate, negatedText, negatedText, hbinding, htext]
  | apply function f ih =>
      obtain ⟨-, htext⟩ := ih (forallConstants_apply.mp h)
      refine ⟨rfl, ?_⟩
      rw [canonical, text_apply, text_apply, htext]
  | binary operator f g ihf ihg =>
      obtain ⟨hf, hg⟩ := forallConstants_binary.mp h
      obtain ⟨hbinding, htext⟩ := ihf hf
      obtain ⟨hbinding', htext'⟩ := ihg hg
      refine ⟨rfl, ?_⟩
      rw [canonical, text_binary, text_binary, leftText, leftText, rightText, rightText, hbinding,
        htext, hbinding', htext']

theorem text_eq_of_canonical_eq (ha : a.NanFree) (hb : b.NanFree)
    (h : a.canonical = b.canonical) : a.text = b.text := by
  rw [← (text_canonical ha).2, ← (text_canonical hb).2, h]

end Text

/-- One node is a constant with its sign bit set, and the other is the negation of
its magnitude. -/
def SignPair (node node' : Expr) : Prop :=
  ∃ value : Binary64, value.negative = true ∧ node = constant value ∧
    node' = negate (constant value.abs)

/-- Somewhere the one expression has a constant with its sign bit set where the
other negates the magnitude. -/
def DifferInSign (a b : Expr) : Prop :=
  ∃ path node node', a.get? path = some node ∧ b.get? path = some node' ∧
    (SignPair node node' ∨ SignPair node' node)

section DifferInSign

theorem DifferInSign.of_child (index : Nat) (h : DifferInSign f g)
    (hleft : a.child? index = some f) (hright : b.child? index = some g) : DifferInSign a b := by
  obtain ⟨path, node, node', hnode, hnode', hpair⟩ := h
  refine ⟨index :: path, node, node', ?_, ?_, hpair⟩
  · rw [get?_cons, hleft, Option.bind_some, hnode]
  · rw [get?_cons, hright, Option.bind_some, hnode']

theorem SignPair.differInSign (h : SignPair a b) : DifferInSign a b :=
  ⟨[], a, b, get?_nil a, get?_nil b, .inl h⟩

theorem SignPair.differInSign_symm (h : SignPair a b) : DifferInSign b a :=
  ⟨[], b, a, get?_nil b, get?_nil a, .inr h⟩

theorem eq_constant_of_canonical (ha : a.NanFree) (h : a.canonical = constant value) :
    a = constant value := by
  cases a with
  | constant value' =>
      have hnan := forallConstants_constant.mp ha
      cases hsign : value'.negative with
      | true =>
          rw [canonical_of_negative hnan hsign] at h
          cases h
      | false => rwa [canonical_of_not_negative hnan hsign] at h
  | var => cases h
  | negate f => cases h
  | apply function f => cases h
  | binary operator f g => cases h

/-- Only a negated magnitude has the canonical form of a constant that is another
expression. -/
theorem eq_or_signPair_of_canonical (hnan : value.isNaN = false) (hb : b.NanFree)
    (h : (constant value).canonical = b.canonical) :
    constant value = b ∨ SignPair (constant value) b := by
  cases hsign : value.negative with
  | false =>
      rw [canonical_of_not_negative hnan hsign] at h
      exact .inl (eq_constant_of_canonical hb h.symm).symm
  | true =>
      rw [canonical_of_negative hnan hsign] at h
      cases b with
      | constant value' =>
          have hnan' := forallConstants_constant.mp hb
          cases hsign' : value'.negative with
          | true =>
              rw [canonical_of_negative hnan' hsign'] at h
              simp only [negate.injEq, constant.injEq] at h
              exact .inl (congrArg constant (Binary64.eq_of_abs_eq h (hsign.trans hsign'.symm)))
          | false =>
              rw [canonical_of_not_negative hnan' hsign'] at h
              cases h
      | var => cases h
      | negate g =>
          rw [canonical, negate.injEq] at h
          obtain rfl := eq_constant_of_canonical (forallConstants_negate.mp hb) h.symm
          exact .inr ⟨value, hsign, rfl, rfl⟩
      | apply function g => cases h
      | binary operator g g' => cases h

theorem eq_or_differInSign_constant (ha : a.NanFree) (hb : (constant value).NanFree)
    (h : a.canonical = (constant value).canonical) :
    a = constant value ∨ DifferInSign a (constant value) :=
  (eq_or_signPair_of_canonical (forallConstants_constant.mp hb) ha h.symm).imp Eq.symm
    SignPair.differInSign_symm

/-- Two expressions with one canonical form are equal, or they differ in the sign
of a constant. -/
theorem eq_or_differInSign (ha : a.NanFree) (hb : b.NanFree) (h : a.canonical = b.canonical) :
    a = b ∨ DifferInSign a b := by
  induction a generalizing b with
  | constant value =>
      have hpair := eq_or_signPair_of_canonical (forallConstants_constant.mp ha) hb h
      exact hpair.imp_right SignPair.differInSign
  | var =>
      cases b with
      | constant value => exact eq_or_differInSign_constant ha hb h
      | var => exact .inl rfl
      | _ => cases h
  | negate f ih =>
      cases b with
      | constant value => exact eq_or_differInSign_constant ha hb h
      | negate g =>
          simp only [canonical, negate.injEq] at h
          have hf := forallConstants_negate.mp ha
          have hg := forallConstants_negate.mp hb
          rcases ih hf hg h with rfl | hdiffer
          · exact .inl rfl
          · exact .inr (hdiffer.of_child 0 rfl rfl)
      | _ => cases h
  | apply function f ih =>
      cases b with
      | constant value => exact eq_or_differInSign_constant ha hb h
      | apply function' g =>
          simp only [canonical, apply.injEq] at h
          obtain ⟨rfl, h⟩ := h
          have hf := forallConstants_apply.mp ha
          have hg := forallConstants_apply.mp hb
          rcases ih hf hg h with rfl | hdiffer
          · exact .inl rfl
          · exact .inr (hdiffer.of_child 0 rfl rfl)
      | _ => cases h
  | binary operator f g ihf ihg =>
      cases b with
      | constant value => exact eq_or_differInSign_constant ha hb h
      | binary operator' f' g' =>
          simp only [canonical, binary.injEq] at h
          obtain ⟨rfl, hleft, hright⟩ := h
          obtain ⟨hf, hg⟩ := forallConstants_binary.mp ha
          obtain ⟨hf', hg'⟩ := forallConstants_binary.mp hb
          rcases ihf hf hf' hleft with rfl | hdiffer
          · rcases ihg hg hg' hright with rfl | hdiffer
            · exact .inl rfl
            · exact .inr (hdiffer.of_child 1 rfl rfl)
          · exact .inr (hdiffer.of_child 0 rfl rfl)
      | _ => cases h

end DifferInSign

section Shared

/-- Without NaNs two expressions share a text exactly where they share a canonical
form. They are then the same tree with the same constants, bit for bit, unless
somewhere the one has a constant with its sign bit set and the other the negation
of its magnitude. -/
theorem text_eq_iff_canonical_eq (a b : Expr) (ha : a.NanFree) (hb : b.NanFree) :
    (a.text = b.text ↔ a.canonical = b.canonical) ∧
      (a.text = b.text → a = b ∨ DifferInSign a b) := by
  refine ⟨⟨canonical_eq_of_text_eq, text_eq_of_canonical_eq ha hb⟩, ?_⟩
  intro htext
  exact eq_or_differInSign ha hb (canonical_eq_of_text_eq htext)

/-- The powers `x^(-2)` of a negated and of a negative two share their text. -/
theorem text_eq_iff_canonical_eq_power :
    (power var (negate two)).NanFree ∧
      (power var (constant { Binary64.two with negative := true })).NanFree ∧
      (power var (negate two)).text =
        (power var (constant { Binary64.two with negative := true })).text ∧
      DifferInSign (power var (negate two))
        (power var (constant { Binary64.two with negative := true })) := by
  have htwoNan : Binary64.two.isNaN = false := rfl
  have ha : (power var (negate two)).NanFree := by
    refine forallConstants_binary.mpr ⟨forallConstants_var, forallConstants_negate.mpr ?_⟩
    exact forallConstants_constant.mpr htwoNan
  have hb : (power var (constant { Binary64.two with negative := true })).NanFree :=
    forallConstants_binary.mpr ⟨forallConstants_var, forallConstants_constant.mpr htwoNan⟩
  obtain ⟨hiff, hdiffer⟩ := text_eq_iff_canonical_eq _ _ ha hb
  have htwo : (negate two).canonical = negate two :=
    congrArg negate (canonical_of_not_negative rfl rfl)
  have hminus : (constant { Binary64.two with negative := true }).canonical = negate two :=
    canonical_of_negative rfl rfl
  have htext := hiff.mpr (congrArg (power var) (htwo.trans hminus.symm))
  exact ⟨ha, hb, htext, (hdiffer htext).resolve_left nofun⟩

/-- Text alone does not tell the negation of two from minus two. -/
theorem text_negate_two_eq :
    (negate two).NanFree ∧ (constant { Binary64.two with negative := true }).NanFree ∧
      (negate two).text = (constant { Binary64.two with negative := true }).text ∧
      negate two ≠ constant { Binary64.two with negative := true } := by
  have habs : ({ Binary64.two with negative := true } : Binary64).abs = Binary64.two := rfl
  have hnan : ({ Binary64.two with negative := true } : Binary64).isNaN = false := rfl
  have htwo : (negate two).NanFree :=
    forallConstants_negate.mpr (forallConstants_constant.mpr hnan)
  refine ⟨htwo, forallConstants_constant.mpr hnan, ?_, nofun⟩
  rw [← text_of_negative hnan rfl, habs, two]

end Shared

end Expr

end SymbolicCalculus
