import SymbolicCalculus.Proofs.Expr.Nodes
import SymbolicCalculus.Proofs.Number.Numeral
import SymbolicCalculus.TaggedForm

/-! # Tagged form of expressions

The JSON values that stand for an expression form a grammar. Reading accepts just
these values, and writing picks one of them for each expression without infinities
and NaNs. What is read and written again differs only in the spelling of the variable
and of numbers.
-/

namespace SymbolicCalculus

namespace Binary64

variable {b : Binary64} {value : Int}

theorem code_ofCode {negative : Bool} {code : Nat} (h : code < 2048 * fractionCount) :
    (ofCode negative code).code = code := by
  simp only [Binary64.code, ofCode, Fin.ofNat, fractionCount] at h ⊢
  omega

/-- Rounding an integer gives the nearest number, with the sign of the integer. -/
theorem ofInt_eq_iff (hfinite : b.isFinite) :
    ofInt value = b ↔
      b.negative = decide (value < 0) ∧ Nearest b.code (value.natAbs * Nat.pow 2 1074) 1 := by
  constructor
  · rintro rfl
    obtain ⟨code, hnearest, hcode⟩ := exists_nearest value.natAbs Nat.one_pos
    have hrange : min infinityCode code < 2048 * fractionCount :=
      (Nat.min_le_left _ _).trans_lt (by decide)
    have hown : (ofInt value).code = min infinityCode code := by
      rw [ofInt, hcode, code_ofCode hrange]
    -- The code of a finite number is below that of infinity, so nothing is cut off.
    have hbelow := code_lt_infinityCode hfinite
    rw [hown] at hbelow ⊢
    rw [Nat.min_eq_right (by omega)]
    exact ⟨rfl, hnearest⟩
  · rintro ⟨hsign, hnearest⟩
    rw [ofInt, nearestCode_eq Nat.one_pos hnearest,
      Nat.min_eq_right (code_lt_infinityCode hfinite).le, ← hsign, ofCode_code]

end Binary64

namespace Json

/-- The finite number that is nearest to a JSON number. An integer halfway between two
numbers denotes the even one. -/
inductive Denotes : Json → Binary64 → Prop
  | integer {value : Int} {b : Binary64} (hfinite : b.isFinite)
      (hsign : b.negative = decide (value < 0))
      (hnearest : Binary64.Nearest b.code (value.natAbs * Nat.pow 2 1074) 1) :
      Denotes (integer value) b
  | number {b : Binary64} (hfinite : b.isFinite) : Denotes (number b) b

/-- The second value is the first one with the variable written as a name and with
every number written as the nearest binary64 number. -/
inductive Respelled : Json → Json → Prop
  | name (name : String) : Respelled (string name) (string name)
  | variable : Respelled (object [("Variable", null)]) (string "Variable")
  | number {value : Json} {b : Binary64} (h : value.Denotes b) : Respelled value (number b)
  | member (name : String) {value value' : Json} (h : Respelled value value') :
      Respelled (object [(name, value)]) (object [(name, value')])
  | pair {first second first' second' : Json} (hfirst : Respelled first first')
      (hsecond : Respelled second second') :
      Respelled (array [first, second]) (array [first', second'])

theorem binary64?_eq_some_iff {value : Json} {b : Binary64} :
    value.binary64? = some b ↔ value.Denotes b := by
  constructor
  · intro h
    cases value with
    | integer value =>
        obtain ⟨hfinite, hvalue⟩ : (Binary64.ofInt value).isFinite ∧ Binary64.ofInt value = b := by
          simpa [binary64?] using h
        rw [hvalue] at hfinite
        obtain ⟨hsign, hnearest⟩ := (Binary64.ofInt_eq_iff hfinite).mp hvalue
        exact .integer hfinite hsign hnearest
    | number value =>
        obtain ⟨hfinite, rfl⟩ : value.isFinite ∧ value = b := by simpa [binary64?] using h
        exact .number hfinite
    | _ => cases h
  · rintro (⟨hfinite, hsign, hnearest⟩ | hfinite)
    · rw [binary64?, (Binary64.ofInt_eq_iff hfinite).mpr ⟨hsign, hnearest⟩, if_pos hfinite]
    · exact if_pos hfinite

end Json

section Names

variable {name : String} {tag : Tag}

theorem Tag.ofName?_name (tag : Tag) : ofName? tag.name = some tag := by
  rcases tag with _ | _ | _ | _ | operator | function
  case operator => cases operator <;> rfl
  case function => cases function <;> rfl
  all_goals rfl

theorem Tag.ofName?_eq_some_iff : ofName? name = some tag ↔ name = tag.name := by
  constructor
  · intro h
    unfold ofName? at h
    have hname := List.find?_some h
    exact (beq_iff_eq.mp hname).symm
  · rintro rfl
    exact tag.ofName?_name

end Names

namespace Expr

/-- The nodes with one child: their names, and the expressions that they make of it. -/
def childForms : List (String × (Expr → Expr)) :=
  [("Negate", negate), ("Sin", apply .sin), ("Cos", apply .cos), ("Tan", apply .tan),
    ("Exp", apply .exp), ("Ln", apply .ln), ("Sqrt", apply .sqrt)]

/-- The nodes with two children. -/
def pairForms : List (String × (Expr → Expr → Expr)) :=
  [("Add", add), ("Subtract", subtract), ("Multiply", multiply), ("Divide", divide),
    ("Power", power)]

/-- The JSON values that stand for an expression. -/
inductive TaggedForm : Json → Expr → Prop
  | name : TaggedForm (.string "Variable") var
  | member : TaggedForm (.object [("Variable", .null)]) var
  | constant {value : Json} {b : Binary64} (h : value.Denotes b) :
      TaggedForm (.object [("Constant", value)]) (constant b)
  | child {name : String} {make : Expr → Expr} {value : Json} {f : Expr}
      (hname : (name, make) ∈ childForms) (hf : TaggedForm value f) :
      TaggedForm (.object [(name, value)]) (make f)
  | pair {name : String} {make : Expr → Expr → Expr} {first second : Json} {f g : Expr}
      (hname : (name, make) ∈ pairForms) (hf : TaggedForm first f) (hg : TaggedForm second g) :
      TaggedForm (.object [(name, .array [first, second])]) (make f g)

/-- No constant of the expression is an infinity or a NaN. -/
def FiniteConstants (e : Expr) : Prop :=
  e.ForallConstants fun value => value.isFinite = true

variable {operator : Operator} {function : NamedFunction} {e f g : Expr} {value : Binary64}
variable {name : String} {tag : Option Tag} {child left right : Option Expr} {v : Json}

section Names

theorem mem_childForms_iff {make : Expr → Expr} :
    (name, make) ∈ childForms ↔
      (name = Tag.negate.name ∧ make = negate) ∨
        ∃ function : NamedFunction, name = function.name ∧ make = apply function := by
  constructor
  · intro h
    simp only [childForms, List.mem_cons, Prod.mk.injEq, List.not_mem_nil, or_false] at h
    rcases h with h | h | h | h | h | h | h
    · exact .inl h
    · exact .inr ⟨.sin, h⟩
    · exact .inr ⟨.cos, h⟩
    · exact .inr ⟨.tan, h⟩
    · exact .inr ⟨.exp, h⟩
    · exact .inr ⟨.ln, h⟩
    · exact .inr ⟨.sqrt, h⟩
  · rintro (⟨rfl, rfl⟩ | ⟨function, rfl, rfl⟩)
    · exact List.mem_cons_self
    · cases function <;> simp [childForms, NamedFunction.name]

theorem mem_pairForms_iff {make : Expr → Expr → Expr} :
    (name, make) ∈ pairForms ↔
      ∃ operator : Operator, name = operator.name ∧ make = binary operator := by
  constructor
  · intro h
    simp only [pairForms, List.mem_cons, Prod.mk.injEq, List.not_mem_nil, or_false] at h
    rcases h with h | h | h | h | h
    · exact ⟨.add, h⟩
    · exact ⟨.subtract, h⟩
    · exact ⟨.multiply, h⟩
    · exact ⟨.divide, h⟩
    · exact ⟨.power, h⟩
  · rintro ⟨operator, rfl, rfl⟩
    cases operator <;> simp [pairForms, Operator.name] <;> rfl

end Names

section Pieces

theorem ofUnit?_eq_some_iff : ofUnit? tag = some e ↔ tag = some .var ∧ e = var := by
  unfold ofUnit?
  split
  next => simp [eq_comm]
  next hother => simpa using fun htag => absurd htag hother

theorem ofNumber?_eq_some_iff :
    ofNumber? tag v = some e ↔ tag = some .constant ∧ ∃ b, v.Denotes b ∧ e = constant b := by
  unfold ofNumber?
  split
  next => simp [Json.binary64?_eq_some_iff, @eq_comm _ e]
  next hother => simpa using fun htag => absurd htag hother

theorem ofChild?_eq_some_iff :
    ofChild? tag child = some e ↔
      ∃ f, child = some f ∧
        ((tag = some .negate ∧ e = negate f) ∨
          ∃ function, tag = some (.function function) ∧ e = apply function f) := by
  constructor
  · intro h
    unfold ofChild? at h
    split at h
    next f =>
      cases h
      exact ⟨f, rfl, .inl ⟨rfl, rfl⟩⟩
    next function f =>
      cases h
      exact ⟨f, rfl, .inr ⟨function, rfl, rfl⟩⟩
    next => cases h
  · rintro ⟨f, rfl, ⟨rfl, rfl⟩ | ⟨function, rfl, rfl⟩⟩ <;> rfl

theorem ofPair?_eq_some_iff :
    ofPair? tag left right = some e ↔
      ∃ operator f g, tag = some (.operator operator) ∧ left = some f ∧ right = some g ∧
        e = binary operator f g := by
  constructor
  · intro h
    unfold ofPair? at h
    split at h
    next operator f g =>
      cases h
      exact ⟨operator, f, g, rfl, rfl, rfl, rfl⟩
    next => cases h
  · rintro ⟨operator, f, g, rfl, rfl, rfl, rfl⟩
    rfl

end Pieces

section Reading

/-- Whatever stands for an expression is read as the child of a node. -/
theorem TaggedForm.ofJson?_member (h : TaggedForm v f) (name : String) :
    ofJson? (.object [(name, v)]) = ofChild? (Tag.ofName? name) (ofJson? v) := by
  cases h <;> rfl

theorem ofChild?_of_mem {make : Expr → Expr} (hname : (name, make) ∈ childForms) :
    ofChild? (Tag.ofName? name) (some f) = some (make f) := by
  rcases mem_childForms_iff.mp hname with ⟨rfl, rfl⟩ | ⟨function, rfl, rfl⟩
  · exact ofChild?_eq_some_iff.mpr ⟨f, rfl, .inl ⟨Tag.ofName?_name .negate, rfl⟩⟩
  · exact ofChild?_eq_some_iff.mpr
      ⟨f, rfl, .inr ⟨function, Tag.ofName?_name (.function function), rfl⟩⟩

theorem ofPair?_of_mem {make : Expr → Expr → Expr} (hname : (name, make) ∈ pairForms) :
    ofPair? (Tag.ofName? name) (some f) (some g) = some (make f g) := by
  obtain ⟨operator, rfl, rfl⟩ := mem_pairForms_iff.mp hname
  exact ofPair?_eq_some_iff.mpr
    ⟨operator, f, g, Tag.ofName?_name (.operator operator), rfl, rfl, rfl⟩

theorem TaggedForm.ofJson?_eq (h : TaggedForm v e) : ofJson? v = some e := by
  induction h with
  | name => rfl
  | member => rfl
  | constant h =>
      have hnumber := ofNumber?_eq_some_iff.mpr ⟨Tag.ofName?_name .constant, _, h, rfl⟩
      cases h <;> exact hnumber
  | child hname hf ih => rw [hf.ofJson?_member, ih, ofChild?_of_mem hname]
  | pair hname hf hg ihf ihg => rw [ofJson?, ihf, ihg, ofPair?_of_mem hname]

/-- Reading accepts the values of the grammar, and no others. -/
theorem ofJson?_eq_some_iff : ofJson? v = some e ↔ TaggedForm v e := by
  refine ⟨?_, TaggedForm.ofJson?_eq⟩
  intro h
  fun_induction ofJson? v generalizing e with
  | case1 name =>
      obtain ⟨htag, rfl⟩ := ofUnit?_eq_some_iff.mp h
      rw [Tag.ofName?_eq_some_iff.mp htag]
      exact .name
  | case2 name =>
      obtain ⟨htag, rfl⟩ := ofUnit?_eq_some_iff.mp h
      rw [Tag.ofName?_eq_some_iff.mp htag]
      exact .member
  | case3 name value | case4 name value =>
      obtain ⟨htag, b, hdenotes, rfl⟩ := ofNumber?_eq_some_iff.mp h
      rw [Tag.ofName?_eq_some_iff.mp htag]
      exact .constant hdenotes
  | case5 name first second ihf ihg =>
      obtain ⟨operator, f, g, htag, hf, hg, rfl⟩ := ofPair?_eq_some_iff.mp h
      rw [Tag.ofName?_eq_some_iff.mp htag]
      exact .pair (mem_pairForms_iff.mpr ⟨operator, rfl, rfl⟩) (ihf hf) (ihg hg)
  | case6 name content _ _ _ _ ih =>
      obtain ⟨f, hf, ⟨htag, rfl⟩ | ⟨function, htag, rfl⟩⟩ := ofChild?_eq_some_iff.mp h
      · rw [Tag.ofName?_eq_some_iff.mp htag]
        exact .child (mem_childForms_iff.mpr (.inl ⟨rfl, rfl⟩)) (ih hf)
      · rw [Tag.ofName?_eq_some_iff.mp htag]
        exact .child (mem_childForms_iff.mpr (.inr ⟨function, rfl, rfl⟩)) (ih hf)
  | case7 => cases h

end Reading

section Writing

/-- Without infinities and NaNs an expression is written as one of the values that stand
for it. -/
theorem taggedForm_toJson (h : e.FiniteConstants) : TaggedForm e.toJson e := by
  induction e with
  | constant value =>
      have hfinite := forallConstants_constant.mp h
      rw [toJson, if_pos hfinite]
      exact .constant (.number hfinite)
  | var => exact .name
  | negate f ih =>
      exact .child (mem_childForms_iff.mpr (.inl ⟨rfl, rfl⟩)) (ih (forallConstants_negate.mp h))
  | apply function f ih =>
      exact .child (mem_childForms_iff.mpr (.inr ⟨function, rfl, rfl⟩))
        (ih (forallConstants_apply.mp h))
  | binary operator f g ihf ihg =>
      obtain ⟨hf, hg⟩ := forallConstants_binary.mp h
      exact .pair (mem_pairForms_iff.mpr ⟨operator, rfl, rfl⟩) (ihf hf) (ihg hg)

theorem ofJson?_member_toJson (name : String) (f : Expr) :
    ofJson? (.object [(name, f.toJson)]) = ofChild? (Tag.ofName? name) (ofJson? f.toJson) := by
  cases f <;> rfl

/-- One infinity or NaN anywhere in an expression is enough to make its form
unreadable. -/
theorem finiteConstants_of_ofJson?_toJson {e' : Expr} (h : ofJson? e.toJson = some e') :
    e.FiniteConstants := by
  induction e generalizing e' with
  | constant value =>
      refine forallConstants_constant.mpr ?_
      by_contra hinfinite
      rw [toJson, if_neg hinfinite] at h
      cases h
  | var => exact forallConstants_var
  | negate f ih =>
      rw [toJson, ofJson?_member_toJson] at h
      obtain ⟨f', hf, -⟩ := ofChild?_eq_some_iff.mp h
      exact forallConstants_negate.mpr (ih hf)
  | apply function f ih =>
      rw [toJson, ofJson?_member_toJson] at h
      obtain ⟨f', hf, -⟩ := ofChild?_eq_some_iff.mp h
      exact forallConstants_apply.mpr (ih hf)
  | binary operator f g ihf ihg =>
      rw [toJson, ofJson?] at h
      obtain ⟨_, f', g', -, hf, hg, -⟩ := ofPair?_eq_some_iff.mp h
      exact forallConstants_binary.mpr ⟨ihf hf, ihg hg⟩

end Writing

namespace TaggedForm

theorem finiteConstants (h : TaggedForm v e) : e.FiniteConstants := by
  induction h with
  | name | member => exact forallConstants_var
  | constant h =>
      cases h with
      | integer hfinite => exact forallConstants_constant.mpr hfinite
      | number hfinite => exact forallConstants_constant.mpr hfinite
  | child hname _ ih =>
      rcases mem_childForms_iff.mp hname with ⟨-, rfl⟩ | ⟨function, -, rfl⟩
      · exact forallConstants_negate.mpr ih
      · exact forallConstants_apply.mpr ih
  | pair hname _ _ ihf ihg =>
      obtain ⟨operator, -, rfl⟩ := mem_pairForms_iff.mp hname
      exact forallConstants_binary.mpr ⟨ihf, ihg⟩

/-- Writing what was read respells it. -/
theorem respelled (h : TaggedForm v e) : v.Respelled e.toJson := by
  induction h with
  | name => exact .name _
  | member => exact .variable
  | constant h =>
      rw [toJson, if_pos (forallConstants_constant.mp (TaggedForm.constant h).finiteConstants)]
      exact .member _ (.number h)
  | child hname _ ih =>
      rcases mem_childForms_iff.mp hname with ⟨rfl, rfl⟩ | ⟨function, rfl, rfl⟩
      · exact .member _ ih
      · exact .member _ ih
  | pair hname _ _ ihf ihg =>
      obtain ⟨operator, rfl, rfl⟩ := mem_pairForms_iff.mp hname
      exact .member _ (.pair ihf ihg)

end TaggedForm

/-- An expression is read back from its form bit by bit, unless it has an infinity or a
NaN somewhere: then its form cannot be read. The values that can be read are those of
the grammar, each as the expression that it stands for, and to write the expression
again is to respell the value. -/
theorem tagged_form_reads_back :
    (∀ e : Expr, e.FiniteConstants → ofJson? e.toJson = some e) ∧
      (∀ e : Expr, ¬ e.FiniteConstants → ofJson? e.toJson = none) ∧
      (∀ (v : Json) (e : Expr), ofJson? v = some e ↔ TaggedForm v e) ∧
      ∀ (v : Json) (e : Expr), ofJson? v = some e →
        ofJson? e.toJson = some e ∧ v.Respelled e.toJson := by
  refine ⟨?finite, ?infinite, ?grammar, ?again⟩
  case finite =>
    intro e h
    exact (taggedForm_toJson h).ofJson?_eq
  case infinite =>
    intro e h
    rw [Option.eq_none_iff_forall_ne_some]
    intro e' he'
    exact h (finiteConstants_of_ofJson?_toJson he')
  case grammar =>
    intro v e
    exact ofJson?_eq_some_iff
  case again =>
    intro v e h
    have hform := ofJson?_eq_some_iff.mp h
    exact ⟨(taggedForm_toJson hform.finiteConstants).ofJson?_eq, hform.respelled⟩

example :
    (ofJson? (.object [("Add", .array [.object [("Constant", .number .two)],
      .object [("Variable", .null)]])])).map toJson =
      some (.object [("Add", .array [.object [("Constant", .number .two)],
        .string "Variable"])]) := by
  rfl

end Expr

end SymbolicCalculus
