import Mathlib.Logic.Function.Iterate
import SymbolicCalculus.Proofs.Expr.Positions

/-! # What a traversal visits

A cursor looks at the top of its stack, turn by turn, until a turn visits a node
or finds the stack empty. From any state this takes finitely many turns. A
traversal from the root visits the positions of the expression one by one, and
nothing after the root.
-/

namespace SymbolicCalculus

namespace Position

/-- The children of a node as positions, left to right. -/
def children (p : Position) : List Position :=
  (List.range p.node.arity).filterMap fun index =>
    (p.node.child? index).map fun child => ⟨index :: p.trail, child⟩

variable {trail : List Nat} {f g : Expr} {operator : Operator} {function : NamedFunction}

theorem children_negate : (Position.mk trail (.negate f)).children = [⟨0 :: trail, f⟩] := rfl

theorem children_apply :
    (Position.mk trail (.apply function f)).children = [⟨0 :: trail, f⟩] := rfl

theorem children_binary :
    (Position.mk trail (.binary operator f g)).children =
      [⟨0 :: trail, f⟩, ⟨1 :: trail, g⟩] := rfl

end Position

namespace Cursor

/-- One turn of the search for the next node. The top of the stack is visited if
it has no children or its last child was visited last; else its children go on
the stack, the first one on top. -/
def turn (c : Cursor) : Option (Position × Cursor) ⊕ Cursor :=
  match c.pending with
  | [] => .inl none
  | top :: rest =>
      if top.lastChild? = none ∨ top.lastChild? = c.last then
        .inl (some (top, ⟨rest, some top.trail⟩))
      else .inr ⟨top.children ++ top :: rest, c.last⟩

section Turn

variable {last : Option (List Nat)} {trail : List Nat} {rest : List Position} {e : Expr} {n : Nat}

theorem turn_of_leaf (h : e.arity = 0) :
    turn ⟨⟨trail, e⟩ :: rest, last⟩ = .inl (some (⟨trail, e⟩, ⟨rest, some trail⟩)) := by
  simp [turn, Position.lastChild?, h]

theorem turn_of_last (h : e.arity = n + 1) :
    turn ⟨⟨trail, e⟩ :: rest, some (n :: trail)⟩ =
      .inl (some (⟨trail, e⟩, ⟨rest, some trail⟩)) := by
  simp [turn, Position.lastChild?, h]

theorem turn_of_ne_last (h : e.arity = n + 1) (hlast : last ≠ some (n :: trail)) :
    turn ⟨⟨trail, e⟩ :: rest, last⟩ =
      .inr ⟨(Position.mk trail e).children ++ ⟨trail, e⟩ :: rest, last⟩ := by
  simp [turn, Position.lastChild?, h, Ne.symm hlast]

/-- A call of `next` goes as its first turn says. -/
theorem next_eq_turn (c : Cursor) :
    c.next =
      match c.turn with
      | .inl result => result
      | .inr c' => c'.next := by
  obtain ⟨pending, last⟩ := c
  cases pending with
  | nil => rfl
  | cons top rest =>
      obtain ⟨trail, e⟩ := top
      cases e with
      | constant value => rfl
      | var => rfl
      | negate f =>
          by_cases hlast : last = some (0 :: trail)
          · subst hlast
            rw [turn_of_last rfl]
            simp [next, descend]
          · rw [turn_of_ne_last rfl hlast, Position.children_negate]
            simp [next, descend, hlast]
      | apply function f =>
          by_cases hlast : last = some (0 :: trail)
          · subst hlast
            rw [turn_of_last rfl]
            simp [next, descend]
          · rw [turn_of_ne_last rfl hlast, Position.children_apply]
            simp [next, descend, hlast]
      | binary operator f g =>
          by_cases hlast : last = some (1 :: trail)
          · subst hlast
            rw [turn_of_last rfl]
            simp [next, descend]
          · rw [turn_of_ne_last rfl hlast, Position.children_binary]
            simp [next, descend, hlast]

theorem next_of_turn_inl {c : Cursor} {result : Option (Position × Cursor)}
    (hturn : c.turn = .inl result) : c.next = result := by
  rw [next_eq_turn, hturn]

theorem next_of_turn_inr {c c' : Cursor} (hturn : c.turn = .inr c') : c.next = c'.next := by
  rw [next_eq_turn, hturn]

end Turn

section Termination

/-- The search ends with the result of the first turn that has one. -/
inductive Finds : Cursor → Option (Position × Cursor) → Prop where
  | now {c : Cursor} {result : Option (Position × Cursor)} (hturn : c.turn = .inl result) :
      Finds c result
  | later {c c' : Cursor} {result : Option (Position × Cursor)} (hturn : c.turn = .inr c')
      (hfinds : Finds c' result) : Finds c result

theorem Finds.eq_next {c : Cursor} {result : Option (Position × Cursor)} (h : c.Finds result) :
    result = c.next := by
  induction h with
  | now hturn => exact (next_of_turn_inl hturn).symm
  | later hturn _ ih => rw [ih, next_of_turn_inr hturn]

variable {last : Option (List Nat)} {trail : List Nat} {rest : List Position} {e : Expr} {n : Nat}

theorem exists_finds_of_children (h : e.arity = n + 1)
    (hchildren : ∃ result,
      Finds ⟨(Position.mk trail e).children ++ ⟨trail, e⟩ :: rest, last⟩ result) :
    ∃ result, Finds ⟨⟨trail, e⟩ :: rest, last⟩ result := by
  by_cases hlast : last = some (n :: trail)
  · subst hlast
    exact ⟨_, .now (turn_of_last h)⟩
  · obtain ⟨result, hfinds⟩ := hchildren
    exact ⟨result, .later (turn_of_ne_last h hlast) hfinds⟩

/-- A search that goes on is one from the first child, so it ends by induction on
the node at the top of the stack. -/
theorem exists_finds_top (e : Expr) (trail : List Nat) (rest : List Position) :
    ∃ result, Finds ⟨⟨trail, e⟩ :: rest, last⟩ result := by
  induction e generalizing trail rest with
  | constant value => exact ⟨_, .now (turn_of_leaf rfl)⟩
  | var => exact ⟨_, .now (turn_of_leaf rfl)⟩
  | negate f ih => exact exists_finds_of_children rfl (ih _ _)
  | apply function f ih => exact exists_finds_of_children rfl (ih _ _)
  | binary operator f g ihf _ => exact exists_finds_of_children rfl (ihf _ _)

/-- From any state the search ends, with what `next` gives. -/
theorem finds_next (c : Cursor) : c.Finds c.next := by
  have hfinds : ∃ result, c.Finds result := by
    obtain ⟨pending, last⟩ := c
    cases pending with
    | nil => exact ⟨none, .now rfl⟩
    | cons top rest => exact exists_finds_top top.node top.trail rest
  obtain ⟨result, hresult⟩ := hfinds
  rwa [← hresult.eq_next]

end Termination

section Visits

/-- Visiting positions one after the other leads from one cursor to another. -/
inductive Visits : Cursor → List Position → Cursor → Prop where
  | done (c : Cursor) : Visits c [] c
  | visit {c c' c'' : Cursor} {p : Position} {positions : List Position}
      (hnext : c.next = some (p, c')) (hvisits : Visits c' positions c'') :
      Visits c (p :: positions) c''

variable {c c' c'' : Cursor} {first second positions : List Position} {p : Position}

theorem Visits.append (h : Visits c first c') (h' : Visits c' second c'') :
    Visits c (first ++ second) c'' := by
  induction h with
  | done c => exact h'
  | visit hnext _ ih => exact .visit hnext (ih h')

theorem Visits.of_turn_inl (hturn : c.turn = .inl (some (p, c'))) : Visits c [p] c' :=
  .visit (next_of_turn_inl hturn) (.done c')

/-- A turn without a result changes nothing in what is visited. -/
theorem Visits.of_turn_inr (hturn : c.turn = .inr c') (h : Visits c' positions c'')
    (hne : positions ≠ []) : Visits c positions c'' := by
  cases h with
  | done => exact absurd rfl hne
  | visit hnext hvisits => exact .visit ((next_of_turn_inr hturn).trans hnext) hvisits

/-- The node visited last is not below the end of the trail, so no node from there on
passes for one whose children are done. -/
def Fresh (last : Option (List Nat)) (trail : List Nat) : Prop :=
  ∀ inner, last = some (inner ++ trail) → inner = []

variable {last : Option (List Nat)} {trail : List Nat}

theorem Fresh.ne_child (h : Fresh last trail) (index : Nat) : last ≠ some (index :: trail) :=
  fun hlast => List.cons_ne_nil index [] (h [index] hlast)

theorem Fresh.child (h : Fresh last trail) (index : Nat) : Fresh last (index :: trail) := by
  intro inner hlast
  have hnil := h (inner ++ [index]) (by simpa using hlast)
  simp at hnil

/-- After a child nothing below another child of the same node was visited last. -/
theorem fresh_sibling (index index' : Nat) (trail : List Nat) :
    Fresh (some (index :: trail)) (index' :: trail) := by
  intro inner hlast
  have hlength := congrArg List.length (Option.some.inj hlast)
  simp only [List.length_append, List.length_cons] at hlength
  exact List.eq_nil_of_length_eq_zero (by omega)

/-- A node is visited after what its children on the stack make the cursor visit. -/
theorem Visits.of_children (e : Expr) {n : Nat} {rest : List Position} (harity : e.arity = n + 1)
    (hfresh : Fresh last trail)
    (h : Visits ⟨(Position.mk trail e).children ++ ⟨trail, e⟩ :: rest, last⟩ positions
      ⟨⟨trail, e⟩ :: rest, some (n :: trail)⟩) :
    Visits ⟨⟨trail, e⟩ :: rest, last⟩ (positions ++ [⟨trail, e⟩]) ⟨rest, some trail⟩ := by
  have hall := h.append (.of_turn_inl (turn_of_last harity))
  exact hall.of_turn_inr (turn_of_ne_last harity (hfresh.ne_child n)) (by simp)

/-- From the top of the stack the positions below a node and the node are visited,
and the rest of the stack is left. -/
theorem visits_positions (e : Expr) (rest : List Position) (hfresh : Fresh last trail) :
    Visits ⟨⟨trail, e⟩ :: rest, last⟩ (e.positions.map (·.below trail)) ⟨rest, some trail⟩ := by
  induction e generalizing trail last rest with
  | constant value => exact .of_turn_inl (turn_of_leaf rfl)
  | var => exact .of_turn_inl (turn_of_leaf rfl)
  | negate f ih =>
      have hchildren := ih (⟨trail, .negate f⟩ :: rest) (hfresh.child 0)
      simpa [Expr.positions, Position.below, Function.comp_def] using
        Visits.of_children (.negate f) rfl hfresh hchildren
  | apply function f ih =>
      have hchildren := ih (⟨trail, .apply function f⟩ :: rest) (hfresh.child 0)
      simpa [Expr.positions, Position.below, Function.comp_def] using
        Visits.of_children (.apply function f) rfl hfresh hchildren
  | binary operator f g ihf ihg =>
      have hleft := ihf (⟨1 :: trail, g⟩ :: ⟨trail, .binary operator f g⟩ :: rest) (hfresh.child 0)
      have hright := ihg (⟨trail, .binary operator f g⟩ :: rest) (fresh_sibling 0 1 trail)
      have hchildren := hleft.append hright
      simpa [Expr.positions, Position.below, Function.comp_def] using
        Visits.of_children (.binary operator f g) rfl hfresh hchildren

theorem visits_start (e : Expr) : Visits (start e) e.positions ⟨[], some []⟩ := by
  have hfresh : Fresh none [] := by
    intro inner hlast
    cases hlast
  simpa [start] using visits_positions e [] hfresh

end Visits

section Calls

/-- The cursor after a call of `next`. A call that finds no node leaves it as it
was. -/
def advance (c : Cursor) : Cursor :=
  match c.next with
  | some (_, c') => c'
  | none => c

/-- What `next` gives in the call after `n` others. -/
def call (c : Cursor) (n : Nat) : Option Position := (advance^[n] c).next.map Prod.fst

variable {c c' : Cursor} {positions : List Position}

theorem call_zero : c.call 0 = c.next.map Prod.fst := rfl

theorem call_succ (n : Nat) : c.call (n + 1) = c.advance.call n := rfl

theorem call_of_next_eq_none (hnext : c.next = none) (n : Nat) : c.call n = none := by
  induction n with
  | zero => rw [call_zero, hnext, Option.map_none]
  | succ n ih =>
      have hadvance : c.advance = c := by rw [advance, hnext]
      rw [call_succ, hadvance, ih]

/-- The calls give the visited positions in turn, and nothing once the last node
is visited. -/
theorem Visits.call (h : Visits c positions c') (hend : c'.next = none) (n : Nat) :
    c.call n = positions[n]? := by
  induction h generalizing n with
  | done c => rw [call_of_next_eq_none hend, List.getElem?_nil]
  | @visit c middle c' p positions hnext _ ih =>
      cases n with
      | zero => rw [call_zero, hnext, Option.map_some, List.getElem?_cons_zero]
      | succ n =>
          have hadvance : c.advance = middle := by rw [advance, hnext]
          rw [call_succ, hadvance, ih hend, List.getElem?_cons_succ]

theorem run_of_next_eq_none {β : Type} (f : β → Position → β) (state : β) (hnext : c.next = none) :
    c.run f state = (state, c) := by
  rw [run]
  split
  next => rfl
  next hsome => rw [hnext] at hsome; cases hsome

theorem run_of_next_eq_some {β : Type} (f : β → Position → β) (state : β) {p : Position}
    (hnext : c.next = some (p, c')) : c.run f state = c'.run f (f state p) := by
  rw [run]
  split
  next hnone => rw [hnext] at hnone; cases hnone
  next hsome =>
    rw [hnext] at hsome
    cases hsome
    rfl

/-- A run folds over the positions that it visits. -/
theorem Visits.run {β : Type} (f : β → Position → β) (state : β) (h : Visits c positions c')
    (hend : c'.next = none) : c.run f state = (positions.foldl f state, c') := by
  induction h generalizing state with
  | done c => exact run_of_next_eq_none f state hend
  | visit hnext _ ih => rw [run_of_next_eq_some f state hnext, ih _ hend, List.foldl_cons]

end Calls

end Cursor

namespace Expr

open Cursor

theorem postOrder_eq_positions (e : Expr) : e.postOrder = e.positions := by
  rw [postOrder, (visits_start e).run _ _ rfl, List.foldl_flip_cons_eq_append']
  simp

theorem complexity_eq_size (e : Expr) : e.complexity = e.size := by
  rw [complexity, (visits_start e).run _ _ rfl, ← length_positions]
  simp

/-- A traversal visits every node once, children from left to right before their
parent, and then gives nothing more. So the nodes that it counts are those that
paths lead to. -/
theorem traversal_visits_nodes (e : Expr) :
    (∀ c : Cursor, c.Finds c.next) ∧
      (∀ n, (Cursor.start e).call n = e.postOrder[n]?) ∧
      (∀ p : Position, p ∈ e.postOrder ↔ e.get? p.path = some p.node) ∧
      (e.postOrder.Pairwise fun p q => Path.Before p.path q.path) ∧
      (e.postOrder.map Position.path).Nodup ∧
      e.postOrder.getLast? = some ⟨[], e⟩ ∧
      e.complexity = e.postOrder.length ∧
      e.complexity = 1 + (e.children.map complexity).sum ∧
      {path | (e.get? path).isSome}.encard = e.complexity := by
  have hcomplexity : complexity = size := funext complexity_eq_size
  rw [postOrder_eq_positions, hcomplexity]
  refine ⟨finds_next, ?_, ?_, e.pairwise_before_positions, e.nodup_map_path_positions, ?_,
    e.length_positions.symm, e.size_eq_children, e.encard_paths⟩
  · intro n
    exact (visits_start e).call rfl n
  · intro p
    exact mem_positions
  · cases e <;> simp [positions]

end Expr

end SymbolicCalculus
