import SymbolicCalculus.Derivative.Step

/-! # Step collectors

A collector receives the rules of a run in the order in which nodes finish.
Differentiation only ever pushes to it, so a collector cannot influence a run.
-/

namespace SymbolicCalculus

/-- A state that can receive steps. -/
class Collector (σ : Type) where
  push : σ → Step → σ

/-- The collector that keeps nothing. -/
instance : Collector Unit where
  push _ _ := ()

/-- The collector that keeps every step, in order. -/
instance : Collector (Array Step) where
  push := Array.push

/-- A collector that is lent out and passes every step on to its owner. -/
structure Lent (σ : Type) where
  owner : σ

instance {σ : Type} [Collector σ] : Collector (Lent σ) where
  push lent step := ⟨Collector.push lent.owner step⟩

end SymbolicCalculus
