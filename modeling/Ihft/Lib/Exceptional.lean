import Mathlib.Control.Basic
import Mathlib.Tactic

/-!
# Monads without other effects than exceptions

In an `Exceptional` monad a computation returns only if each of its parts returns.  A function over
such a monad is written once; what is proved about the results that it returns holds for queries
that always return (`Id`), that may throw (`Except ε`) and that may also not come to an end
(`ExceptT ε Option`).
-/

universe u v

/-- A sequence of two steps returns only if both do. -/
class Exceptional (m : Type u → Type v) [Monad m] : Prop where
  pure_injective : ∀ {α : Type u}, Function.Injective (pure : α → m α)
  bind_eq_pure : ∀ {α β : Type u} {x : m α} {f : α → m β} {b : β}, x >>= f = pure b →
    ∃ a, x = pure a ∧ f a = pure b

namespace Exceptional

instance : Exceptional Id.{u} where
  pure_injective h := h
  bind_eq_pure {_ _ x _ _} h := ⟨x, rfl, h⟩

instance (ε : Type u) : Exceptional (Except.{u, v} ε) where
  pure_injective h := Except.ok.inj h
  bind_eq_pure {_ _ x _ _} h := by
    cases x with
    | ok a => exact ⟨a, rfl, h⟩
    | error e => cases h

instance (ε : Type u) : Exceptional (ExceptT ε Option) where
  pure_injective h := Except.ok.inj (Option.some.inj h)
  bind_eq_pure {_ _ x _ _} h := by
    cases x with
    | none => cases h
    | some x =>
      cases x with
      | ok a => exact ⟨a, rfl, h⟩
      | error e => cases Option.some.inj h

end Exceptional
