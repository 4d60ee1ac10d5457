/-!
# Outcomes of a reading

A reading gives a result or an error.  What came out of a step and of what follows it tells
what came out of each.
-/

namespace ThemeSheet

variable {ε α β : Type} {result : Except ε α} {b : β} {err : ε}

theorem exists_of_map_eq_ok {f : α → β} (hmap : result.map f = .ok b) :
    ∃ a, result = .ok a ∧ f a = b := by
  cases result with
  | error err => cases hmap
  | ok a =>
      rw [Except.map, Except.ok.injEq] at hmap
      exact ⟨a, rfl, hmap⟩

theorem exists_of_bind_eq_ok {f : α → Except ε β} (hbind : result >>= f = .ok b) :
    ∃ a, result = .ok a ∧ f a = .ok b := by
  cases result with
  | error err => cases hbind
  | ok a => exact ⟨a, rfl, hbind⟩

theorem eq_error_of_map {f : α → β} (hmap : result.map f = .error err) :
    result = .error err := by
  cases result with
  | error found =>
      cases hmap
      rfl
  | ok a => cases hmap

theorem error_or_of_bind {f : α → Except ε β} (hbind : result >>= f = .error err) :
    result = .error err ∨ ∃ a, result = .ok a ∧ f a = .error err := by
  cases result with
  | error found =>
      cases hbind
      exact .inl rfl
  | ok a => exact .inr ⟨a, rfl, hbind⟩

end ThemeSheet
