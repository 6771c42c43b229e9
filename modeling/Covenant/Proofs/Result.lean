import Covenant.Diagnostic.Fault
import Mathlib.Data.List.Forall2

/-!
# Results of steps that may fail
-/

namespace Covenant

/-- A sequence has a result when both steps have one. -/
theorem of_bind_eq_ok {ε α β : Type} {x : Except ε α} {f : α → Except ε β} {b : β}
    (h : x >>= f = .ok b) : ∃ a, x = .ok a ∧ f a = .ok b := by
  cases x with
  | ok a => exact ⟨a, rfl, h⟩
  | error e => cases h

theorem eq_ok_of_toOption {ε α : Type} {x : Except ε α} {a : α} (h : x.toOption = some a) :
    x = .ok a := by
  cases x with
  | ok b => rw [Option.some.inj h]
  | error e => cases h

def Yields {α : Type} (A : α → Prop) (r : Except Fault α) : Prop :=
  ∀ a, r = .ok a → A a

namespace Yields

variable {α β : Type}

theorem ok (h : A a) : Yields A (.ok a) := by
  rintro _ ⟨⟩
  exact h

theorem error : Yields A (.error f) :=
  nofun

theorem bind {k : α → Except Fault β} (h : Yields A r)
    (hk : ∀ a, A a → Yields B (k a)) : Yields B (r >>= k) := by
  intro b hb
  obtain ⟨a, ha, hb⟩ := of_bind_eq_ok hb
  exact hk a (h a ha) b hb

theorem map {g : α → β} (h : Yields A r) (hg : ∀ a, A a → B (g a)) : Yields B (g <$> r) := by
  cases r with
  | ok a => exact .ok (hg a (h a rfl))
  | error f => exact .error

theorem mapM {γ : Type} {R : γ → β → Prop} {g : α → Except Fault β} {as : List α} {ts : List γ}
    (h : List.Forall₂ (fun t a => Yields (R t) (g a)) ts as) :
    Yields (List.Forall₂ R ts) (as.mapM g) := by
  induction h with
  | nil => exact .ok .nil
  | cons ha _ ih =>
    rw [List.mapM_cons]
    exact ha.bind fun _ hb => ih.bind fun _ hbs => .ok (.cons hb hbs)

end Yields

end Covenant
