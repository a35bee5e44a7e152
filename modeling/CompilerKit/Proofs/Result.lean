import CompilerKit.Fault
import Mathlib

/-! # Steps that may fail

When a sequence of steps succeeds, each step did. -/

namespace CompilerKit.Result

theorem bind_eq_ok {β γ : Type} {x : Result β} {f : β → Result γ} {r : γ} :
    x >>= f = .ok r ↔ ∃ b, x = .ok b ∧ f b = .ok r := by
  cases x with
  | error e => simp [bind, Except.bind]
  | ok b => simp [bind, Except.bind]

theorem filterM_eq_ok {β : Type} {p : β → Result Bool} {l r : List β} :
    l.filterM p = .ok r ↔ (∀ b ∈ l, ∃ c, p b = .ok c) ∧ r = l.filter fun b => p b = .ok true := by
  have aux : ∀ (l acc r : List β), l.filterAuxM p acc = .ok r ↔
      (∀ b ∈ l, ∃ c, p b = .ok c) ∧ r = (l.filter fun b => p b = .ok true).reverse ++ acc := by
    intro l
    induction l with
    | nil => intro acc r; simp [List.filterAuxM, pure, Except.pure, eq_comm]
    | cons b l ih =>
      intro acc r
      rw [List.filterAuxM, bind_eq_ok]
      cases hb : p b with
      | error e => simp [hb]
      | ok c => cases c <;> simp [hb, ih]
  rw [List.filterM, bind_eq_ok]
  constructor
  · rintro ⟨m, hm, hr⟩
    obtain ⟨all, rfl⟩ := (aux l [] m).1 hm
    cases hr
    exact ⟨all, by simp⟩
  · rintro ⟨all, rfl⟩
    exact ⟨_, (aux l [] _).2 ⟨all, rfl⟩, by simp [pure, Except.pure]⟩

end CompilerKit.Result

namespace CompilerKit

theorem storeSize_eq_ok {room : Nat} {n : Int} {size : Nat} :
    storeSize room n = .ok size ↔ 0 ≤ n ∧ n ≤ room ∧ size = n.toNat := by
  rw [storeSize]
  split
  case isTrue => simp; omega
  case isFalse =>
    split
    case isTrue => simp; omega
    case isFalse => simp [eq_comm]; omega

theorem exists_storeSize_error {room : Nat} {n : Int} (h : n < 0 ∨ room < n) :
    ∃ fault, storeSize room n = .error fault := by
  rw [storeSize]
  split
  case isTrue => exact ⟨_, rfl⟩
  case isFalse hneg => exact ⟨_, if_pos (h.resolve_left hneg)⟩

theorem storeSize_of_le {room : Nat} {n : Int} (h : 0 ≤ n) (hroom : n ≤ room) :
    storeSize room n = .ok n.toNat :=
  storeSize_eq_ok.2 ⟨h, hroom, rfl⟩

end CompilerKit
