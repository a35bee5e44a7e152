import CompilerKit.Assembly.Assembler
import CompilerKit.Proofs.Assembly.Code

/-! # Running an assembler

What the operations of an assembler do to its state. Code never gets shorter (`Grows`), also where an
operation fails, and the buffer always has room for more than the code (`lt_grownBy`).
-/

namespace CompilerKit.Assembler

variable {α β : Type} {a : Assembly}

theorem run_bind (m : Assembler α) (f : α → Assembler β) (a : Assembly) :
    (m >>= f).run.run a =
      match m.run.run a with
      | (.ok x, b) => (f x).run.run b
      | (.error e, b) => (.error e, b) := by
  rw [ExceptT.run_bind, StateT.run_bind]
  rcases h : m.run.run a with ⟨_ | _, b⟩ <;> rfl

theorem run_bind_of_ok {m : Assembler α} {x : α} {b : Assembly} (h : m.run.run a = (.ok x, b))
    (f : α → Assembler β) : (m >>= f).run.run a = (f x).run.run b := by
  rw [run_bind, h]

/-! Growth. -/

/-- Whatever happens, no code is lost. -/
def Grows (m : Assembler α) : Prop := ∀ a, a.code.length ≤ (m.run.run a).2.code.length

theorem Grows.le_bind {f : α → Assembler β} (hf : ∀ x, Grows (f x)) (m : Assembler α) (a : Assembly) :
    (m.run.run a).2.code.length ≤ ((m >>= f).run.run a).2.code.length := by
  rw [run_bind]
  rcases m.run.run a with ⟨e | x, b⟩
  · exact Nat.le_refl _
  · exact hf x b

theorem Grows.bind {m : Assembler α} {f : α → Assembler β} (hm : Grows m) (hf : ∀ x, Grows (f x)) :
    Grows (m >>= f) := fun a => (hm a).trans (le_bind hf m a)

theorem Grows.forM {ι : Type} {f : ι → Assembler Unit} (hf : ∀ x, Grows (f x)) (xs : List ι) :
    Grows (xs.forM f) := by
  induction xs with
  | nil => exact fun a => Nat.le_refl _
  | cons x xs ih =>
    exact (hf x).bind fun _ => ih

theorem grows_emit (chunks : Chunks) : Grows (emit chunks) := fun a =>
  (List.length_append ▸ Nat.le_add_right _ _ : a.code.length ≤ (a.code ++ chunks.bytes).length)

theorem grows_label (l : Nat) : Grows (label l) := fun _ => Nat.le_refl _

theorem grows_position : Grows position := fun _ => Nat.le_refl _

theorem grows_setLabel (l : Nat) (known : CodeLabel) : Grows (setLabel l known) := fun _ => Nat.le_refl _

theorem grows_throw (e : Fault) : Grows (throw e : Assembler α) := fun _ => Nat.le_refl _

theorem grows_get : Grows (get : Assembler Assembly) := fun _ => Nat.le_refl _

theorem grows_read (p : Int) (n : Nat) : Grows (read p n) := by
  refine grows_get.bind fun a => ?_
  split
  · split
    · exact fun _ => Nat.le_refl _
    · exact grows_throw _
  · exact grows_throw _

theorem run_get (a : Assembly) : (get : Assembler Assembly).run.run a = (.ok a, a) := rfl

theorem grows_overwriteOr (missed : Fault) (p : Int) (bytes : Code) :
    Grows (overwriteOr missed p bytes) := by
  intro a
  rw [overwriteOr, run_bind_of_ok (run_get a)]
  dsimp only
  -- Whatever the size of the buffer is, the code is left alone or overwritten in place.
  generalize (if _ < (a.capacity : Int) then (a.capacity : Int) else _) = capacity
  split
  · exact Nat.le_refl _
  split
  · exact Nat.le_refl _
  split
  · split
    · exact (Code.length_overwrite ..).ge
    · exact Nat.le_refl _
  · exact Nat.le_refl _

/-! The buffer. -/

/-- The buffer has room for the code and more. -/
def HasRoom (a : Assembly) : Prop := a.code.length < a.capacity

theorem lt_grown {capacity : Nat} (h : 0 < capacity) (length : Nat) :
    length < Assembly.grown capacity length := by
  unfold Assembly.grown
  split <;> omega

theorem lt_grownBy (chunks : Chunks) {capacity position : Nat} (h : position < capacity) :
    position + chunks.bytes.length < Assembly.grownBy capacity position chunks := by
  induction chunks generalizing capacity position with
  | nil => exact h
  | cons c cs ih =>
    have hstep := ih (lt_grown (by omega : 0 < capacity) (position + c.bytes.length))
    have hlength : (Chunks.bytes (c :: cs)).length = c.bytes.length + (Chunks.bytes cs).length := by
      simp [Chunks.bytes]
    rw [hlength, ← Nat.add_assoc]
    exact hstep

theorem run_read {p n : Nat} (h : p + n ≤ a.capacity) :
    (read p n).run.run a = (.ok (Code.toNat ((List.range n).map fun i => a.byteAt (p + i))), a) := by
  rw [read, run_bind_of_ok (run_get a)]
  dsimp only [Int.toNat?]
  rw [if_pos h]
  rfl

theorem run_read_held {p : Nat} {bytes : Code} (hroom : HasRoom a)
    (hlength : p + bytes.length ≤ a.code.length) (hheld : a.code.Holds p bytes) :
    (read p bytes.length).run.run a = (.ok (Code.toNat bytes), a) := by
  have hbytes : (List.range bytes.length).map (fun i => a.byteAt (p + i)) = bytes := by
    apply List.ext_getElem (by simp)
    intro i _ hi
    rw [List.getElem_map, List.getElem_range, Assembly.byteAt, List.getD_eq_getElem?_getD, hheld i hi,
      List.getElem?_eq_getElem hi, Option.getD_some]
  rw [run_read (hlength.trans hroom.le), hbytes]

theorem run_overwrite (p : Nat) (bytes : Code) (hroom : HasRoom a)
    (hlength : p + bytes.length ≤ a.code.length) :
    (overwrite p ⟨bytes⟩).run.run a = (.ok (), a.overwrite p bytes) := by
  have hroom' : a.code.length < a.capacity := hroom
  -- The end may wrap, but not to a larger number.
  have hend : (BitVec.ofInt 32 ((p : Int) + (bytes.length : Int))).toInt ≤ p + bytes.length := by
    rw [BitVec.toInt_ofInt, Int.bmod]
    split <;> omega
  rw [overwrite, overwriteOr, run_bind_of_ok (run_get a)]
  dsimp only [Int.toNat?]
  rw [if_pos (show _ < (a.capacity : Int) by omega), if_neg (by omega), if_neg (by omega),
    if_pos (by omega)]
  rfl

end CompilerKit.Assembler
