import CompilerKit.Proofs.ControlFlow.Dominance

/-! # Natural loops

A block lies inside its innermost loop and all loops around that one. The loops of a graph are natural
if a loop's header dominates what lies inside, and the blocks that jump back to it are the ends of this
very loop.
-/

namespace CompilerKit.ControlFlow

namespace Cfg

variable (g : Cfg)

def chain : Nat → Option Nat → List Nat
  | 0, _ | _, none => []
  | fuel + 1, some l => l :: chain fuel ((g.loops[l]?).bind Loop.parent?)

def loopsAround (b : BlockId) : List Nat := ((g.block b).loop?.map fun l => g.chain (l + 1) (some l)).getD []

def Inside (l : Nat) (b : BlockId) : Prop := l ∈ g.loopsAround b

instance (l : Nat) (b : BlockId) : Decidable (g.Inside l b) :=
  inferInstanceAs (Decidable (l ∈ g.loopsAround b))

def loopEnds (l : Nat) : List BlockId :=
  g.ids.filter fun e => (g.block e).isLoopEnd && (g.block e).loop? = some l

structure NaturalLoops : Prop where
  parent_lt : ∀ l (loop : Loop) parent, g.loops[l]? = some loop → loop.parent? = some parent → parent < l
  loop?_header : ∀ l loop, g.loops[l]? = some loop → (g.block loop.header).loop? = some l
  dominates : ∀ l loop b, g.loops[l]? = some loop → g.Inside l b → g.Dominates loop.header b
  jumps_back : ∀ e, (g.block e).isLoopEnd = true →
    ∃ l loop, (g.block e).loop? = some l ∧ g.loops[l]? = some loop ∧ g.Edge e loop.header
  backEdges_eq : ∀ l loop, g.loops[l]? = some loop → g.backEdges loop = (g.loopEnds l).length
  loopEnds_ne_nil : ∀ l, l < g.loops.length → g.loopEnds l ≠ []

/-- From outside, a loop is entered at its header only. -/
def EnteredAtHeaders : Prop := ∀ l loop p b, g.loops[l]? = some loop → g.Inside l b → b ≠ loop.header →
  g.Edge p b → g.Inside l p

variable {g} {l m : Nat} {b c : Nat}

theorem length_chain (fuel : Nat) (l? : Option Nat) :
    (g.chain fuel l?).length = depthOfLoop.go g fuel l? := by
  induction fuel generalizing l? with
  | zero => simp [chain, depthOfLoop.go]
  | succ fuel ih =>
    cases l? with
    | none => simp [chain, depthOfLoop.go]
    | some l => simp [chain, depthOfLoop.go, ih, Nat.add_comm]

theorem inside_congr (h : (g.block b).loop? = (g.block c).loop?) : g.Inside l b ↔ g.Inside l c := by
  rw [Inside, Inside, loopsAround, loopsAround, h]

theorem inside_of_loop? (h : (g.block b).loop? = some l) : g.Inside l b := by
  simp [Inside, loopsAround, h, chain]

theorem Inside.lt_size (h : g.Inside l b) : b < g.size := by
  by_contra hb
  rw [Inside, loopsAround, block_of_le (Nat.le_of_not_lt hb)] at h
  cases h

theorem mem_loopEnds {e : Nat} :
    e ∈ g.loopEnds l ↔ (g.block e).isLoopEnd = true ∧ (g.block e).loop? = some l := by
  rw [loopEnds, List.mem_filter, Bool.and_eq_true, decide_eq_true_iff, and_iff_right_iff_imp]
  rintro ⟨-, hloop⟩
  exact List.mem_range.mpr (inside_of_loop? hloop).lt_size

theorem EnteredAtHeaders.dominates (h : g.EnteredAtHeaders) {loop : Loop} (hloop : g.loops[l]? = some loop)
    (hstart : g.Inside l 0 → loop.header = 0) (hb : g.Inside l b) : g.Dominates loop.header b := by
  intro path hpath
  induction hpath with
  | start =>
    rw [hstart hb]
    exact List.mem_cons_self
  | @step p b path _ hedge ih =>
    by_cases hheader : b = loop.header
    · rw [hheader]
      exact List.mem_cons_self
    · exact List.mem_cons_of_mem b (ih (h l loop p b hloop hb hheader hedge))

namespace NaturalLoops

variable (h : g.NaturalLoops)

include h

/-- A chain of loops does not depend on the fuel, since outer loops come first. -/
theorem chain_eq {fuel : Nat} (hfuel : l < fuel) : g.chain fuel (some l) = g.chain (l + 1) (some l) := by
  induction l using Nat.strong_induction_on generalizing fuel with
  | _ l ih =>
    obtain ⟨fuel, rfl⟩ := Nat.exists_eq_succ_of_ne_zero (by omega : fuel ≠ 0)
    rw [chain, chain]
    congr 1
    cases hparent : (g.loops[l]?).bind Loop.parent? with
    | none => cases fuel <;> cases l <;> rfl
    | some parent =>
      obtain ⟨loop, hloop, hparent⟩ := Option.bind_eq_some_iff.mp hparent
      have hlt := h.parent_lt l loop parent hloop hparent
      rw [ih parent hlt (by omega), ih parent hlt hlt]

theorem chain_suffix {fuel : Nat} (hm : m < fuel) (hl : l ∈ g.chain fuel (some m)) :
    g.chain (l + 1) (some l) <:+ g.chain fuel (some m) := by
  induction m using Nat.strong_induction_on generalizing fuel with
  | _ m ih =>
    obtain ⟨fuel, rfl⟩ := Nat.exists_eq_succ_of_ne_zero (by omega : fuel ≠ 0)
    rw [chain] at hl
    rcases List.mem_cons.mp hl with rfl | hl
    · rw [h.chain_eq hm]
    · cases hparent : (g.loops[m]?).bind Loop.parent? with
      | none =>
        rw [hparent] at hl
        cases fuel <;> cases hl
      | some parent =>
        rw [hparent] at hl
        obtain ⟨loop, hloop, hparent⟩ := Option.bind_eq_some_iff.mp hparent
        have hlt := h.parent_lt m loop parent hloop hparent
        have hcons : g.chain (fuel + 1) (some m) = m :: g.chain fuel (some parent) := by
          rw [chain, hloop, Option.bind_some, hparent]
        exact hcons ▸ (ih parent hlt (by omega) hl).trans (List.suffix_cons m _)

theorem depthOfLoop_le (hb : g.Inside l b) : g.depthOfLoop l ≤ g.loopDepth b := by
  rw [Inside, loopsAround] at hb
  rw [loopDepth]
  cases hloop : (g.block b).loop? with
  | none =>
    rw [hloop] at hb
    cases hb
  | some m =>
    rw [hloop] at hb
    dsimp only
    rw [depthOfLoop, depthOfLoop, ← length_chain, ← length_chain]
    exact (h.chain_suffix (Nat.lt_succ_self m) hb).length_le

theorem header?_eq {loop : Loop} (hloop : g.loops[l]? = some loop) :
    g.header? loop.header = some loop.header := by
  simp [header?, h.loop?_header l loop hloop, hloop]

omit h in
theorem header?_of_loopEnd {loop : Loop} (hloop : g.loops[l]? = some loop) {e : Nat} (he : e ∈ g.loopEnds l) :
    g.header? e = some loop.header := by
  simp [header?, (mem_loopEnds.mp he).2, hloop]

theorem edge_header {loop : Loop} (hloop : g.loops[l]? = some loop) {e : Nat} (he : e ∈ g.loopEnds l) :
    g.Edge e loop.header := by
  obtain ⟨hend, hin⟩ := mem_loopEnds.mp he
  obtain ⟨m, loop', hm, hloop', hedge⟩ := h.jumps_back e hend
  obtain rfl := Option.some.inj (hm.symm.trans hin)
  obtain rfl := Option.some.inj (hloop'.symm.trans hloop)
  exact hedge

theorem exists_loopEnd {loop : Loop} (hloop : g.loops[l]? = some loop) : ∃ e, e ∈ g.loopEnds l :=
  List.exists_mem_of_ne_nil _ (h.loopEnds_ne_nil l (List.getElem?_eq_some_iff.mp hloop).1)

end NaturalLoops

theorem exists_loop_of_isLoopHeader (hb : g.isLoopHeader b = true) :
    ∃ l loop, (g.block b).loop? = some l ∧ g.loops[l]? = some loop ∧ loop.header = b := by
  rw [isLoopHeader, decide_eq_true_iff, header?] at hb
  simpa [Option.bind_eq_some_iff] using hb

end Cfg

end CompilerKit.ControlFlow
