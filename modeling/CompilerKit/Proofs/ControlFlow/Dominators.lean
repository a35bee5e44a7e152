import CompilerKit.ControlFlow.Dominator
import CompilerKit.Proofs.ControlFlow.Dominance

/-! # The tree of dominators

Blocks are added to the tree in reverse post order. A block that has been added stands one level below
a block whose dominators are its own strict dominators (`Built`). Climbing to a level gives the dominators
up to that level, so that two blocks meet where their common dominators end, and the predecessors of
a new block meet at its dominator.
-/

namespace CompilerKit.ControlFlow

namespace Dominators

open Cfg

variable {g : Cfg} {t : Dominators} {n : Nat}

/-- The blocks before `n` have been added. -/
structure Built (g : Cfg) (t : Dominators) (n : Nat) : Prop where
  le_size : n ≤ g.size
  parents_size : t.parents.size = g.size
  depths_size : t.depths.size = g.size
  parent?_zero : t.parent? 0 = none
  depth_zero : t.depth 0 = 0
  exists_parent : ∀ b : Nat, 0 < b → b < n → ∃ d : Nat, t.parent? b = some d ∧ d < b ∧ t.depth b = t.depth d + 1 ∧
    ∀ a, g.Dominates a b ↔ a = b ∨ g.Dominates a d

namespace Built

variable (h : Built g t n) {a b : Nat}

include h

theorem depth_le (hb : b < n) : t.depth b ≤ b := by
  induction b using Nat.strong_induction_on with
  | _ b ih =>
    rcases Nat.eq_zero_or_pos b with rfl | hpos
    · exact h.depth_zero.le
    · obtain ⟨d, -, hlt, hdepth, -⟩ := h.exists_parent b hpos hb
      have := ih d hlt (hlt.trans hb)
      omega

theorem depth_lt (hb : b < n) (hdominates : g.Dominates a b) (hne : a ≠ b) : t.depth a < t.depth b := by
  induction b using Nat.strong_induction_on with
  | _ b ih =>
    rcases Nat.eq_zero_or_pos b with rfl | hpos
    · exact absurd (dominates_zero_iff.mp hdominates) hne
    · obtain ⟨d, -, hlt, hdepth, hiff⟩ := h.exists_parent b hpos hb
      have hd := ((hiff a).mp hdominates).resolve_left hne
      by_cases had : a = d
      · rw [had, hdepth]
        exact Nat.lt_succ_self _
      · have := ih d hlt (hlt.trans hb) hd had
        omega

theorem depth_le_depth (hb : b < n) (hdominates : g.Dominates a b) : t.depth a ≤ t.depth b := by
  by_cases hne : a = b
  · rw [hne]
  · exact (h.depth_lt hb hdominates hne).le

theorem pos_of_depth (hdepth : 0 < t.depth b) : 0 < b := by
  rcases Nat.eq_zero_or_pos b with rfl | hpos
  · rw [h.depth_zero] at hdepth
    exact hdepth
  · exact hpos

theorem exists_above {k : Nat} (hb : b < n) (hk : k ≤ t.depth b) :
    ∃ c : Nat, t.above k b = .ok c ∧ c < n ∧ t.depth c + k = t.depth b ∧
      ∀ a, g.Dominates a c ↔ g.Dominates a b ∧ t.depth a ≤ t.depth c := by
  induction k generalizing b with
  | zero =>
    refine ⟨b, rfl, hb, rfl, fun a => ?_⟩
    exact (and_iff_left_of_imp (h.depth_le_depth hb)).symm
  | succ k ih =>
    obtain ⟨d, hparent, hlt, hdepth, hiff⟩ := h.exists_parent b (h.pos_of_depth (by omega)) hb
    obtain ⟨c, habove, hc, hlevel, hdominates⟩ := ih (hlt.trans hb) (by omega : k ≤ t.depth d)
    refine ⟨c, ?_, hc, by omega, fun a => ?_⟩
    · rw [above, parent, hparent]
      exact habove
    · rw [hdominates, hiff]
      constructor
      · rintro ⟨had, hle⟩
        exact ⟨Or.inr had, hle⟩
      · rintro ⟨rfl | had, hle⟩
        · omega
        · exact ⟨had, hle⟩

/-- Two blocks of one level meet at their deepest common dominator. -/
theorem exists_meet {fuel : Nat} (ha : a < n) (hb : b < n) (hdepth : t.depth a = t.depth b)
    (hfuel : t.depth a < fuel) :
    ∃ c : Nat, t.meet fuel a b = .ok (some c) ∧ c < n ∧
      ∀ x, g.Dominates x c ↔ g.Dominates x a ∧ g.Dominates x b := by
  induction fuel generalizing a b with
  | zero => omega
  | succ fuel ih =>
    by_cases hab : a = b
    · subst hab
      exact ⟨a, by rw [meet, if_pos rfl], ha, fun x => (and_self_iff).symm⟩
    · have hpos : 0 < t.depth a := by
        by_contra hzero
        have hroot {c : Nat} (hc : c < n) (hlevel : t.depth c = 0) : c = 0 := by
          by_contra hne
          obtain ⟨d, -, -, hdepth, -⟩ := h.exists_parent c (Nat.pos_of_ne_zero hne) hc
          omega
        exact hab ((hroot ha (by omega)).trans (hroot hb (by omega)).symm)
      obtain ⟨p, hp, hpa, hpdepth, hpiff⟩ := h.exists_parent a (h.pos_of_depth hpos) ha
      obtain ⟨q, hq, hqb, hqdepth, hqiff⟩ := h.exists_parent b (h.pos_of_depth (hdepth ▸ hpos)) hb
      obtain ⟨c, hmeet, hc, hdominates⟩ := ih (hpa.trans ha) (hqb.trans hb) (by omega) (by omega)
      refine ⟨c, by rw [meet, if_neg hab, hp, hq, ← hmeet], hc, fun x => ?_⟩
      rw [hdominates]
      constructor
      · rintro ⟨hxp, hxq⟩
        exact ⟨(hpiff x).mpr (Or.inr hxp), (hqiff x).mpr (Or.inr hxq)⟩
      · -- Neither block dominates the other, which is on the same level.
        rintro ⟨hxa, hxb⟩
        have hxa' : x ≠ a := by
          rintro rfl
          exact absurd (h.depth_lt hb hxb hab) (by omega)
        have hxb' : x ≠ b := by
          rintro rfl
          exact absurd (h.depth_lt ha hxa (Ne.symm hab)) (by omega)
        exact ⟨((hpiff x).mp hxa).resolve_left hxa', ((hqiff x).mp hxb).resolve_left hxb'⟩

theorem exists_common (ha : a < n) (hb : b < n) :
    ∃ c : Nat, t.common a b = .ok (some c) ∧ c < n ∧
      ∀ x, g.Dominates x c ↔ g.Dominates x a ∧ g.Dominates x b := by
  obtain ⟨a', ha', hlta, hlevela, hiffa⟩ := h.exists_above ha (Nat.sub_le (t.depth a) (t.depth b))
  obtain ⟨b', hb', hltb, hlevelb, hiffb⟩ := h.exists_above hb (Nat.sub_le (t.depth b) (t.depth a))
  have hfuel : t.depth a' < t.parents.size + 1 := by
    have := h.depth_le hlta
    have := h.le_size
    rw [h.parents_size]
    omega
  obtain ⟨c, hmeet, hc, hdominates⟩ := h.exists_meet hlta hltb (by omega) hfuel
  refine ⟨c, ?_, hc, fun x => ?_⟩
  · rw [common, ha', hb', ← hmeet]
    rfl
  · rw [hdominates, hiffa, hiffb]
    constructor
    · rintro ⟨⟨hxa, -⟩, hxb, -⟩
      exact ⟨hxa, hxb⟩
    · -- A common dominator is on no deeper level than either block.
      rintro ⟨hxa, hxb⟩
      have := h.depth_le_depth ha hxa
      have := h.depth_le_depth hb hxb
      exact ⟨⟨hxa, by omega⟩, hxb, by omega⟩

theorem exists_fold {d : Nat} (hd : d < n) {entries : List Nat} (hentries : ∀ p ∈ entries, p < n) :
    ∃ c : Nat, entries.foldlM (fun found p => match found with
        | none => .ok (some p)
        | some d => t.common d p) (some d) = (.ok (some c) : Result (Option BlockId)) ∧ c < n ∧
      ∀ x, g.Dominates x c ↔ g.Dominates x d ∧ ∀ p ∈ entries, g.Dominates x p := by
  induction entries generalizing d with
  | nil => exact ⟨d, rfl, hd, fun x => by simp⟩
  | cons p entries ih =>
    obtain ⟨hp, hentries⟩ := List.forall_mem_cons.mp hentries
    obtain ⟨e, hcommon, he, hiff⟩ := h.exists_common hd hp
    obtain ⟨c, hfold, hc, hdominates⟩ := ih he hentries
    refine ⟨c, ?_, hc, fun x => ?_⟩
    · rw [List.foldlM_cons]
      dsimp only
      rw [hcommon]
      exact hfold
    · rw [hdominates, hiff, List.forall_mem_cons, and_assoc]

end Built

variable {b : Nat}

theorem Built.exists_find (h : Built g t b) (hg : g.Reducible) (h0 : 0 < b) (hb : b < g.size) :
    ∃ d : Nat, t.find g b = .ok (some d) ∧ d < b ∧ ∀ a, g.Dominates a b ↔ a = b ∨ g.Dominates a d := by
  have hmem (p : Nat) :
      p ∈ (g.block b).predecessors.filter (fun p => !(g.block p).isLoopEnd) ↔ g.Forward p b := by
    rw [List.mem_filter, hg.mem_predecessors, Bool.not_eq_true', Forward]
  obtain ⟨q, hq⟩ := hg.exists_forward h0 hb
  cases hentries : (g.block b).predecessors.filter (fun p => !(g.block p).isLoopEnd) with
  | nil =>
    rw [← hmem, hentries] at hq
    cases hq
  | cons p entries =>
    rw [hentries] at hmem
    have hlt (p' : Nat) (hp' : p' ∈ p :: entries) : p' < b := hg.lt_of_forward ((hmem p').mp hp')
    obtain ⟨hp, hrest⟩ := List.forall_mem_cons.mp hlt
    obtain ⟨d, hfold, hd, hiff⟩ := h.exists_fold hp hrest
    refine ⟨d, ?_, hd, fun a => ?_⟩
    · rw [find, hentries]
      exact hfold
    · rw [hg.dominates_iff h0, hiff, ← List.forall_mem_cons (p := fun p => g.Dominates a p)]
      simp only [hmem]

theorem parent?_insert {d c : Nat} (hb : b < t.parents.size) :
    (t.insert b d).parent? c = if c = b then some d else t.parent? c := by
  by_cases hc : c = b
  · simp [parent?, insert, Array.getD_eq_getD_getElem?, hc, hb]
  · simp [parent?, insert, Array.getD_eq_getD_getElem?, hc, Ne.symm hc]

theorem depth_insert {d c : Nat} (hb : b < t.depths.size) :
    (t.insert b d).depth c = if c = b then t.depth d + 1 else t.depth c := by
  by_cases hc : c = b
  · simp [depth, insert, Array.getD_eq_getD_getElem?, hc, hb]
  · simp [depth, insert, Array.getD_eq_getD_getElem?, hc, Ne.symm hc]

theorem Built.insert (h : Built g t b) (h0 : 0 < b) (hb : b < g.size) {d : Nat} (hd : d < b)
    (hiff : ∀ a, g.Dominates a b ↔ a = b ∨ g.Dominates a d) : Built g (t.insert b d) (b + 1) where
  le_size := hb
  parents_size := by simp [Dominators.insert, h.parents_size]
  depths_size := by simp [Dominators.insert, h.depths_size]
  parent?_zero := by
    rw [parent?_insert (h.parents_size ▸ hb), if_neg h0.ne, h.parent?_zero]
  depth_zero := by
    rw [depth_insert (h.depths_size ▸ hb), if_neg h0.ne, h.depth_zero]
  exists_parent c hc hlt := by
    simp only [parent?_insert (h.parents_size ▸ hb), depth_insert (h.depths_size ▸ hb)]
    by_cases hcb : c = b
    · subst hcb
      refine ⟨d, if_pos rfl, hd, ?_, hiff⟩
      rw [if_pos rfl, if_neg hd.ne]
    · obtain ⟨e, hparent, he, hdepth, hiff⟩ := h.exists_parent c hc (by omega)
      refine ⟨e, ?_, he, ?_, hiff⟩
      · rw [if_neg hcb, hparent]
      · rw [if_neg hcb, if_neg (he.trans_le (Nat.le_of_lt_succ hlt)).ne, hdepth]

theorem Built.exists_rest (h : Built g t b) (hg : g.Reducible) (h0 : 0 < b) {count : Nat}
    (hcount : b + count = g.size) :
    ∃ t', (List.range' b count).foldlM (fun t b => do
        match ← t.find g b with
        | some d => return t.insert b d
        | none => throw .absent) t = (.ok t' : Result Dominators) ∧ Built g t' g.size := by
  induction count generalizing b t with
  | zero => exact ⟨t, rfl, hcount ▸ h⟩
  | succ count ih =>
    have hb : b < g.size := by omega
    obtain ⟨d, hfind, hd, hiff⟩ := h.exists_find hg h0 hb
    obtain ⟨t', hfold, hbuilt⟩ := ih (h.insert h0 hb hd hiff) (Nat.succ_pos b) (by omega)
    refine ⟨t', ?_, hbuilt⟩
    rw [List.range'_succ, List.foldlM_cons, hfind]
    exact hfold

theorem exists_ofCfg (hg : g.Reducible) : ∃ t, ofCfg g = .ok t ∧ Built g t g.size := by
  have hstart : Built g ⟨Array.replicate g.size none, Array.replicate g.size 0⟩ 1 := by
    refine ⟨hg.size_pos, by simp, by simp, ?_, ?_, ?_⟩
    · simp [parent?, hg.size_pos]
    · simp [depth, hg.size_pos]
    · intro b h0 hb
      omega
  have hids : g.ids.drop 1 = List.range' 1 (g.size - 1) := by
    rw [ids, List.range_eq_range', List.drop_range']
  obtain ⟨t, hfold, hbuilt⟩ := hstart.exists_rest hg Nat.one_pos (Nat.add_sub_of_le hg.size_pos)
  refine ⟨t, ?_, hbuilt⟩
  rw [ofCfg, hids]
  exact hfold

end Dominators

end CompilerKit.ControlFlow
