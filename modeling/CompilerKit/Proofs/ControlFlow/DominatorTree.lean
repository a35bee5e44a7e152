import CompilerKit.Proofs.ControlFlow.Dominators

/-! # Numbers for dominance

The tree of dominators is numbered in preorder. The blocks below a block get consecutive numbers, so a block
dominates another one if the number of the other lies in its range (`Numbered`). Climbing out of ranges
that do not hold a number passes blocks only that do not dominate the block with that number, which is how
the deepest common dominator of two blocks is found.
-/

namespace CompilerKit.ControlFlow

open Cfg

variable {g : Cfg}

/-- The blocks that one of some blocks dominates. -/
def Below (g : Cfg) (tops : List Nat) (b : Nat) : Prop := b < g.size ∧ ∃ c ∈ tops, g.Dominates c b

/-- Blocks have got numbers from `lo` to `hi`, and ranges that tell which of them dominate each other. -/
structure Numbered (g : Cfg) (inside : Nat → Prop) (lo hi : Nat) (entries : List (BlockId × Range)) :
    Prop where
  nodup : (entries.map Prod.fst).Nodup
  mem_iff : ∀ b : Nat, b ∈ entries.map Prod.fst ↔ inside b
  bounds : ∀ e ∈ entries, lo ≤ e.2.number ∧ e.2.number ≤ e.2.last ∧ e.2.last < hi
  dominates_iff : ∀ e ∈ entries, ∀ f ∈ entries,
    g.Dominates e.1 f.1 ↔ e.2.number ≤ f.2.number ∧ f.2.number ≤ e.2.last

namespace Numbered

variable {inside inside' : Nat → Prop} {lo mid hi : Nat} {entries entries' : List (BlockId × Range)}

theorem inside_of_mem (h : Numbered g inside lo hi entries) {e : BlockId × Range} (he : e ∈ entries) :
    inside e.1 := (h.mem_iff e.1).mp (List.mem_map_of_mem he)

theorem append (h : Numbered g inside lo mid entries) (h' : Numbered g inside' mid hi entries')
    (hlo : lo ≤ mid) (hhi : mid ≤ hi)
    (hapart : ∀ a b : Nat, inside a → inside' b → ¬g.Dominates a b ∧ ¬g.Dominates b a) :
    Numbered g (fun b => inside b ∨ inside' b) lo hi (entries ++ entries') where
  nodup := by
    rw [List.map_append, List.nodup_append]
    refine ⟨h.nodup, h'.nodup, ?_⟩
    rintro a ha _ ha' rfl
    exact (hapart a a ((h.mem_iff a).mp ha) ((h'.mem_iff a).mp ha')).1 (dominates_refl a)
  mem_iff b := by rw [List.map_append, List.mem_append, h.mem_iff, h'.mem_iff]
  bounds e he := by
    rcases List.mem_append.mp he with he | he
    · have := h.bounds e he
      omega
    · have := h'.bounds e he
      omega
  dominates_iff e he f hf := by
    rcases List.mem_append.mp he with he | he <;> rcases List.mem_append.mp hf with hf | hf
    · exact h.dominates_iff e he f hf
    · have hbounds := h.bounds e he
      have hbounds' := h'.bounds f hf
      have hnot := (hapart _ _ (h.inside_of_mem he) (h'.inside_of_mem hf)).1
      exact iff_of_false hnot (by omega)
    · have hbounds := h'.bounds e he
      have hbounds' := h.bounds f hf
      have hnot := (hapart _ _ (h.inside_of_mem hf) (h'.inside_of_mem he)).2
      exact iff_of_false hnot (by omega)
    · exact h'.dominates_iff e he f hf

theorem cons (hg : g.Reducible) {tops : List Nat} {b n last : Nat} (hb : b < g.size)
    (htops : ∀ c ∈ tops, b < c ∧ g.Dominates b c)
    (h : Numbered g (Below g tops) (n + 1) (last + 1) entries) (hn : n ≤ last) :
    Numbered g (fun a => a = b ∨ Below g tops a) n (last + 1) ((b, ⟨n, last⟩) :: entries) := by
  have hbelow (a : Nat) (ha : Below g tops a) : b < a ∧ g.Dominates b a := by
    obtain ⟨hlt, c, hc, hca⟩ := ha
    obtain ⟨hbc, hdominates⟩ := htops c hc
    exact ⟨hbc.trans_le (hg.le_of_dominates hlt hca), hdominates.trans hca⟩
  have hbounds {e : BlockId × Range} (he : e ∈ entries) :
      n < e.2.number ∧ e.2.number ≤ e.2.last ∧ e.2.last ≤ last := by
    have := h.bounds e he
    omega
  refine ⟨?_, fun a => ?_, ?_, ?_⟩
  · rw [List.map_cons, List.nodup_cons]
    refine ⟨fun hmem => ?_, h.nodup⟩
    exact absurd (hbelow b ((h.mem_iff b).mp hmem)).1 (Nat.lt_irrefl b)
  · rw [List.map_cons, List.mem_cons, h.mem_iff]
  · rintro e (_ | ⟨_, he⟩)
    · exact ⟨Nat.le_refl n, hn, Nat.lt_succ_self last⟩
    · have := hbounds he
      omega
  · rintro e (_ | ⟨_, he⟩) f (_ | ⟨_, hf⟩)
    · exact iff_of_true (dominates_refl b) ⟨Nat.le_refl n, hn⟩
    · have := hbounds hf
      exact iff_of_true (hbelow _ (h.inside_of_mem hf)).2 (by dsimp only; omega)
    · have := hbounds he
      refine iff_of_false (fun hdominates => ?_) (by dsimp only; omega)
      have hle := hg.le_of_dominates hb hdominates
      exact absurd (hbelow _ (h.inside_of_mem he)).1 (Nat.not_lt_of_le hle)
    · exact h.dominates_iff e he f hf

end Numbered

namespace Dominators

variable {t : Dominators}

theorem mem_children {b c : Nat} : c ∈ t.children b ↔ c < t.parents.size ∧ t.parent? c = some b := by
  simp [children]

namespace Built

variable (h : Built g t g.size) {a b c : Nat}

include h

theorem of_mem_children (hc : c ∈ t.children b) :
    b < c ∧ c < g.size ∧ ∀ a, g.Dominates a c ↔ a = c ∨ g.Dominates a b := by
  obtain ⟨hlt, hparent⟩ := mem_children.mp hc
  rw [h.parents_size] at hlt
  have hpos : 0 < c := by
    rcases Nat.eq_zero_or_pos c with rfl | hpos
    · rw [h.parent?_zero] at hparent
      cases hparent
    · exact hpos
  obtain ⟨d, hd, hdc, -, hiff⟩ := h.exists_parent c hpos hlt
  obtain rfl : d = b := Option.some.inj (hd.symm.trans hparent)
  exact ⟨hdc, hlt, hiff⟩

theorem dominates_of_mem_children (hc : c ∈ t.children b) : g.Dominates b c :=
  ((h.of_mem_children hc).2.2 b).mpr (Or.inr (dominates_refl b))

theorem exists_child (ha : a < g.size) (hdominates : g.Dominates b a) (hne : b ≠ a) :
    ∃ c ∈ t.children b, g.Dominates c a := by
  induction a using Nat.strong_induction_on with
  | _ a ih =>
    have hpos : 0 < a := by
      rcases Nat.eq_zero_or_pos a with rfl | hpos
      · exact absurd (dominates_zero_iff.mp hdominates) hne
      · exact hpos
    obtain ⟨d, hparent, hlt, -, hiff⟩ := h.exists_parent a hpos ha
    by_cases hd : b = d
    · subst hd
      exact ⟨a, mem_children.mpr ⟨h.parents_size ▸ ha, hparent⟩, dominates_refl a⟩
    · have hbd := ((hiff b).mp hdominates).resolve_left hne
      obtain ⟨c, hc, hcd⟩ := ih d hlt (hlt.trans ha) hbd hd
      exact ⟨c, hc, (hiff c).mpr (Or.inr hcd)⟩

theorem below_iff (hb : b < g.size) :
    Below g [b] a ↔ a = b ∨ Below g (t.children b) a := by
  constructor
  · rintro ⟨ha, c, hc, hca⟩
    obtain rfl := List.mem_singleton.mp hc
    by_cases hne : c = a
    · exact Or.inl hne.symm
    · exact Or.inr ⟨ha, h.exists_child ha hca hne⟩
  · rintro (rfl | ⟨ha, c, hc, hca⟩)
    · exact ⟨hb, a, List.mem_singleton_self a, dominates_refl a⟩
    · exact ⟨ha, b, List.mem_singleton_self b, (h.dominates_of_mem_children hc).trans hca⟩

theorem not_dominates_of_ne (hg : g.Reducible) {d : Nat} (hc : c ∈ t.children b) (hd : d ∈ t.children b)
    (hne : c ≠ d) {x y : Nat} (hy : y < g.size) (hx : g.Dominates c x) (hdy : g.Dominates d y) :
    ¬g.Dominates x y := by
  intro hxy
  obtain ⟨hbc, hcsize, hciff⟩ := h.of_mem_children hc
  obtain ⟨hbd, hdsize, hdiff⟩ := h.of_mem_children hd
  have hb : b < g.size := hbc.trans hcsize
  rcases hg.dominates_or_dominates hy (hx.trans hxy) hdy with hcd | hdc
  · have hcb := ((hdiff c).mp hcd).resolve_left hne
    exact absurd (hg.le_of_dominates hb hcb) (Nat.not_le_of_lt hbc)
  · have hdb := ((hciff d).mp hdc).resolve_left (Ne.symm hne)
    exact absurd (hg.le_of_dominates hb hdb) (Nat.not_le_of_lt hbd)

theorem numbered_fold (hg : g.Reducible) {fuel : Nat}
    (hnumber : ∀ c ∈ t.children b, ∀ n, n ≤ (t.number fuel c n).2 ∧
      Numbered g (Below g [c]) n ((t.number fuel c n).2 + 1) (t.number fuel c n).1)
    (done todo : List Nat) (hchildren : ∀ c ∈ done ++ todo, c ∈ t.children b)
    (hnodup : (done ++ todo).Nodup) {n last : Nat} {found : List (BlockId × Range)} (hn : n ≤ last)
    (hfound : Numbered g (Below g done) (n + 1) (last + 1) found) :
    let after := todo.foldl (fun (found, last) c =>
      let (below, last) := t.number fuel c (last + 1)
      (found ++ below, last)) (found, last)
    n ≤ after.2 ∧ Numbered g (Below g (done ++ todo)) (n + 1) (after.2 + 1) after.1 := by
  induction todo generalizing done last found with
  | nil => simpa using ⟨hn, hfound⟩
  | cons c todo ih =>
    have hc : c ∈ t.children b := hchildren c (by simp)
    obtain ⟨hle, hbelow⟩ := hnumber c hc (last + 1)
    have hnotin (d : Nat) (hd : d ∈ done) : d ≠ c := by
      rintro rfl
      exact (List.nodup_append.mp hnodup).2.2 d hd d List.mem_cons_self rfl
    have happend := hfound.append hbelow (by omega) (by omega) fun x y hx hy => by
      obtain ⟨hx, d, hd, hdx⟩ := hx
      obtain ⟨hy, c', hc', hcy⟩ := hy
      obtain rfl := List.mem_singleton.mp hc'
      have hd' := hchildren d (List.mem_append_left _ hd)
      exact ⟨h.not_dominates_of_ne hg hd' hc (hnotin d hd) hy hdx hcy,
        h.not_dominates_of_ne hg hc hd' (hnotin d hd).symm hx hcy hdx⟩
    have hinside : (fun x => Below g done x ∨ Below g [c] x) = Below g (done ++ [c]) := by
      funext x
      simp only [Below, List.mem_append, or_and_right, exists_or, and_or_left]
    rw [hinside] at happend
    rw [List.append_cons] at hchildren hnodup ⊢
    exact ih _ hchildren hnodup (by omega) happend

theorem numbered_cons (hg : g.Reducible) (hb : b < g.size) {n last : Nat}
    {entries : List (BlockId × Range)} (hn : n ≤ last)
    (hentries : Numbered g (Below g (t.children b)) (n + 1) (last + 1) entries) :
    Numbered g (Below g [b]) n (last + 1) ((b, ⟨n, last⟩) :: entries) := by
  have hinside : Below g [b] = fun a => a = b ∨ Below g (t.children b) a :=
    funext fun a => propext (h.below_iff hb)
  rw [hinside]
  exact hentries.cons hg hb
    (fun c hc => ⟨(h.of_mem_children hc).1, h.dominates_of_mem_children hc⟩) hn

/-- A tree is numbered from its top on. Children come after their parents, so there is enough fuel. -/
theorem numbered (hg : g.Reducible) {fuel n : Nat} (hb : b < g.size) (hfuel : g.size ≤ fuel + b + 1) :
    n ≤ (t.number fuel b n).2 ∧
      Numbered g (Below g [b]) n ((t.number fuel b n).2 + 1) (t.number fuel b n).1 := by
  have hempty (k : Nat) : Numbered g (Below g []) (k + 1) (k + 1) [] :=
    ⟨List.nodup_nil, fun a => by simp [Below], by simp, by simp⟩
  induction fuel generalizing b n with
  | zero =>
    have hleaf : t.children b = [] := by
      rw [List.eq_nil_iff_forall_not_mem]
      intro c hc
      have := h.of_mem_children hc
      omega
    exact ⟨Nat.le_refl n, h.numbered_cons hg hb (Nat.le_refl n) (hleaf ▸ hempty n)⟩
  | succ fuel ih =>
    have hnumber (c : Nat) (hc : c ∈ t.children b) (n : Nat) : n ≤ (t.number fuel c n).2 ∧
        Numbered g (Below g [c]) n ((t.number fuel c n).2 + 1) (t.number fuel c n).1 := by
      obtain ⟨hlt, hsize, -⟩ := h.of_mem_children hc
      exact ih hsize (by omega)
    have hnodup : (t.children b).Nodup := List.nodup_range.filter _
    obtain ⟨hle, hfold⟩ := h.numbered_fold hg hnumber [] (t.children b) (fun _ hc => hc) hnodup
      (Nat.le_refl n) (hempty n)
    exact ⟨hle, h.numbered_cons hg hb hle hfold⟩

end Built

end Dominators

/-! Ranges. -/

theorem getD_foldl_of_notMem (entries : List (BlockId × Range)) (ranges : Array Range) {b : Nat}
    (hb : b ∉ entries.map Prod.fst) :
    (entries.foldl (fun a (b, r) => a.setIfInBounds b r) ranges).getD b {} = ranges.getD b {} := by
  induction entries generalizing ranges with
  | nil => rfl
  | cons e entries ih =>
    rw [List.map_cons, List.mem_cons, not_or] at hb
    obtain ⟨hne, hb⟩ := hb
    rw [List.foldl_cons, ih _ hb]
    simp [Array.getD_eq_getD_getElem?, Ne.symm hne]

theorem getD_foldl_of_mem {entries : List (BlockId × Range)} (hnodup : (entries.map Prod.fst).Nodup)
    (ranges : Array Range) {e : BlockId × Range} (he : e ∈ entries) (hlt : e.1 < ranges.size) :
    (entries.foldl (fun a (b, r) => a.setIfInBounds b r) ranges).getD e.1 {} = e.2 := by
  induction entries generalizing ranges with
  | nil => cases he
  | cons f entries ih =>
    obtain ⟨hnotin, hnodup⟩ := List.nodup_cons.mp hnodup
    rw [List.foldl_cons]
    rcases List.mem_cons.mp he with rfl | he
    · rw [getD_foldl_of_notMem _ _ hnotin]
      simp [Array.getD_eq_getD_getElem?, hlt]
    · exact ih hnodup _ he (by simpa using hlt)

namespace DominatorTree

variable {t : DominatorTree}

/-- The ranges tell which blocks dominate each other. -/
structure Ranged (g : Cfg) (t : DominatorTree) : Prop where
  built : Dominators.Built g t.toDominators g.size
  dominates_iff : ∀ a b : Nat, a < g.size → b < g.size →
    (g.Dominates a b ↔ (t.range a).number ≤ (t.range b).number ∧ (t.range b).number ≤ (t.range a).last)

theorem exists_ranged (hg : g.Reducible) : ∃ t, ofCfg g = .ok t ∧ Ranged g t := by
  obtain ⟨t, hofCfg, hbuilt⟩ := Dominators.exists_ofCfg hg
  have hnumbered : Numbered g (Below g [0]) 0 ((t.number g.size 0 0).2 + 1) (t.number g.size 0 0).1 :=
    (hbuilt.numbered hg hg.size_pos (by omega)).2
  refine ⟨_, by rw [ofCfg, hofCfg]; rfl, hbuilt, fun a b ha hb => ?_⟩
  have hrange {b : Nat} (hb : b < g.size) : ∃ r, (b, r) ∈ (t.number g.size 0 0).1 ∧
      ((t.number g.size 0 0).1.foldl (fun a (b, r) => a.setIfInBounds b r)
        (Array.replicate g.size {})).getD b {} = r := by
    have hmem := (hnumbered.mem_iff b).mpr ⟨hb, 0, List.mem_singleton_self 0, zero_dominates b⟩
    obtain ⟨⟨_, r⟩, he, rfl⟩ := List.mem_map.mp hmem
    exact ⟨r, he, getD_foldl_of_mem hnumbered.nodup _ he (by simpa using hb)⟩
  obtain ⟨r, hr, har⟩ := hrange ha
  obtain ⟨s, hs, hbs⟩ := hrange hb
  rw [range, range, har, hbs]
  exact hnumbered.dominates_iff (a, r) hr (b, s) hs

namespace Ranged

variable (h : Ranged g t) {a b low : Nat}

include h

theorem exists_climb (test : Range → Bool)
    (htest : ∀ c : Nat, c < g.size → test (t.range c) = true → ¬g.Dominates c low) {fuel : Nat}
    (hb : b < g.size) (hfuel : t.depth b < fuel) :
    ∃ c : Nat, t.climbWhile test fuel b = .ok c ∧ c < g.size ∧ test (t.range c) = false ∧
      g.Dominates c b ∧ ∀ a, g.Dominates a low → g.Dominates a b → g.Dominates a c := by
  induction fuel generalizing b with
  | zero => omega
  | succ fuel ih =>
    cases hrange : test (t.range b) with
    | false =>
      exact ⟨b, by simp [climbWhile, hrange], hb, hrange, dominates_refl b, fun a _ hab => hab⟩
    | true =>
      have hnot := htest b hb hrange
      have hpos : 0 < b := by
        rcases Nat.eq_zero_or_pos b with rfl | hpos
        · exact absurd (zero_dominates low) hnot
        · exact hpos
      obtain ⟨d, hparent, hlt, hdepth, hiff⟩ := h.built.exists_parent b hpos hb
      obtain ⟨c, hclimb, hc, hstop, hcd, hall⟩ := ih (hlt.trans hb) (by omega)
      refine ⟨c, ?_, hc, hstop, (hiff c).mpr (Or.inr hcd), fun a hlow hab => ?_⟩
      · rw [climbWhile, if_pos hrange, Dominators.parent, hparent]
        exact hclimb
      · have hne : a ≠ b := by
          rintro rfl
          exact hnot hlow
        exact hall a hlow (((hiff a).mp hab).resolve_left hne)

theorem exists_climbTwice {high : Nat} (hlow : low < g.size) (hhigh : high < g.size) :
    ∃ b c : Nat,
      t.climbWhile (fun r => (t.range low).number < r.number) (t.parents.size + 1) high = .ok b ∧
      t.climbWhile (fun r => r.last < (t.range low).number) (t.parents.size + 1) b = .ok c ∧
      ∀ a, g.Dominates a c ↔ g.Dominates a low ∧ g.Dominates a high := by
  have hfuel {b : Nat} (hb : b < g.size) : t.depth b < t.parents.size + 1 := by
    have := h.built.depth_le hb
    rw [h.built.parents_size]
    omega
  have hnot {c : Nat} (hc : c < g.size)
      (hout : (t.range low).number < (t.range c).number ∨ (t.range c).last < (t.range low).number) :
      ¬g.Dominates c low := by
    rw [h.dominates_iff c low hc hlow]
    omega
  obtain ⟨b, hb, hbsize, hbstop, hbhigh, hball⟩ := h.exists_climb
    (fun r => (t.range low).number < r.number)
    (fun c hc htest => hnot hc (Or.inl (of_decide_eq_true htest))) hhigh (hfuel hhigh)
  obtain ⟨c, hc, hcsize, hcstop, hcb, hcall⟩ := h.exists_climb (fun r => r.last < (t.range low).number)
    (fun c hc htest => hnot hc (Or.inr (of_decide_eq_true htest))) hbsize (hfuel hbsize)
  -- The number stays in the range when the range gets wider.
  have hclow : g.Dominates c low := by
    have hcb := (h.dominates_iff c b hcsize hbsize).mp hcb
    have hbstop := of_decide_eq_false hbstop
    have hcstop := of_decide_eq_false hcstop
    exact (h.dominates_iff c low hcsize hlow).mpr (by omega)
  refine ⟨b, c, hb, hc, fun a => ⟨fun hac => ?_, fun ⟨halow, hahigh⟩ => ?_⟩⟩
  · exact ⟨hac.trans hclow, hac.trans (hcb.trans hbhigh)⟩
  · exact hcall a halow (hball a halow hahigh)

theorem exists_commonDominator (ha : a < g.size) (hb : b < g.size) :
    ∃ c : Nat, t.commonDominator a b = .ok c ∧
      ∀ x, g.Dominates x c ↔ g.Dominates x a ∧ g.Dominates x b := by
  by_cases hdepth : t.depth b < t.depth a
  · obtain ⟨d, c, hd, hc, hiff⟩ := h.exists_climbTwice ha hb
    refine ⟨c, ?_, hiff⟩
    simp only [commonDominator, if_pos hdepth, hd]
    exact hc
  · obtain ⟨d, c, hd, hc, hiff⟩ := h.exists_climbTwice hb ha
    refine ⟨c, ?_, fun x => (hiff x).trans and_comm⟩
    simp only [commonDominator, if_neg hdepth, hd]
    exact hc

end Ranged

end DominatorTree

/-- The strict dominator that all other strict dominators dominate. -/
def Cfg.IsImmediateDominator (g : Cfg) (d b : BlockId) : Prop :=
  d ≠ b ∧ g.Dominates d b ∧ ∀ a, a ≠ b → g.Dominates a b → g.Dominates a d

/-- The tree is what the ways through the graph say: the parent of a block is its immediate dominator,
number ranges decide dominance, and the common dominator of two blocks is the deepest of all. -/
theorem dominatorTree_agrees_with_paths (g : Cfg) (hg : g.Reducible) :
    ∃ t, DominatorTree.ofCfg g = .ok t ∧
      (∀ b, 0 < b → b < g.size → ∃ d, t.parent? b = some d ∧ g.IsImmediateDominator d b) ∧
      ∀ a b, a < g.size → b < g.size →
        (t.dominates a b = true ↔ g.Dominates a b) ∧ (t.isDominatedBy b a = true ↔ g.Dominates a b) ∧
        ∃ c, t.commonDominator a b = .ok c ∧ g.Dominates c a ∧ g.Dominates c b ∧
          ∀ x, g.Dominates x a → g.Dominates x b → g.Dominates x c ∧ (x ≠ c → t.depth x < t.depth c) := by
  obtain ⟨t, hofCfg, h⟩ := DominatorTree.exists_ranged hg
  refine ⟨t, hofCfg, fun b h0 hb => ?_, fun a b ha hb => ?_⟩
  · obtain ⟨d, hparent, hlt, -, hiff⟩ := h.built.exists_parent b h0 hb
    refine ⟨d, hparent, hlt.ne, (hiff d).mpr (Or.inr (dominates_refl d)), fun a hne hab => ?_⟩
    exact ((hiff a).mp hab).resolve_left hne
  · have hrange : t.isDominatedBy b a = true ↔ g.Dominates a b := by
      rw [h.dominates_iff a b ha hb]
      simp [DominatorTree.isDominatedBy]
    obtain ⟨c, hcommon, hiff⟩ := h.exists_commonDominator ha hb
    obtain ⟨hca, hcb⟩ := (hiff c).mp (dominates_refl c)
    have hc : c < g.size := (hg.le_of_dominates ha hca).trans_lt ha
    refine ⟨hrange, hrange, c, hcommon, hca, hcb, fun x hxa hxb => ?_⟩
    have hxc := (hiff x).mpr ⟨hxa, hxb⟩
    exact ⟨hxc, h.built.depth_lt hc hxc⟩

/-- A loop with a choice inside, that is left from where the ways meet again. -/
def choiceInLoop : Cfg :=
  .ofSuccessors [([1], 8, none, false), ([2, 3], 8, some 0, false), ([4], 4, some 0, false),
    ([4], 4, some 0, false), ([5, 6], 8, some 0, false), ([1], 7, some 0, true), ([], 1, none, false)]
    [⟨none, 1⟩]

theorem reducible_choiceInLoop : choiceInLoop.Reducible := by
  have hforward : ∀ p < 7, ∀ b ∈ (choiceInLoop.block p).successors,
      (choiceInLoop.block p).isLoopEnd = false ∧ p < b ∨
        p = 5 ∧ b = 1 ∧ (choiceInLoop.block p).isLoopEnd = true := by decide
  -- The header is the only way out of the start.
  have hheader {b : BlockId} {path : List BlockId} (h : Path choiceInLoop.Edge b path) :
      b = 0 ∨ 1 ∈ path := by
    induction h with
    | start => exact Or.inl rfl
    | @step p b path _ he ih =>
      rcases ih with rfl | hmem
      · obtain rfl : b = 1 := List.mem_singleton.mp he
        exact Or.inr List.mem_cons_self
      · exact Or.inr (List.mem_cons_of_mem b hmem)
  have h1 : Path choiceInLoop.Edge 1 [1, 0] := .step .start (by decide)
  have h4 : Path choiceInLoop.Edge 4 [4, 2, 1, 0] := .step (.step h1 (by decide)) (by decide)
  refine ⟨Cfg.linked_ofSuccessors (by decide) (by decide), fun b hb => ?_, fun p b he => ?_⟩
  · have hb : b < 7 := hb
    interval_cases b
    · exact ⟨_, .start⟩
    · exact ⟨_, h1⟩
    · exact ⟨_, .step h1 (by decide)⟩
    · exact ⟨_, .step h1 (by decide)⟩
    · exact ⟨_, h4⟩
    · exact ⟨_, .step h4 (by decide)⟩
    · exact ⟨_, .step h4 (by decide)⟩
  · rcases hforward p (Cfg.lt_size_of_edge he) b he with hlater | ⟨rfl, rfl, hend⟩
    · exact Or.inl hlater
    · refine Or.inr ⟨hend, fun path hpath => ?_, fun c hc => List.mem_singleton.mp hc⟩
      exact (hheader hpath).resolve_left (by decide)

theorem dominatorTree_agrees_with_paths_choice : choiceInLoop.Reducible ∧
    ∃ t, DominatorTree.ofCfg choiceInLoop = .ok t ∧
      (∀ b, 0 < b → b < choiceInLoop.size →
        ∃ d, t.parent? b = some d ∧ choiceInLoop.IsImmediateDominator d b) ∧
      ∀ a b, a < choiceInLoop.size → b < choiceInLoop.size →
        (t.dominates a b = true ↔ choiceInLoop.Dominates a b) ∧
        (t.isDominatedBy b a = true ↔ choiceInLoop.Dominates a b) ∧
        ∃ c, t.commonDominator a b = .ok c ∧ choiceInLoop.Dominates c a ∧ choiceInLoop.Dominates c b ∧
          ∀ x, choiceInLoop.Dominates x a → choiceInLoop.Dominates x b →
            choiceInLoop.Dominates x c ∧ (x ≠ c → t.depth x < t.depth c) :=
  ⟨reducible_choiceInLoop, dominatorTree_agrees_with_paths choiceInLoop reducible_choiceInLoop⟩

end CompilerKit.ControlFlow
