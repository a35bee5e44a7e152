import CompilerKit.Proofs.ValueType

/-! # Types of the rules' answers

In a graph that type checks, every rule of a node answers, and it answers with a term of the node's
type. The exception is a quotient or remainder of two constants of which the second is zero.
-/

namespace CompilerKit.Canonical.Answers

open Reduction Term

variable {F : Fragment} {g : Graph Label} {s : Stamp} {x y : NodeId} {v w : IntWidth} {τ : ValueType}

theorem gives_node (hx : g.Has F x τ) : Gives (·.Has F g τ) (keep x) := gives_keep (.node hx)

theorem gives_if {p : Prop} [Decidable p] {P : Term → Prop} {r r' : Reduction} (hr : p → Gives P r)
    (hr' : ¬p → Gives P r') : Gives P (if p then r else r') := by
  split
  · exact hr ‹_›
  · exact hr' ‹_›

theorem gives_when {p : Prop} [Decidable p] {P : Term → Prop} {r : Reduction} (h : p → Gives P r) :
    Gives P (if p then r else pass) := gives_if h fun _ => gives_pass

theorem gives_onIntegerRight {P : Term → Prop}
    {rule : Graph Label → Stamp → NodeId → Word → Reduction}
    (h : ∀ c, Gives P (rule g s x c)) : Gives P (onIntegerRight rule g s x y) := by
  unfold onIntegerRight
  split
  · exact h _
  · exact gives_pass

/-! Operators on constants of one width. -/

theorem exists_onWords {op : BinaryOp} {a b : Word} (h : op = .div ∨ op = .rem → b ≠ 0) :
    ∃ c, op.onWords a b = .ok c := by
  cases op with
  | div => exact ⟨_, if_neg (h (.inl rfl))⟩
  | rem => exact ⟨_, if_neg (h (.inr rfl))⟩
  | add | sub | mul | and | or | xor => exact ⟨_, rfl⟩

theorem exists_onConstants {op : BinaryOp} {a b : Word} (h : op = .div ∨ op = .rem → b ≠ 0) :
    ∃ c, op.onConstants (.primitive w.kind a) (.primitive w.kind b) = .ok (.primitive w.kind c) := by
  obtain ⟨c, hc⟩ := exists_onWords h
  refine ⟨w.kind.clip c, ?_⟩
  rw [BinaryOp.onConstants, Constant.word, Result.bind_of_ok rfl, if_pos w.isInteger_kind, hc,
    Result.bind_of_ok rfl, Constant.ofKind, if_pos w.isInteger_kind]

theorem exists_isNeutralAt (op : BinaryOp) (hs : (ValueType.integer w).Describes s) (k : Kind)
    (c : Word) : ∃ b, isNeutralAt op s (.primitive k c) = .ok b := by
  obtain ⟨t, rfl, _⟩ := hs
  cases op <;> exact ⟨_, rfl⟩

theorem exists_onConstant {op : UnaryOp} (hop : op ≠ .sqrt) (a : Word) :
    ∃ c, op.onConstant (.primitive w.kind a) = .ok (.primitive w.kind c) := by
  cases w <;> cases op <;> first | exact ⟨_, rfl⟩ | exact absurd rfl hop

theorem gives_foldConstants (hs : (ValueType.integer w).Describes s) (hx : g.Has F x (.integer w))
    (hy : g.Has F y (.integer w)) {op : BinaryOp}
    (hop : op = .div ∨ op = .rem → g.isConstant x = true → g.integer? y ≠ some 0) :
    Gives (·.Has F g (.integer w)) (foldConstants op g s x y) := by
  unfold foldConstants
  split
  · rename_i a b ha hb
    obtain ⟨a, rfl⟩ := hx.constant ha
    obtain ⟨b, rfl⟩ := hy.constant hb
    have hnonzero : op = .div ∨ op = .rem → b ≠ 0 := by
      rintro h rfl
      exact hop h (by rw [Graph.isConstant, ha]; rfl) (Graph.Has.integer? hb)
    obtain ⟨c, hc⟩ := exists_onConstants (w := w) (a := a) hnonzero
    rw [hc]
    exact (formed_primitive hs c).gives
  · exact gives_pass

theorem foldConstants_of_zero (hx : g.Has F x (.integer w)) (hy : g.Has F y (.integer w))
    {op : BinaryOp} (hop : op = .div ∨ op = .rem) (hconst : g.isConstant x = true)
    (hzero : g.integer? y = some 0) : foldConstants op g s x y = .error .divisionByZero := by
  obtain ⟨a, ha⟩ := Option.isSome_iff_exists.mp hconst
  obtain ⟨a, rfl⟩ := hx.constant ha
  obtain ⟨b, hb⟩ : ∃ b, g.constant? y = some b := by
    cases hy' : g.constant? y with
    | none =>
      rw [Graph.integer?, hy'] at hzero
      cases hzero
    | some b => exact ⟨b, rfl⟩
  obtain ⟨b, rfl⟩ := hy.constant hb
  obtain rfl := Option.some.inj ((Graph.Has.integer? hb).symm.trans hzero)
  have hfold : op.onConstants (.primitive w.kind a) (.primitive w.kind 0) =
      .error .divisionByZero := by
    rw [BinaryOp.onConstants, Constant.word, Result.bind_of_ok rfl, if_pos w.isInteger_kind]
    rcases hop with rfl | rfl
    all_goals
      rw [BinaryOp.onWords, if_pos rfl]
      rfl
  rw [foldConstants, ha, hb]
  dsimp only
  rw [hfold]
  rfl

theorem gives_constantRight (hx : g.Has F x (.integer w)) (hy : g.Has F y (.integer w))
    {op : BinaryOp} (hF : F.Admits (.arith op)) :
    Gives (·.Has F g (.integer w)) (constantRight op g s x y) := by
  apply gives_when
  intro _
  exact (formed_arith hF (.node hy) (.node hx)).gives

theorem gives_dropNeutral (hx : g.Has F x (.integer w)) (hy : g.Has F y (.integer w))
    (op : BinaryOp) : Gives (·.Has F g (.integer w)) (dropNeutral op g s x y) := by
  unfold dropNeutral onConstantRight
  split
  · rename_i c hc
    obtain ⟨c, rfl⟩ := hy.constant hc
    obtain ⟨b, hb⟩ := exists_isNeutralAt op hx.describes w.kind c
    dsimp only
    rw [Result.bind_of_ok hb]
    exact gives_when fun _ => gives_node hx
  · exact gives_pass

theorem gives_idempotent (hx : g.Has F x (.integer w)) :
    Gives (·.Has F g (.integer w)) (idempotent g s x y) :=
  gives_when fun _ => gives_node hx

/-! Regrouping forms sums and differences, and applications of an operator that is there already. -/

theorem admits_add : F.Admits (.arith .add) := by cases F <;> simp [Fragment.Admits]

theorem admits_sub : F.Admits (.arith .sub) := by cases F <;> simp [Fragment.Admits]

theorem admits_and : F.Admits (.arith .and) := by cases F <;> simp [Fragment.Admits]

theorem gives_regroup {op op' : BinaryOp} (hF : F.Admits (.arith op)) (hdiv : op ≠ .div)
    (hrem : op ≠ .rem) (outer inner : Side) {a m₁ m₂ : Term} (ha : a.Has F g (.integer w))
    (h₁ : m₁.Has F g (.integer w)) (h₂ : m₂.Has F g (.integer w)) :
    Gives (·.Has F g (.integer w)) (regroup g op op' outer inner a m₁ m₂) := by
  have plus {l r : Term} (hl : l.Has F g (.integer w)) (hr : r.Has F g (.integer w)) :
      Formed F g (.integer w) (Term.arith g .add l r) := formed_arith admits_add hl hr
  have minus {l r : Term} (hl : l.Has F g (.integer w)) (hr : r.Has F g (.integer w)) :
      Formed F g (.integer w) (Term.arith g .sub l r) := formed_arith admits_sub hl hr
  unfold regroup
  split
  · exact ((plus h₁ h₂).bind fun _ ht => plus ha ht).gives
  · exact ((minus h₁ h₂).bind fun _ ht => plus ha ht).gives
  · exact ((plus h₁ h₂).bind fun _ ht => minus ht ha).gives
  · exact ((minus h₁ h₂).bind fun _ ht => minus ht ha).gives
  · exact ((minus h₂ h₁).bind fun _ ht => plus ha ht).gives
  · exact ((minus h₁ h₂).bind fun _ ht => plus ha ht).gives
  · exact ((plus h₁ h₂).bind fun _ ht => minus ht ha).gives
  · exact ((minus h₂ h₁).bind fun _ ht => minus ht ha).gives
  · exact ((plus h₁ h₂).bind fun _ ht => minus ha ht).gives
  · refine gives_if (fun _ => gives_pass) fun _ => gives_if ?_ fun _ => ?_
    · rintro (h | h)
      · exact absurd h hdiv
      · exact absurd h hrem
    · exact ((formed_arith hF h₁ h₂).bind fun _ ht => formed_arith hF ha ht).gives

theorem has_pick (side : Side) (hx : g.Has F x τ) (hy : g.Has F y τ) :
    (Term.node (side.pick x y)).Has F g τ := by
  cases side with
  | left => exact .node hx
  | right => exact .node hy

theorem has_other (side : Side) (hx : g.Has F x τ) (hy : g.Has F y τ) :
    g.Has F (side.other x y) τ := by
  cases side with
  | left => exact hy
  | right => exact hx

theorem gives_reassociate (hg : g.TypeChecks F) (hx : g.Has F x (.integer w))
    (hy : g.Has F y (.integer w)) {op : BinaryOp} (hF : F.Admits (.arith op)) (hdiv : op ≠ .div)
    (hrem : op ≠ .rem) (p : NodeId → Bool) :
    Gives (·.Has F g (.integer w)) (reassociate p op g x y) := by
  unfold reassociate
  split
  · exact gives_pass
  · rename_i outer _
    split
    · rename_i op' a b hshape
      obtain ⟨_, ha, hb⟩ := hg.arith hshape (has_other outer hx hy)
      split
      · exact gives_pass
      · rename_i inner _
        exact gives_regroup hF hdiv hrem outer inner (.node (has_other inner ha hb))
          (has_pick outer hx hy) (has_pick inner ha hb)
    · exact gives_pass

theorem gives_regroupConstants (hg : g.TypeChecks F) (hx : g.Has F x (.integer w))
    (hy : g.Has F y (.integer w)) {op : BinaryOp} (hF : F.Admits (.arith op)) (hdiv : op ≠ .div)
    (hrem : op ≠ .rem) : Gives (·.Has F g (.integer w)) (regroupConstants op g s x y) :=
  gives_when fun _ => gives_reassociate hg hx hy hF hdiv hrem _

/-! Sums and differences. -/

theorem gives_cancelDifference (hg : g.TypeChecks F) (hx : g.Has F x (.integer w))
    (hy : g.Has F y (.integer w)) : Gives (·.Has F g (.integer w)) (cancelDifference g s x y) := by
  have left {a b : NodeId} (h : g.binary? (.arith .sub) x = some (a, b)) : g.Has F a (.integer w) :=
    (hg.arith (Graph.shape?_of_binary? h) hx).2.1
  have right {a b : NodeId} (h : g.binary? (.arith .sub) y = some (a, b)) :
      g.Has F a (.integer w) := (hg.arith (Graph.shape?_of_binary? h) hy).2.1
  unfold cancelDifference
  refine gives_when fun _ => ?_
  split
  · rename_i ha hc
    exact gives_if (fun _ => gives_node (left ha)) fun _ =>
      gives_when fun _ => gives_node (right hc)
  · rename_i ha _
    exact gives_when fun _ => gives_node (left ha)
  · rename_i _ hc
    exact gives_when fun _ => gives_node (right hc)
  · exact gives_pass

theorem gives_addNegated (hg : g.TypeChecks F) (hx : g.Has F x (.integer w))
    (hy : g.Has F y (.integer w)) : Gives (·.Has F g (.integer w)) (addNegated g s x y) := by
  unfold addNegated
  split
  · rename_i h
    have hv := (hg.arith1 (Graph.shape?_of_unary? h) hx).2
    exact (formed_arith admits_sub (.node hy) (.node hv)).gives
  · rename_i _ h
    have hv := (hg.arith1 (Graph.shape?_of_unary? h) hy).2
    exact (formed_arith admits_sub (.node hx) (.node hv)).gives
  · exact gives_pass

theorem gives_add (hg : g.TypeChecks F) (hs : (ValueType.integer w).Describes s)
    (hx : g.Has F x (.integer w)) (hy : g.Has F y (.integer w)) (hF : F.Admits (.arith .add)) :
    Gives (·.Has F g (.integer w)) (add g s x y) := by
  refine gives_firstBinary_cons (gives_foldConstants hs hx hy (by simp)) fun _ => ?_
  refine gives_firstBinary_cons (gives_constantRight hx hy hF) fun _ => ?_
  refine gives_firstBinary_cons (gives_cancelDifference hg hx hy) fun _ => ?_
  refine gives_firstBinary_cons (gives_dropNeutral hx hy .add) fun _ => ?_
  refine gives_firstBinary_cons
    (gives_regroupConstants hg hx hy hF (by simp) (by simp)) fun _ => ?_
  exact gives_firstBinary_cons (gives_addNegated hg hx hy) fun _ => gives_firstBinary_nil

theorem gives_subSelf (hs : (ValueType.integer w).Describes s) (hx : g.Has F x (.integer w)) :
    Gives (·.Has F g (.integer w)) (subSelf g s x y) := by
  obtain ⟨t, ht, hbits⟩ := hx.exists_int
  unfold subSelf
  refine gives_when fun _ => ?_
  rw [ht, BinaryOp.zero?, Constant.ofBits, hbits, w.ofBits?_bits]
  exact (formed_primitive hs _).gives

theorem gives_cancelLeft (hg : g.TypeChecks F) (hx : g.Has F x (.integer w)) :
    Gives (·.Has F g (.integer w)) (cancelLeft g s x y) := by
  unfold cancelLeft
  refine gives_when fun _ => ?_
  split
  · rename_i a b hshape
    obtain ⟨_, ha, hb⟩ := hg.arith hshape hx
    exact gives_if (fun _ => gives_node ha) fun _ =>
      gives_when fun _ => gives_node hb
  · rename_i a b hshape
    obtain ⟨_, _, hb⟩ := hg.arith hshape hx
    exact gives_when fun _ => (formed_arith1 (by simp) (.node hb)).gives
  · exact gives_pass

theorem gives_cancelRight (hg : g.TypeChecks F) (hy : g.Has F y (.integer w)) :
    Gives (·.Has F g (.integer w)) (cancelRight g s x y) := by
  unfold cancelRight
  refine gives_when fun _ => ?_
  split
  · rename_i a b hshape
    obtain ⟨_, ha, hb⟩ := hg.arith hshape hy
    exact gives_if (fun _ => (formed_arith1 (by simp) (.node hb)).gives) fun _ =>
      gives_when fun _ => (formed_arith1 (by simp) (.node ha)).gives
  · rename_i a b hshape
    obtain ⟨_, _, hb⟩ := hg.arith hshape hy
    exact gives_when fun _ => gives_node hb
  · exact gives_pass

theorem gives_subConstant (hs : (ValueType.integer w).Describes s) (hx : g.Has F x (.integer w))
    (hy : g.Has F y (.integer w)) : Gives (·.Has F g (.integer w)) (subConstant g s x y) := by
  obtain ⟨t, ht, hbits⟩ := hy.exists_int
  unfold subConstant
  apply gives_onIntegerRight
  intro c
  rw [ht, w.stackKind_eq hbits]
  have hsum (z : Word) : Formed F g (.integer w)
      (Term.integer s z >>= fun r => Term.arith g .add (.node x) r) :=
    (formed_integer hs z).bind fun _ hr => formed_arith admits_add (.node hx) hr
  cases w with
  | int | long => exact gives_when fun _ => (hsum _).gives

theorem gives_subFromNeutral (hs : (ValueType.integer w).Describes s) (hx : g.Has F x (.integer w))
    (hy : g.Has F y (.integer w)) : Gives (·.Has F g (.integer w)) (subFromNeutral g s x y) := by
  unfold subFromNeutral
  split
  · rename_i c hc _
    obtain ⟨c, rfl⟩ := hx.constant hc
    obtain ⟨b, hb⟩ := exists_isNeutralAt .add hs w.kind c
    rw [Result.bind_of_ok hb]
    exact gives_when fun _ => (formed_arith1 (by simp) (.node hy)).gives
  · exact gives_pass

theorem gives_subNegated (hg : g.TypeChecks F) (hx : g.Has F x (.integer w))
    (hy : g.Has F y (.integer w)) : Gives (·.Has F g (.integer w)) (subNegated g s x y) := by
  unfold subNegated
  refine gives_if (fun _ => gives_pass) fun _ => ?_
  split
  · rename_i h
    have hv := (hg.arith1 (Graph.shape?_of_unary? h) hy).2
    exact (formed_arith admits_add (.node hx) (.node hv)).gives
  · exact gives_pass

theorem gives_sub (hg : g.TypeChecks F) (hs : (ValueType.integer w).Describes s)
    (hx : g.Has F x (.integer w)) (hy : g.Has F y (.integer w)) (hF : F.Admits (.arith .sub)) :
    Gives (·.Has F g (.integer w)) (sub g s x y) := by
  refine gives_firstBinary_cons (gives_foldConstants hs hx hy (by simp)) fun _ => ?_
  refine gives_firstBinary_cons (gives_subSelf hs hx) fun _ => ?_
  refine gives_firstBinary_cons (gives_cancelLeft hg hx) fun _ => ?_
  refine gives_firstBinary_cons (gives_cancelRight hg hy) fun _ => ?_
  refine gives_firstBinary_cons (gives_dropNeutral hx hy .sub) fun _ => ?_
  refine gives_firstBinary_cons
    (gives_regroupConstants hg hx hy hF (by simp) (by simp)) fun _ => ?_
  refine gives_firstBinary_cons (gives_subConstant hs hx hy) fun _ => ?_
  refine gives_firstBinary_cons (gives_subFromNeutral hs hx hy) fun _ => ?_
  refine gives_firstBinary_cons ?_ fun _ => ?_
  · exact gives_when fun _ => gives_reassociate hg hx hy hF (by simp) (by simp) _
  · exact gives_firstBinary_cons (gives_subNegated hg hx hy) fun _ => gives_firstBinary_nil

/-! Products and quotients. -/

theorem gives_mulPowerOfTwo (hx : g.Has F x (.integer w)) :
    Gives (·.Has F g (.integer w)) (mulPowerOfTwo g s x y) := by
  apply gives_onIntegerRight
  intro c
  exact gives_when fun _ => (formed_shift .shl (.node hx) (has_ofInt _)).gives

theorem gives_mul (hg : g.TypeChecks F) (hs : (ValueType.integer w).Describes s)
    (hx : g.Has F x (.integer w)) (hy : g.Has F y (.integer w)) (hF : F.Admits (.arith .mul)) :
    Gives (·.Has F g (.integer w)) (mul g s x y) := by
  refine gives_firstBinary_cons (gives_foldConstants hs hx hy (by simp)) fun _ => ?_
  refine gives_firstBinary_cons (gives_constantRight hx hy hF) fun _ => ?_
  refine gives_firstBinary_cons (gives_dropNeutral hx hy .mul) fun _ => ?_
  refine gives_firstBinary_cons (gives_mulPowerOfTwo hx) fun _ => ?_
  exact gives_firstBinary_cons (gives_regroupConstants hg hx hy hF (by simp) (by simp))
    fun _ => gives_firstBinary_nil

/-- A quotient, negated if the divisor was. -/
theorem formed_signed {q : Term} (hq : q.Has F g (.integer w)) (c : Word) :
    Formed F g (.integer w) (if c.slt 0 = true then Term.arith1 g .neg q else pure q) := by
  split
  · exact formed_arith1 (by simp) hq
  · exact formed_ok hq

theorem gives_divPowerOfTwo (hx : g.Has F x (.integer w)) :
    Gives (·.Has F g (.integer w)) (divPowerOfTwo g s x y) := by
  apply gives_onIntegerRight
  intro c
  refine gives_when fun _ => ?_
  exact ((formed_shift .shr (.node hx) (has_ofInt _)).bind fun _ hq => formed_signed hq c).gives

theorem gives_div (hs : (ValueType.integer w).Describes s) (hx : g.Has F x (.integer w))
    (hy : g.Has F y (.integer w)) (hzero : g.isConstant x = true → g.integer? y ≠ some 0) :
    Gives (·.Has F g (.integer w)) (div g s x y) := by
  refine gives_firstBinary_cons (gives_foldConstants hs hx hy fun _ => hzero) fun _ => ?_
  refine gives_firstBinary_cons (gives_dropNeutral hx hy .div) fun _ => ?_
  exact gives_firstBinary_cons (gives_divPowerOfTwo hx) fun _ => gives_firstBinary_nil

/-! Bitwise operators. -/

theorem gives_andNothing (hs : (ValueType.integer w).Describes s) :
    Gives (·.Has F g (.integer w)) (andNothing g s x y) := by
  apply gives_onIntegerRight
  intro c
  exact gives_when fun _ => (formed_integer hs 0).gives

theorem gives_andExtended (hg : g.TypeChecks F) (hx : g.Has F x (.integer w)) :
    Gives (·.Has F g (.integer w)) (andExtended g s x y) := by
  apply gives_onIntegerRight
  intro c
  split
  · rename_i m n a hshape
    obtain ⟨v, _, hn, ha⟩ := hg.resize hshape hx
    obtain ⟨t, ht, hbits⟩ := ha.exists_int
    refine gives_when fun _ => ?_
    rw [ht]
    exact (formed_resize .zeroExtend hbits hn (.node ha)).gives
  · exact gives_pass

theorem gives_andCovering (hx : g.Has F x (.integer w)) :
    Gives (·.Has F g (.integer w)) (andCovering g s x y) := by
  obtain ⟨t, ht, _⟩ := hx.exists_int
  apply gives_onIntegerRight
  intro c
  rw [ht]
  exact gives_when fun _ => gives_node hx

theorem gives_and (hg : g.TypeChecks F) (hs : (ValueType.integer w).Describes s)
    (hx : g.Has F x (.integer w)) (hy : g.Has F y (.integer w)) (hF : F.Admits (.arith .and)) :
    Gives (·.Has F g (.integer w)) (and g s x y) := by
  refine gives_firstBinary_cons (gives_foldConstants hs hx hy (by simp)) fun _ => ?_
  refine gives_firstBinary_cons (gives_idempotent hx) fun _ => ?_
  refine gives_firstBinary_cons (gives_constantRight hx hy hF) fun _ => ?_
  refine gives_firstBinary_cons (gives_dropNeutral hx hy .and) fun _ => ?_
  refine gives_firstBinary_cons (gives_andNothing hs) fun _ => ?_
  refine gives_firstBinary_cons (gives_andExtended hg hx) fun _ => ?_
  refine gives_firstBinary_cons (gives_andCovering hx) fun _ => ?_
  exact gives_firstBinary_cons (gives_regroupConstants hg hx hy hF (by simp) (by simp))
    fun _ => gives_firstBinary_nil

theorem gives_orEverything (hs : (ValueType.integer w).Describes s) :
    Gives (·.Has F g (.integer w)) (orEverything g s x y) := by
  apply gives_onIntegerRight
  intro c
  exact gives_when fun _ => (formed_integer hs _).gives

theorem gives_or (hg : g.TypeChecks F) (hs : (ValueType.integer w).Describes s)
    (hx : g.Has F x (.integer w)) (hy : g.Has F y (.integer w)) (hF : F.Admits (.arith .or)) :
    Gives (·.Has F g (.integer w)) (or g s x y) := by
  refine gives_firstBinary_cons (gives_foldConstants hs hx hy (by simp)) fun _ => ?_
  refine gives_firstBinary_cons (gives_idempotent hx) fun _ => ?_
  refine gives_firstBinary_cons (gives_constantRight hx hy hF) fun _ => ?_
  refine gives_firstBinary_cons (gives_dropNeutral hx hy .or) fun _ => ?_
  refine gives_firstBinary_cons (gives_orEverything hs) fun _ => ?_
  exact gives_firstBinary_cons (gives_regroupConstants hg hx hy hF (by simp) (by simp))
    fun _ => gives_firstBinary_nil

theorem gives_xorSelf (hs : (ValueType.integer w).Describes s) (hx : g.Has F x (.integer w)) :
    Gives (·.Has F g (.integer w)) (xorSelf g s x y) := by
  obtain ⟨t, ht, hbits⟩ := hx.exists_int
  unfold xorSelf
  refine gives_when fun _ => ?_
  rw [ht, BinaryOp.zero?, Constant.ofBits, hbits, w.ofBits?_bits]
  exact (formed_primitive hs _).gives

theorem gives_xorEverything (hx : g.Has F x (.integer w)) :
    Gives (·.Has F g (.integer w)) (xorEverything g s x y) := by
  apply gives_onIntegerRight
  intro c
  exact gives_when fun _ => (formed_arith1 (by simp) (.node hx)).gives

theorem gives_xor (hg : g.TypeChecks F) (hs : (ValueType.integer w).Describes s)
    (hx : g.Has F x (.integer w)) (hy : g.Has F y (.integer w)) (hF : F.Admits (.arith .xor)) :
    Gives (·.Has F g (.integer w)) (xor g s x y) := by
  refine gives_firstBinary_cons (gives_foldConstants hs hx hy (by simp)) fun _ => ?_
  refine gives_firstBinary_cons (gives_xorSelf hs hx) fun _ => ?_
  refine gives_firstBinary_cons (gives_constantRight hx hy hF) fun _ => ?_
  refine gives_firstBinary_cons (gives_dropNeutral hx hy .xor) fun _ => ?_
  refine gives_firstBinary_cons (gives_xorEverything hx) fun _ => ?_
  exact gives_firstBinary_cons (gives_regroupConstants hg hx hy hF (by simp) (by simp))
    fun _ => gives_firstBinary_nil

theorem gives_binaryArith (hg : g.TypeChecks F) (hs : (ValueType.integer w).Describes s)
    (hx : g.Has F x (.integer w)) (hy : g.Has F y (.integer w)) {op : BinaryOp}
    (hF : F.Admits (.arith op))
    (hop : op = .div ∨ op = .rem → g.isConstant x = true → g.integer? y ≠ some 0) :
    Gives (·.Has F g (.integer w)) (binaryArith op g s x y) := by
  cases op with
  | add => exact gives_add hg hs hx hy hF
  | sub => exact gives_sub hg hs hx hy hF
  | mul => exact gives_mul hg hs hx hy hF
  | div => exact gives_div hs hx hy (hop (.inl rfl))
  | rem => exact gives_foldConstants hs hx hy hop
  | and => exact gives_and hg hs hx hy hF
  | or => exact gives_or hg hs hx hy hF
  | xor => exact gives_xor hg hs hx hy hF

/-! Operators with one operand. -/

theorem gives_foldConstant (hx : g.Has F x (.integer w)) {op : UnaryOp} (hop : op ≠ .sqrt) :
    Gives (·.Has F g (.integer w)) (foldConstant op g s x) := by
  obtain ⟨t, ht, hbits⟩ := hx.exists_int
  obtain ⟨t', ht', hbits'⟩ := op.exists_onStamp hop t
  unfold foldConstant
  split
  · rename_i c hc
    obtain ⟨c, rfl⟩ := hx.constant hc
    obtain ⟨d, hd⟩ := exists_onConstant (w := w) hop c
    rw [ht, ht', hd]
    exact (formed_primitive ⟨t', rfl, hbits'.trans hbits⟩ d).gives
  · exact gives_pass

theorem gives_involution (hg : g.TypeChecks F) (hx : g.Has F x (.integer w)) (op : UnaryOp) :
    Gives (·.Has F g (.integer w)) (involution op g s x) := by
  unfold involution
  split
  · rename_i h
    exact gives_node (hg.arith1 (Graph.shape?_of_unary? h) hx).2
  · exact gives_pass

theorem gives_negDifference (hg : g.TypeChecks F) (hx : g.Has F x (.integer w)) :
    Gives (·.Has F g (.integer w)) (negDifference g s x) := by
  unfold negDifference
  split
  · rename_i h
    obtain ⟨_, ha, hb⟩ := hg.arith (Graph.shape?_of_binary? h) hx
    exact (formed_arith admits_sub (.node hb) (.node ha)).gives
  · exact gives_pass

theorem gives_absTwice (hx : g.Has F x (.integer w)) :
    Gives (·.Has F g (.integer w)) (absTwice g s x) := by
  unfold absTwice
  split
  · exact gives_node hx
  · exact gives_pass

theorem gives_unaryArith (hg : g.TypeChecks F) (hx : g.Has F x (.integer w)) {op : UnaryOp}
    (hop : op ≠ .sqrt) : Gives (·.Has F g (.integer w)) (unaryArith op g s x) := by
  cases op with
  | neg =>
    refine gives_firstUnary_cons (gives_foldConstant hx hop) ?_
    refine gives_firstUnary_cons (gives_involution hg hx .neg) ?_
    exact gives_firstUnary_cons (gives_negDifference hg hx) gives_firstUnary_nil
  | not =>
    refine gives_firstUnary_cons (gives_foldConstant hx hop) ?_
    exact gives_firstUnary_cons (gives_involution hg hx .not) gives_firstUnary_nil
  | abs =>
    refine gives_firstUnary_cons (gives_foldConstant hx hop) ?_
    exact gives_firstUnary_cons (gives_absTwice hx) gives_firstUnary_nil
  | sqrt => exact absurd rfl hop

/-! Shifts. -/

theorem exists_shiftOnConstant (op : ShiftOp) (a : Word) (n : Int) :
    ∃ c, op.onConstant (.primitive w.kind a) n = .ok (.primitive w.kind c) := by
  cases w <;> exact ⟨_, rfl⟩

theorem exists_shiftByConstant {mask n : Nat} {op : ShiftOp} {u : NodeId}
    (h : shiftByConstant? g mask x = some (op, u, n)) :
    ∃ y, g.shape? x = some (.binary (.shift op) u y) := by
  unfold shiftByConstant? at h
  split at h
  · rename_i y hshape
    obtain ⟨c, _, ⟨⟩⟩ := Option.map_eq_some_iff.mp h
    exact ⟨y, hshape⟩
  · cases h

theorem has_sizedConstant (hs : (ValueType.integer w).Describes s) (c : Word) :
    (sizedConstant s c).Has F g (.integer w) := by
  obtain ⟨t, rfl, ht⟩ := hs
  rw [sizedConstant, w.stackKind_eq ht]
  cases w with
  | int => exact has_ofInt _
  | long => exact has_ofWord c

theorem has_highBits (hs : (ValueType.integer w).Describes s) (n : Nat) :
    (highBits s n).Has F g (.integer w) := has_sizedConstant hs _

theorem has_lowBits (hs : (ValueType.integer w).Describes s) (n : Nat) :
    (lowBits s n).Has F g (.integer w) := by
  obtain ⟨t, rfl, ht⟩ := hs
  rw [lowBits, w.stackKind_eq ht]
  cases w with
  | int => exact has_ofInt _
  | long => exact has_ofWord _

theorem gives_ofStackKind (hs : (ValueType.integer w).Describes s) (c : Word) :
    Gives (·.Has F g (.integer w)) (build (Term.ofKind s.stackKind c)) := by
  obtain ⟨t, rfl, ht⟩ := hs
  rw [w.stackKind_eq ht]
  exact (formed_ofKind c).gives

theorem gives_onConstantAmount {P : Term → Prop}
    {rule : Graph Label → Stamp → NodeId → Nat → Nat → Word → Reduction}
    (hs : (ValueType.integer w).Describes s) (h : ∀ mask n c, Gives P (rule g s x mask n c)) :
    Gives P (onConstantAmount rule g s x y) := by
  obtain ⟨t, rfl, _⟩ := hs
  unfold onConstantAmount
  split
  · exact h ..
  · exact gives_pass

theorem gives_foldShift (hs : (ValueType.integer w).Describes s) (hx : g.Has F x (.integer w))
    (op : ShiftOp) : Gives (·.Has F g (.integer w)) (foldShift op g s x y) := by
  unfold foldShift
  split
  · rename_i a c ha _
    obtain ⟨a, rfl⟩ := hx.constant ha
    obtain ⟨d, hd⟩ := exists_shiftOnConstant (w := w) op a (Word.lowInt c)
    rw [hd]
    exact (formed_primitive hs d).gives
  · exact gives_pass

theorem gives_shiftByNothing (hs : (ValueType.integer w).Describes s)
    (hx : g.Has F x (.integer w)) : Gives (·.Has F g (.integer w)) (shiftByNothing g s x y) :=
  gives_onConstantAmount hs fun _ _ _ => gives_when fun _ => gives_node hx

theorem gives_reduceAmount (hs : (ValueType.integer w).Describes s) (hx : g.Has F x (.integer w))
    (op : ShiftOp) : Gives (·.Has F g (.integer w)) (reduceAmount op g s x y) :=
  gives_onConstantAmount hs fun _ _ _ =>
    gives_when fun _ => (formed_shift op (.node hx) (has_ofInt _)).gives

theorem gives_mergeLeft (hg : g.TypeChecks F) (hs : (ValueType.integer w).Describes s)
    (hx : g.Has F x (.integer w)) : Gives (·.Has F g (.integer w)) (mergeLeft g s x y) := by
  apply gives_onConstantAmount hs
  intro mask n c
  split
  · rename_i u inner h
    obtain ⟨z, hshape⟩ := exists_shiftByConstant h
    have hu := (hg.shift hshape hx).1
    exact gives_if (fun _ => gives_ofStackKind hs 0) fun _ =>
      (formed_shift .shl (.node hu) (has_ofInt _)).gives
  · rename_i op u inner _ h
    obtain ⟨z, hshape⟩ := exists_shiftByConstant h
    have hu := (hg.shift hshape hx).1
    exact gives_when fun _ => (formed_arith admits_and (.node hu) (has_highBits hs _)).gives
  · exact gives_pass

theorem gives_mergeRight (hg : g.TypeChecks F) (hs : (ValueType.integer w).Describes s)
    (hx : g.Has F x (.integer w)) : Gives (·.Has F g (.integer w)) (mergeRight g s x y) := by
  apply gives_onConstantAmount hs
  intro mask n c
  split
  · rename_i u inner h
    obtain ⟨z, hshape⟩ := exists_shiftByConstant h
    have hu := (hg.shift hshape hx).1
    obtain ⟨t, ht, _⟩ := hu.exists_int
    have hsign (k : Nat) : Gives (·.Has F g (.integer w))
        (build (Term.shift g .shr (.node u) (.ofInt k))) :=
      (formed_shift .shr (.node hu) (has_ofInt _)).gives
    refine gives_if (fun _ => ?_) fun _ => hsign _
    unfold signOnly
    rw [ht]
    exact gives_if (fun _ => gives_ofStackKind hs 0) fun _ =>
      gives_if (fun _ => gives_ofStackKind hs (-1)) fun _ => hsign mask
  · exact gives_pass

theorem gives_mergeUnsigned (hg : g.TypeChecks F) (hs : (ValueType.integer w).Describes s)
    (hx : g.Has F x (.integer w)) : Gives (·.Has F g (.integer w)) (mergeUnsigned g s x y) := by
  apply gives_onConstantAmount hs
  intro mask n c
  split
  · rename_i u inner h
    obtain ⟨z, hshape⟩ := exists_shiftByConstant h
    have hu := (hg.shift hshape hx).1
    exact gives_if (fun _ => gives_ofStackKind hs 0) fun _ =>
      (formed_shift .ushr (.node hu) (has_ofInt _)).gives
  · rename_i u inner h
    obtain ⟨z, hshape⟩ := exists_shiftByConstant h
    have hu := (hg.shift hshape hx).1
    exact gives_when fun _ => (formed_arith admits_and (.node hu) (has_lowBits hs _)).gives
  · exact gives_pass

theorem gives_shiftPositive (hx : g.Has F x (.integer w)) (hy : g.Has F y (.integer .int)) :
    Gives (·.Has F g (.integer w)) (shiftPositive g s x y) := by
  unfold shiftPositive
  split
  · exact gives_when fun _ => (formed_shift .ushr (.node hx) (.node hy)).gives
  · exact gives_pass

theorem gives_shift (hg : g.TypeChecks F) (hs : (ValueType.integer w).Describes s)
    (hx : g.Has F x (.integer w)) (op : ShiftOp) (hy : g.Has F y (.integer .int)) :
    Gives (·.Has F g (.integer w)) (shift op g s x y) := by
  cases op with
  | shl =>
    refine gives_firstBinary_cons (gives_foldShift hs hx .shl) fun _ => ?_
    refine gives_firstBinary_cons (gives_shiftByNothing hs hx) fun _ => ?_
    refine gives_firstBinary_cons (gives_mergeLeft hg hs hx) fun _ => ?_
    exact gives_firstBinary_cons (gives_reduceAmount hs hx .shl) fun _ => gives_firstBinary_nil
  | shr =>
    refine gives_firstBinary_cons (gives_foldShift hs hx .shr) fun _ => ?_
    refine gives_firstBinary_cons (gives_shiftPositive hx hy) fun _ => ?_
    refine gives_firstBinary_cons (gives_shiftByNothing hs hx) fun _ => ?_
    refine gives_firstBinary_cons (gives_mergeRight hg hs hx) fun _ => ?_
    exact gives_firstBinary_cons (gives_reduceAmount hs hx .shr) fun _ => gives_firstBinary_nil
  | ushr =>
    refine gives_firstBinary_cons (gives_foldShift hs hx .ushr) fun _ => ?_
    refine gives_firstBinary_cons (gives_shiftByNothing hs hx) fun _ => ?_
    refine gives_firstBinary_cons (gives_mergeUnsigned hg hs hx) fun _ => ?_
    exact gives_firstBinary_cons (gives_reduceAmount hs hx .ushr) fun _ => gives_firstBinary_nil

/-! Divisions that trap. -/

theorem gives_onDivisor {P : Term → Prop} {rule : Graph Label → Stamp → NodeId → Word → Reduction}
    (h : ∀ c, Gives P (rule g s x c)) : Gives P (onDivisor rule g s x y) := by
  unfold onDivisor
  split
  · exact h _
  · exact gives_pass

theorem gives_foldSigned (hs : (ValueType.integer w).Describes s) (f : Word → Word → Word) :
    Gives (·.Has F g (.integer w)) (foldSigned f g s x y) := by
  unfold foldSigned
  split
  · exact gives_if (fun _ => gives_pass) fun _ => (formed_integer hs _).gives
  · exact gives_pass

theorem gives_foldUnsigned (hs : (ValueType.integer w).Describes s) (f : Word → Word → Word) :
    Gives (·.Has F g (.integer w)) (foldUnsigned f g s x y) := by
  unfold foldUnsigned
  split
  · exact gives_if (fun _ => gives_pass) fun _ => (formed_integer hs _).gives
  · exact gives_pass

theorem gives_remainderByUnit (hs : (ValueType.integer w).Describes s) :
    Gives (·.Has F g (.integer w)) (remainderByUnit g s x y) :=
  gives_onDivisor fun _ => gives_when fun _ => (formed_integer hs 0).gives

theorem gives_quotientByUnit (hx : g.Has F x (.integer w)) :
    Gives (·.Has F g (.integer w)) (quotientByUnit g s x y) :=
  gives_onDivisor fun _ => gives_if (fun _ => gives_node hx) fun _ =>
    gives_when fun _ => (formed_arith1 (by simp) (.node hx)).gives

theorem gives_quotientByPower (hx : g.Has F x (.integer w)) :
    Gives (·.Has F g (.integer w)) (quotientByPower g s x y) := by
  apply gives_onDivisor
  intro c
  have hquotient {r : Term} (hr : r.Has F g (.integer w)) (n : Int) : Formed F g (.integer w)
      (Term.shift g .shr r (.ofInt n) >>= fun q =>
        if c.slt 0 = true then Term.arith1 g .neg q else pure q) :=
    (formed_shift .shr hr (has_ofInt n)).bind fun _ hq => formed_signed hq c
  split
  · refine gives_when fun _ => Formed.gives ?_
    dsimp only
    split
    · refine (formed_shift .shr (.node hx) (has_ofInt _)).bind fun _ hsign => ?_
      refine (formed_shift .ushr hsign (has_ofInt _)).bind fun _ hround => ?_
      exact (formed_arith admits_add (.node hx) hround).bind fun _ hr => hquotient hr _
    · exact hquotient (.node hx) _
  · exact gives_pass

theorem gives_remainderByPower (hs : (ValueType.integer w).Describes s)
    (hx : g.Has F x (.integer w)) : Gives (·.Has F g (.integer w)) (remainderByPower g s x y) := by
  apply gives_onDivisor
  intro c
  split
  · refine gives_when fun _ => ?_
    exact ((formed_integer hs _).bind fun _ hr => formed_arith admits_and (.node hx) hr).gives
  · exact gives_pass

theorem gives_unsignedQuotientByPower (hx : g.Has F x (.integer w)) :
    Gives (·.Has F g (.integer w)) (unsignedQuotientByPower g s x y) :=
  gives_onDivisor fun _ => gives_if (fun _ => gives_node hx) fun _ =>
    gives_when fun _ => (formed_shift .ushr (.node hx) (has_ofInt _)).gives

theorem gives_unsignedRemainderByPower (hs : (ValueType.integer w).Describes s)
    (hx : g.Has F x (.integer w)) :
    Gives (·.Has F g (.integer w)) (unsignedRemainderByPower g s x y) := by
  apply gives_onDivisor
  intro c
  refine gives_if (fun _ => (formed_integer hs 0).gives) fun _ =>
    gives_when fun _ => ?_
  exact ((formed_integer hs _).bind fun _ hr => formed_arith admits_and (.node hx) hr).gives

theorem gives_quotientOfMultiple (hg : g.TypeChecks F) (hx : g.Has F x (.integer w))
    (hy : g.Has F y (.integer w)) :
    Gives (·.Has F g (.integer w)) (quotientOfMultiple g s x y) := by
  unfold quotientOfMultiple
  split
  · rename_i a r h
    have ha := (hg.arith (Graph.shape?_of_binary? h) hx).2.1
    split
    · exact gives_when fun _ => (formed_divide .quotient (.node ha) (.node hy)).gives
    · exact gives_pass
  · exact gives_pass

theorem gives_quotientRepeated (hg : g.TypeChecks F) (hx : g.Has F x (.integer w))
    (next : Option NodeId) : Gives (·.Has F g (.integer w)) (quotientRepeated next g s x y) := by
  unfold quotientRepeated
  split
  · rename_i n
    refine gives_when fun h => ?_
    simp only [Bool.and_eq_true, beq_iff_eq] at h
    have hshape := Graph.shape?_of_binary? h.1.2
    obtain ⟨τ, hn⟩ := hg.exists_type (Graph.op?_of_shape? hshape).1
    obtain ⟨v, rfl, hxv, _⟩ := hg.divide hshape hn
    obtain rfl := hxv.width_eq hx
    exact gives_node hn
  · exact gives_pass

theorem gives_divide (hg : g.TypeChecks F) (hs : (ValueType.integer w).Describes s)
    (hx : g.Has F x (.integer w)) (hy : g.Has F y (.integer w)) (next : Option NodeId)
    (d : Division) : Gives (·.Has F g (.integer w)) (divide next d g s x y) := by
  cases d with
  | quotient =>
    refine gives_firstBinary_cons (gives_foldSigned hs _) fun _ => ?_
    refine gives_firstBinary_cons (gives_quotientByUnit hx) fun _ => ?_
    refine gives_firstBinary_cons (gives_quotientByPower hx) fun _ => ?_
    refine gives_firstBinary_cons (gives_quotientOfMultiple hg hx hy) fun _ => ?_
    exact gives_firstBinary_cons (gives_quotientRepeated hg hx next) fun _ => gives_firstBinary_nil
  | remainder =>
    refine gives_firstBinary_cons (gives_foldSigned hs _) fun _ => ?_
    refine gives_firstBinary_cons (gives_remainderByUnit hs) fun _ => ?_
    exact gives_firstBinary_cons (gives_remainderByPower hs hx) fun _ => gives_firstBinary_nil
  | unsignedQuotient =>
    refine gives_firstBinary_cons (gives_foldUnsigned hs _) fun _ => ?_
    exact gives_firstBinary_cons (gives_unsignedQuotientByPower hx) fun _ => gives_firstBinary_nil
  | unsignedRemainder =>
    refine gives_firstBinary_cons (gives_foldUnsigned hs _) fun _ => ?_
    exact gives_firstBinary_cons (gives_unsignedRemainderByPower hs hx) fun _ => gives_firstBinary_nil

/-! Changes of width. -/

section Resize

variable {m n : Nat}

theorem exists_resizeOnConstant (op : ResizeOp) (m : Nat) {n : Nat} (hn : n = w.bits) (k : Kind)
    (a : Word) : ∃ c, op.onConstant m n (.primitive k a) = .ok (.primitive w.kind c) := by
  subst hn
  exact ⟨_, op.onConstant_eq m w.ofBits?_bits k a⟩

theorem gives_resizeToSame (hm : m = v.bits) (hn : n = w.bits) (hx : g.Has F x (.integer v)) :
    Gives (·.Has F g (.integer w)) (resizeToSame m n g s x) := by
  refine gives_when fun h => ?_
  obtain rfl := IntWidth.eq_of_bits ((hm.symm.trans h).trans hn)
  exact gives_node hx

theorem gives_foldResize (hs : (ValueType.integer w).Describes s) (hn : n = w.bits)
    (hx : g.Has F x (.integer v)) (op : ResizeOp) :
    Gives (·.Has F g (.integer w)) (foldResize op m n g s x) := by
  unfold foldResize
  split
  · rename_i c hc
    obtain ⟨c, rfl⟩ := hx.constant hc
    obtain ⟨d, hd⟩ := exists_resizeOnConstant op m hn v.kind c
    rw [hd]
    exact (formed_primitive hs d).gives
  · exact gives_pass

theorem gives_signExtendPositive (hm : m = v.bits) (hn : n = w.bits) (hx : g.Has F x (.integer v)) :
    Gives (·.Has F g (.integer w)) (signExtendPositive m n g s x) := by
  unfold signExtendPositive
  split
  · exact gives_when fun _ => (formed_resize .zeroExtend hm hn (.node hx)).gives
  · exact gives_pass

theorem gives_resizeTwice (hg : g.TypeChecks F) (hn : n = w.bits) (hx : g.Has F x (.integer v))
    (op : ResizeOp) : Gives (·.Has F g (.integer w)) (resizeTwice op n g s x) := by
  unfold resizeTwice
  split
  · rename_i hshape
    obtain ⟨u, hinner, _, hv⟩ := hg.resize hshape hx
    exact gives_when fun _ => (formed_resize op hinner hn (.node hv)).gives
  · exact gives_pass

theorem gives_narrowExtended (hg : g.TypeChecks F) (hn : n = w.bits) (hx : g.Has F x (.integer v)) :
    Gives (·.Has F g (.integer w)) (narrowExtended n g s x) := by
  unfold narrowExtended
  split
  · rename_i op inner _ a hshape
    obtain ⟨u, hinner, _, ha⟩ := hg.resize hshape hx
    refine gives_if (fun _ => gives_pass) fun _ => gives_if (fun h => ?_) fun _ =>
      gives_if (fun _ => (formed_resize .narrow hinner hn (.node ha)).gives)
        fun _ => (formed_resize op hinner hn (.node ha)).gives
    obtain rfl := IntWidth.eq_of_bits ((hinner.symm.trans h.symm).trans hn)
    exact gives_node ha
  · exact gives_pass

theorem gives_signExtendZeroExtended (hg : g.TypeChecks F) (hn : n = w.bits)
    (hx : g.Has F x (.integer v)) :
    Gives (·.Has F g (.integer w)) (signExtendZeroExtended n g s x) := by
  unfold signExtendZeroExtended
  split
  · rename_i hshape
    obtain ⟨u, hinner, _, ha⟩ := hg.resize hshape hx
    exact gives_when fun _ => (formed_resize .zeroExtend hinner hn (.node ha)).gives
  · exact gives_pass

theorem gives_zeroExtendNarrowed (hg : g.TypeChecks F) (hs : (ValueType.integer w).Describes s)
    (hx : g.Has F x (.integer v)) : Gives (·.Has F g (.integer w)) (zeroExtendNarrowed g s x) := by
  unfold zeroExtendNarrowed
  split
  · rename_i a hshape
    obtain ⟨u, _, _, ha⟩ := hg.resize hshape hx
    split
    · refine gives_when fun h => ?_
      obtain ⟨t, ht, hbits⟩ := ha.exists_int
      obtain ⟨t', rfl, hbits'⟩ := hs
      rw [Bool.and_eq_true, ht] at h
      have hsame : t.bits = t'.bits := of_decide_eq_true h.1
      obtain rfl := IntWidth.eq_of_bits ((hbits.symm.trans hsame).trans hbits')
      exact gives_node ha
    · exact gives_pass
  · exact gives_pass

theorem gives_resize (hg : g.TypeChecks F) (hs : (ValueType.integer w).Describes s)
    (hm : m = v.bits) (hn : n = w.bits) (hx : g.Has F x (.integer v)) (op : ResizeOp) :
    Gives (·.Has F g (.integer w)) (resize op m n g s x) := by
  refine gives_firstUnary_cons (gives_resizeToSame hm hn hx) ?_
  refine gives_firstUnary_cons (gives_foldResize hs hn hx op) ?_
  refine gives_firstUnary_cons (gives_resizeTwice hg hn hx op) ?_
  cases op with
  | narrow => exact gives_firstUnary_cons (gives_narrowExtended hg hn hx) gives_firstUnary_nil
  | signExtend =>
    refine gives_firstUnary_cons (gives_signExtendZeroExtended hg hn hx) ?_
    exact gives_firstUnary_cons (gives_signExtendPositive hm hn hx) gives_firstUnary_nil
  | zeroExtend => exact gives_firstUnary_cons (gives_zeroExtendNarrowed hg hs hx) gives_firstUnary_nil

end Resize

end CompilerKit.Canonical.Answers
