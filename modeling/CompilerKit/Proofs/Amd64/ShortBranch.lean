import CompilerKit.Proofs.Amd64.Jump

/-! # Branches that are forced to be short

A program is a sequence of branches to labels, labels that are bound and other code. The branches that it
has written so far are its sites. Each step keeps what is known about them (`Sound`): a site whose label is
bound holds a branch to its position, and one whose label is not bound waits for it. Binding a label
overwrites the displacements of the sites that wait and nothing else.

A program may force its branches to labels into the short form. The distance to a label that is bound later
is checked when it gets bound. The distance to a label that is bound already is for the program to know:
each instruction states the condition that it relies on. For the branch on a flag that is the range
of the displacement. For the branch without one the condition counts from the wrong end of the instruction,
and four distances that it admits wrap around.
-/

namespace CompilerKit.Amd64

open Assembler

/-! States. -/

namespace Site

def waitingFor (l : Nat) (sites : List Site) : List Site :=
  sites.filter fun s => s.isForward && s.label = l

theorem mem_waitingFor {l : Nat} {sites : List Site} {s : Site} :
    s ∈ waitingFor l sites ↔ s ∈ sites ∧ s.isForward ∧ s.label = l := by
  simp [waitingFor]

end Site

/-- The state after code has been written. -/
def written (a : Assembly) (chunks : Chunks) : Assembly :=
  { a with
    code := a.code ++ chunks.bytes
    capacity := Assembly.grownBy a.capacity a.code.length chunks }

/-- The labels when the next branch is to wait for one of them. -/
def awaiting (a : Assembly) (l : Nat) : Nat → CodeLabel := fun k =>
  if k = l then { a.labels l with sites := (a.labels l).sites ++ [a.code.length] } else a.labels k

theorem position?_awaiting (a : Assembly) (l k : Nat) :
    (awaiting a l k).position? = (a.labels k).position? := by
  rw [awaiting]
  split
  case isTrue hk => rw [hk]
  case isFalse => rfl

theorem sites_awaiting {a : Assembly} {s : Site} (hs : s.position = a.code.length)
    (hforward : s.isForward) (k : Nat) : (awaiting a s.label k).sites =
      (a.labels k).sites ++ (Site.waitingFor k [s]).map Site.position := by
  rw [awaiting]
  split
  case isTrue hk => simp [Site.waitingFor, hforward, hk, hs]
  case isFalse hk => simp [Site.waitingFor, Ne.symm hk]

/-- The state when a label has got its position, before any branch is patched. -/
def placed (a : Assembly) (l : Nat) : Assembly :=
  { a with
    labels := fun k => if k = l then { a.labels l with position? := some a.code.length } else a.labels k }

theorem sites_placed (a : Assembly) (l k : Nat) :
    ((placed a l).labels k).sites = (a.labels k).sites := by
  by_cases hk : k = l
  · subst hk
    simp [placed]
  · simp [placed, hk]

theorem position?_placed (a : Assembly) (l k : Nat) :
    ((placed a l).labels k).position? = if k = l then some a.code.length else (a.labels k).position? := by
  by_cases hk : k = l
  · simp [placed, hk]
  · simp [placed, hk]

/-! Programs that force short branches. -/

def Branch.asserted (position target : Int) : Branch → Bool
  | always => fitsByte (target - position + 2)
  | onFlag _ => fitsByte (target - (position + 2))

def Branch.site (b : Branch) (l : Nat) (a : Assembly) : Site :=
  match (a.labels l).position? with
  | some t => ⟨a.code.length, b, l, (b.between a.code.length t false).bytes.length, false, false⟩
  | none => ⟨a.code.length, b, l, b.longSize, true, false⟩

theorem Branch.site_eq (b : Branch) (l : Nat) (a : Assembly) :
    (b.site l a).branch = b ∧ (b.site l a).label = l ∧ (b.site l a).position = a.code.length := by
  rw [site]
  split <;> exact ⟨rfl, rfl, rfl⟩

def Branch.shortSite (b : Branch) (l : Nat) (a : Assembly) : Site :=
  ⟨a.code.length, b, l, 2, (a.labels l).position?.isNone, true⟩

namespace Forced

/-- A step of a program: a branch to a label is left to take the form that is known to reach it, or forced
to be short. Other code may depend on all that has been assembled. -/
inductive Step where
  | emit (code : Assembly → Chunks)
  | branch (b : Branch) (l : Nat)
  | short (b : Branch) (l : Nat)
  | bind (l : Nat)

namespace Step

def run : Step → Assembler Unit
  | emit code => do Assembler.emit (code (← get))
  | branch b l => b.toLabel l
  | short b l => b.toLabelShort l
  | bind l => bindLabel l

def binds (l : Nat) : Step → Bool
  | bind k => k = l
  | _ => false

def uses (l : Nat) : Step → Bool
  | branch _ k | short _ k => k = l
  | _ => false

def site? (a : Assembly) : Step → Option Site
  | branch b l => some (b.site l a)
  | short b l => some (b.shortSite l a)
  | _ => none

theorem of_site? {a : Assembly} {x : Step} {s : Site} (h : x.site? a = some s) :
    s.position = a.code.length ∧
      (x = .branch s.branch s.label ∧ s.isForced = false ∧ (s.isForward → s.size = s.branch.longSize) ∨
        x = .short s.branch s.label ∧ s.size = 2) := by
  cases x with
  | branch b l =>
    obtain rfl := Option.some.inj h
    rw [Branch.site]
    split
    · exact ⟨rfl, Or.inl ⟨rfl, rfl, nofun⟩⟩
    · exact ⟨rfl, Or.inl ⟨rfl, rfl, fun _ => rfl⟩⟩
  | short b l =>
    obtain rfl := Option.some.inj h
    exact ⟨rfl, Or.inr ⟨rfl, rfl⟩⟩
  | emit code => cases h
  | bind l => cases h

theorem uses_of_site? {a : Assembly} {x : Step} {s : Site} (h : x.site? a = some s) : x.uses s.label := by
  obtain ⟨-, ⟨rfl, -⟩ | ⟨rfl, -⟩⟩ := of_site? h <;> simp [uses]

theorem grows_patch (position target : Int) : Grows (patch position target) := by
  refine (grows_read _ _).bind fun opcode => ?_
  split
  · exact (grows_read _ _).bind fun _ => grows_overwriteOr _ _ _
  split
  · dsimp only
    split
    · exact grows_overwriteOr _ _ _
    · exact (grows_throw _).bind fun _ => grows_overwriteOr _ _ _
  · exact grows_overwriteOr _ _ _

theorem grows_await (l : Nat) (chunks : Chunks) : Grows (do await l; Assembler.emit chunks) := by
  refine Grows.bind ?_ fun _ => grows_emit _
  exact (grows_label l).bind fun _ => grows_position.bind fun p => grows_setLabel _ _

theorem grows_run (s : Step) : Grows s.run := by
  cases s with
  | emit code => exact grows_get.bind fun a => grows_emit _
  | branch b l =>
    refine (grows_label l).bind fun known => ?_
    split
    · exact grows_position.bind fun p => grows_emit _
    · exact grows_await l _
  | short b l =>
    refine (grows_label l).bind fun known => ?_
    split
    · exact grows_position.bind fun p => grows_emit _
    · exact grows_await l _
  | bind l =>
    refine (grows_label l).bind fun known => grows_position.bind fun target =>
      (grows_setLabel _ _).bind fun _ => Grows.forM (fun site => ?_) _
    exact grows_patch _ _

end Step

/-- A branch without a flag test over one of the distances that its condition wrongly admits. -/
def Overshoots (s : Site) (target : Nat) : Prop :=
  s.isForced ∧ s.branch = .always ∧ target + 127 ≤ s.position ∧ s.position ≤ target + 130

/-- The site holds its branch. If its label is bound then the displacement is meant to lead there, and it
does, but for the distances that are wrongly admitted. -/
def Held (s : Site) (a : Assembly) : Prop :=
  ∃ d, a.code.Holds s.position (s.code d) ∧
    ∀ t, (a.labels s.label).position? = some t → d = s.distance t ∧ (s.fits t ∨ Overshoots s t)

/-- An assembly agrees with the branches that have been written. -/
structure Sound (a : Assembly) (sites : List Site) : Prop where
  room : HasRoom a
  waiting : ∀ l, (a.labels l).sites = (Site.waitingFor l sites).map Site.position
  apart : sites.Pairwise Site.Apart
  formed : ∀ s ∈ sites, s.Formed
  within : ∀ s ∈ sites, s.position + s.size ≤ a.code.length
  bounds : ∀ l t, (a.labels l).position? = some t → t ≤ a.code.length
  backward : ∀ s ∈ sites, s.isForward = false → (a.labels s.label).position? ≠ none
  held : ∀ s ∈ sites, Held s a

theorem sound_empty : Sound {} [] where
  room := show 0 < 232 by decide
  waiting _ := rfl
  apart := List.Pairwise.nil
  formed := by simp
  within := by simp
  bounds := by simp
  backward := by simp
  held := by simp

namespace Sound

variable {a : Assembly} {sites : List Site}

theorem emit (h : Sound a sites) (chunks : Chunks) : Sound (written a chunks) sites where
  room := by
    rw [HasRoom, written, List.length_append]
    exact lt_grownBy chunks h.room
  waiting := h.waiting
  apart := h.apart
  formed := h.formed
  within s hs := by
    rw [written, List.length_append]
    exact (h.within s hs).trans (Nat.le_add_right _ _)
  bounds l t ht := by
    rw [written, List.length_append]
    exact (h.bounds l t ht).trans (Nat.le_add_right _ _)
  backward := h.backward
  held s hs := by
    obtain ⟨d, hholds, hreaches⟩ := h.held s hs
    exact ⟨d, hholds.append_right _, hreaches⟩

theorem push (h : Sound a sites) {chunks : Chunks} {labels : Nat → CodeLabel} {s : Site}
    (hposition : ∀ l, (labels l).position? = (a.labels l).position?)
    (hwaiting : ∀ l, (labels l).sites = (a.labels l).sites ++ (Site.waitingFor l [s]).map Site.position)
    (hformed : s.Formed) (hbackward : s.isForward = false → (a.labels s.label).position? ≠ none)
    (hlength : chunks.bytes.length = s.size) (hheld : Held s { written a chunks with labels })
    (hs : s.position = a.code.length) : Sound { written a chunks with labels } (sites ++ [s]) := by
  have hemit := h.emit chunks
  refine ⟨hemit.room, ?_, ?_, ?_, ?_, ?_, ?_, ?_⟩
  · intro l
    rw [hwaiting, h.waiting, Site.waitingFor, Site.waitingFor, Site.waitingFor, List.filter_append,
      List.map_append]
  · rw [List.pairwise_append]
    refine ⟨h.apart, List.pairwise_singleton _ _, fun t ht u hu => ?_⟩
    obtain rfl := List.mem_singleton.mp hu
    exact Or.inl ((h.within t ht).trans hs.ge)
  · exact List.forall_mem_append.mpr ⟨h.formed, List.forall_mem_singleton.mpr hformed⟩
  · refine List.forall_mem_append.mpr ⟨hemit.within, List.forall_mem_singleton.mpr ?_⟩
    rw [written, List.length_append, hs, ← hlength]
  · intro l t ht
    exact hemit.bounds l t ((hposition l).symm.trans ht)
  · simp only [hposition]
    exact List.forall_mem_append.mpr ⟨h.backward, List.forall_mem_singleton.mpr hbackward⟩
  · refine List.forall_mem_append.mpr ⟨fun t ht => ?_, List.forall_mem_singleton.mpr hheld⟩
    obtain ⟨d, hholds, hreaches⟩ := hemit.held t ht
    exact ⟨d, hholds, fun u hu => hreaches u ((hposition _).symm.trans hu)⟩

theorem known (h : Sound a sites) {chunks : Chunks} {s : Site} {t : Nat} (hs : s.position = a.code.length)
    (hbackward : s.isForward = false) (ht : (a.labels s.label).position? = some t) (hformed : s.Formed)
    (hbytes : chunks.bytes = s.code (s.distance t)) (hfits : s.fits t ∨ Overshoots s t) :
    Sound (written a chunks) (sites ++ [s]) := by
  have hlength : chunks.bytes.length = s.size := by rw [hbytes, hformed.length_code]
  refine h.push (fun _ => rfl) (fun l => ?_) hformed ?_ hlength ⟨s.distance t, ?_, ?_⟩ hs
  · simp [Site.waitingFor, hbackward]
  · simp [ht]
  · rw [← hbytes, hs]
    exact Code.holds_append _ _
  · intro u hu
    obtain rfl : t = u := Option.some.inj (ht.symm.trans hu)
    exact ⟨rfl, hfits⟩

theorem wait (h : Sound a sites) {chunks : Chunks} {s : Site} (hs : s.position = a.code.length)
    (hforward : s.isForward) (hl : (a.labels s.label).position? = none) (hformed : s.Formed)
    (hbytes : chunks.bytes = s.code 0) :
    Sound { written a chunks with labels := awaiting a s.label } (sites ++ [s]) := by
  have hposition := position?_awaiting a s.label
  have hlength : chunks.bytes.length = s.size := by rw [hbytes, hformed.length_code]
  refine h.push hposition (sites_awaiting hs hforward) hformed ?_ hlength ⟨0, ?_, ?_⟩ hs
  · simp [hforward]
  · rw [← hbytes, hs]
    exact Code.holds_append _ _
  · intro u hu
    rw [hposition, hl] at hu
    cases hu

theorem formed_between {s : Site} {t : Nat}
    (hsize : s.size = (s.branch.between s.position t false).bytes.length)
    (hend : s.position + s.size < 2 ^ 31) (ht : t < 2 ^ 31) :
    s.Formed ∧ (s.branch.between s.position t false).bytes = s.code (s.distance t) ∧ s.fits t := by
  have hdistance : (BitVec.ofInt 32 ((t : Int) - s.position)).toInt = t - s.position := by
    rw [BitVec.toInt_ofInt, Word.bmod_of_range (by decide) (by omega) (by omega)]
  simp only [Branch.between, hdistance, Bool.not_false, Bool.true_and] at hsize ⊢
  split at hsize
  case isTrue hshort =>
    rw [Branch.length_short] at hsize
    have htarget : s.distance t = t - s.position - 2 := by
      rw [Site.distance, hsize, Nat.cast_add, sub_sub]
      rfl
    rw [if_pos hshort]
    refine ⟨Or.inl hsize, ?_, ?_⟩
    · rw [Site.code, if_pos hsize, htarget]
    · rw [Site.fits, htarget, hshort, Bool.or_true]
  case isFalse hlong =>
    rw [Branch.length_long] at hsize
    have hne : s.size ≠ 2 := by
      rw [hsize]
      exact s.branch.two_lt_longSize.ne'
    rw [if_neg hlong]
    refine ⟨Or.inr hsize, ?_, by simp [Site.fits, hne]⟩
    rw [Site.code, if_neg hne, Site.distance, hsize, Nat.cast_add, sub_sub]

theorem run_branch_known (b : Branch) {l t : Nat} (h : (a.labels l).position? = some t) :
    (b.toLabel l).run.run a = (.ok (), written a (b.between a.code.length t false)) := by
  have hlabel : (label l).run.run a = (.ok (a.labels l), a) := rfl
  rw [Branch.toLabel, run_bind_of_ok hlabel, h]
  rfl

theorem run_branch_waiting (b : Branch) {l : Nat} (h : (a.labels l).position? = none) :
    (b.toLabel l).run.run a = (.ok (), { written a (b.long 0) with labels := awaiting a l }) := by
  have hlabel : (label l).run.run a = (.ok (a.labels l), a) := rfl
  rw [Branch.toLabel, run_bind_of_ok hlabel, h]
  rfl

/-- A branch to a label is written: in a form that reaches the label if it is bound, else in the long form
to be patched later. -/
theorem branch (h : Sound a sites) (b : Branch) (l : Nat)
    (hlength : ((b.toLabel l).run.run a).2.code.length < 2 ^ 31) :
    ∃ c, (b.toLabel l).run.run a = (.ok (), c) ∧ Sound c (sites ++ [b.site l a]) ∧
      ∀ k, (c.labels k).position? = (a.labels k).position? := by
  rw [Branch.site]
  cases hl : (a.labels l).position? with
  | some t =>
    have hrun := run_branch_known b hl
    rw [hrun, written, List.length_append] at hlength
    have ht := h.bounds l t hl
    obtain ⟨hformed, hbytes, hfits⟩ := formed_between (t := t)
      (s := ⟨a.code.length, b, l, (b.between a.code.length t false).bytes.length, false, false⟩) rfl
      hlength (by omega)
    exact ⟨_, hrun, h.known rfl rfl hl hformed hbytes (Or.inl hfits), fun _ => rfl⟩
  | none =>
    refine ⟨_, run_branch_waiting b hl, ?_, position?_awaiting a l⟩
    refine h.wait (s := ⟨a.code.length, b, l, b.longSize, true, false⟩) rfl rfl hl (Or.inr rfl) ?_
    rw [Site.code, if_neg b.two_lt_longSize.ne']

/-- What a short branch relies on keeps it in range, or leaves it where the wrong condition admits it. -/
theorem fits_or_overshoots {s : Site} {t : Nat} (hsize : s.size = 2) (hforced : s.isForced)
    (ht : t ≤ s.position) (h : s.branch.asserted s.position t) : s.fits t ∨ Overshoots s t := by
  have hfits : s.fits t ↔ (s.position : Int) ≤ t + 126 := by
    simp only [Site.fits, Site.distance, hsize, fitsByte, ne_eq, not_true, decide_false, Bool.false_or,
      Bool.and_eq_true, decide_eq_true_eq]
    omega
  rw [hfits, Overshoots]
  cases hb : s.branch with
  | always =>
    rw [hb, Branch.asserted, fitsByte, Bool.and_eq_true, decide_eq_true_eq, decide_eq_true_eq] at h
    rcases Nat.lt_or_ge s.position (t + 127) with hnear | hfar
    · exact Or.inl (by omega)
    · exact Or.inr ⟨hforced, rfl, hfar, by omega⟩
  | onFlag c =>
    rw [hb, Branch.asserted, fitsByte, Bool.and_eq_true, decide_eq_true_eq, decide_eq_true_eq] at h
    exact Or.inl (by omega)

theorem short (h : Sound a sites) (b : Branch) (l : Nat)
    (hassert : ∀ t, (a.labels l).position? = some t → b.asserted a.code.length t) :
    ∃ c, (b.toLabelShort l).run.run a = (.ok (), c) ∧ Sound c (sites ++ [b.shortSite l a]) ∧
      ∀ k, (c.labels k).position? = (a.labels k).position? := by
  have hlabel : (label l).run.run a = (.ok (a.labels l), a) := rfl
  rw [Branch.shortSite]
  cases hl : (a.labels l).position? with
  | some t =>
    refine ⟨written a (b.short (t - a.code.length - 2)), ?_, ?_, fun _ => rfl⟩
    · rw [Branch.toLabelShort, run_bind_of_ok hlabel, hl]
      rfl
    · refine h.known rfl rfl hl (Or.inl rfl) ?_
        (fits_or_overshoots rfl rfl (h.bounds l t hl) (hassert t hl))
      rw [Site.code, if_pos rfl, Site.distance, Nat.cast_add, sub_sub]
      rfl
  | none =>
    refine ⟨{ written a (b.short 0) with labels := awaiting a l }, ?_, ?_, position?_awaiting a l⟩
    · rw [Branch.toLabelShort, run_bind_of_ok hlabel, hl]
      rfl
    · exact h.wait (s := ⟨a.code.length, b, l, 2, true, true⟩) rfl rfl hl (Or.inl rfl) rfl

section Bind

variable {b : Assembly} {l : Nat}
  (hb : Redirected (Site.waitingFor l sites) a.code.length (placed a l) b)

include hb

theorem position?_of_redirected (k : Nat) :
    (b.labels k).position? = if k = l then some a.code.length else (a.labels k).position? := by
  rw [hb.labels, position?_placed]

variable (hunbound : ∀ s ∈ sites, s.label = l → (a.labels l).position? = none)
  (hfits : ∀ s ∈ Site.waitingFor l sites, s.fits a.code.length)

include hunbound hfits

theorem held_of_redirected (h : Sound a sites) {s : Site} (hs : s ∈ sites) : Held s b := by
  by_cases hl : s.label = l
  · have hforward : s.isForward := by
      by_contra hnot
      exact h.backward s hs (Bool.eq_false_iff.mpr hnot) (hl ▸ hunbound s hs hl)
    have hwaits : s ∈ Site.waitingFor l sites := Site.mem_waitingFor.mpr ⟨hs, hforward, hl⟩
    refine ⟨_, hb.held s hwaits, fun t ht => ?_⟩
    rw [position?_of_redirected hb, if_pos hl] at ht
    obtain rfl := Option.some.inj ht
    exact ⟨rfl, Or.inl (hfits s hwaits)⟩
  · obtain ⟨d, hholds, hreaches⟩ := h.held s hs
    refine ⟨d, ?_, fun t ht => ?_⟩
    · refine hb.holds_of_apart (fun u hu => ?_) ((h.formed s hs).length_code d) hholds
      obtain ⟨hu, -, hlabel⟩ := Site.mem_waitingFor.mp hu
      exact h.apart.forall hu hs fun heq => hl (heq ▸ hlabel)
    · rw [position?_of_redirected hb, if_neg hl] at ht
      exact hreaches t ht

theorem of_redirected (h : Sound a sites) : Sound b sites := by
  have hcode : b.code.length = a.code.length := hb.length
  refine ⟨hb.hasRoom h.room, ?_, h.apart, h.formed, ?_, ?_, ?_,
    fun s hs => h.held_of_redirected hb hunbound hfits hs⟩
  · intro k
    rw [hb.labels, sites_placed, h.waiting]
  · intro s hs
    rw [hcode]
    exact h.within s hs
  · intro k t ht
    rw [position?_of_redirected hb] at ht
    rw [hcode]
    split at ht
    · exact (Option.some.inj ht).ge
    · exact h.bounds k t ht
  · intro s hs hforward
    rw [position?_of_redirected hb]
    split
    · exact Option.some_ne_none _
    · exact h.backward s hs hforward

end Bind

theorem bind (h : Sound a sites) (hlength : a.code.length < 2 ^ 31) (l : Nat)
    (hunbound : ∀ s ∈ sites, s.label = l → (a.labels l).position? = none) :
    (∃ b, (bindLabel l).run.run a = (.ok (), b) ∧ Sound b sites ∧
      Redirected (Site.waitingFor l sites) a.code.length (placed a l) b) ∨
    ∃ s ∈ Site.waitingFor l sites, ¬s.fits a.code.length ∧
      ((bindLabel l).run.run a).1 = .error (.branchTooFar (s.distance a.code.length)) := by
  have hwaits {s : Site} (hs : s ∈ Site.waitingFor l sites) : s ∈ sites := (Site.mem_waitingFor.mp hs).1
  have hheld (s : Site) (hs : s ∈ Site.waitingFor l sites) :
      ∃ d, (placed a l).code.Holds s.position (s.code d) := by
    obtain ⟨d, hholds, -⟩ := h.held s (hwaits hs)
    exact ⟨d, hholds⟩
  have hapart : (Site.waitingFor l sites).Pairwise Site.Apart := h.apart.filter _
  have hall := allRedirected_or_tooFar (a := placed a l) h.room hlength hlength hapart
    (fun s hs => h.formed s (hwaits hs)) hheld
  rw [← h.waiting] at hall
  rcases hall with ⟨hfits, b, hrun, hb⟩ | hfar
  · exact Or.inl ⟨b, hrun, h.of_redirected hb hunbound hfits, hb⟩
  · exact Or.inr hfar

theorem step (h : Sound a sites) (s : Step) (hlength : (s.run.run.run a).2.code.length < 2 ^ 31)
    (hunbound : ∀ l, s.binds l → ∀ t ∈ sites, t.label = l → (a.labels l).position? = none)
    (hassert : ∀ b l t, s = .short b l → (a.labels l).position? = some t → b.asserted a.code.length t) :
    (∃ c, s.run.run.run a = (.ok (), c) ∧ Sound c (sites ++ (s.site? a).toList) ∧
      ∀ l, (c.labels l).position? = if s.binds l then some a.code.length else (a.labels l).position?) ∨
    ∃ l, s = .bind l ∧ ∃ t ∈ Site.waitingFor l sites, ¬t.fits a.code.length ∧
      (s.run.run.run a).1 = .error (.branchTooFar (t.distance a.code.length)) := by
  cases s with
  | emit code =>
    refine Or.inl ⟨written a (code a), rfl, ?_, fun _ => rfl⟩
    simpa [Step.site?] using h.emit (code a)
  | branch b l => exact Or.inl (h.branch b l hlength)
  | short b l => exact Or.inl (h.short b l fun t => hassert b l t rfl)
  | bind l =>
    have hle : a.code.length ≤ _ := Step.grows_run (.bind l) a
    rcases h.bind (hle.trans_lt hlength) l (hunbound l (by simp [Step.binds])) with
      ⟨c, hrun, hc, hb⟩ | hfar
    · refine Or.inl ⟨c, hrun, by simpa [Step.site?] using hc, fun k => ?_⟩
      rw [position?_of_redirected hb]
      simp [Step.binds, eq_comm]
    · exact Or.inr ⟨l, rfl, hfar⟩

end Sound

def runAll (p : List Step) : Except Fault Unit × Assembly := (p.forM Step.run).run.run {}

/-- What a program has assembled when it ends or stops. -/
def assembled (p : List Step) : Assembly := (runAll p).2

section Run

variable {p q : List Step} {s : Step} {a : Assembly}

theorem forM_append_run (p q : List Step) :
    (p ++ q).forM Step.run = p.forM Step.run >>= fun _ => q.forM Step.run :=
  List.forM_append

theorem runAll_append_of_error {e : Fault} (h : runAll p = (.error e, a)) (q : List Step) :
    runAll (p ++ q) = (.error e, a) := by
  rw [runAll] at h
  rw [runAll, forM_append_run, run_bind, h]

theorem runAll_snoc (h : runAll p = (.ok (), a)) (s : Step) : runAll (p ++ [s]) = s.run.run.run a := by
  have hlast : [s].forM Step.run = s.run := bind_pure_unit
  rw [runAll, forM_append_run, run_bind_of_ok h, hlast]

theorem length_le_assembled (p q : List Step) :
    (assembled p).code.length ≤ (assembled (p ++ q)).code.length := by
  rw [assembled, assembled, runAll, runAll, forM_append_run]
  exact Grows.le_bind (fun _ => Grows.forM Step.grows_run q) _ _

end Run

theorem split_snoc {p pre post : List Step} {s x : Step} (h : p ++ [s] = pre ++ x :: post) :
    (pre = p ∧ x = s) ∨ ∃ rest, p = pre ++ x :: rest := by
  rcases List.eq_nil_or_concat post with rfl | ⟨rest, y, rfl⟩
  · obtain ⟨hp, hs⟩ := List.append_inj' h rfl
    exact Or.inl ⟨hp.symm, (List.singleton_inj.mp hs).symm⟩
  · have hlast : p ++ [s] = (pre ++ x :: rest) ++ [y] := by
      simpa using h
    exact Or.inr ⟨rest, (List.append_inj' hlast rfl).1⟩

/-- The branches and labels of an assembly are those of the program. -/
structure Traced (p : List Step) (a : Assembly) (sites : List Site) : Prop extends Sound a sites where
  written : ∀ pre x post s, p = pre ++ x :: post → x.site? (assembled pre) = some s → s ∈ sites
  origin : ∀ s ∈ sites, ∃ pre x post, p = pre ++ x :: post ∧ x.site? (assembled pre) = some s
  bound : ∀ l t, (a.labels l).position? = some t →
    ∃ pre post, p = pre ++ Step.bind l :: post ∧ t = (assembled pre).code.length
  unbound : ∀ l, (a.labels l).position? = none → p.countP (Step.binds l) = 0

theorem traced_empty : Traced [] {} [] where
  toSound := sound_empty
  written pre x post s h := by simp at h
  origin := by simp
  bound := by simp
  unbound := by simp

theorem Traced.snoc {p : List Step} {a c : Assembly} {sites : List Site} {s : Step} (h : Traced p a sites)
    (hp : runAll p = (.ok (), a)) (hc : Sound c (sites ++ (s.site? a).toList))
    (hposition : ∀ l, (c.labels l).position? =
      if s.binds l then some a.code.length else (a.labels l).position?) :
    Traced (p ++ [s]) c (sites ++ (s.site? a).toList) where
  toSound := hc
  written pre x post t hsplit hsite := by
    rcases split_snoc hsplit with ⟨rfl, rfl⟩ | ⟨rest, hrest⟩
    · rw [assembled, hp] at hsite
      exact List.mem_append_right _ (Option.mem_toList.mpr hsite)
    · exact List.mem_append_left _ (h.written pre x rest t hrest hsite)
  origin t ht := by
    rcases List.mem_append.mp ht with ht | ht
    · obtain ⟨pre, x, post, rfl, hsite⟩ := h.origin t ht
      exact ⟨pre, x, post ++ [s], by simp, hsite⟩
    · refine ⟨p, s, [], rfl, ?_⟩
      rw [assembled, hp]
      exact Option.mem_toList.mp ht
  bound l t ht := by
    rw [hposition] at ht
    split at ht
    case isTrue hbinds =>
      cases s with
      | bind k =>
        obtain rfl : k = l := by simpa [Step.binds] using hbinds
        exact ⟨p, [], rfl, by rw [assembled, hp, ← Option.some.inj ht]⟩
      | emit code => cases hbinds
      | branch b k => cases hbinds
      | short b k => cases hbinds
    case isFalse =>
      obtain ⟨pre, post, rfl, hbound⟩ := h.bound l t ht
      exact ⟨pre, post ++ [s], by simp, hbound⟩
  unbound l hl := by
    rw [hposition] at hl
    split at hl
    case isTrue => cases hl
    case isFalse hbinds =>
      simp [h.unbound l hl, hbinds]

theorem Traced.position?_eq_none {p : List Step} {a : Assembly} {sites : List Site} {s : Step} {l : Nat}
    (h : Traced p a sites) (honce : (p ++ [s]).countP (Step.binds l) ≤ 1) (hs : s.binds l) :
    (a.labels l).position? = none := by
  cases hl : (a.labels l).position? with
  | none => rfl
  | some t =>
    obtain ⟨pre, post, rfl, -⟩ := h.bound l t hl
    have hbind : (Step.bind l).binds l := decide_eq_true rfl
    simp only [List.countP_append, List.countP_cons, List.countP_nil, hs, hbind, if_true] at honce
    omega

theorem Traced.notBound {p : List Step} {a : Assembly} {sites : List Site} {s : Step} (h : Traced p a sites)
    (honce : ∀ l, (∃ x ∈ p ++ [s], x.uses l) → (p ++ [s]).countP (Step.binds l) ≤ 1) (l : Nat)
    (hs : s.binds l) (t : Site) (ht : t ∈ sites) (hl : t.label = l) : (a.labels l).position? = none := by
  obtain ⟨pre, x, post, rfl, hsite⟩ := h.origin t ht
  exact h.position?_eq_none (honce l ⟨x, by simp, hl ▸ Step.uses_of_site? hsite⟩) hs

/-- The program binds a label that a short branch does not reach, and stops there. -/
def Stops (p : List Step) : Prop :=
  ∃ pre b l mid post, p = pre ++ Step.short b l :: (mid ++ Step.bind l :: post) ∧
    (runAll (pre ++ Step.short b l :: mid)).1 = .ok () ∧
    let distance : Int := (assembled (pre ++ Step.short b l :: mid)).code.length -
      ((assembled pre).code.length + 2)
    ¬fitsByte distance ∧ (runAll p).1 = .error (.branchTooFar distance)

theorem Stops.append {p : List Step} (h : Stops p) (q : List Step) : Stops (p ++ q) := by
  obtain ⟨pre, b, l, mid, post, rfl, hok, hfar, herror⟩ := h
  refine ⟨pre, b, l, mid, post ++ q, by simp, hok, hfar, ?_⟩
  rw [runAll_append_of_error (Prod.ext herror rfl)]

section Program

variable {p : List Step}

/-- The conditions that the short branches of a program rely on hold where they are reached. -/
def Asserted (p : List Step) : Prop :=
  ∀ pre b l post t, p = pre ++ Step.short b l :: post → (runAll pre).1 = .ok () →
    ((assembled pre).labels l).position? = some t → b.asserted (assembled pre).code.length t

theorem traced_or_stops (honce : ∀ l, (∃ s ∈ p, s.uses l) → p.countP (Step.binds l) ≤ 1)
    (hlength : (assembled p).code.length < 2 ^ 31) (hassert : Asserted p) :
    (∃ a sites, runAll p = (.ok (), a) ∧ Traced p a sites) ∨ Stops p := by
  -- Along the program from its front; all three conditions hold of what has been run so far.
  induction p using List.reverseRecOn with
  | nil => exact Or.inl ⟨{}, [], rfl, traced_empty⟩
  | append_singleton p s ih =>
    have honce' (l : Nat) (huses : ∃ t ∈ p, t.uses l) : p.countP (Step.binds l) ≤ 1 := by
      obtain ⟨t, ht, htl⟩ := huses
      have := honce l ⟨t, List.mem_append_left _ ht, htl⟩
      rw [List.countP_append] at this
      omega
    have hassert' : Asserted p := fun pre b l post t hp =>
      hassert pre b l (post ++ [s]) t (by simp [hp])
    rcases ih honce' ((length_le_assembled p [s]).trans_lt hlength) hassert' with ⟨a, sites, hrun, h⟩ | hstops
    · have hsnoc := runAll_snoc hrun s
      have hstate : assembled p = a := congrArg Prod.snd hrun
      have hasserts (b : Branch) (l t : Nat) (hs : s = .short b l) (ht : (a.labels l).position? = some t) :
          b.asserted a.code.length t := by
        have hhere := hassert p b l [] t (by rw [hs]) (by rw [hrun])
        rw [hstate] at hhere
        exact hhere ht
      rw [assembled, hsnoc] at hlength
      rcases h.step s hlength (h.notBound honce) hasserts with
        ⟨c, hstep, hc, hposition⟩ | ⟨l, rfl, t, ht, hfar, herror⟩
      · exact Or.inl ⟨c, _, hsnoc.trans hstep, h.snoc hrun hc hposition⟩
      · obtain ⟨hmem, hforward, rfl⟩ := Site.mem_waitingFor.mp ht
        obtain ⟨hsize, hrange⟩ : t.size = 2 ∧ ¬fitsByte (t.distance a.code.length) := by
          simpa [Site.fits] using hfar
        obtain ⟨pre, x, post, rfl, hsite⟩ := h.origin t hmem
        obtain ⟨hat, ⟨-, -, hlong⟩ | ⟨rfl, -⟩⟩ := Step.of_site? hsite
        · exact absurd hsize (Site.size_ne_two (hlong hforward))
        have hdistance : t.distance a.code.length = a.code.length - ((assembled pre).code.length + 2) := by
          rw [Site.distance, hsize, hat]
          rfl
        rw [hdistance] at hrange herror
        refine Or.inr ⟨pre, t.branch, t.label, post, [], by simp, by rw [hrun], ?_, ?_⟩
        · rw [hstate]
          exact hrange
        · rw [hsnoc, hstate]
          exact herror
    · exact Or.inr (hstops.append [s])

theorem Sound.exists_jump {a : Assembly} {sites : List Site} {s : Site} {t : Nat} (h : Sound a sites)
    (hs : s ∈ sites) (ht : (a.labels s.label).position? = some t) (hlength : a.code.length < 2 ^ 31)
    (hfits : s.fits t) :
    ∃ j, jump? (a.code.drop s.position) = some j ∧ j.test = s.branch.test ∧ j.length = s.size ∧
      s.position + j.length + j.displacement = t := by
  obtain ⟨d, hholds, hmeant⟩ := h.held s hs
  obtain ⟨rfl, -⟩ := hmeant t ht
  obtain ⟨rest, hrest⟩ := hholds.exists_drop
  rw [hrest]
  exact (h.formed s hs).exists_jump hfits ((h.within s hs).trans_lt hlength)
    ((h.bounds _ t ht).trans_lt hlength) rest

theorem Sound.exists_jump_short {a : Assembly} {sites : List Site} {s : Site} {t : Nat} (h : Sound a sites)
    (hs : s ∈ sites) (ht : (a.labels s.label).position? = some t) (hlength : a.code.length < 2 ^ 31)
    (hsize : s.size = 2) :
    ∃ j, jump? (a.code.drop s.position) = some j ∧ j.test = s.branch.test ∧ j.length = 2 ∧
      s.position + j.length + j.displacement =
        if s.branch = .always ∧ t + 127 ≤ s.position then (t : Int) + 256 else t := by
  obtain ⟨d, hholds, hmeant⟩ := h.held s hs
  obtain ⟨rfl, hlands⟩ := hmeant t ht
  have hdistance : s.distance t = t - (s.position + 2) := by
    rw [Site.distance, hsize]
    rfl
  rcases hlands with hfits | ⟨-, hbranch, hlow, hhigh⟩
  · obtain ⟨hl, hu⟩ : -128 ≤ s.distance t ∧ s.distance t ≤ 127 := by
      simpa [Site.fits, hsize, fitsByte] using hfits
    have hnear : ¬(s.branch = .always ∧ t + 127 ≤ s.position) := by omega
    rw [if_neg hnear, ← hsize]
    exact h.exists_jump hs ht hlength hfits
  · obtain ⟨rest, hrest⟩ := hholds.exists_drop
    have hwrap : ((t : Int) - (s.position + 2)).bmod (2 ^ 8) = t - (s.position + 2) + 256 := by
      rw [Int.bmod_def]
      split <;> omega
    rw [hrest, Site.code, if_pos hsize, hdistance]
    refine ⟨_, s.branch.jump?_short_ofInt _ rest, rfl, rfl, ?_⟩
    rw [BitVec.toInt_ofInt, hwrap, if_pos (And.intro hbranch hlow)]
    push_cast
    omega

end Program

/-- If every label in use is bound once and the conditions hold that the short branches rely on, then a
program is refused when it binds a label that a short branch does not reach, or each short branch is read
back as itself with the place of its label as its target. There is one exception, a branch without
a flag test that stands 127 bytes or more behind its label: its target is 256 bytes too far. -/
theorem short_branches_land (p : List Step)
    (honce : ∀ l, (∃ s ∈ p, s.uses l) → p.countP (Step.binds l) = 1)
    (hlength : (assembled p).code.length < 2 ^ 31) (hassert : Asserted p) :
    Stops p ∨ ((runAll p).1 = .ok () ∧
      ∀ before b l after, p = before ++ Step.short b l :: after → ∃ pre post j,
        p = pre ++ Step.bind l :: post ∧
        ((assembled p).labels l).position? = some (assembled pre).code.length ∧
        jump? ((assembled p).code.drop (assembled before).code.length) = some j ∧
        j.test = b.test ∧ j.length = 2 ∧
        (assembled before).code.length + j.length + j.displacement =
          if b = .always ∧ (assembled pre).code.length + 127 ≤ (assembled before).code.length then
            ((assembled pre).code.length : Int) + 256
          else (assembled pre).code.length) := by
  rcases traced_or_stops (fun l hl => (honce l hl).le) hlength hassert with ⟨a, sites, hrun, h⟩ | hstops
  · refine Or.inr ⟨by rw [hrun], fun before b l after hp => ?_⟩
    have hs := h.written before _ after _ hp rfl
    have hcount := honce l ⟨Step.short b l, by simp [hp], by simp [Step.uses]⟩
    have hstate : assembled p = a := congrArg Prod.snd hrun
    cases hl : (a.labels l).position? with
    | none => rw [h.unbound l hl] at hcount; cases hcount
    | some t =>
      obtain ⟨pre, post, hbind, rfl⟩ := h.bound l t hl
      obtain ⟨j, hread, hjump⟩ := h.exists_jump_short hs hl (hstate ▸ hlength) rfl
      exact ⟨pre, post, j, hbind, hstate ▸ hl, hstate ▸ hread, hjump⟩
  · exact Or.inl hstops

def looping : List Step := [.bind 0, .short (.onFlag .less) 1, .short .always 0, .bind 1]

theorem short_branches_land_looping :
    (∀ l, (∃ s ∈ looping, s.uses l) → looping.countP (Step.binds l) = 1) ∧
    (assembled looping).code.length < 2 ^ 31 ∧ Asserted looping ∧
    ∃ pre post j, looping = pre ++ Step.bind 1 :: post ∧
      ((assembled looping).labels 1).position? = some (assembled pre).code.length ∧
      jump? ((assembled looping).code.drop (assembled [.bind 0]).code.length) = some j ∧
      j.test = (Branch.onFlag .less).test ∧ j.length = 2 ∧
      (assembled [.bind 0]).code.length + j.length + j.displacement =
        if Branch.onFlag .less = .always ∧
            (assembled pre).code.length + 127 ≤ (assembled [.bind 0]).code.length then
          ((assembled pre).code.length : Int) + 256
        else (assembled pre).code.length := by
  have honce : ∀ l, (∃ s ∈ looping, s.uses l) → looping.countP (Step.binds l) = 1 := by
    rintro l ⟨s, hs, huses⟩
    obtain rfl | rfl : l = 0 ∨ l = 1 := by
      simp only [looping, List.mem_cons, List.not_mem_nil, or_false] at hs
      rcases hs with rfl | rfl | rfl | rfl <;> simp [Step.uses] at huses <;> omega
    · rfl
    · rfl
  have hlength : (assembled looping).code.length < 2 ^ 31 := by decide +kernel
  have hassert : Asserted looping := by
    rintro pre b l post t hp - ht
    rcases pre with _ | ⟨_, _ | ⟨_, _ | ⟨_, _ | ⟨_, pre⟩⟩⟩⟩ <;> simp [looping] at hp
    · obtain ⟨rfl, ⟨rfl, rfl⟩, rfl⟩ := hp
      cases ht
    · obtain ⟨rfl, rfl, ⟨rfl, rfl⟩, rfl⟩ := hp
      obtain rfl : 0 = t := Option.some.inj ht
      rfl
  refine ⟨honce, hlength, hassert, ?_⟩
  rcases short_branches_land looping honce hlength hassert with ⟨_, _, _, _, _, _, -, -, herror⟩ | ⟨-, hlands⟩
  · cases herror
  · exact hlands [.bind 0] (.onFlag .less) 1 _ rfl

def overshooting : List Step := [.bind 0, .emit fun _ => List.replicate 127 0x90, .short .always 0]

/-- All conditions hold, and the branch leads forward instead of back to its label. -/
theorem short_branch_overshoots :
    (∀ l, (∃ s ∈ overshooting, s.uses l) → overshooting.countP (Step.binds l) = 1) ∧
    Asserted overshooting ∧ (runAll overshooting).1 = .ok () ∧
    ((assembled overshooting).labels 0).position? = some 0 ∧
    jump? ((assembled overshooting).code.drop 127) = some ⟨none, 2, 127⟩ := by
  refine ⟨?_, ?_, rfl, rfl, by decide +kernel⟩
  · rintro l ⟨s, hs, huses⟩
    obtain rfl : l = 0 := by
      simp only [overshooting, List.mem_cons, List.not_mem_nil, or_false] at hs
      rcases hs with rfl | rfl | rfl <;> simp [Step.uses] at huses
      omega
    rfl
  · rintro pre b l post t hp - ht
    rcases pre with _ | ⟨_, _ | ⟨_, _ | ⟨_, pre⟩⟩⟩ <;> simp [overshooting] at hp
    obtain ⟨rfl, rfl, ⟨rfl, rfl⟩, rfl⟩ := hp
    obtain rfl : 0 = t := Option.some.inj ht
    decide +kernel

end Forced

end CompilerKit.Amd64
