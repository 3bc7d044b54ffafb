/-
  Forests given by a parent function: the node `n` steps up, the ancestor at a
  height, and what is an ancestor of what.
-/
import Mathlib

/-- A forest whose nodes know their height; roots have height 0. -/
structure Forest (K : Type*) where
  parent : K → Option K
  height : K → Nat
  height_parent : ∀ {k p}, parent k = some p → height k = height p + 1
  height_root : ∀ {k}, parent k = none → height k = 0

namespace Forest

variable {K : Type*} (F : Forest K) {k a b c p : K} {n m h h' : Nat}

/-- The node `n` steps above `k`. -/
def up : Nat → K → Option K
  | 0, k => some k
  | n + 1, k => (F.parent k).bind (up n)

theorem up_succ_of_parent (hp : F.parent k = some p) : F.up (n + 1) k = F.up n p := by
  rw [up, hp, Option.bind_some]

theorem up_add : F.up (n + m) k = (F.up n k).bind (F.up m) := by
  induction n generalizing k with
  | zero => rw [Nat.zero_add, up, Option.bind_some]
  | succ n ih =>
    rw [Nat.add_right_comm, up, up, Option.bind_assoc]
    cases F.parent k with
    | none => rfl
    | some p => exact ih

theorem up_one : F.up 1 k = F.parent k := by
  rw [up]
  cases F.parent k <;> rfl

theorem height_up (hu : F.up n k = some a) : F.height k = F.height a + n := by
  induction n generalizing k with
  | zero =>
    cases hu
    rfl
  | succ n ih =>
    obtain ⟨p, hp, hu⟩ := Option.bind_eq_some_iff.mp hu
    rw [F.height_parent hp, ih hu]
    omega

theorem exists_up (hn : n ≤ F.height k) : ∃ a, F.up n k = some a := by
  induction n generalizing k with
  | zero => exact ⟨k, rfl⟩
  | succ n ih =>
    rw [up]
    cases hp : F.parent k with
    | none =>
      have := F.height_root hp
      omega
    | some p =>
      have := F.height_parent hp
      exact ih (by omega)

/-! ## The ancestor at a height -/

/-- The ancestor of `k` at height `h`, if `k` is that high. -/
def ancestorAt (h : Nat) (k : K) : Option K := if h ≤ F.height k then F.up (F.height k - h) k else none

theorem exists_ancestorAt (hh : h ≤ F.height k) :
    ∃ a, F.ancestorAt h k = some a ∧ F.height a = h := by
  obtain ⟨a, ha⟩ := F.exists_up (Nat.sub_le (F.height k) h)
  refine ⟨a, by rw [ancestorAt, if_pos hh, ha], ?_⟩
  have := F.height_up ha
  omega

theorem up_of_ancestorAt (ha : F.ancestorAt h k = some a) : F.up (F.height k - h) k = some a := by
  rw [ancestorAt] at ha
  split at ha
  next => exact ha
  next => cases ha

theorem height_ancestorAt (ha : F.ancestorAt h k = some a) : F.height a = h ∧ h ≤ F.height k := by
  rw [ancestorAt] at ha
  split at ha
  next hle =>
    have := F.height_up ha
    exact ⟨by omega, hle⟩
  next => cases ha

theorem ancestorAt_self : F.ancestorAt (F.height k) k = some k := by
  rw [ancestorAt, if_pos (Nat.le_refl _), Nat.sub_self, up]

theorem ancestorAt_eq_self (hh : F.height k = h) : F.ancestorAt h k = some k := by
  rw [← hh, F.ancestorAt_self]

theorem ancestorAt_of_up (hu : F.up n k = some a) : F.ancestorAt (F.height a) k = some a := by
  have hk := F.height_up hu
  rw [ancestorAt, if_pos (by omega), hk, Nat.add_sub_cancel_left, hu]

theorem ancestorAt_trans (ha : F.ancestorAt h k = some a) (hle : h' ≤ h) :
    F.ancestorAt h' k = F.ancestorAt h' a := by
  obtain ⟨hha, hhk⟩ := F.height_ancestorAt ha
  rw [ancestorAt, if_pos hhk] at ha
  have hsplit : F.height k - h' = (F.height k - h) + (h - h') := by omega
  rw [ancestorAt, ancestorAt, if_pos (by omega), if_pos (by omega), hsplit, F.up_add, ha,
    Option.bind_some, hha]

theorem ancestorAt_parent (hp : F.parent k = some p) (hle : h ≤ F.height p) :
    F.ancestorAt h k = F.ancestorAt h p := by
  refine F.ancestorAt_trans ?_ hle
  have hup : F.up 1 k = some p := by rw [F.up_one, hp]
  exact F.ancestorAt_of_up hup

/-! ## Ancestors -/

/-- `a` is `k` or an ancestor of `k`. -/
def IsAncestor (a k : K) : Prop := ∃ n, F.up n k = some a

theorem IsAncestor.refl : F.IsAncestor k k := ⟨0, rfl⟩

variable {F}

theorem isAncestor_iff : F.IsAncestor a k ↔ F.ancestorAt (F.height a) k = some a := by
  constructor
  · rintro ⟨n, hn⟩
    exact F.ancestorAt_of_up hn
  · intro h
    have hle := (F.height_ancestorAt h).2
    rw [ancestorAt, if_pos hle] at h
    exact ⟨_, h⟩

theorem IsAncestor.trans (hab : F.IsAncestor a b) (hbc : F.IsAncestor b c) : F.IsAncestor a c := by
  obtain ⟨n, hn⟩ := hab
  obtain ⟨m, hm⟩ := hbc
  exact ⟨m + n, by rw [F.up_add, hm, Option.bind_some, hn]⟩

theorem IsAncestor.height_le (h : F.IsAncestor a k) : F.height a ≤ F.height k := by
  obtain ⟨n, hn⟩ := h
  have := F.height_up hn
  omega

theorem IsAncestor.eq_of_height (h : F.IsAncestor a k) (hh : F.height k ≤ F.height a) : a = k := by
  obtain ⟨n, hn⟩ := h
  have hn' := F.height_up hn
  obtain rfl : n = 0 := by omega
  exact (Option.some.inj hn).symm

theorem isAncestor_parent (hp : F.parent k = some p) : F.IsAncestor p k :=
  ⟨1, by rw [F.up_one, hp]⟩

theorem isAncestor_iff_parent (hp : F.parent k = some p) :
    F.IsAncestor a k ↔ a = k ∨ F.IsAncestor a p := by
  constructor
  · rintro ⟨n, hn⟩
    cases n with
    | zero => exact .inl (Option.some.inj hn).symm
    | succ n =>
      rw [F.up_succ_of_parent hp] at hn
      exact .inr ⟨n, hn⟩
  · rintro (rfl | h)
    · exact IsAncestor.refl F
    · exact h.trans (isAncestor_parent hp)

theorem isAncestor_root (hp : F.parent k = none) : F.IsAncestor a k ↔ a = k := by
  constructor
  · intro h
    refine h.eq_of_height ?_
    have := F.height_root hp
    omega
  · rintro rfl
    exact IsAncestor.refl F

/-- Of two ancestors the lower one is an ancestor of the higher one. -/
theorem IsAncestor.of_height_le (ha : F.IsAncestor a k) (hb : F.IsAncestor b k)
    (hle : F.height a ≤ F.height b) : F.IsAncestor a b := by
  rw [isAncestor_iff] at ha hb ⊢
  rw [← F.ancestorAt_trans hb hle]
  exact ha

theorem isAncestor_of_ancestorAt (ha : F.ancestorAt h k = some a) : F.IsAncestor a k :=
  ⟨_, F.up_of_ancestorAt ha⟩

/-! ## Forks -/

/-- `c` is the highest common ancestor of `a` and `b`. -/
structure IsFork (F : Forest K) (a b c : K) : Prop where
  left : F.IsAncestor c a
  right : F.IsAncestor c b
  highest : ∀ x, F.IsAncestor x a → F.IsAncestor x b → F.IsAncestor x c

theorem IsFork.symm (h : F.IsFork a b c) : F.IsFork b a c :=
  ⟨h.right, h.left, fun x hb ha => h.highest x ha hb⟩

theorem IsAncestor.isFork (h : F.IsAncestor a b) : F.IsFork a b a :=
  ⟨.refl F, h, fun _ ha _ => ha⟩

/-- Nothing above the height of one of the two is common. -/
theorem IsFork.of_ancestorAt (ha : F.ancestorAt h a = some p) (hb : F.height b ≤ h)
    (hc : F.IsFork p b c) : F.IsFork a b c where
  left := hc.left.trans (isAncestor_of_ancestorAt ha)
  right := hc.right
  highest x hxa hxb := by
    refine hc.highest x (hxa.of_height_le (isAncestor_of_ancestorAt ha) ?_) hxb
    rw [(F.height_ancestorAt ha).1]
    exact Nat.le_trans hxb.height_le hb

/-- A node that is not an ancestor of the other may be left for its parent. -/
theorem IsFork.of_parent (hp : F.parent a = some p) (hnot : ¬ F.IsAncestor a b)
    (hc : F.IsFork p b c) : F.IsFork a b c where
  left := hc.left.trans (isAncestor_parent hp)
  right := hc.right
  highest x hxa hxb := by
    rcases (isAncestor_iff_parent hp).mp hxa with rfl | hxp
    · exact absurd hxb hnot
    · exact hc.highest x hxp hxb

end Forest
