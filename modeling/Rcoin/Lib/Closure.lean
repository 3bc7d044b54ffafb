/-
  Totals of weights over everything that reaches a node of a finite graph, and
  how they change when nodes are taken out, put in, or get another weight.  For
  the nodes a node reaches, take the converse relation.
-/
import Mathlib

namespace Closure

open Relation Finset

variable {K M : Type*} {R : K → K → Prop} {S : Finset K} {w : K → M} {x : K}

open Classical in
/-- The nodes of `S` that reach `x`, `x` itself included. -/
noncomputable def reaching (R : K → K → Prop) (S : Finset K) (x : K) : Finset K :=
  S.filter fun a => ReflTransGen R a x

variable {a : K}

theorem mem_reaching : a ∈ reaching R S x ↔ a ∈ S ∧ ReflTransGen R a x := by
  classical
  exact mem_filter

/-- The weight of all nodes of `S` that reach `x`. -/
noncomputable def total [AddCommMonoid M] (R : K → K → Prop) (S : Finset K) (w : K → M) (x : K) :
    M := ∑ a ∈ reaching R S x, w a

/-- `R` without the nodes of `D`. -/
def Without (R : K → K → Prop) (D : Finset K) (a c : K) : Prop := R a c ∧ a ∉ D ∧ c ∉ D

variable {D : Finset K}

theorem Without.mono {c : K} (h : ReflTransGen (Without R D) a c) : ReflTransGen R a c :=
  h.lift id fun _ _ hac => hac.1

/-! ## Taking nodes out -/

/-- Nothing outside a set closed under successors is reached from the set. -/
theorem not_mem_of_reaches (hD : ∀ a c, R a c → a ∈ D → c ∈ D) (hx : x ∉ D) (h : ReflTransGen R a x)
    : a ∉ D := by
  induction h using ReflTransGen.head_induction_on with
  | refl => exact hx
  | head hac _ ih => exact fun ha => ih (hD _ _ hac ha)

/-- Paths to a node outside such a set stay outside. -/
theorem reaches_without_iff (hD : ∀ a c, R a c → a ∈ D → c ∈ D) (hx : x ∉ D) :
    ReflTransGen (Without R D) a x ↔ ReflTransGen R a x := by
  refine ⟨Without.mono, fun h => ?_⟩
  induction h using ReflTransGen.head_induction_on with
  | refl => exact .refl
  | head hac hcx ih =>
    have hc := not_mem_of_reaches hD hx hcx
    exact .head ⟨hac, fun ha => hc (hD _ _ hac ha), hc⟩ ih

/-- The same for a set closed under predecessors: a path from outside never
    enters it. -/
theorem reaches_without_iff_of_pred (hD : ∀ a c, R a c → c ∈ D → a ∈ D) (hx : x ∉ D) :
    ReflTransGen (Without R D) a x ↔ ReflTransGen R a x ∧ a ∉ D := by
  constructor
  · intro h
    refine ⟨Without.mono h, ?_⟩
    rcases ReflTransGen.cases_head h with rfl | ⟨c, ⟨-, ha, -⟩, -⟩
    · exact hx
    · exact ha
  · rintro ⟨h, ha⟩
    induction h using ReflTransGen.head_induction_on with
    | refl => exact .refl
    | head hac _ ih =>
      have hc := fun hc => ha (hD _ _ hac hc)
      exact .head ⟨hac, ha, hc⟩ (ih hc)

section Totals

variable [DecidableEq K]

theorem reaching_without (hD : ∀ a c, R a c → a ∈ D → c ∈ D) (hx : x ∉ D) :
    reaching (Without R D) (S \ D) x = reaching R S x := by
  ext a
  rw [mem_reaching, mem_reaching, mem_sdiff, reaches_without_iff hD hx]
  exact ⟨fun ⟨⟨hS, _⟩, h⟩ => ⟨hS, h⟩, fun ⟨hS, h⟩ => ⟨⟨hS, not_mem_of_reaches hD hx h⟩, h⟩⟩

theorem reaching_without_of_pred (hD : ∀ a c, R a c → c ∈ D → a ∈ D) (hx : x ∉ D) :
    reaching (Without R D) (S \ D) x = reaching R S x \ D := by
  ext a
  rw [mem_reaching, mem_sdiff, mem_sdiff, mem_reaching,
    reaches_without_iff_of_pred hD hx]
  tauto

/-- Taking out nodes with all they reach changes no total of what remains. -/
theorem total_without [AddCommMonoid M] (hD : ∀ a c, R a c → a ∈ D → c ∈ D) (hx : x ∉ D) :
    total (Without R D) (S \ D) w x = total R S w x := by
  rw [total, total, reaching_without hD hx]

/-- Taking out nodes with all that reaches them takes their weight out of the
    totals of what they reach. -/
theorem total_without_of_pred [AddCommGroup M] (hD : ∀ a c, R a c → c ∈ D → a ∈ D) (hx : x ∉ D) :
    total (Without R D) (S \ D) w x = total R S w x - ∑ a ∈ reaching R S x ∩ D, w a := by
  rw [total, total, reaching_without_of_pred hD hx, eq_sub_iff_add_eq, add_comm]
  exact sum_inter_add_sum_sdiff _ _ _

end Totals

/-! ## Another weight, and the strict part -/

variable {w' : K → M}

theorem total_congr [AddCommMonoid M] (h : ∀ a ∈ S, w' a = w a) : total R S w' x = total R S w x :=
  sum_congr rfl fun a ha => h a (mem_reaching.mp ha).1

open Classical in
/-- A change of one weight changes the totals of what the node reaches. -/
theorem total_of_change [AddCommGroup M] {k : K} {δ : M} (hk : k ∈ S) (hw : w' k = w k + δ)
    (hne : ∀ a, a ≠ k → w' a = w a) :
    total R S w' x = total R S w x + if ReflTransGen R k x then δ else 0 := by
  unfold total
  split
  next h =>
    have hmem : k ∈ reaching R S x := mem_reaching.mpr ⟨hk, h⟩
    rw [← add_sum_erase _ _ hmem, ← add_sum_erase _ w hmem, hw,
      sum_congr rfl fun a ha => hne a (ne_of_mem_erase ha)]
    abel
  next h =>
    rw [add_zero]
    refine sum_congr rfl fun a ha => hne a ?_
    rintro rfl
    exact h (mem_reaching.mp ha).2

/-- Without cycles the total is the node's own weight and that of the nodes that
    properly reach it. -/
theorem total_eq_add_proper [AddCommMonoid M] {A : Finset K}
    (hA : ∀ a, a ∈ A ↔ a ∈ S ∧ TransGen R a x) (hx : x ∈ S) (hacyclic : ¬ TransGen R x x) :
    total R S w x = w x + ∑ a ∈ A, w a := by
  classical
  have hmem : x ∈ reaching R S x := mem_reaching.mpr ⟨hx, .refl⟩
  rw [total, ← add_sum_erase _ _ hmem]
  congr 1
  refine sum_congr ?_ fun _ _ => rfl
  ext a
  rw [Finset.mem_erase, mem_reaching, hA]
  constructor
  · rintro ⟨hne, hS, h⟩
    exact ⟨hS, ((reflTransGen_iff_eq_or_transGen.mp h).resolve_left (Ne.symm hne))⟩
  · rintro ⟨hS, h⟩
    exact ⟨fun heq => hacyclic (heq ▸ h), hS, h.to_reflTransGen⟩

/-! ## Relations that keep a part of the paths -/

/-- The weight of what a relation keeps of the paths to `x`, and of what it does
    not keep. -/
theorem total_eq_add_rest [AddCommMonoid M] {R' : K → K → Prop} {P : K → Prop} [DecidablePred P]
    (h : ∀ a, ReflTransGen R' a x ↔ ReflTransGen R a x ∧ P a) :
    total R S w x = total R' S w x + ∑ a ∈ (reaching R S x).filter (¬ P ·), w a := by
  have hkept : reaching R' S x = (reaching R S x).filter P := by
    ext a
    rw [mem_reaching, mem_filter, mem_reaching, h, and_assoc]
  rw [total, total, hkept]
  exact (sum_filter_add_sum_filter_not _ _ _).symm

/-- `R` without the edges that lead out of `L`. -/
def Cut (R : K → K → Prop) (L : Finset K) (a c : K) : Prop := R a c ∧ (a ∈ L → c ∈ L)

/-- When nothing leads into `L`, what is left are the paths that do not leave it. -/
theorem reaches_cut_iff {L : Finset K} (hL : ∀ a c, R a c → c ∈ L → a ∈ L) :
    ReflTransGen (Cut R L) a x ↔ ReflTransGen R a x ∧ (a ∈ L → x ∈ L) := by
  constructor
  · intro h
    refine ⟨h.lift id fun _ _ hac => hac.1, ?_⟩
    induction h with
    | refl => exact id
    | tail _ hbc ih => exact fun ha => hbc.2 (ih ha)
  · rintro ⟨h, hLx⟩
    induction h using ReflTransGen.head_induction_on with
    | refl => exact .refl
    | head hac hcx ih =>
      have hback : x ∈ L → _ ∈ L := fun hx =>
        by_contra fun hc => not_mem_of_reaches (R := Function.swap R) (D := L)
          (fun c a hac hc => hL a c hac hc) hc (reflTransGen_swap.mpr hcx) hx
      exact .head ⟨hac, fun ha => hback (hLx ha)⟩ (ih fun hc => hLx (hL _ _ hac hc))

/-! ## The converse relation -/

theorem swap_without (R : K → K → Prop) (D : Finset K) :
    Function.swap (Without R D) = Without (Function.swap R) D := by
  funext a c
  exact propext ⟨fun ⟨h, hc, ha⟩ => ⟨h, ha, hc⟩, fun ⟨h, ha, hc⟩ => ⟨h, hc, ha⟩⟩

/-- What a node loses when the nodes of `D` that properly reach it are counted
    off one by one. -/
theorem sum_loss [DecidableEq K] [AddCommGroup M] {P : K → Prop} [DecidablePred P] (hDS : D ⊆ S)
    (hP : ∀ r ∈ D, P r ↔ ReflTransGen R r x) :
    (∑ r ∈ D, if P r then -w r else 0) = -∑ a ∈ reaching R S x ∩ D, w a := by
  rw [← sum_filter, sum_neg_distrib]
  congr 2
  ext r
  rw [mem_filter, mem_inter, mem_reaching]
  constructor
  · rintro ⟨hr, h⟩
    exact ⟨⟨hDS hr, (hP r hr).mp h⟩, hr⟩
  · rintro ⟨⟨-, h⟩, hr⟩
    exact ⟨hr, (hP r hr).mpr h⟩

/-! ## Going back in a finite graph -/

/-- Without cycles, not every node of a kind has a predecessor of that kind. -/
theorem no_backward_closed (hacyclic : ∀ k, ¬ TransGen R k k) {B : K → Prop}
    (hS : ∀ k, B k → k ∈ S) (hback : ∀ k, B k → ∃ p, B p ∧ R p k) (k : K) : ¬ B k := by
  intro hk
  let before (a c : S) : Prop := TransGen R a.1 c.1
  have hirrefl : Std.Irrefl before := ⟨fun a => hacyclic a.1⟩
  have hwf : WellFounded before := Finite.wellFounded_of_trans_of_irrefl before
  -- a least node of the kind
  obtain ⟨a, ha, hleast⟩ := hwf.has_min {a : S | B a.1} ⟨⟨k, hS k hk⟩, hk⟩
  obtain ⟨p, hp, hr⟩ := hback a.1 ha
  exact hleast ⟨p, hS p hp⟩ hp (.single hr)

end Closure
