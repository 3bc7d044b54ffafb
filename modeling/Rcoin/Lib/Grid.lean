/-
  Tables of rows and columns, one slot changed at a time, and the number of rows
  that hold a value in the column that is theirs for it.
-/
import Mathlib

namespace Grid

variable {R C α : Type*} [DecidableEq R] [DecidableEq C]

/-- `t[r][c] = v`. -/
def set (t : R → C → α) (r : R) (c : C) (v : α) : R → C → α :=
  Function.update t r (Function.update (t r) c v)

theorem set_apply (t : R → C → α) (r r' : R) (c c' : C) (v : α) :
    set t r c v r' c' = if r' = r ∧ c' = c then v else t r' c' := by
  unfold set
  by_cases hr : r' = r
  · subst hr
    rw [Function.update_self, Function.update_apply]
    exact if_congr ⟨fun h => ⟨rfl, h⟩, fun h => h.2⟩ rfl rfl
  · rw [Function.update_of_ne hr, if_neg fun h => hr h.1]

theorem set_self (t : R → C → α) (r : R) (c : C) (v : α) : set t r c v r c = v := by
  rw [set_apply, if_pos ⟨rfl, rfl⟩]

variable {t : R → C → α} {r : R}

variable {v : α} {c : C}

theorem set_eq_self (h : t r c = v) : set t r c v = t := by
  funext r' c'
  rw [set_apply]
  split
  next heq => rw [heq.1, heq.2, h]
  next => rfl

/-! ## Rows that hold a value -/

variable [Fintype R] [DecidableEq α]

/-- The rows with `a` in the column of `pos`. -/
def rows (t : R → C → α) (pos : R → C) (a : α) : Finset R :=
  Finset.univ.filter fun r => t r (pos r) = a

omit [DecidableEq R] [DecidableEq C] in
theorem mem_rows {pos : R → C} {a : α} : r ∈ rows t pos a ↔ t r (pos r) = a := by
  rw [rows, Finset.mem_filter]
  exact ⟨fun h => h.2, fun h => ⟨Finset.mem_univ r, h⟩⟩

/-- A slot that holds another value, before and after. -/
theorem rows_set_of_ne {pos : R → C} {a : α} (h : t r c ≠ a) (hv : v ≠ a)
    : rows (set t r c v) pos a = rows t pos a := by
  ext r'
  rw [mem_rows, mem_rows, set_apply]
  split
  next heq =>
    obtain ⟨rfl, hc⟩ := heq
    rw [hc]
    exact ⟨fun h' => absurd h' hv, fun h' => absurd h' h⟩
  next => rfl

theorem card_rows_set_self {pos : R → C} {a : α} (h : t r (pos r) ≠ a) :
    (rows (set t r (pos r) a) pos a).card = (rows t pos a).card + 1 := by
  have hinsert : rows (set t r (pos r) a) pos a = insert r (rows t pos a) := by
    ext r'
    rw [Finset.mem_insert, mem_rows, mem_rows, set_apply]
    by_cases hr : r' = r
    · subst hr
      rw [if_pos ⟨rfl, rfl⟩]
      exact ⟨fun _ => .inl rfl, fun _ => rfl⟩
    · rw [if_neg fun h' => hr h'.1]
      exact ⟨.inr, fun h' => h'.resolve_left hr⟩
  rw [hinsert, Finset.card_insert_of_notMem fun hmem => h (mem_rows.mp hmem)]

theorem card_rows_set_other {pos : R → C} {a : α} (h : t r (pos r) = a) (hv : v ≠ a)
    : (rows (set t r (pos r) v) pos a).card + 1 = (rows t pos a).card := by
  have hback : set (set t r (pos r) v) r (pos r) a = t := by
    funext r' c'
    rw [set_apply, set_apply]
    split
    next heq => rw [heq.1, heq.2, h]
    next => rfl
  have hne : set t r (pos r) v r (pos r) ≠ a := by rwa [set_self]
  have hcard := card_rows_set_self hne
  rw [hback] at hcard
  exact hcard.symm

omit [DecidableEq R] [DecidableEq C] in
theorem card_rows_eq_zero {pos : R → C} {a : α} :
    (rows t pos a).card = 0 ↔ ∀ r, t r (pos r) ≠ a := by
  rw [Finset.card_eq_zero, Finset.eq_empty_iff_forall_notMem]
  exact forall_congr' fun r => not_congr mem_rows

/-- The slots that hold a value, where it is in no other column than its own. -/
theorem countP_slots {l : List (R × C)} (hnodup : l.Nodup) (hall : ∀ x, x ∈ l) {pos : R → C} {a : α}
    (hpos : ∀ r c, t r c = a → pos r = c) :
    l.countP (fun x => t x.1 x.2 = a) = (rows t pos a).card := by
  rw [List.countP_eq_length_filter, ← List.toFinset_card_of_nodup (hnodup.filter _)]
  have himage : (l.filter fun x => t x.1 x.2 = a).toFinset =
      (rows t pos a).image fun r => (r, pos r) := by
    ext ⟨r, c⟩
    rw [List.mem_toFinset, List.mem_filter, decide_eq_true_eq, Finset.mem_image]
    constructor
    · rintro ⟨-, h⟩
      obtain rfl := hpos r c h
      exact ⟨r, mem_rows.mpr h, rfl⟩
    · rintro ⟨r', hr', heq⟩
      obtain ⟨rfl, rfl⟩ := Prod.mk.inj heq
      exact ⟨hall _, mem_rows.mp hr'⟩
  rw [himage, Finset.card_image_of_injective _ fun r r' h => congrArg Prod.fst h]

end Grid
