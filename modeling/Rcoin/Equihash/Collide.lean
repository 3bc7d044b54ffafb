/-
  What a collision round keeps.  Storing the new tuples over rows that were read
  already loses none of them, and on a sorted table the pairs within the groups
  are all pairs that collide.
-/
import Rcoin.Equihash.Rows

namespace Rcoin

open List

/-! ## Pairs -/

section Pairs

variable {α : Type} {p : α × α}

theorem mem_pairs_append {l1 l2 : List α} :
    p ∈ pairs (l1 ++ l2) ↔ p ∈ pairs l1 ∨ p.1 ∈ l1 ∧ p.2 ∈ l2 ∨ p ∈ pairs l2 := by
  induction l1 with
  | nil => simp [pairs]
  | cons a l1 ih =>
    obtain ⟨x, y⟩ := p
    rw [cons_append, pairs, mem_append, ih, pairs, mem_append]
    simp only [mem_map, mem_append, mem_cons, Prod.mk.injEq]
    constructor
    · rintro (⟨b, hb | hb, rfl, rfl⟩ | h | ⟨hx, hy⟩ | h)
      · exact .inl (.inl ⟨b, hb, rfl, rfl⟩)
      · exact .inr (.inl ⟨.inl rfl, hb⟩)
      · exact .inl (.inr h)
      · exact .inr (.inl ⟨.inr hx, hy⟩)
      · exact .inr (.inr h)
    · rintro ((⟨b, hb, rfl, rfl⟩ | h) | ⟨rfl | hx, hy⟩ | h)
      · exact .inl ⟨b, .inl hb, rfl, rfl⟩
      · exact .inr (.inl h)
      · exact .inl ⟨y, .inr hy, rfl, rfl⟩
      · exact .inr (.inr (.inl ⟨hx, hy⟩))
      · exact .inr (.inr (.inr h))

variable {l : List α}

theorem mem_of_mem_pairs (h : p ∈ pairs l) : p.1 ∈ l ∧ p.2 ∈ l := by
  induction l with
  | nil => cases h
  | cons a l ih =>
    rcases mem_append.mp h with h | h
    · obtain ⟨b, hb, rfl⟩ := mem_map.mp h
      exact ⟨mem_cons_self, mem_cons_of_mem a hb⟩
    · exact ⟨mem_cons_of_mem a (ih h).1, mem_cons_of_mem a (ih h).2⟩

theorem mem_pairs_of_ne {x y : α} (hx : x ∈ l) (hy : y ∈ l) (hne : x ≠ y) :
    (x, y) ∈ pairs l ∨ (y, x) ∈ pairs l := by
  induction l with
  | nil => cases hx
  | cons a l ih =>
    rw [pairs, mem_append, mem_append]
    rcases mem_cons.mp hx with rfl | hxl
    · rcases mem_cons.mp hy with rfl | hyl
      · exact absurd rfl hne
      · exact .inl (.inl (mem_map.mpr ⟨y, hyl, rfl⟩))
    · rcases mem_cons.mp hy with rfl | hyl
      · exact .inr (.inl (mem_map.mpr ⟨x, hxl, rfl⟩))
      · exact (ih hxl hyl).imp .inr .inr

theorem exists_mem_pairs {P : α → α → Prop} (hsymm : ∀ a b, P a b → P b a)
    (hirrefl : ∀ a ∈ l, ¬ P a a) : (∃ p ∈ pairs l, P p.1 p.2) ↔ ∃ a ∈ l, ∃ b ∈ l, P a b := by
  constructor
  · rintro ⟨p, hp, h⟩
    exact ⟨p.1, (mem_of_mem_pairs hp).1, p.2, (mem_of_mem_pairs hp).2, h⟩
  · rintro ⟨a, ha, b, hb, h⟩
    have hne : a ≠ b := by
      rintro rfl
      exact hirrefl a ha h
    rcases mem_pairs_of_ne ha hb hne with hp | hp
    · exact ⟨(a, b), hp, h⟩
    · exact ⟨(b, a), hp, hsymm a b h⟩

end Pairs

namespace Table

variable {α β : Type}

/-! ## Storing tuples -/

/-- What a table holds so far: the tuples stored and those to be stored. -/
def tuples (t : Table α) : List α := t.X.take t.posFree ++ t.Xc

theorem store_spec {limit : Nat} {X : List α} {posFree : Nat} (Xc : List α)
    (hfree : posFree ≤ limit) (hlimit : limit ≤ X.length) :
    (store limit X posFree Xc).tuples = X.take posFree ++ Xc ∧
      (store limit X posFree Xc).X.length = X.length ∧
      (store limit X posFree Xc).posFree ≤ limit ∧
      (store limit X posFree Xc).X.drop limit = X.drop limit ∧
      ((store limit X posFree Xc).Xc = [] ∨ (store limit X posFree Xc).posFree = limit) := by
  induction Xc generalizing X posFree with
  | nil => exact ⟨rfl, rfl, hfree, rfl, .inl rfl⟩
  | cons x Xc ih =>
    rw [store]
    split
    next hlt =>
      have hlen : (X.set posFree x).length = X.length := length_set
      have hpos : posFree < X.length := by omega
      obtain ⟨htuples, hlength, hle, hdrop, hdone⟩ :=
        @ih (X.set posFree x) (posFree + 1) (by omega) (by rw [hlen]; omega)
      have htake : (X.set posFree x).take (posFree + 1) = X.take posFree ++ [x] := by
        rw [take_add_one, take_set_of_le (le_refl posFree)]
        simp [hpos]
      refine ⟨?_, hlength.trans hlen, hle, hdrop.trans (drop_set_of_lt hlt), hdone⟩
      rw [htuples, htake, append_assoc]
      rfl
    next hge =>
      exact ⟨rfl, rfl, hfree, rfl, .inr (by show posFree = limit; omega)⟩

variable {t : Table α}

theorem mem_finish (h : t.posFree ≤ t.X.length) (x : α) : x ∈ finish t ↔ x ∈ t.tuples := by
  obtain ⟨htuples, -, -, -, hdone⟩ := store_spec t.Xc h le_rfl
  show x ∈ (if (store t.X.length t.X t.posFree t.Xc).Xc.isEmpty then _ else _) ↔ x ∈ t.X.take _ ++ _
  rw [← htuples, tuples]
  split
  next hempty =>
    rw [List.isEmpty_iff.mp hempty, append_nil]
  next hmore =>
    -- the table is full, and the rest is appended
    rcases hdone with hnil | hfull
    · rw [hnil] at hmore
      exact absurd rfl hmore
    · have hlen := (store_spec t.Xc h le_rfl).2.1
      rw [hfull, take_of_length_le (le_of_eq hlen), mem_append, mem_append,
        mem_reverse]

/-! ## The tuples of a round -/

variable {combine : α → α → Option α} {coll : α → α → Bool}

/-- The loop that stores in place makes the tuples of the loop that hands them
    on: the rows it has yet to read are those of the table it started with. -/
theorem mem_collideLoop {X : List α} {steps i : Nat} (hlen : t.X.length = X.length)
    (hdrop : t.X.drop i = X.drop i) (hfree : t.posFree ≤ i) (hi : i ≤ X.length) (x : α) :
    x ∈ finish (collideLoop coll combine steps i t) ↔
      x ∈ t.tuples ∨ x ∈ collideFinal coll combine X steps i := by
  induction steps generalizing i t with
  | zero =>
    rw [collideLoop, collideFinal, mem_finish (by omega)]
    simp
  | succ steps ih =>
    rw [collideLoop, collideFinal, hlen]
    split
    next hmore =>
      have hgroup : groupSize coll t.X i = groupSize coll X i := by
        rw [groupSize, groupSize, hdrop]
      have hj : i + groupSize coll X i ≤ X.length := by
        rw [groupSize]
        split
        · omega
        next a rest hrest =>
          have hle := (takeWhile_sublist (coll a) (l := rest)).length_le
          have htotal := congrArg List.length hrest
          rw [length_drop, length_cons] at htotal
          omega
      obtain ⟨htuples, hlength, hle, hrest, -⟩ :=
        @store_spec _ (i + groupSize coll X i) t.X t.posFree
          ((((pairs ((X.drop i).take (groupSize coll X i))).filterMap fun p =>
            combine p.1 p.2).reverse) ++ t.Xc) (by omega) (by omega)
      simp only [hgroup, hdrop]
      rw [ih (hlength.trans hlen) ?_ hle hj, htuples]
      · simp only [tuples, mem_append, mem_reverse]
        tauto
      · rw [hrest, ← drop_drop, hdrop, drop_drop]
    next hlast =>
      rw [mem_finish (by omega)]
      simp

/-- Rows that collide with a row stand right behind it. -/
def Grouped (coll : α → α → Bool) : List α → Prop
  | [] => True
  | a :: rest =>
    (rest.Pairwise fun x y => coll a y = true → coll a x = true) ∧ Grouped coll rest

theorem Grouped.drop {X : List α} (h : Grouped coll X) (i : Nat) : Grouped coll (X.drop i) := by
  induction i generalizing X with
  | zero => exact h
  | succ i ih =>
    cases X with
    | nil => exact h
    | cons a X => exact ih h.2

theorem not_coll_of_mem_dropWhile {P : α → Bool} {l : List α}
    (h : l.Pairwise fun x y => P y = true → P x = true) {y : α} (hy : y ∈ l.dropWhile P) :
    P y = false := by
  induction l with
  | nil => cases hy
  | cons a l ih =>
    rw [pairwise_cons] at h
    by_cases ha : P a = true
    · rw [dropWhile_cons_of_pos ha] at hy
      exact ih h.2 hy
    · rw [dropWhile_cons_of_neg ha] at hy
      rcases mem_cons.mp hy with rfl | hy
      · exact Bool.eq_false_iff.mpr ha
      · exact Bool.eq_false_iff.mpr fun hPy => ha (h.1 y hy hPy)

variable {κ : Type} {key : α → κ} (hkey : ∀ a b, coll a b = true ↔ key a = key b)

include hkey

theorem mem_collideFinal {combine : α → α → Option β} {X : List α} (hX : Grouped coll X)
    {steps i : Nat} (hsteps : X.length ≤ i + steps) (x : β) :
    x ∈ collideFinal coll combine X steps i ↔
      ∃ p ∈ pairs (X.drop i), coll p.1 p.2 = true ∧ combine p.1 p.2 = some x := by
  induction steps generalizing i with
  | zero =>
    rw [collideFinal, drop_eq_nil_of_le (by omega)]
    simp [pairs]
  | succ steps ih =>
    rw [collideFinal]
    split
    next hmore =>
      obtain ⟨a, rest, hrest⟩ : ∃ a rest, X.drop i = a :: rest :=
        ⟨_, _, drop_eq_getElem_cons (by omega)⟩
      have hgrouped := hX.drop i
      rw [hrest] at hgrouped
      have hsize : groupSize coll X i = (a :: rest.takeWhile (coll a)).length := by
        rw [groupSize, hrest, length_cons, Nat.add_comm]
      have hsplit : X.drop i = (a :: rest.takeWhile (coll a)) ++ rest.dropWhile (coll a) := by
        rw [hrest, cons_append, takeWhile_append_dropWhile]
      have htake : (X.drop i).take (groupSize coll X i) = a :: rest.takeWhile (coll a) := by
        rw [hsplit, hsize, take_left]
      have hdrop : X.drop (i + groupSize coll X i) = rest.dropWhile (coll a) := by
        rw [← drop_drop, hsplit, hsize, drop_left]
      have hone : 1 ≤ groupSize coll X i := by
        rw [hsize, length_cons]
        omega
      -- a pair inside the group collides; a pair across its end does not
      have hin : ∀ y ∈ a :: rest.takeWhile (coll a), key a = key y := by
        intro y hy
        rcases mem_cons.mp hy with rfl | hy
        · rfl
        · have hall := all_eq_true.mp (all_takeWhile (p := coll a) (l := rest)) y hy
          exact (hkey a y).mp hall
      have hout : ∀ y ∈ rest.dropWhile (coll a), key a ≠ key y := by
        intro y hy heq
        have hfalse := not_coll_of_mem_dropWhile hgrouped.1 hy
        rw [(hkey a y).mpr heq] at hfalse
        cases hfalse
      simp only [htake]
      rw [mem_append, ih (by omega), hdrop, hsplit, mem_filterMap]
      constructor
      · rintro (⟨p, hp, hx⟩ | ⟨p, hp, hcoll, hx⟩)
        · have hmem := mem_of_mem_pairs hp
          have hcoll := (hin p.1 hmem.1).symm.trans (hin p.2 hmem.2)
          exact ⟨p, mem_pairs_append.mpr (.inl hp), (hkey _ _).mpr hcoll, hx⟩
        · exact ⟨p, mem_pairs_append.mpr (.inr (.inr hp)), hcoll, hx⟩
      · rintro ⟨p, hp, hcoll, hx⟩
        rcases mem_pairs_append.mp hp with hp | ⟨h1, h2⟩ | hp
        · exact .inl ⟨p, hp, hx⟩
        · exact absurd ((hin p.1 h1).trans ((hkey _ _).mp hcoll)) (hout p.2 h2)
        · exact .inr ⟨p, hp, hcoll, hx⟩
    next hlast =>
      -- one row at most is left
      have hlen : (X.drop i).length ≤ 1 := by
        rw [length_drop]
        omega
      match X.drop i, hlen with
      | [], _ => simp [pairs]
      | [_], _ => simp [pairs]

theorem mem_collide {X : List α} (hX : Grouped coll X) (x : α) :
    x ∈ collide coll combine X ↔
      ∃ p ∈ pairs X, coll p.1 p.2 = true ∧ combine p.1 p.2 = some x := by
  rw [collide, mem_collideLoop (t := ⟨X, 0, []⟩) (X := X) rfl rfl le_rfl (Nat.zero_le _),
    mem_collideFinal hkey hX (by omega), drop_zero]
  simp [tuples]

end Table

/-! ## Sorted rows -/

theorem lt_of_take_lt {α : Type} [LT α] [DecidableEq α] {l : Nat} {a b : List α}
    (h : b.take l < a.take l) : b < a := by
  induction l generalizing a b with
  | zero =>
    exact absurd h (not_lt_nil [])
  | succ l ih =>
    cases a with
    | nil =>
      exact absurd h (not_lt_nil _)
    | cons y a =>
      cases b with
      | nil => exact nil_lt_cons y a
      | cons x b =>
        rw [take_succ_cons, take_succ_cons, cons_lt_cons_iff] at h
        rw [cons_lt_cons_iff]
        exact h.imp id fun ⟨heq, hlt⟩ => ⟨heq, ih hlt⟩

theorem hasCollision_iff {ι : Type} (l : Nat) (a b : StepRow ι) :
    a.hasCollision l b = true ↔ a.hash.take l = b.hash.take l := beq_iff_eq

theorem grouped_of_sorted {ι : Type} {l len : Nat} (hl : l ≤ len) {X : List (StepRow ι)}
    (h : X.Pairwise fun a b => ¬ b.hash.take len < a.hash.take len) :
    Table.Grouped (StepRow.hasCollision l) X := by
  -- the order on the longer part is one on the shorter part
  have hle : ∀ {a b : StepRow ι}, ¬ b.hash.take len < a.hash.take len →
      a.hash.take l ≤ b.hash.take l := by
    intro a b hab hlt
    refine hab (lt_of_take_lt (l := l) ?_)
    rw [take_take, take_take, Nat.min_eq_left hl]
    exact hlt
  induction X with
  | nil => trivial
  | cons a X ih =>
    rw [pairwise_cons] at h
    refine ⟨?_, ih h.2⟩
    refine (Pairwise.and_mem.mp h.2).imp ?_
    rintro x y ⟨hx, -, hxy⟩ hcoll
    rw [hasCollision_iff] at hcoll ⊢
    have hax := hle (h.1 x hx)
    have hxy := hle hxy
    rw [← hcoll] at hxy
    exact List.le_antisymm hax hxy

/-- A sort as `RowSort` asks for: the stable one. -/
def RowSort.stable (ι : Type) : RowSort ι where
  sort len X := X.mergeSort fun a b => !decide (b.hash.take len < a.hash.take len)
  perm _ X := mergeSort_perm X _
  sorted len X := by
    have hsorted := @pairwise_mergeSort _
      (fun a b : StepRow ι => !decide (b.hash.take len < a.hash.take len)) ?_ ?_ X
    · exact hsorted.imp fun h => by simpa using h
    · intro a b c hab hbc
      rw [Bool.not_eq_true', decide_eq_false_iff_not] at hab hbc ⊢
      exact List.le_trans hab hbc
    · intro a b
      rw [Bool.or_eq_true, Bool.not_eq_true', Bool.not_eq_true', decide_eq_false_iff_not,
        decide_eq_false_iff_not]
      exact List.le_total _ _

end Rcoin
