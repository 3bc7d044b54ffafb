/-
  The second half of `OptimisedSolve`, which recreates full indices from a
  partial solution.  Its loop adds one partial index after another to a counter
  of full subtrees; processing the indices of a whole subtree adds that subtree
  as one digit.  What the subtrees hold is described by `Recreated`.
-/
import Rcoin.Equihash.Truncated

namespace Rcoin

open List Nat Option

namespace Equihash

variable {E : Equihash} {st : HashState E}

/-! ## Indices with a given truncation -/

theorem recreateSize_eq : E.recreateSize = 2 ^ (E.collisionBitLength - 7) := by
  have hbits : E.collisionBitLength + 1 - 8 = E.collisionBitLength - 7 := by omega
  rw [recreateSize, untruncateIndex, hbits, or_zero]
  exact one_shiftLeft _

theorem initSize_eq : E.initSize = 2 ^ 8 * 2 ^ (E.collisionBitLength - 7) := by
  have hge := E.collisionBitLength_ge
  have hbits : E.collisionBitLength + 1 = 8 + (E.collisionBitLength - 7) := by omega
  rw [initSize, hbits, pow_add]

theorem untruncateIndex_eq (t : UInt8) {j : Nat} (hj : j < E.recreateSize) :
    untruncateIndex t j (E.collisionBitLength + 1) =
      t.toNat * 2 ^ (E.collisionBitLength - 7) + j := by
  have hbits : E.collisionBitLength + 1 - 8 = E.collisionBitLength - 7 := by omega
  rw [recreateSize_eq] at hj
  rw [untruncateIndex, hbits, ← shiftLeft_add_eq_or_of_lt hj, shiftLeft_eq]

theorem trunc_toNat {i : Nat} (hi : i < E.initSize) :
    (E.trunc i).toNat = i / 2 ^ (E.collisionBitLength - 7) := by
  have hbits : E.collisionBitLength + 1 - 8 = E.collisionBitLength - 7 := by omega
  have hlt : i / 2 ^ (E.collisionBitLength - 7) < 2 ^ 8 := by
    apply Nat.div_lt_of_lt_mul
    rw [Nat.mul_comm, ← initSize_eq]
    exact hi
  have hmask : (0xff : Nat) = 2 ^ 8 - 1 := rfl
  rw [trunc, truncateIndex, hbits, hmask, and_two_pow_sub_one_eq_mod,
    shiftRight_eq_div_pow, mod_eq_of_lt hlt, UInt8.toNat_ofNat_of_lt' hlt]

theorem exists_untruncateIndex (t : UInt8) (i : Nat) :
    (∃ j, j < E.recreateSize ∧ untruncateIndex t j (E.collisionBitLength + 1) = i) ↔
      i < E.initSize ∧ E.trunc i = t := by
  have hpos : 0 < 2 ^ (E.collisionBitLength - 7) := Nat.two_pow_pos _
  have ht := t.toNat_lt
  constructor
  · rintro ⟨j, hj, rfl⟩
    rw [untruncateIndex_eq t hj]
    rw [recreateSize_eq] at hj
    have hlt : t.toNat * 2 ^ (E.collisionBitLength - 7) + j < E.initSize := by
      have hmul := mul_le_mul_right (2 ^ (E.collisionBitLength - 7)) (succ_le_of_lt ht)
      rw [succ_mul] at hmul
      rw [initSize_eq]
      omega
    refine ⟨hlt, UInt8.toNat_inj.mp ?_⟩
    rw [trunc_toNat hlt, mul_comm, mul_add_div hpos, div_eq_of_lt hj, add_zero]
  · rintro ⟨hi, rfl⟩
    have hj : i % 2 ^ (E.collisionBitLength - 7) < E.recreateSize := by
      rw [recreateSize_eq]
      exact mod_lt _ hpos
    refine ⟨i % 2 ^ (E.collisionBitLength - 7), hj, ?_⟩
    rw [untruncateIndex_eq _ hj, trunc_toNat hi, mul_comm]
    exact div_add_mod _ _

/-- The hash output that is kept is that of the next candidate, so generating it
    for the first index of each output is enough. -/
theorem recreateList_eq (t : UInt8) :
    E.recreateList st t = (range E.recreateSize).map fun j =>
      E.row st id (E.K + 1) [untruncateIndex t j (E.collisionBitLength + 1)] := by
  let start := t.toNat * 2 ^ (E.collisionBitLength - 7)
  let step := fun (s : List UInt8 × List FullStepRow) (j : Nat) =>
    let newIndex := untruncateIndex t j (E.collisionBitLength + 1)
    let tmpHash :=
      if j == 0 || newIndex % E.indicesPerHashOutput == 0 then
        st.generateHash (newIndex / E.indicesPerHashOutput)
      else s.1
    (tmpHash, s.2 ++ [E.fullStepRow (E.hashPart tmpHash (newIndex % E.indicesPerHashOutput))
      newIndex])
  have hrun : ∀ n ≤ E.recreateSize,
      ((range n).foldl step ([], [])).2 = ((range n).map fun j =>
        E.row st id (E.K + 1) [untruncateIndex t j (E.collisionBitLength + 1)]) ∧
      (0 < n → ((range n).foldl step ([], [])).1 =
        st.generateHash ((start + (n - 1)) / E.indicesPerHashOutput)) := by
    intro n
    induction n with
    | zero => exact fun _ => ⟨rfl, fun h => absurd h (lt_irrefl 0)⟩
    | succ n ih =>
      intro hn
      obtain ⟨hrows, hhash⟩ := ih (by omega)
      have hidx : untruncateIndex t n (E.collisionBitLength + 1) = start + n :=
        untruncateIndex_eq t hn
      -- the output that is kept, if it is not generated anew
      have htmp : (if n == 0 || (start + n) % E.indicesPerHashOutput == 0 then
          st.generateHash ((start + n) / E.indicesPerHashOutput)
          else ((range n).foldl step ([], [])).1) =
          st.generateHash ((start + n) / E.indicesPerHashOutput) := by
        split
        · rfl
        next hkeep =>
          rw [Bool.or_eq_true, not_or, beq_iff_eq, beq_iff_eq] at hkeep
          have hsucc : start + n = start + (n - 1) + 1 := by omega
          have hdvd : ¬ E.indicesPerHashOutput ∣ start + (n - 1) + 1 := by
            rw [← hsucc]
            exact fun h => hkeep.2 (mod_eq_zero_of_dvd h)
          rw [hhash (by omega), hsucc, succ_div_of_not_dvd hdvd]
      rw [range_succ, foldl_append, map_append, ← hrows]
      refine ⟨?_, fun _ => ?_⟩
      · show _ ++ [E.fullStepRow (E.hashPart (if _ then _ else _) _) _] = _
        rw [hidx, htmp, fullStepRow_eq]
        simp only [map_singleton, hidx]
      · show (if _ then _ else _) = _
        rw [hidx, htmp]
        rfl
  exact (hrun E.recreateSize le_rfl).1

/-! ## What is recreated -/

variable (E st) in
/-- The index lists that are recreated from `2 ^ l` truncated indices.  Both
    halves must be recreated in some way.  The two trees that are joined may come
    from either half, as long as their first indices have the truncations of the
    first truncated indices of the halves. -/
def Recreated : Nat → List UInt8 → List Nat → Prop
  | 0, p, is => ∃ i, is = [i] ∧ i < E.initSize ∧ E.trunc i = p.headD 0
  | l + 1, p, is =>
    (∃ a, Recreated l (p.take (2 ^ l)) a) ∧ (∃ b, Recreated l (p.drop (2 ^ l)) b) ∧
      ∃ a b, (Recreated l (p.take (2 ^ l)) a ∨ Recreated l (p.drop (2 ^ l)) a) ∧
        (Recreated l (p.take (2 ^ l)) b ∨ Recreated l (p.drop (2 ^ l)) b) ∧
        is = a ++ b ∧ a.Disjoint b ∧ a.headD 0 < b.headD 0 ∧
        E.AgreeOn (E.collisionBitLength * (l + 1)) (E.hashXor st a) (E.hashXor st b) ∧
        ((E.trunc (a.headD 0) = (p.take (2 ^ l)).headD 0 ∧
            E.trunc (b.headD 0) = (p.drop (2 ^ l)).headD 0) ∨
          (E.trunc (b.headD 0) = (p.take (2 ^ l)).headD 0 ∧
            E.trunc (a.headD 0) = (p.drop (2 ^ l)).headD 0))

variable {p : List UInt8}

theorem Recreated.fullTree {l : Nat} {is : List Nat} (h : E.Recreated st l p is) :
    FullTree E st l is ∧ ∀ i ∈ is, i < E.initSize := by
  induction l generalizing p is with
  | zero =>
    obtain ⟨i, rfl, hi, -⟩ := h
    refine ⟨fullTree_zero.mpr ⟨i, rfl⟩, fun j hj => ?_⟩
    rw [mem_singleton.mp hj]
    exact hi
  | succ l ih =>
    obtain ⟨-, -, a, b, ha, hb, rfl, hdis, hlt, hagree, -⟩ := h
    obtain ⟨hta, halt⟩ := ha.elim (fun h => ih h) fun h => ih h
    obtain ⟨htb, hblt⟩ := hb.elim (fun h => ih h) fun h => ih h
    refine ⟨(fullTree_append hta.length htb.length).mpr ⟨hta, htb, hdis, hlt, hagree⟩, ?_⟩
    intro i hi
    rcases mem_append.mp hi with hi | hi
    · exact halt i hi
    · exact hblt i hi

theorem hasRows_recreateList {t : UInt8} (hp : p.headD 0 = t) :
    HasRows E st id (E.K + 1) (E.Recreated st 0 p) (E.recreateList st t) := by
  intro x
  rw [recreateList_eq, List.mem_map]
  constructor
  · rintro ⟨j, hj, rfl⟩
    obtain ⟨hlt, htrunc⟩ := (exists_untruncateIndex t _).mp ⟨j, mem_range.mp hj, rfl⟩
    exact ⟨_, ⟨_, rfl, hlt, htrunc.trans hp.symm⟩, rfl⟩
  · rintro ⟨is, ⟨i, rfl, hlt, htrunc⟩, rfl⟩
    obtain ⟨j, hj, rfl⟩ := (exists_untruncateIndex t i).mpr ⟨hlt, htrunc.trans hp⟩
    exact ⟨j, mem_range.mpr hj, rfl⟩

/-! ## One merge -/

theorem branchCombine_comm (lt rt : UInt8) (x y : FullStepRow) :
    E.branchCombine lt rt x y = E.branchCombine lt rt y x := by
  rw [branchCombine, branchCombine, StepRow.distinctIndices_comm y x,
    StepRow.merge_comm y x]
  cases E.isValidBranch x lt <;> cases E.isValidBranch y rt <;>
    cases E.isValidBranch y lt <;> cases E.isValidBranch x rt <;> rfl

theorem isValidBranch_row (n : Nat) (is : List Nat) (t : UInt8) :
    E.isValidBranch (E.row st id n is) t = true ↔ E.trunc (is.headD 0) = t := by
  rw [isValidBranch, indices_row_id, beq_iff_eq]
  rfl

theorem branchCombine_row {lt rt : UInt8} {n : Nat} {a b : List Nat} (x : FullStepRow) :
    E.branchCombine lt rt (E.row st id (n + 1) a) (E.row st id (n + 1) b) = some x ↔
      a.Disjoint b ∧
      ((E.trunc (a.headD 0) = lt ∧ E.trunc (b.headD 0) = rt) ∨
        (E.trunc (b.headD 0) = lt ∧ E.trunc (a.headD 0) = rt)) ∧
      x = E.row st id n (join id a b) := by
  have hdistinct : (E.row st id (n + 1) a).distinctIndices (E.row st id (n + 1) b) = true ↔
      a.Disjoint b := distinctIndices_row
  have hrow : ∀ is t, E.isValidBranch (E.row st id (n + 1) is) t = true ↔
      E.trunc (is.headD 0) = t := isValidBranch_row (n + 1)
  have hal := hrow a lt
  have har := hrow a rt
  have hbl := hrow b lt
  have hbr := hrow b rt
  rw [branchCombine, StepRow.merge_comm (E.row st id (n + 1) b), merge_row, ← hdistinct, ← hal,
    ← har, ← hbl, ← hbr]
  split
  next hd =>
    split
    next h =>
      rw [Bool.and_eq_true] at h
      exact ⟨fun hs => ⟨hd, .inl h, (some.inj hs).symm⟩,
        fun hs => congrArg some hs.2.2.symm⟩
    next h =>
      split
      next h' =>
        rw [Bool.and_eq_true] at h'
        exact ⟨fun hs => ⟨hd, .inr h', (some.inj hs).symm⟩,
          fun hs => congrArg some hs.2.2.symm⟩
      next h' =>
        rw [Bool.and_eq_true] at h h'
        simp [h, h']
  next hd => simp [hd]

theorem hasRows_append {n : Nat} {S T : List Nat → Prop} {X Y : List FullStepRow}
    (hX : HasRows E st id n S X) (hY : HasRows E st id n T Y) :
    HasRows E st id n (fun is => S is ∨ T is) (Y ++ X) := by
  intro x
  rw [mem_append, hX x, hY x]
  constructor
  · rintro (⟨is, h, rfl⟩ | ⟨is, h, rfl⟩)
    · exact ⟨is, .inr h, rfl⟩
    · exact ⟨is, .inl h, rfl⟩
  · rintro ⟨is, h | h, rfl⟩
    · exact .inr ⟨is, h, rfl⟩
    · exact .inl ⟨is, h, rfl⟩

theorem hasRows_collideBranches (sort : RowSort Nat) {l n : Nat} (hln : n + l = E.K)
    {left ic : List FullStepRow}
    (hleft : HasRows E st id (n + 1) (E.Recreated st l (p.take (2 ^ l))) left)
    (hic : HasRows E st id (n + 1) (E.Recreated st l (p.drop (2 ^ l))) ic)
    (hleftNe : ∃ a, E.Recreated st l (p.take (2 ^ l)) a)
    (hicNe : ∃ b, E.Recreated st l (p.drop (2 ^ l)) b) {len : Nat}
    (hlen : E.collisionByteLength ≤ len) : HasRows E st id n (E.Recreated st (l + 1) p)
      (E.collideBranches (sort.sort len (ic ++ left)) ((p.take (2 ^ l)).headD 0)
        ((p.drop (2 ^ l)).headD 0)) := by
  have htree : ∀ is, (E.Recreated st l (p.take (2 ^ l)) is ∨ E.Recreated st l (p.drop (2 ^ l)) is) →
      FullTree E st l is := fun is h => h.elim (fun h => h.fullTree.1) fun h => h.fullTree.1
  intro x
  rw [collideBranches, mem_collide_sort sort (hasRows_append hleft hic)
    (fun is h => (htree is h).hashXor_lt (by omega)) (branchCombine_comm _ _)
    (fun is h => if_neg (not_distinctIndices_self (htree is h))) hlen]
  constructor
  · rintro ⟨a, b, ha, hb, heq, hsome⟩
    obtain ⟨hdis, hbranch, rfl⟩ := (branchCombine_row x).mp hsome
    have hta := htree a ha
    have htb := htree b hb
    have hagree := (agreeOn_iff hln _ _).mpr heq
    refine ⟨join id a b, ⟨hleftNe, hicNe, ?_⟩, rfl⟩
    rw [join_fullTrees hta htb hdis]
    split
    next hlt => exact ⟨a, b, ha, hb, rfl, hdis, hlt, hagree, hbranch⟩
    next hge =>
      have hne := headD_ne hta.ne_nil htb.ne_nil hdis
      exact ⟨b, a, hb, ha, rfl, hdis.symm, by omega, Eq.symm hagree, hbranch.symm⟩
  · rintro ⟨is, ⟨-, -, a, b, ha, hb, rfl, hdis, hlt, hagree, hbranch⟩, rfl⟩
    refine ⟨a, b, ha, hb, (agreeOn_iff hln _ _).mp hagree,
      (branchCombine_row _).mpr ⟨hdis, hbranch, ?_⟩⟩
    rw [join_fullTrees (htree a ha) (htree b hb) hdis, if_pos hlt]

/-! ## The counter of subtrees -/

/-- Adding `n` partial indices, the first of which has index `s`. -/
def recreateRun (E : Equihash) (st : HashState E) (sort : RowSort Nat) (partialSoln : List UInt8)
    (s : Nat) : Nat → List (Option (List FullStepRow)) → Option (List (Option (List FullStepRow)))
  | 0, X => some X
  | n + 1, X => (recreateRun E st sort partialSoln s n X).bind fun X =>
      E.insertSubtree sort partialSoln 0 (s + n) X (E.recreateList st (partialSoln.getD (s + n) 0))

/-- The list of the subtree of height `r` that starts at index `s`. -/
def subtreeList (E : Equihash) (st : HashState E) (sort : RowSort Nat) (partialSoln : List UInt8) :
    Nat → Nat → Option (List FullStepRow)
  | 0, s => some (E.recreateList st (partialSoln.getD s 0))
  | r + 1, s =>
    (subtreeList E st sort partialSoln r s).bind fun left =>
      (subtreeList E st sort partialSoln r (s + 2 ^ r)).bind fun ic =>
        let hashLen := E.hashLength - r * E.collisionByteLength
        let ic := E.collideBranches (sort.sort hashLen (ic ++ left))
          (partialSoln.getD s 0) (partialSoln.getD (s + 2 ^ r) 0)
        if ic.isEmpty then none else some ic

section

variable {sort : RowSort Nat} {partialSoln : List UInt8}

theorem recreateRun_zero (n : Nat) :
    recreateRun E st sort partialSoln 0 n [] = E.recreateLoop st sort partialSoln n := by
  induction n with
  | zero => rfl
  | succ n ih => rw [recreateRun, recreateLoop, ih, zero_add]

theorem recreateRun_add (s m n : Nat) (X : List (Option (List FullStepRow))) :
    recreateRun E st sort partialSoln s (m + n) X =
      (recreateRun E st sort partialSoln s m X).bind
        (recreateRun E st sort partialSoln (s + m) n) := by
  induction n with
  | zero =>
    cases recreateRun E st sort partialSoln s m X <;> simp [recreateRun]
  | succ n ih =>
    rw [← add_assoc, recreateRun, ih, bind_assoc]
    refine bind_congr fun Y _ => ?_
    rw [recreateRun, add_assoc]

theorem recreateRun_subtree {r s : Nat} {X Y : List (Option (List FullStepRow))}
    (hX : X = replicate r none ++ Y ∨ X = [] ∧ Y = []) :
    recreateRun E st sort partialSoln s (2 ^ r) X =
      (subtreeList E st sort partialSoln r s).bind fun ic =>
        (E.insertSubtree sort partialSoln r s Y ic).map (replicate r none ++ ·) := by
  induction r generalizing s X Y with
  | zero =>
    have hXY : X = Y := by
      rcases hX with rfl | ⟨rfl, rfl⟩
      · rfl
      · rfl
    subst hXY
    show E.insertSubtree sort partialSoln 0 (s + 0) X _ =
      (E.insertSubtree sort partialSoln 0 s X _).map fun Z => Z
    rw [Nat.add_zero, Option.map_id']
  | succ r ih =>
    have hpow : 2 ^ (r + 1) = 2 ^ r + 2 ^ r := by rw [pow_succ, mul_two]
    -- the left half fills digit `r`
    have hleft : recreateRun E st sort partialSoln s (2 ^ r) X =
        (subtreeList E st sort partialSoln r s).map fun left =>
          replicate r none ++ some left :: Y := by
      rcases hX with rfl | ⟨rfl, rfl⟩
      · rw [ih (Y := none :: Y) (Or.inl (by rw [replicate_succ', append_assoc]; rfl))]
        cases subtreeList E st sort partialSoln r s <;> rfl
      · rw [ih (Y := []) (.inr ⟨rfl, rfl⟩)]
        cases subtreeList E st sort partialSoln r s <;> rfl
    rw [hpow, recreateRun_add, hleft, subtreeList]
    cases subtreeList E st sort partialSoln r s with
    | none => rfl
    | some left =>
      -- the right half is merged with it
      rw [map_some, bind_some, ih (Y := some left :: Y) (Or.inl rfl)]
      cases subtreeList E st sort partialSoln r (s + 2 ^ r) with
      | none => rfl
      | some ic =>
        rw [bind_some, bind_some, bind_some, insertSubtree,
          Nat.add_sub_cancel]
        simp only
        split
        · rfl
        · rw [Option.map_map, bind_some, replicate_succ']
          congr 1
          funext Z
          simp only [Function.comp_apply, append_assoc, singleton_append]

theorem recreateLoop_eq :
    E.recreateLoop st sort partialSoln (2 ^ E.K) =
      (subtreeList E st sort partialSoln E.K 0).map fun ic =>
        replicate E.K none ++ [some ic] := by
  rw [← recreateRun_zero, recreateRun_subtree (Y := []) (.inr ⟨rfl, rfl⟩)]
  cases subtreeList E st sort partialSoln E.K 0 <;> rfl

/-! ## The recreated solutions -/

theorem headD_take_drop (partialSoln : List UInt8) (r s : Nat) :
    ((partialSoln.drop s).take (2 ^ r)).headD 0 = partialSoln.getD s 0 := by
  have hpos := Nat.two_pow_pos r
  rw [List.headD_eq_head?_getD, List.head?_take, if_neg (by omega), List.head?_drop,
    List.getD_eq_getElem?_getD]

theorem take_subtree (r s : Nat) :
    ((partialSoln.drop s).take (2 ^ (r + 1))).take (2 ^ r) = (partialSoln.drop s).take (2 ^ r) := by
  rw [List.take_take, Nat.min_eq_left (Nat.pow_le_pow_right (by decide) (Nat.le_succ r))]

theorem drop_subtree (r s : Nat) :
    ((partialSoln.drop s).take (2 ^ (r + 1))).drop (2 ^ r) =
      (partialSoln.drop (s + 2 ^ r)).take (2 ^ r) := by
  have hpow : 2 ^ (r + 1) - 2 ^ r = 2 ^ r := by
    rw [Nat.pow_succ, Nat.mul_two, Nat.add_sub_cancel]
  rw [drop_take, hpow, drop_drop]

theorem subtreeList_spec {r n : Nat} (hrn : n + r = E.K + 1) (s : Nat) :
    match subtreeList E st sort partialSoln r s with
    | none => ∀ is, ¬ E.Recreated st r ((partialSoln.drop s).take (2 ^ r)) is
    | some ic => (∃ is, E.Recreated st r ((partialSoln.drop s).take (2 ^ r)) is) ∧
        HasRows E st id n (E.Recreated st r ((partialSoln.drop s).take (2 ^ r))) ic := by
  induction r generalizing n s with
  | zero =>
    obtain rfl : n = E.K + 1 := hrn
    have hrows := @hasRows_recreateList E st _ _ (headD_take_drop partialSoln 0 s)
    refine ⟨?_, hrows⟩
    obtain ⟨hlt, htrunc⟩ := (exists_untruncateIndex (E := E) (partialSoln.getD s 0) _).mp
      ⟨0, by rw [recreateSize_eq]; exact Nat.two_pow_pos _, rfl⟩
    exact ⟨_, _, rfl, hlt, htrunc.trans (headD_take_drop partialSoln 0 s).symm⟩
  | succ r ih =>
    have hleft := ih (n := n + 1) (by omega) s
    have hright := ih (n := n + 1) (by omega) (s + 2 ^ r)
    rw [← take_subtree] at hleft
    rw [← drop_subtree] at hright
    rw [subtreeList]
    -- half a subtree that recreates nothing leaves nothing of the whole
    cases hl : subtreeList E st sort partialSoln r s with
    | none =>
      rw [hl] at hleft
      rintro is ⟨⟨a, ha⟩, -⟩
      exact hleft a ha
    | some left =>
      rw [hl] at hleft
      cases hr : subtreeList E st sort partialSoln r (s + 2 ^ r) with
      | none =>
        rw [hr] at hright
        rintro is ⟨-, ⟨b, hb⟩, -⟩
        exact hright b hb
      | some ic =>
        rw [hr] at hright
        have hlen : E.collisionByteLength ≤ E.hashLength - r * E.collisionByteLength := by
          have hsum : E.K + 1 = r + n + 1 := by omega
          rw [hashLength, hsum, add_mul, add_mul, one_mul]
          omega
        -- both halves recreate something: what collides is what the subtree recreates
        have hrows := hasRows_collideBranches sort (n := n) (by omega) hleft.2 hright.2 hleft.1
          hright.1 hlen
        have hlt := headD_take_drop partialSoln r s
        have hrt := headD_take_drop partialSoln r (s + 2 ^ r)
        rw [← take_subtree] at hlt
        rw [← drop_subtree] at hrt
        rw [hlt, hrt] at hrows
        simp only [bind_some]
        split
        next hnone =>
          split at hnone
          next hempty =>
            intro is his
            have hmem := (hrows _).mpr ⟨is, his, rfl⟩
            rw [isEmpty_iff.mp hempty] at hmem
            exact not_mem_nil hmem
          · cases hnone
        next L hsome =>
          split at hsome
          · cases hsome
          next hnonempty =>
            rw [← some.inj hsome]
            refine ⟨?_, hrows⟩
            obtain ⟨x, hx⟩ := exists_mem_of_ne_nil _ fun h => hnonempty (isEmpty_iff.mpr h)
            obtain ⟨is, his, -⟩ := (hrows x).mp hx
            exact ⟨is, his⟩

theorem mem_recreate (hlen : partialSoln.length = 2 ^ E.K) (soln : List UInt8) :
    soln ∈ E.recreate st sort partialSoln ↔
      ∃ is, E.Recreated st E.K partialSoln is ∧
        soln = getMinimalFromIndices is E.collisionBitLength := by
  have hspec := @subtreeList_spec E st sort partialSoln E.K 1 (add_comm _ _) 0
  rw [drop_zero, take_of_length_le (le_of_eq hlen)] at hspec
  rw [recreate, recreateLoop_eq]
  cases hsub : subtreeList E st sort partialSoln E.K 0 with
  | none =>
    rw [hsub] at hspec
    constructor
    · intro h
      cases h
    · rintro ⟨is, his, -⟩
      exact absurd his (hspec is)
  | some ic =>
    rw [hsub] at hspec
    have htop : (replicate E.K none ++ [some ic]).getD E.K none = some ic := by
      rw [getD_eq_getElem?_getD, getElem?_append_right (by rw [length_replicate]),
        length_replicate, Nat.sub_self]
      rfl
    simp only [map_some, htop, getD_some]
    rw [mem_dedup, mem_mergeSort, List.mem_map]
    constructor
    · rintro ⟨x, hx, rfl⟩
      obtain ⟨is, his, rfl⟩ := (hspec.2 x).mp hx
      exact ⟨is, his, by rw [getIndices, indices_row_id]⟩
    · rintro ⟨is, his, rfl⟩
      exact ⟨_, (hspec.2 _).mpr ⟨is, his, rfl⟩, by rw [getIndices, indices_row_id]⟩

end

theorem mem_optimisedSolve (sortTruncated : RowSort UInt8) (sort : RowSort Nat)
    (soln : List UInt8) :
    soln ∈ E.optimisedSolve st sortTruncated sort ↔
      ∃ js is, E.PartialSolution st js ∧ E.Recreated st E.K (js.map E.trunc) is ∧
        soln = getMinimalFromIndices is E.collisionBitLength := by
  rw [optimisedSolve, mem_flatMap]
  constructor
  · rintro ⟨p, hp, hsoln⟩
    obtain ⟨js, hjs, rfl⟩ := (mem_partialSolutions sortTruncated p).mp hp
    obtain ⟨is, his, rfl⟩ := (mem_recreate (by rw [length_map, hjs.tree.length]) soln).mp hsoln
    exact ⟨js, is, hjs, his, rfl⟩
  · rintro ⟨js, is, hjs, his, rfl⟩
    exact ⟨js.map E.trunc, (mem_partialSolutions sortTruncated _).mpr ⟨js, hjs, rfl⟩,
      (mem_recreate (by rw [length_map, hjs.tree.length]) _).mpr ⟨is, his, rfl⟩⟩

end Equihash

end Rcoin
