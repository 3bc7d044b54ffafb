/-
  The root of `ComputeMerkleRoot` is that of the tree built level by level, and the
  branch of `ComputeMerkleBranch` leads from its leaf to that root
  (src/consensus/merkle.cpp).
-/
import Rcoin.Merkle.Computation
import Rcoin.Primitives

namespace Rcoin

open Bool List Nat Option

namespace Merkle

open MerkleTree (branch branch_succ branch_zero sibling)

variable {H : Type} [DecidableEq H] {Hash : H → H → H} {inner : Nat → H} {leaf : Nat → H}
  {null : H} {n t m count : Nat} {matchlevel : Option Nat}

/-! ## A climb -/

variable {level : Nat}

theorem testBit_eq_false_of_lt (hdvd : 2 ^ level ∣ count) (hbit : count.testBit level = true)
    (hm : m < count) (hlow : count ≤ m + 2 ^ level) : m.testBit level = false := by
  obtain ⟨r, hr⟩ := exists_odd_mul hdvd hbit
  have hsplit : (r * 2 + 1) * 2 ^ level = r * 2 * 2 ^ level + 2 ^ level := Nat.succ_mul _ _
  have hdiv : m / 2 ^ level = r * 2 := by
    refine Nat.div_eq_of_lt_le (by omega) ?_
    omega
  rw [Nat.testBit_eq_decide_div_mod_eq, hdiv]
  exact decide_eq_false (by omega)

/-- What a climb knows: its node is the last one of its level.  Where the leaf of the
    branch is below that node, the siblings below the level are collected; else they are
    up to the entry of `inner` that depends on the leaf, which is still ahead; or the
    leaf has not come yet. -/
structure ClimbOk (Hash : H → H → H) (leaf : Nat → H) (n t count : Nat) (matchlevel : Option Nat)
    (s : ClimbState H) : Prop where
  h_eq : s.h = MerkleTree.hash Hash leaf n s.level (count / 2 ^ s.level - 1)
  matched : s.matchh = true → t / 2 ^ s.level = count / 2 ^ s.level - 1 ∧
    s.pbranch = branch Hash leaf n t s.level
  pending : s.matchh = false → ∀ l, matchlevel = some l →
    s.level ≤ l ∧ s.pbranch = branch Hash leaf n t l
  before : s.matchh = false → matchlevel = none → count ≤ t ∧ s.pbranch = []

/-- The entries of `inner` that a climb uses, and the one that depends on the leaf of the
    branch, seen from a number `m` of leaves shortly before `count`. -/
structure InnerAt (Hash : H → H → H) (leaf : Nat → H) (n t m count : Nat) (inner : Nat → H)
    (matchlevel : Option Nat) : Prop where
  lt : m < count
  inner_eq : ∀ l, count ≤ m + 2 ^ l → 2 ^ (l + 1) ∣ count →
    inner l = MerkleTree.hash Hash leaf n l (count / 2 ^ l - 2)
  match_eq : ∀ l, matchlevel = some l → m.testBit l = true ∧ t / 2 ^ l = m / 2 ^ l - 1

theorem ClimbOk.step {s : ClimbState H} (hin : InnerAt Hash leaf n t m count inner matchlevel)
    (h : ClimbOk Hash leaf n t count matchlevel s) (hdvd : 2 ^ (s.level + 1) ∣ count)
    (hlow : count ≤ m + 2 ^ s.level) (hn : count < n + 2 ^ s.level) :
    ClimbOk Hash leaf n t count matchlevel {
      level := s.level + 1
      h := Hash (inner s.level) s.h
      matchh := s.matchh || matchlevel == some s.level
      pbranch :=
        if s.matchh then s.pbranch ++ [inner s.level]
        else if matchlevel = some s.level then s.pbranch ++ [s.h]
        else s.pbranch
      equal := s.equal || inner s.level == s.h } := by
  have hpos : 0 < count := zero_lt_of_lt hin.lt
  have hinner := hin.inner_eq s.level hlow hdvd
  obtain ⟨q, hq, hdiv, hdiv', hright⟩ := lt_width_of_even hdvd hpos hn
  have htop : t / 2 ^ (s.level + 1) = t / 2 ^ s.level / 2 := by
    rw [Nat.pow_succ, Nat.div_div_eq_div_mul]
  refine ⟨node_of_even hdvd hpos hn hinner h.h_eq, fun hmatch => ?_, fun hno l hl => ?_,
    fun hno hnone => ?_⟩
  · show t / 2 ^ (s.level + 1) = count / 2 ^ (s.level + 1) - 1 ∧
      _ = branch Hash leaf n t (s.level + 1)
    rw [branch_succ, sibling, htop, hdiv']
    cases hs : s.matchh with
    | true =>
      -- the leaf is below the right child
      obtain ⟨hpath, hbranch⟩ := h.matched hs
      rw [hdiv] at hpath hinner
      have hidx : 2 * q - 1 - 1 = 2 * q - 2 := by omega
      rw [if_pos rfl, hbranch, hpath, if_pos (by omega), hinner, hidx]
      exact ⟨by omega, rfl⟩
    | false =>
      -- the leaf is below the left child
      simp only [hs, Bool.false_or, beq_iff_eq] at hmatch
      obtain ⟨-, hbranch⟩ := h.pending hs _ hmatch
      obtain ⟨-, hpath⟩ := hin.match_eq _ hmatch
      obtain ⟨-, hidx⟩ := testBit_of_lt hdvd (by omega : count < m + 2 ^ s.level + 1) hin.lt
      rw [hidx, hdiv] at hpath
      have hnext : 2 * q - 2 + 1 = (q - 1) * 2 + 1 := by omega
      have hnode : s.h = MerkleTree.hash Hash leaf n s.level ((q - 1) * 2 + 1) := by
        rw [h.h_eq, hdiv]
        congr 1
        omega
      rw [if_neg Bool.false_ne_true, if_pos hmatch, hbranch, hpath, if_neg (by omega), hnext,
        if_pos hright, hnode]
      exact ⟨by omega, rfl⟩
  · simp only [or_eq_false_iff, beq_eq_false_iff_ne] at hno
    obtain ⟨hle, hbranch⟩ := h.pending hno.1 l hl
    have hne : s.level ≠ l := fun heq => hno.2 (by rw [hl, heq])
    refine ⟨by show s.level + 1 ≤ l; omega, ?_⟩
    simp only [hno.1, false_eq_true, if_false, if_neg hno.2]
    exact hbranch
  · simp only [or_eq_false_iff, beq_eq_false_iff_ne] at hno
    simp only [hno.1, false_eq_true, if_false, if_neg hno.2]
    exact h.before hno.1 hnone

variable {left : Nat}

theorem climbAll_spec {s s' : ClimbState H} (hin : InnerAt Hash leaf n t m count inner matchlevel)
    (h : ClimbOk Hash leaf n t count matchlevel s) (hdvd : 2 ^ s.level ∣ count)
    (hlow : count ≤ m + 2 ^ s.level) (hn : count < n + 2 ^ s.level)
    (hclimb : climbAll Hash inner matchlevel count left s = some s') :
    ClimbOk Hash leaf n t count matchlevel s' ∧ s.level ≤ s'.level ∧ 2 ^ s'.level ∣ count ∧
      count.testBit s'.level = true := by
  induction left generalizing s with
  | zero => cases hclimb
  | succ left ih =>
    rw [climbAll] at hclimb
    split at hclimb
    · next hbit =>
      cases hclimb
      exact ⟨h, le_refl _, hdvd, hbit⟩
    · next hbit =>
      have hdvd' := two_pow_succ_dvd hdvd (eq_false_iff.mpr hbit)
      have hlow' : count ≤ m + 2 ^ (s.level + 1) := by omega
      have hn' : count < n + 2 ^ (s.level + 1) := by omega
      obtain ⟨hok, hle, hrest⟩ := ih (h.step hin hdvd' hlow hn) hdvd' hlow' hn' hclimb
      have hle' : s.level + 1 ≤ s'.level := hle
      exact ⟨hok, by omega, hrest⟩

/-! ## The leaves -/

/-- The loop over the leaves so far: its entries of `inner`, and the siblings of the leaf
    of the branch below the entry that depends on it. -/
structure LeafOk (Hash : H → H → H) (leaf : Nat → H) (n t : Nat) (s : LeafState H) : Prop where
  inner_ok : InnerOk Hash leaf n s.count s.inner
  matched : ∀ l, s.matchlevel = some l → s.count.testBit l = true ∧
    t / 2 ^ l = s.count / 2 ^ l - 1 ∧ s.pbranch = branch Hash leaf n t l
  before : s.matchlevel = none → s.count ≤ t ∧ s.pbranch = []

omit [DecidableEq H] in
theorem leafOk_start : LeafOk Hash leaf n t
    { count := 0, inner := fun _ => null, matchlevel := none, mutated := false
      pbranch := [] } where
  inner_ok l hl := by
    rw [zero_testBit] at hl
    cases hl
  matched _ hl := nomatch hl
  before _ := ⟨zero_le _, rfl⟩

omit [DecidableEq H] in
theorem LeafOk.matchlevel_eq_none {s : LeafState H} (h : LeafOk Hash leaf n t s)
    (heq : s.count = t) : s.matchlevel = none := by
  cases hlevel : s.matchlevel with
  | none => rfl
  | some l =>
    obtain ⟨hbit, hpath, -⟩ := h.matched l hlevel
    rw [testBit_eq_decide_div_mod_eq, heq] at hbit
    have hodd := of_decide_eq_true hbit
    rw [heq] at hpath
    omega

omit [DecidableEq H] in
theorem LeafOk.innerAt {s : LeafState H} (h : LeafOk Hash leaf n t s) :
    InnerAt Hash leaf n t s.count (s.count + 1) s.inner s.matchlevel where
  lt := lt_succ_self _
  inner_eq l _ hdvd := by
    obtain ⟨hbit, hidx⟩ := testBit_of_lt (m := s.count) hdvd (by omega) (lt_succ_self _)
    rw [h.inner_ok l hbit, hidx]
  match_eq l hl := ⟨(h.matched l hl).1, (h.matched l hl).2.1⟩

omit [DecidableEq H] in
theorem LeafOk.climbOk {s : LeafState H} (h : LeafOk Hash leaf n t s) :
    ClimbOk Hash leaf n t (s.count + 1) s.matchlevel {
      level := 0, h := leaf s.count, matchh := s.count == t, pbranch := s.pbranch
      equal := false } where
  h_eq := by
    rw [Nat.pow_zero, Nat.div_one, Nat.add_sub_cancel]
    rfl
  matched hmatch := by
    have heq : s.count = t := beq_iff_eq.mp hmatch
    rw [(h.before (h.matchlevel_eq_none heq)).2, Nat.pow_zero, Nat.div_one, Nat.div_one,
      Nat.add_sub_cancel]
    exact ⟨heq.symm, rfl⟩
  pending _ l hl := ⟨zero_le _, (h.matched l hl).2.2⟩
  before hmatch hnone := by
    have hne : s.count ≠ t := beq_eq_false_iff_ne.mp hmatch
    obtain ⟨hle, hnil⟩ := h.before hnone
    exact ⟨by omega, hnil⟩

theorem addLeafAll_spec {s : LeafState H} (h : LeafOk Hash leaf n t s) (hn : s.count < n)
    (hcount : s.count + 1 < 2 ^ 32) :
    ∃ s', addLeafAll Hash t s (leaf s.count) = some s' ∧ s'.count = s.count + 1 ∧
      LeafOk Hash leaf n t s' := by
  obtain ⟨inner', hadd, hinner'⟩ := addLeaf_spec h.inner_ok hn hcount
  rw [← addLeafAll_root Hash t s] at hadd
  obtain ⟨s', hs', heq⟩ := map_eq_some_iff.mp hadd
  obtain ⟨hcount', hinner''⟩ := Prod.mk.inj heq
  refine ⟨s', hs', hcount', by rwa [hcount', hinner''], ?_, ?_⟩
  all_goals
    obtain ⟨c, hclimb, hs'⟩ := bind_eq_some_iff.mp hs'
    cases hs'
    have hlow : s.count + 1 ≤ s.count + 2 ^ 0 := le_refl _
    have hlt : s.count + 1 < n + 2 ^ 0 := succ_lt_succ hn
    obtain ⟨hok, -, hdvd, hbit⟩ := climbAll_spec h.innerAt h.climbOk (one_dvd _) hlow hlt hclimb
  · intro l hl
    cases hmatch : c.matchh with
    | true =>
      simp only [hmatch, if_true, some.injEq] at hl
      obtain rfl := hl
      exact ⟨hbit, hok.matched hmatch⟩
    | false =>
      simp only [hmatch, false_eq_true, if_false] at hl
      obtain ⟨hle, hbranch⟩ := hok.pending hmatch l hl
      obtain ⟨hbitl, hpath, -⟩ := h.matched l hl
      have hlow := testBit_eq_false_of_lt hdvd hbit (lt_succ_self _) (by omega)
      have hne : c.level ≠ l := by
        rintro rfl
        rw [hlow] at hbitl
        cases hbitl
      have hdiv := succ_div_two_pow hbit (by omega : c.level < l)
      rw [testBit_eq_decide_div_mod_eq, hdiv, ← testBit_eq_decide_div_mod_eq]
      exact ⟨hbitl, hpath, hbranch⟩
  · intro hnone
    cases hmatch : c.matchh with
    | true =>
      simp only [hmatch, if_true] at hnone
      cases hnone
    | false =>
      simp only [hmatch, false_eq_true, if_false] at hnone
      exact hok.before hmatch hnone

theorem addLeavesAll_spec {rest : List H} {s : LeafState H} (h : LeafOk Hash leaf n t s)
    (hrest : ∀ i x, rest[i]? = some x → leaf (s.count + i) = x)
    (hn : s.count + rest.length = n) (hlt : n < 2 ^ 32) :
    ∃ s', rest.foldlM (addLeafAll Hash t) s = some s' ∧ s'.count = n ∧
      LeafOk Hash leaf n t s' := by
  induction rest generalizing s with
  | nil => exact ⟨s, rfl, hn, h⟩
  | cons x rest ih =>
    rw [length_cons] at hn
    have hx : leaf s.count = x := hrest 0 x rfl
    obtain ⟨s1, hadd, hcount, h1⟩ := addLeafAll_spec h (by omega) (by omega)
    rw [foldlM_cons, ← hx, hadd]
    refine ih h1 (fun i y hy => ?_) (by omega)
    rw [hcount, add_right_comm, add_assoc]
    exact hrest (i + 1) y hy

/-! ## The sweep -/

/-- The sweep at the last node of a level, `count` being the number of leaves rounded up
    to the level.  The leaf of the branch is below that node, or below an entry of
    `inner` of a higher level. -/
structure SweepOk (Hash : H → H → H) (leaf : Nat → H) (n t : Nat) (matchlevel : Option Nat)
    (count : Nat) (c : ClimbState H) : Prop where
  dvd : 2 ^ c.level ∣ count
  bit : count.testBit c.level = true
  le : n ≤ count
  lt : count < n + 2 ^ c.level
  below : ∀ l < c.level, 2 ^ l < n
  h_eq : c.h = MerkleTree.hash Hash leaf n c.level (count / 2 ^ c.level - 1)
  matched : c.matchh = true → t / 2 ^ c.level = count / 2 ^ c.level - 1 ∧
    c.pbranch = branch Hash leaf n t c.level
  pending : c.matchh = false →
    ∃ l, c.level < l ∧ matchlevel = some l ∧ c.pbranch = branch Hash leaf n t l

variable {s : LeafState H} {c : ClimbState H}

omit [DecidableEq H] in
theorem LeafOk.sweep_innerAt (h : LeafOk Hash leaf n t s) (hcount : s.count = n)
    (hlt : n < count) : InnerAt Hash leaf n t n count s.inner s.matchlevel where
  lt := hlt
  inner_eq l hlow hdvd := by
    obtain ⟨hbit, hidx⟩ := testBit_of_lt (m := n) hdvd (by omega) hlt
    have hinner := h.inner_ok
    rw [hcount] at hinner
    rw [hinner l hbit, hidx]
  match_eq l hl := by
    obtain ⟨hbit, hpath, -⟩ := h.matched l hl
    rw [hcount] at hbit hpath
    exact ⟨hbit, hpath⟩

omit [DecidableEq H] in
theorem SweepOk.climbOk (h : SweepOk Hash leaf n t matchlevel count c) :
    ClimbOk Hash leaf n t (count + 2 ^ c.level) matchlevel { c with
      level := c.level + 1, h := Hash c.h c.h
      pbranch := if c.matchh then c.pbranch ++ [c.h] else c.pbranch } := by
  obtain ⟨r, hr⟩ := exists_odd_mul h.dvd h.bit
  have hlevel := Nat.two_pow_pos c.level
  have hdiv : count / 2 ^ c.level = r * 2 + 1 := by rw [hr, Nat.mul_div_cancel _ hlevel]
  have hnext : count + 2 ^ c.level = (r + 1) * 2 ^ (c.level + 1) := by
    rw [hr, Nat.pow_succ]
    ring
  have hdiv' : (count + 2 ^ c.level) / 2 ^ (c.level + 1) = r + 1 := by
    rw [hnext, Nat.mul_div_cancel _ (Nat.two_pow_pos _)]
  refine ⟨(sweep_node h.dvd h.bit h.le h.h_eq).2, fun hmatch => ?_, fun hno l hl => ?_,
    fun hno hnone => ?_⟩
  · have hmatch' : c.matchh = true := hmatch
    obtain ⟨hpath, hbranch⟩ := h.matched hmatch'
    have htop : t / 2 ^ (c.level + 1) = t / 2 ^ c.level / 2 := by
      rw [Nat.pow_succ, Nat.div_div_eq_div_mul]
    have hlast : ¬r * 2 + 1 < MerkleTree.width n c.level := by
      rw [MerkleTree.lt_width_iff, ← hr]
      exact Nat.not_lt.mpr h.le
    have hsibling : sibling Hash leaf n t c.level = c.h := by
      rw [sibling, h.h_eq, hpath, hdiv, Nat.add_sub_cancel, if_neg (by omega), if_neg hlast]
    rw [hdiv', htop, hpath, if_pos hmatch', branch_succ, hsibling, hbranch]
    exact ⟨by omega, rfl⟩
  · have hno' : c.matchh = false := hno
    obtain ⟨l', hlt, hl', hbranch⟩ := h.pending hno'
    obtain rfl := Option.some.inj (hl.symm.trans hl')
    simp only [hno', false_eq_true, if_false]
    exact ⟨hlt, hbranch⟩
  · obtain ⟨l, -, hl, -⟩ := h.pending hno
    rw [hl] at hnone
    cases hnone

variable {c' : ClimbState H}

theorem SweepOk.step (h : SweepOk Hash leaf n t s.matchlevel count c) (hs : LeafOk Hash leaf n t s)
    (hcount : s.count = n) (ht : t < n) (htop : count ≠ 2 ^ c.level)
    (hclimb : climbAll Hash s.inner s.matchlevel (count + 2 ^ c.level) left { c with
      level := c.level + 1, h := Hash c.h c.h
      pbranch := if c.matchh then c.pbranch ++ [c.h] else c.pbranch } = some c') :
    SweepOk Hash leaf n t s.matchlevel (count + 2 ^ c.level) c' := by
  have hle := h.le
  have hlt := h.lt
  have hn : n < count + 2 ^ c.level := by omega
  have hlow : count + 2 ^ c.level < n + 2 ^ (c.level + 1) := by omega
  have hin := hs.sweep_innerAt hcount hn
  obtain ⟨hok, hle', hdvd, hbit⟩ := climbAll_spec hin h.climbOk
    (sweep_node h.dvd h.bit h.le h.h_eq).1 hlow.le hlow hclimb
  have hmono : 2 ^ (c.level + 1) ≤ 2 ^ c'.level := Nat.pow_le_pow_right (by omega) hle'
  refine ⟨hdvd, hbit, hn.le, by omega, fun l hl => ?_, hok.h_eq, hok.matched, fun hno => ?_⟩
  · exact sweep_below h.lt (three_le_of_ne h.dvd h.bit htop) hdvd hl
  · cases hmatch : s.matchlevel with
    | none =>
      have hbefore := (hok.before hno hmatch).1
      omega
    | some l =>
      obtain ⟨hle, hbranch⟩ := hok.pending hno l hmatch
      have hne : c'.level ≠ l := by
        rintro rfl
        have hbitn := (hin.match_eq _ hmatch).1
        rw [testBit_eq_false_of_lt hdvd hbit hn (by omega)] at hbitn
        cases hbitn
      exact ⟨l, by omega, rfl, hbranch⟩

theorem sweepAll_spec (h : SweepOk Hash leaf n t s.matchlevel count c) (hs : LeafOk Hash leaf n t s)
    (hcount : s.count = n) (ht : t < n)
    (hsweep : sweepAll Hash s.inner s.matchlevel left count c = some c') :
    MerkleTree.IsHeight n c'.level ∧ c'.pbranch = branch Hash leaf n t c'.level := by
  induction left generalizing count c with
  | zero => cases hsweep
  | succ left ih =>
    rw [sweepAll] at hsweep
    split at hsweep
    · next htop =>
      cases hsweep
      refine ⟨⟨?_, fun l hl => ?_⟩, ?_⟩
      · rw [← not_lt, MerkleTree.lt_width_iff, one_mul, ← htop]
        exact not_lt.mpr h.le
      · rw [MerkleTree.lt_width_iff, one_mul]
        exact h.below l hl
      · cases hmatch : c'.matchh with
        | true => exact (h.matched hmatch).2
        | false =>
          -- a higher bit of the number of leaves would be beyond the top
          obtain ⟨l, hlt, hl, -⟩ := h.pending hmatch
          have hbit := (hs.matched l hl).1
          have hle := h.le
          have hmono : 2 ^ (c'.level + 1) ≤ 2 ^ l := Nat.pow_le_pow_right (by omega) hlt
          rw [hcount, testBit_eq_decide_div_mod_eq, div_eq_of_lt (by omega)] at hbit
          cases of_decide_eq_true hbit
    · next htop =>
      obtain ⟨c1, hclimb, hsweep⟩ := bind_eq_some_iff.mp hsweep
      exact ih (h.step hs hcount ht htop hclimb) hsweep

omit [DecidableEq H] in
theorem LeafOk.sweepOk (hs : LeafOk Hash leaf n t s) (hcount : s.count = n) (ht : t < n)
    (hdvd : 2 ^ level ∣ n) (hbit : n.testBit level = true) :
    SweepOk Hash leaf n t s.matchlevel n {
      level := level, h := s.inner level, matchh := s.matchlevel == some level
      pbranch := s.pbranch, equal := false } where
  dvd := hdvd
  bit := hbit
  le := le_refl _
  lt := Nat.lt_add_of_pos_right (Nat.two_pow_pos level)
  below l hl := by
    have hmono : 2 ^ (l + 1) ≤ 2 ^ level := Nat.pow_le_pow_right (by omega) hl
    have hle := le_of_dvd (by omega) hdvd
    omega
  h_eq := by
    have hinner := hs.inner_ok
    rw [hcount] at hinner
    exact hinner level hbit
  matched hmatch := by
    have hlevel := (hs.matched level (beq_iff_eq.mp hmatch)).2
    rwa [hcount] at hlevel
  pending hmatch := by
    have hne : s.matchlevel ≠ some level := beq_eq_false_iff_ne.mp hmatch
    cases hlevel : s.matchlevel with
    | none =>
      have hbefore := (hs.before hlevel).1
      omega
    | some l =>
      obtain ⟨hbitl, -, hbranch⟩ := hs.matched l hlevel
      rw [hcount] at hbitl
      refine ⟨l, ?_, rfl, hbranch⟩
      rcases lt_trichotomy level l with hlt | rfl | hlt
      · exact hlt
      · exact absurd hlevel hne
      · rw [testBit_of_dvd hdvd hlt] at hbitl
        cases hbitl

/-! ## The branch -/

variable {leaves : List H}

theorem computeMerkleBranch_spec (Hash : H → H → H) (null : H) (position : UInt32)
    (hlen : leaves.length ≤ 2 ^ 31) (hpos : position.toNat < leaves.length) :
    ∃ height, MerkleTree.IsHeight leaves.length height ∧
      computeMerkleBranch Hash null leaves position = some
        (branch Hash (fun i => leaves.getD i null) leaves.length position.toNat height) := by
  have hne : leaves ≠ [] := ne_nil_of_length_pos (by omega)
  obtain ⟨_, -, hroot⟩ := computeMerkleRoot_spec Hash null hne hlen
  rw [← merkleComputation_root Hash null leaves position.toNat] at hroot
  obtain ⟨r, hr, -⟩ := map_eq_some_iff.mp hroot
  have hrest : ∀ i x, leaves[i]? = some x → leaves.getD (0 + i) null = x := by
    intro i x hx
    rw [zero_add, getD_eq_getElem?_getD, hx, getD_some]
  have hstart : LeafOk Hash (fun i => leaves.getD i null) leaves.length position.toNat
      { count := 0, inner := fun _ => null, matchlevel := none, mutated := false, pbranch := [] } :=
    leafOk_start
  have hlt32 : leaves.length < 2 ^ 32 := by omega
  obtain ⟨s, hfold, hcount, hs⟩ := addLeavesAll_spec hstart hrest (zero_add _) hlt32
  have hr' := hr
  rw [merkleComputation, if_neg (by omega), hfold] at hr'
  obtain ⟨s', hs', hlevels⟩ := bind_eq_some_iff.mp hr'
  obtain rfl := some.inj hs'
  obtain ⟨level, hlow, hsweeps⟩ := bind_eq_some_iff.mp hlevels
  obtain ⟨c, hsweep, hresult⟩ := bind_eq_some_iff.mp hsweeps
  have hone : 2 ^ 0 ∣ leaves.length := one_dvd _
  have hlt : leaves.length < 2 ^ (0 + 32) := by omega
  obtain ⟨level', hlow', -, hdvd, hbit⟩ := lowestBit_spec hone (by omega) hlt
  rw [hcount, hlow', some.injEq] at hlow
  obtain rfl := hlow
  rw [hcount] at hsweep
  obtain ⟨hheight, hbranch⟩ :=
    sweepAll_spec (hs.sweepOk hcount hpos hdvd hbit) hs hcount hpos hsweep
  refine ⟨c.level, hheight, ?_⟩
  rw [computeMerkleBranch, hr, ← hbranch, ← some.inj hresult]
  rfl

/-! ## The root from a branch -/

theorem and_one_ne_zero (nIndex : UInt32) : nIndex &&& 1 ≠ 0 ↔ nIndex.toNat % 2 = 1 := by
  rw [Ne, ← UInt32.toNat_inj, UInt32.toNat_and]
  have hand : nIndex.toNat &&& (1 : UInt32).toNat = nIndex.toNat % 2 := and_one_is_mod _
  have hzero : (0 : UInt32).toNat = 0 := rfl
  omega

theorem toNat_shiftRight_one (nIndex : UInt32) : (nIndex >>> 1).toNat = nIndex.toNat / 2 := by
  rfl

omit [DecidableEq H] in
theorem computeMerkleRootFromBranch_spec {l k : Nat} {nIndex : UInt32} (ht : t < n)
    (hindex : nIndex.toNat = t / 2 ^ l) :
    computeMerkleRootFromBranch Hash (MerkleTree.hash Hash leaf n l (t / 2 ^ l))
        ((range' l k).map (sibling Hash leaf n t)) nIndex =
      MerkleTree.hash Hash leaf n (l + k) (t / 2 ^ (l + k)) := by
  induction k generalizing l nIndex with
  | zero => rfl
  | succ k ih =>
    have hnext : (nIndex >>> 1).toNat = t / 2 ^ (l + 1) := by
      rw [toNat_shiftRight_one, hindex, Nat.pow_succ, Nat.div_div_eq_div_mul]
    have hcombine : (if nIndex &&& 1 ≠ 0 then
        Hash (sibling Hash leaf n t l) (MerkleTree.hash Hash leaf n l (t / 2 ^ l))
        else Hash (MerkleTree.hash Hash leaf n l (t / 2 ^ l)) (sibling Hash leaf n t l)) =
        MerkleTree.hash Hash leaf n (l + 1) (t / 2 ^ (l + 1)) := by
      rw [← MerkleTree.combine_sibling ht, MerkleTree.combine]
      simp only [and_one_ne_zero, hindex]
    rw [range'_succ, map_cons, computeMerkleRootFromBranch, hcombine, ih hnext,
      add_right_comm, add_assoc]

/-! ## All together -/

/-- The root of `ComputeMerkleRoot` is that of the tree built level by level, and the
    branch of every leaf leads to it. -/
def RootAndBranches (Hash : H → H → H) (null : H) (leaves : List H) : Prop :=
  ∃ mutated, computeMerkleRootMutated Hash null leaves =
      some (MerkleTree.root Hash null leaves, mutated) ∧
    ∀ i (hi : i < leaves.length), ∃ vMerkleBranch,
      computeMerkleBranch Hash null leaves (UInt32.ofNat i) = some vMerkleBranch ∧
      computeMerkleRootFromBranch Hash leaves[i] vMerkleBranch (UInt32.ofNat i) =
        MerkleTree.root Hash null leaves

theorem computeMerkleRootMutated_map (Hash : H → H → H) (null : H) (leaves : List H) :
    (computeMerkleRootMutated Hash null leaves).map Prod.fst =
      computeMerkleRoot Hash null leaves := by
  rw [← merkleComputation_root Hash null leaves 0xffffffff, computeMerkleRootMutated,
    Option.map_map]
  rfl

omit [DecidableEq H] in
theorem root_eq_hash (Hash : H → H → H) (null : H) (hpos : 0 < leaves.length) {height : Nat}
    (hheight : MerkleTree.IsHeight leaves.length height) :
    MerkleTree.root Hash null leaves =
      MerkleTree.hash Hash (fun i => leaves.getD i null) leaves.length height 0 := by
  have hlevel : MerkleTree.root Hash null
      (MerkleTree.level Hash (fun i => leaves.getD i null) leaves.length 0) = _ :=
    MerkleTree.root_level hpos hheight (zero_le _)
  rwa [MerkleTree.level_zero] at hlevel

/-- The comment of `MerkleComputation` allows 2^32 leaves; 2^31 fit. -/
theorem rootAndBranches_iff (Hash : H → H → H) (null : H) (leaves : List H) :
    RootAndBranches Hash null leaves ↔ leaves.length ≤ 2 ^ 31 := by
  constructor
  · rintro ⟨mutated, hroot, -⟩
    have hmap := computeMerkleRootMutated_map Hash null leaves
    rw [hroot] at hmap
    exact length_le_of_computeMerkleRoot hmap.symm
  · intro hlen
    rcases Nat.eq_zero_or_pos leaves.length with hzero | hpos
    · obtain rfl := eq_nil_of_length_eq_zero hzero
      refine ⟨false, ?_, fun i hi => absurd hi (not_lt_zero i)⟩
      rw [MerkleTree.root]
      rfl
    · obtain ⟨height, hheight, hroot⟩ :=
        computeMerkleRoot_spec Hash null (ne_nil_of_length_pos hpos) hlen
      have htop := root_eq_hash Hash null hpos hheight
      rw [← htop, ← computeMerkleRootMutated_map Hash null leaves] at hroot
      obtain ⟨⟨root, mutated⟩, hmutated, heq⟩ := map_eq_some_iff.mp hroot
      have heq' : root = MerkleTree.root Hash null leaves := heq
      refine ⟨mutated, by rw [hmutated, heq'], fun i hi => ?_⟩
      have hindex : (UInt32.ofNat i).toNat = i := UInt32.toNat_ofNat_of_lt' (by
        show i < 2 ^ 32
        omega)
      obtain ⟨height', hheight', hbranch⟩ :=
        computeMerkleBranch_spec Hash null (UInt32.ofNat i) hlen (by omega)
      obtain rfl := hheight.unique hheight'
      refine ⟨_, hbranch, ?_⟩
      have hleaf : leaves[i] =
          MerkleTree.hash Hash (fun i => leaves.getD i null) leaves.length 0 (i / 2 ^ 0) := by
        rw [Nat.pow_zero, Nat.div_one, MerkleTree.hash, getD_eq_getElem?_getD,
          getElem?_eq_getElem hi, getD_some]
      have hlt : i / 2 ^ height < MerkleTree.width leaves.length height := by
        rw [MerkleTree.lt_width_iff]
        exact (div_mul_le_self _ _).trans_lt hi
      have hle := hheight.width_le
      have hfirst : i / 2 ^ height = 0 := lt_one_iff.mp (hlt.trans_le hle)
      rw [hindex, MerkleTree.branch, range_eq_range', hleaf,
        computeMerkleRootFromBranch_spec hi (by rw [hindex, Nat.pow_zero, Nat.div_one]),
        zero_add, hfirst, htop]

/-- One leaf more than 2^31. -/
theorem not_rootAndBranches_replicate :
    ¬RootAndBranches (fun a b : Uint256 => (a * 3 + b) % 2 ^ 256) 0
      (replicate (2 ^ 31 + 1) 1) := by
  rintro ⟨mutated, hroot, -⟩
  have hmap := computeMerkleRootMutated_map (fun a b : Uint256 => (a * 3 + b) % 2 ^ 256) 0
    (replicate (2 ^ 31 + 1) 1)
  rw [hroot] at hmap
  have hlen := length_le_of_computeMerkleRoot hmap.symm
  rw [length_replicate] at hlen
  omega

end Merkle

end Rcoin
