/-
  When the two solvers agree.  `OptimisedSolve` checks the last bits of the XOR
  for the truncated tree only, and never for the indices it recreates; and it
  drops a row of XOR zero whose truncated indices pair off, which distinct
  indices can do as well.  Both are conditions on the hashes.
-/
import Rcoin.Equihash.Recreate

namespace Rcoin

open List

namespace Equihash

variable {E : Equihash} {st : HashState E}

/-! ## The order of truncated indices -/

theorem trunc_le {i j : Nat} (hij : i ≤ j) (hj : j < E.initSize) : E.trunc i ≤ E.trunc j := by
  rw [UInt8.le_iff_toNat_le, trunc_toNat (Nat.lt_of_le_of_lt hij hj), trunc_toNat hj]
  exact Nat.div_le_div_right hij

theorem headD_le_of_not_lt {l m : List UInt8} (hm : m ≠ []) (h : ¬ m < l) :
    l.headD 0 ≤ m.headD 0 := by
  cases l with
  | nil => exact UInt8.zero_le
  | cons x l =>
    cases m with
    | nil => exact absurd rfl hm
    | cons y m =>
      rw [cons_lt_cons_iff, not_or] at h
      exact UInt8.not_lt.mp h.1

variable {is : List Nat}

theorem mem_headD (h : is ≠ []) : is.headD 0 ∈ is := by
  cases is with
  | nil => exact absurd rfl h
  | cons i is => exact mem_cons_self

variable {l : Nat}

variable {ja jb : List Nat}

theorem headD_le_of_truncatedTree (hb : jb.length = 2 ^ l)
    (horder : ¬ jb.map E.trunc < ja.map E.trunc) :
    (ja.map E.trunc).headD 0 ≤ (jb.map E.trunc).headD 0 := by
  refine headD_le_of_not_lt (fun hnil => ?_) horder
  have hlen := congrArg List.length hnil
  have hpos := Nat.two_pow_pos l
  rw [length_map, hb, length_nil] at hlen
  omega

theorem take_map_append (ha : ja.length = 2 ^ l) (jb : List Nat) :
    ((ja ++ jb).map E.trunc).take (2 ^ l) = ja.map E.trunc ∧
      ((ja ++ jb).map E.trunc).drop (2 ^ l) = jb.map E.trunc := by
  have hlen : (ja.map E.trunc).length = 2 ^ l := by rw [length_map, ha]
  rw [map_append, ← hlen, take_left, drop_left]
  exact ⟨rfl, rfl⟩

theorem Recreated.heads (ha : ja.length = 2 ^ l) (hb : jb.length = 2 ^ l)
    (horder : ¬ jb.map E.trunc < ja.map E.trunc)
    (h : E.Recreated st (l + 1) ((ja ++ jb).map E.trunc) is) : ∃ a b, is = a ++ b ∧
      (E.Recreated st l (ja.map E.trunc) a ∨ E.Recreated st l (jb.map E.trunc) a) ∧
      (E.Recreated st l (ja.map E.trunc) b ∨ E.Recreated st l (jb.map E.trunc) b) ∧
      E.trunc (a.headD 0) = (ja.map E.trunc).headD 0 ∧
      E.trunc (b.headD 0) = (jb.map E.trunc).headD 0 := by
  obtain ⟨htake, hdrop⟩ := take_map_append (E := E) ha jb
  obtain ⟨-, -, a, b, hra, hrb, rfl, -, hlt, -, hbranch⟩ := h
  rw [htake, hdrop] at hra hrb hbranch
  refine ⟨a, b, rfl, hra, hrb, ?_⟩
  rcases hbranch with hbranch | ⟨hbl, har⟩
  · exact hbranch
  · -- the other assignment is the same one, since both pairs are ordered
    have htb : FullTree E st l b ∧ ∀ i ∈ b, i < E.initSize := by
      rcases hrb with h | h
      · exact h.fullTree
      · exact h.fullTree
    have hle := trunc_le (Nat.le_of_lt hlt) (htb.2 _ (mem_headD htb.1.ne_nil))
    have hge := headD_le_of_truncatedTree hb horder
    rw [hbl, har] at hle
    have heq := UInt8.le_antisymm hge hle
    exact ⟨har.trans heq.symm, hbl.trans heq⟩

theorem Recreated.trunc_headD {js : List Nat} (hjs : E.TruncatedTree st l js)
    (h : E.Recreated st l (js.map E.trunc) is) :
    E.trunc (is.headD 0) = (js.map E.trunc).headD 0 := by
  cases l with
  | zero =>
    obtain ⟨i, rfl, -, htrunc⟩ := h
    exact htrunc
  | succ l =>
    obtain ⟨ja, jb, rfl, ha, hb⟩ := exists_halves hjs.length
    obtain ⟨-, -, horder, -, -⟩ := (truncatedTree_append ha hb).mp hjs
    obtain ⟨a, b, rfl, hra, -, hhead, -⟩ := h.heads ha hb horder
    have hta : FullTree E st l a := by
      rcases hra with h | h
      · exact h.fullTree.1
      · exact h.fullTree.1
    have hja : ja ≠ [] := by
      rintro rfl
      have hpos := Nat.two_pow_pos l
      rw [length_nil] at ha
      omega
    cases a with
    | nil => exact absurd rfl hta.ne_nil
    | cons i a =>
      cases ja with
      | nil => exact absurd rfl hja
      | cons j ja => exact hhead

/-! ## Solutions and their truncations -/

theorem recreated_map_trunc (h : FullTree E st l is) (hlt : ∀ i ∈ is, i < E.initSize)
    : E.Recreated st l (is.map E.trunc) is := by
  induction l generalizing is with
  | zero =>
    obtain ⟨i, rfl⟩ := fullTree_zero.mp h
    exact ⟨i, rfl, hlt i (mem_singleton_self i), rfl⟩
  | succ l ih =>
    obtain ⟨a, b, rfl, ha, hb⟩ := exists_halves h.length
    obtain ⟨hta, htb, hdis, hhead, hagree⟩ := (fullTree_append ha hb).mp h
    obtain ⟨htake, hdrop⟩ := take_map_append (E := E) ha b
    have hra := ih hta fun i hi => hlt i (mem_append_left b hi)
    have hrb := ih htb fun i hi => hlt i (mem_append_right a hi)
    have hmap : ∀ {is : List Nat}, is ≠ [] → E.trunc (is.headD 0) = (is.map E.trunc).headD 0 := by
      intro is his
      cases is with
      | nil => exact absurd rfl his
      | cons i is => rfl
    rw [Recreated, htake, hdrop]
    exact ⟨⟨a, hra⟩, ⟨b, hrb⟩, a, b, .inl hra, .inr hrb, rfl, hdis, hhead, hagree,
      .inl ⟨hmap hta.ne_nil, hmap htb.ne_nil⟩⟩

/-- Above the leaves' parents, the halves start with different truncated indices. -/
def Separated (E : Equihash) : Nat → List Nat → Prop
  | 0, _ => True
  | l + 1, is =>
    Separated E l (is.take (2 ^ l)) ∧ Separated E l (is.drop (2 ^ l)) ∧
      (l = 0 ∨ E.trunc ((is.take (2 ^ l)).headD 0) ≠ E.trunc ((is.drop (2 ^ l)).headD 0))

theorem Recreated.map_trunc_eq {js : List Nat} (hjs : E.TruncatedTree st l js)
    (h : E.Recreated st l (js.map E.trunc) is) (hsep : Separated E l is) :
    js.map E.trunc = is.map E.trunc := by
  induction l generalizing js is with
  | zero =>
    obtain ⟨j, rfl, -⟩ := truncatedTree_zero.mp hjs
    obtain ⟨i, rfl, -, htrunc⟩ := h
    exact (congrArg (fun t => [t]) htrunc).symm
  | succ l ih =>
    obtain ⟨ja, jb, rfl, ha, hb⟩ := exists_halves hjs.length
    obtain ⟨hta, htb, horder, -, -⟩ := (truncatedTree_append ha hb).mp hjs
    obtain ⟨a, b, rfl, hra, hrb, hheadA, hheadB⟩ := h.heads ha hb horder
    have hlenA : a.length = 2 ^ l := by
      rcases hra with h | h
      · exact h.fullTree.1.length
      · exact h.fullTree.1.length
    have hlenB : b.length = 2 ^ l := by
      rcases hrb with h | h
      · exact h.fullTree.1.length
      · exact h.fullTree.1.length
    rw [Separated, ← hlenA, take_left, drop_left] at hsep
    rw [map_append, map_append]
    rcases hsep.2.2 with rfl | hne
    · -- one index each
      obtain ⟨i, rfl⟩ := length_eq_one_iff.mp hlenA
      obtain ⟨i', rfl⟩ := length_eq_one_iff.mp hlenB
      obtain ⟨j, rfl⟩ := length_eq_one_iff.mp ha
      obtain ⟨j', rfl⟩ := length_eq_one_iff.mp hb
      show [E.trunc j, E.trunc j'] = [E.trunc i, E.trunc i']
      rw [show E.trunc i = E.trunc j from hheadA, show E.trunc i' = E.trunc j' from hheadB]
    · -- each half comes from its own side
      have hA : E.Recreated st l (ja.map E.trunc) a := by
        rcases hra with h | h
        · exact h
        · exact absurd ((h.trunc_headD htb).trans hheadB.symm) hne
      have hB : E.Recreated st l (jb.map E.trunc) b := by
        rcases hrb with h | h
        · exact absurd (hheadA.trans (h.trunc_headD hta).symm) hne
        · exact h
      rw [ih hta hA hsep.1, ih htb hB hsep.2.1]

theorem not_recreated_of_duplicate (hsep : Separated E E.K is)
    (hdup : isProbablyDuplicate (is.map E.trunc) = true) :
    ¬ ∃ js, E.PartialSolution st js ∧ E.Recreated st E.K (js.map E.trunc) is := by
  rintro ⟨js, hjs, hrec⟩
  have hmap := hrec.map_trunc_eq hjs.tree hsep
  have htree := hjs.tree
  have hzero := hjs.zero
  obtain ⟨k, hk⟩ := Nat.exists_eq_add_one.mpr E.k_pos
  rw [hk] at htree
  obtain ⟨ja, jb, rfl, ha, hb⟩ := exists_halves htree.length
  obtain ⟨-, -, -, -, hkeep⟩ := (truncatedTree_append ha hb).mp htree
  rw [hmap] at hkeep
  exact hkeep ⟨hzero, hdup⟩

/-! ## When the solvers agree -/

variable (E st) in
/-- Whatever is recreated from a partial solution has a zero XOR. -/
def CompletionsZero : Prop :=
  ∀ js, E.PartialSolution st js → ∀ is, E.Recreated st E.K (js.map E.trunc) is →
    E.hashXor st is = 0

variable (E st) in
/-- No subtree has both a zero XOR and truncated indices that pair off. -/
def NoneDropped : Nat → List Nat → Prop
  | 0, _ => True
  | l + 1, is =>
    NoneDropped l (is.take (2 ^ l)) ∧ NoneDropped l (is.drop (2 ^ l)) ∧
      ¬ (E.hashXor st is = 0 ∧ isProbablyDuplicate (is.map E.trunc) = true)

theorem isProbablyDuplicate_perm {l m : List UInt8} (h : l.Perm m) :
    isProbablyDuplicate l = true ↔ isProbablyDuplicate m = true := by
  simp only [isProbablyDuplicate_iff, h.count_eq]

theorem recreated_append {a b : List Nat} (htree : FullTree E st (l + 1) (a ++ b))
    (ha : a.length = 2 ^ l) (hb : b.length = 2 ^ l) {p q : List UInt8} (hp : p.length = 2 ^ l)
    (hsides : E.Recreated st l p a ∧ E.Recreated st l q b ∧ E.trunc (a.headD 0) = p.headD 0 ∧
        E.trunc (b.headD 0) = q.headD 0 ∨
      E.Recreated st l q a ∧ E.Recreated st l p b ∧ E.trunc (a.headD 0) = q.headD 0 ∧
        E.trunc (b.headD 0) = p.headD 0) : E.Recreated st (l + 1) (p ++ q) (a ++ b) := by
  obtain ⟨-, -, hdis, hhead, hagree⟩ := (fullTree_append ha hb).mp htree
  rw [Recreated, ← hp, take_left, drop_left]
  rcases hsides with ⟨hra, hrb, hheads⟩ | ⟨hra, hrb, hheadA, hheadB⟩
  · exact ⟨⟨a, hra⟩, ⟨b, hrb⟩, a, b, .inl hra, .inr hrb, rfl, hdis, hhead, hagree, .inl hheads⟩
  · exact ⟨⟨b, hrb⟩, ⟨a, hra⟩, a, b, .inr hra, .inl hrb, rfl, hdis, hhead, hagree,
      .inr ⟨hheadB, hheadA⟩⟩

/-- The rounds keep the solution's own tree, its halves in the order of their truncated
    indices. -/
theorem exists_truncatedTree (h : FullTree E st l is) (hlt : ∀ i ∈ is, i < E.initSize)
    (hnone : E.NoneDropped st l is) : ∃ js, E.TruncatedTree st l js ∧
      E.hashXor st js = E.hashXor st is ∧ (js.map E.trunc).Perm (is.map E.trunc) ∧
        E.Recreated st l (js.map E.trunc) is := by
  induction l generalizing is with
  | zero =>
    obtain ⟨i, rfl⟩ := fullTree_zero.mp h
    have hi := hlt i (mem_singleton_self i)
    exact ⟨[i], truncatedTree_zero.mpr ⟨i, rfl, hi⟩, rfl, .refl _, i, rfl, hi, rfl⟩
  | succ l ih =>
    obtain ⟨a, b, rfl, ha, hb⟩ := exists_halves h.length
    obtain ⟨hta, htb, -, -, hagree⟩ := (fullTree_append ha hb).mp h
    rw [NoneDropped, ← ha, take_left, drop_left] at hnone
    obtain ⟨hna, hnb, hkeep⟩ := hnone
    obtain ⟨ja, htja, hxa, hpa, hra⟩ := ih hta (fun i hi => hlt i (mem_append_left b hi)) hna
    obtain ⟨jb, htjb, hxb, hpb, hrb⟩ := ih htb (fun i hi => hlt i (mem_append_right a hi)) hnb
    have hheadA := hra.trunc_headD htja
    have hheadB := hrb.trunc_headD htjb
    have hperm : ((ja ++ jb).map E.trunc).Perm ((a ++ b).map E.trunc) := by
      rw [map_append, map_append]
      exact hpa.append hpb
    rw [← hxa, ← hxb] at hagree
    by_cases horder : jb.map E.trunc < ja.map E.trunc
    · have hxor : E.hashXor st (jb ++ ja) = E.hashXor st (a ++ b) := by
        rw [hashXor_append, hashXor_append, hxa, hxb, Nat.xor_comm]
      have hperm' : ((jb ++ ja).map E.trunc).Perm ((a ++ b).map E.trunc) :=
        (perm_append_comm.map _).trans hperm
      refine ⟨jb ++ ja, (truncatedTree_append htjb.length htja.length).mpr
        ⟨htjb, htja, List.lt_asymm horder, hagree.symm, ?_⟩, hxor, hperm', ?_⟩
      · rwa [hxor, isProbablyDuplicate_perm hperm']
      · rw [map_append]
        exact recreated_append h ha hb (by rw [length_map, htjb.length])
          (.inr ⟨hra, hrb, hheadA, hheadB⟩)
    · have hxor : E.hashXor st (ja ++ jb) = E.hashXor st (a ++ b) := by
        rw [hashXor_append, hashXor_append, hxa, hxb]
      refine ⟨ja ++ jb, (truncatedTree_append htja.length htjb.length).mpr
        ⟨htja, htjb, horder, hagree, ?_⟩, hxor, hperm, ?_⟩
      · rwa [hxor, isProbablyDuplicate_perm hperm]
      · rw [map_append]
        exact recreated_append h ha hb (by rw [length_map, htja.length])
          (.inl ⟨hra, hrb, hheadA, hheadB⟩)

theorem isSolution_of_recreated {p : List UInt8} {is' : List Nat} (h : E.Recreated st E.K p is)
    (hsol : E.IsSolution st is') (hlt : ∀ i ∈ is', i < E.initSize)
    (heq : getMinimalFromIndices is E.collisionBitLength =
      getMinimalFromIndices is' E.collisionBitLength)
    : E.IsSolution st is := by
  obtain ⟨htree, hilt⟩ := h.fullTree
  rw [getMinimalFromIndices_inj htree.length hsol.length hilt hlt heq]
  exact hsol

theorem forall_mem_optimisedSolve_iff (sortTruncated : RowSort UInt8) (sort : RowSort Nat) :
    (∀ soln ∈ E.optimisedSolve st sortTruncated sort,
      ∃ is, E.IsSolution st is ∧ (∀ i ∈ is, i < E.initSize) ∧
        soln = getMinimalFromIndices is E.collisionBitLength) ↔ E.CompletionsZero st := by
  constructor
  · intro h js hjs is his
    obtain ⟨is', hsol, hlt, heq⟩ :=
      h _ ((mem_optimisedSolve sortTruncated sort _).mpr ⟨js, is, hjs, his, rfl⟩)
    exact (isSolution_of_recreated his hsol hlt heq).zero
  · intro h soln hsoln
    obtain ⟨js, is, hjs, his, rfl⟩ := (mem_optimisedSolve sortTruncated sort soln).mp hsoln
    obtain ⟨htree, hlt⟩ := his.fullTree
    exact ⟨is, (isSolution_iff is).mpr ⟨htree, h js hjs is his⟩, hlt, rfl⟩

theorem mem_optimisedSolve_of_isSolution (sortTruncated : RowSort UInt8) (sort : RowSort Nat)
    (hsol : E.IsSolution st is) (hlt : ∀ i ∈ is, i < E.initSize) :
    getMinimalFromIndices is E.collisionBitLength ∈ E.optimisedSolve st sortTruncated sort ↔
      ∃ js, E.PartialSolution st js ∧ E.Recreated st E.K (js.map E.trunc) is := by
  rw [mem_optimisedSolve]
  constructor
  · rintro ⟨js, is', hjs, his, heq⟩
    obtain ⟨htree, hlt'⟩ := his.fullTree
    rw [getMinimalFromIndices_inj hsol.length htree.length hlt hlt' heq]
    exact ⟨js, hjs, his⟩
  · rintro ⟨js, hjs, his⟩
    exact ⟨js, is, hjs, his, rfl⟩

/-- Everything that `OptimisedSolve` finds is accepted exactly when no partial
    solution is completed to indices whose XOR is not zero. -/
theorem optimisedSolve_valid_iff (E : Equihash) (st : HashState E) (sortTruncated : RowSort UInt8)
    (sort : RowSort Nat) :
    (∀ soln ∈ E.optimisedSolve st sortTruncated sort, E.isValidSolution st soln = true) ↔
      E.CompletionsZero st := by
  rw [← forall_mem_optimisedSolve_iff sortTruncated sort]
  exact forall_congr' fun soln => imp_congr_right fun _ => isValidSolution_iff_exists soln

/-- `OptimisedSolve` finds every solution of which no subtree is dropped, and misses those that
    pair off as a whole and whose truncated indices are in order.  When no solution has such a
    subtree it finds what `BasicSolve` finds, and nothing else exactly when all completions have
    a zero XOR. -/
theorem optimisedSolve_complete (E : Equihash) (st : HashState E) (sortBasic : RowSort Nat)
    (sortTruncated : RowSort UInt8) (sort : RowSort Nat) :
    (∀ is, E.IsSolution st is → (∀ i ∈ is, i < E.initSize) →
      (E.NoneDropped st E.K is →
        getMinimalFromIndices is E.collisionBitLength ∈ E.optimisedSolve st sortTruncated sort) ∧
      (Separated E E.K is → isProbablyDuplicate (is.map E.trunc) = true →
        getMinimalFromIndices is E.collisionBitLength ∉ E.optimisedSolve st sortTruncated sort)) ∧
    ((∀ is, E.IsSolution st is → (∀ i ∈ is, i < E.initSize) → E.NoneDropped st E.K is) →
      (∀ soln ∈ E.basicSolve st sortBasic, soln ∈ E.optimisedSolve st sortTruncated sort) ∧
      ((∀ soln, soln ∈ E.optimisedSolve st sortTruncated sort ↔ soln ∈ E.basicSolve st sortBasic) ↔
        E.CompletionsZero st)) := by
  have hfound : ∀ is, E.IsSolution st is → (∀ i ∈ is, i < E.initSize) → E.NoneDropped st E.K is →
      getMinimalFromIndices is E.collisionBitLength ∈ E.optimisedSolve st sortTruncated sort := by
    intro is hsol hlt hnone
    obtain ⟨js, htree, hxor, -, hrec⟩ :=
      exists_truncatedTree ((isSolution_iff is).mp hsol).1 hlt hnone
    exact (mem_optimisedSolve_of_isSolution sortTruncated sort hsol hlt).mpr
      ⟨js, ⟨htree, hxor.trans hsol.zero⟩, hrec⟩
  refine ⟨fun is hsol hlt => ⟨hfound is hsol hlt, fun hsep hdup hmem => ?_⟩, fun hnone => ?_⟩
  · exact not_recreated_of_duplicate hsep hdup
      ((mem_optimisedSolve_of_isSolution sortTruncated sort hsol hlt).mp hmem)
  · have hsub : ∀ soln ∈ E.basicSolve st sortBasic,
        soln ∈ E.optimisedSolve st sortTruncated sort := by
      intro soln hsoln
      obtain ⟨is, hsol, hlt, rfl⟩ := (mem_basicSolve_iff sortBasic soln).mp hsoln
      exact hfound is hsol hlt (hnone is hsol hlt)
    refine ⟨hsub, ?_⟩
    rw [← forall_mem_optimisedSolve_iff sortTruncated sort]
    simp only [← mem_basicSolve_iff sortBasic]
    exact ⟨fun h soln => (h soln).mp, fun h soln => ⟨h soln, hsub soln⟩⟩

/-! ## Trees can be checked -/

instance (m x y : Nat) : Decidable (E.AgreeOn m x y) := inferInstanceAs (Decidable (_ = _))

instance decidableWagnerTree : (l : Nat) → (is : List Nat) → Decidable (E.WagnerTree st l is)
  | 0, _ => inferInstanceAs (Decidable True)
  | l + 1, is =>
    have := decidableWagnerTree l (is.take (2 ^ l))
    have := decidableWagnerTree l (is.drop (2 ^ l))
    inferInstanceAs (Decidable (_ ∧ _ ∧ _ ∧ _))

instance decidableKeptTree : (l : Nat) → (js : List Nat) → Decidable (E.KeptTree st l js)
  | 0, _ => inferInstanceAs (Decidable True)
  | l + 1, js =>
    have := decidableKeptTree l (js.take (2 ^ l))
    have := decidableKeptTree l (js.drop (2 ^ l))
    inferInstanceAs (Decidable (_ ∧ _ ∧ _ ∧ _ ∧ _))

instance decidableNoneDropped : (l : Nat) → (is : List Nat) → Decidable (E.NoneDropped st l is)
  | 0, _ => inferInstanceAs (Decidable True)
  | l + 1, is =>
    have := decidableNoneDropped l (is.take (2 ^ l))
    have := decidableNoneDropped l (is.drop (2 ^ l))
    inferInstanceAs (Decidable (_ ∧ _ ∧ _))

instance decidableSeparated : (l : Nat) → (is : List Nat) → Decidable (Separated E l is)
  | 0, _ => inferInstanceAs (Decidable True)
  | l + 1, is =>
    have := decidableSeparated l (is.take (2 ^ l))
    have := decidableSeparated l (is.drop (2 ^ l))
    inferInstanceAs (Decidable (_ ∧ _ ∧ _))

end Equihash

/-! ## Hashes for which they do not agree -/

namespace EqualHashes

open Equihash

/-- All hashes are zero, but that of index 1 ends in a one. -/
def oneByte : HashState Eh48_5 where
  generateHash g := (List.range 60).map fun k => if g = 0 ∧ k = 11 then 1 else 0
  length_eq _ := by rw [length_map, length_range]; rfl

/-- All hashes are zero. -/
def zeros : HashState Eh48_5 where
  generateHash _ := List.replicate 60 0
  length_eq _ := length_replicate

/-- A partial solution with the truncated indices 0, 1, .. 31. -/
def evens : List Nat := (List.range 32).map fun i => 2 * i

/-- A completion of it, with index 1 instead of 0. -/
def oneAndEvens : List Nat := 1 :: (List.range 31).map fun i => 2 * i + 2

theorem evens_partial : Eh48_5.PartialSolution oneByte evens where
  tree := ⟨by decide, by decide, by decide +kernel⟩
  zero := by decide

theorem oneAndEvens_tree : FullTree Eh48_5 oneByte 5 oneAndEvens where
  length := by decide
  distinct := by decide
  tree := by decide

/-- `OptimisedSolve` passes a string on that is no solution. -/
theorem oneByte_unsound :
    ¬ ∀ soln ∈ Eh48_5.optimisedSolve oneByte (RowSort.stable UInt8) (RowSort.stable Nat),
      Eh48_5.isValidSolution oneByte soln = true := by
  intro h
  have hzero := (forall_mem_optimisedSolve_iff (RowSort.stable UInt8) (RowSort.stable Nat)).mp
    fun soln hsoln => (isValidSolution_iff_exists soln).mp (h soln hsoln)
  have htrunc : evens.map Eh48_5.trunc = oneAndEvens.map Eh48_5.trunc := by decide
  have hrec : Eh48_5.Recreated oneByte 5 (evens.map Eh48_5.trunc) oneAndEvens := by
    rw [htrunc]
    exact recreated_map_trunc oneAndEvens_tree (by decide)
  have hxor : Eh48_5.hashXor oneByte oneAndEvens ≠ 0 := by decide
  exact hxor (hzero evens evens_partial oneAndEvens hrec)

theorem range_isSolution : Eh48_5.IsSolution zeros (List.range 32) where
  length := by decide
  distinct := by decide
  tree := by decide
  zero := by decide

/-- `OptimisedSolve` misses a solution that `BasicSolve` finds. -/
theorem zeros_incomplete :
    ¬ ∀ soln ∈ Eh48_5.basicSolve zeros (RowSort.stable Nat),
      soln ∈ Eh48_5.optimisedSolve zeros (RowSort.stable UInt8) (RowSort.stable Nat) := by
  intro h
  have hlt : ∀ i ∈ List.range 32, i < Eh48_5.initSize := by decide
  have hmem := h _ ((mem_basicSolve_iff (RowSort.stable Nat) _).mpr
    ⟨List.range 32, range_isSolution, hlt, rfl⟩)
  -- the indices come in pairs that differ in their last bit only
  have hdup : isProbablyDuplicate ((List.range 32).map Eh48_5.trunc) = true := by decide +kernel
  exact not_recreated_of_duplicate (by decide) hdup
    ((mem_optimisedSolve_of_isSolution _ _ range_isSolution hlt).mp hmem)

theorem evens_isSolution : Eh48_5.IsSolution zeros evens where
  length := by decide
  distinct := by decide
  tree := by decide
  zero := by decide

/-- Of these two solutions it finds the one whose truncated indices differ. -/
theorem zeros_evens_found :
    getMinimalFromIndices evens 8 ∈
        Eh48_5.optimisedSolve zeros (RowSort.stable UInt8) (RowSort.stable Nat) ∧
      getMinimalFromIndices (List.range 32) 8 ∉
        Eh48_5.optimisedSolve zeros (RowSort.stable UInt8) (RowSort.stable Nat) := by
  obtain ⟨hcomplete, -⟩ := optimisedSolve_complete Eh48_5 zeros (RowSort.stable Nat)
    (RowSort.stable UInt8) (RowSort.stable Nat)
  exact ⟨(hcomplete evens evens_isSolution (by decide)).1 (by decide +kernel),
    (hcomplete (List.range 32) range_isSolution (by decide)).2 (by decide) (by decide +kernel)⟩

end EqualHashes

end Rcoin
