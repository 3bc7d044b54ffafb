/-
  The work of a block, computed in 256 bits from a quotient that needs 257, and
  `nChainWork`, the work of a chain, over all the ways in which blocks come into the index.

  Source: GetBlockProof in src/chain.cpp; AddToBlockIndex and LoadBlockIndex in
  src/validation.cpp.
-/
import Rcoin.Arith.CompactValues
import Rcoin.Chain.Reload

namespace Rcoin

open BlockMap List Option Nat

/-! ## The proof of one block -/

namespace BaseUint

variable {WIDTH : Nat}

def equalTo (a : BaseUint WIDTH) (b : BitVec 64) : Bool :=
  (List.range WIDTH).all (fun i => decide (i < 2) || decide (a.word i = 0#32)) &&
    decide (a.word 1 = (b >>> 32).setWidth 32) && decide (a.word 0 = b.setWidth 32)

/-- `operator~`. -/
def not (a : BaseUint WIDTH) : BaseUint WIDTH :=
  ⟨a.pn.map (~~~ ·), (length_map _).trans a.width⟩

theorem value_not (a : BaseUint WIDTH) : a.not.value = 2 ^ (32 * WIDTH) - 1 - a.value := by
  have h := Limbs.value_map_not a.pn
  rw [a.width] at h
  change a.not.value + a.value + 1 = _ at h
  omega

theorem equalTo_iff (a : ArithUint256) (b : BitVec 64) :
    a.equalTo b = true ↔ a.value = b.toNat := by
  have hof : ∀ i, (ofUInt64 b).word i =
      if i = 0 then b.setWidth 32 else if i = 1 then (b >>> 32).setWidth 32 else 0#32 := by
    intro i
    match i with
    | 0 => rfl
    | 1 => rfl
    | i + 2 =>
      rw [if_neg (by omega), if_neg (by omega), word, ofUInt64, getD_cons_succ,
        getD_cons_succ, getD_eq_getElem?_getD, getElem?_replicate]
      split
      · rfl
      · rfl
  have hword : a.equalTo b = true ↔ ∀ i < 8, a.word i = (ofUInt64 b).word i := by
    simp only [equalTo, Bool.and_eq_true, List.all_eq_true, mem_range, Bool.or_eq_true,
      decide_eq_true_eq, hof]
    constructor
    · rintro ⟨⟨hhigh, h1⟩, h0⟩ i hi
      split
      next h => rw [h, h0]
      next hne0 =>
        split
        next h => rw [h, h1]
        next hne1 => exact (hhigh i hi).resolve_left (by omega)
    · intro h
      refine ⟨⟨fun i hi => ?_, h 1 (by decide)⟩, h 0 (by decide)⟩
      by_cases h2 : i < 2
      · exact .inl h2
      · have := h i hi
        rw [if_neg (by omega), if_neg (by omega)] at this
        exact .inr this
  rw [hword]
  constructor
  · intro h
    have hpn : a.pn = (ofUInt64 b).pn := by
      refine ext_getElem (a.width.trans (ofUInt64 b).width.symm) fun i hi hi' => ?_
      have := h i (a.width ▸ hi)
      rwa [word, word, getD_eq_getElem _ _ hi, getD_eq_getElem _ _ hi'] at this
    rw [value, hpn]
    exact value_ofUInt64 b
  · intro h
    rw [ext_value (h.trans (value_ofUInt64 b).symm)]
    exact fun _ _ => rfl

/-- `GetBlockProof`; `none` is the exception for a division by zero. -/
def getBlockProof (nBits : BitVec 32) : Option ArithUint256 :=
  let compact := setCompact nBits
  let bnTarget := compact.1
  if compact.2.1 ∨ compact.2.2 ∨ bnTarget.equalTo 0 then some zero
  else do
    -- 2**256 is too large; as it is at least as large as bnTarget + 1, take it off once.
    let quotient ← bnTarget.not.div (bnTarget.add (ofUInt64 1))
    some (quotient.add (ofUInt64 1))

end BaseUint

open BaseUint

/-- The hashes that are expected to be tried for a block. -/
def expectedHashes (nBits : Nat) : Nat :=
  let compact := setCompact nBits
  if compact.2.1 ∨ compact.2.2 ∨ compact.1 = 0 then 0 else 2 ^ 256 / (compact.1 + 1)

theorem complement_div {T : Nat} (hT : T < 2 ^ 256) :
    (2 ^ 256 - 1 - T) / (T + 1) + 1 = 2 ^ 256 / (T + 1) := by
  rw [Nat.sub_sub, Nat.add_comm 1]
  exact (div_eq_sub_div (succ_pos T) hT).symm

theorem setCompact_lt (nBits : Nat) : (setCompact nBits).1 + 1 < 2 ^ 256 := by
  rw [(setCompact_scaled nBits).1]
  have hm := and_mantissa_lt nBits
  generalize nBits &&& 0x007fffff = m at hm ⊢
  generalize nBits >>> 24 = e
  by_cases he : e ≤ 3
  · have hle : m / 2 ^ (8 * (3 - e)) ≤ m := div_le_self _ _
    rw [scaled_of_le he, mod_eq_of_lt (by omega)]
    omega
  · have hbyte : 2 ^ 8 ∣ scaled m e % 2 ^ 256 := by
      rw [scaled_of_ge (by omega), dvd_mod_iff (pow_dvd_pow 2 (by decide))]
      exact Nat.dvd_mul_left_of_dvd (Nat.pow_dvd_pow 2 (by omega)) _
    omega

theorem expectedHashes_lt (nBits : Nat) : expectedHashes nBits < 2 ^ 256 := by
  simp only [expectedHashes]
  split
  · exact Nat.two_pow_pos 256
  next h =>
    have hpos : 1 < (setCompact nBits).1 + 1 := by
      omega
    exact Nat.div_lt_self (Nat.two_pow_pos 256) hpos

theorem getBlockProof_eq (nBits : Nat) : getBlockProof nBits = expectedHashes nBits := by
  have hlt := expectedHashes_lt nBits
  simp only [getBlockProof, expectedHashes] at hlt ⊢
  split
  · rfl
  next h =>
    rw [if_neg h] at hlt
    rw [complement_div (lt_of_succ_lt (setCompact_lt nBits)), mod_eq_of_lt hlt]

theorem getBlockProof_word (nBits : BitVec 32) :
    ∃ proof, BaseUint.getBlockProof nBits = some proof ∧
      proof.value = expectedHashes nBits.toNat := by
  have hcompact := BaseUint.setCompact_eq nBits
  have hlt := expectedHashes_lt nBits.toNat
  have hT := setCompact_lt nBits.toNat
  have hvalue : (BaseUint.setCompact nBits).1.value = (setCompact nBits.toNat).1 :=
    congrArg Prod.fst hcompact
  have hflags : (BaseUint.setCompact nBits).2 = (setCompact nBits.toNat).2 :=
    congrArg Prod.snd hcompact
  have hzero : (BaseUint.setCompact nBits).1.equalTo 0 = true ↔ (setCompact nBits.toNat).1 = 0 := by
    rw [BaseUint.equalTo_iff, hvalue]
    rfl
  simp only [expectedHashes] at hlt
  simp only [BaseUint.getBlockProof, expectedHashes, hzero, hflags]
  split
  next h => exact ⟨BaseUint.zero, rfl, BaseUint.value_zero⟩
  next h =>
    rw [if_neg h, ← complement_div (lt_of_succ_lt hT)] at hlt
    rw [← complement_div (lt_of_succ_lt hT), ← hvalue]
    rw [← hvalue] at hT hlt
    generalize (BaseUint.setCompact nBits).1 = bnTarget at hT hlt ⊢
    have hone : (BaseUint.ofUInt64 1).value = 1 := BaseUint.value_ofUInt64 1
    have hdivisor : (bnTarget.add (BaseUint.ofUInt64 1)).value = bnTarget.value + 1 := by
      rw [BaseUint.value_add, hone]
      exact mod_eq_of_lt hT
    obtain ⟨q, hq, hqv⟩ := BaseUint.value_div bnTarget.not
      (b := bnTarget.add (BaseUint.ofUInt64 1)) (by rw [hdivisor]; exact succ_ne_zero _)
    rw [BaseUint.value_not, hdivisor] at hqv
    refine ⟨_, by rw [hq]; rfl, ?_⟩
    rw [BaseUint.value_add, hqv, hone]
    exact mod_eq_of_lt hlt

/-! ## The work of a chain -/

/-- The blocks of `l`, from `k` down to one without a parent. -/
inductive ChainTo (m : BlockMap) : Uint256 → List CBlockIndexEntry → Prop where
  | root {k e} : m.lookup k = some e → e.pprev = none → ChainTo m k [e]
  | child {k e p l} : m.lookup k = some e → e.pprev = some p → ChainTo m p l → ChainTo m k (e :: l)

/-- Each block has the work of its parent and its own. -/
structure ChainWorks (m : BlockMap) : Prop where
  tree : m.TreeOk
  notNull : ∀ k ∈ m, k ≠ 0
  work : ∀ k e, m.lookup k = some e →
    e.nChainWork = (m.readPrev (·.nChainWork) e + getBlockProof e.nBits) % 2 ^ 256

/-- What the work of a chain depends on. -/
def workFields (e : CBlockIndexEntry) : CBlockIndex × Nat × Nat :=
  (e.toCBlockIndex, e.nBits, e.nChainWork)

def SameWork (m m' : BlockMap) : Prop :=
  ∀ k, (m'.lookup k).map workFields = (m.lookup k).map workFields

theorem SameWork.refl (m : BlockMap) : SameWork m m := fun _ => rfl

variable {m m' : BlockMap}

theorem SameWork.trans {m'' : BlockMap} (h : SameWork m m') (h' : SameWork m' m'') :
    SameWork m m'' := fun k => (h' k).trans (h k)

theorem sameWork_insert {k : Uint256} {e e' : CBlockIndexEntry} (he : m.lookup k = some e)
    (hfields : workFields e' = workFields e) : SameWork m (m.insert k e') := by
  intro x
  rw [Maps.lookup_insert]
  split
  next heq => rw [heq, he, map_some, map_some, hfields]
  next => rfl

theorem SameWork.sameBlocks (h : SameWork m m') : m.SameBlocks m' := by
  intro k
  have hk := congrArg (Option.map Prod.fst) (h k)
  rw [Option.map_map, Option.map_map] at hk
  exact hk.symm

theorem SameWork.read (h : SameWork m m') (k : Uint256) :
    m'.read (·.nChainWork) k = m.read (·.nChainWork) k := by
  have hk := congrArg (fun o => o.elim 0 fun t => t.2.2) (h k)
  rwa [elim_map, elim_map] at hk

namespace ChainWorks

variable {m m' : BlockMap} {k : Uint256} {e : CBlockIndexEntry}

theorem sameWork (h : ChainWorks m) (hsame : SameWork m m') : ChainWorks m' where
  tree := hsame.sameBlocks.treeOk h.tree
  notNull k hk := h.notNull k (hsame.sameBlocks.mem_iff.mpr hk)
  work k e' he' := by
    have hk := hsame k
    rw [he', map_some] at hk
    obtain ⟨e, he, hfields⟩ := Option.map_eq_some_iff.mp hk.symm
    simp only [workFields, Prod.mk.injEq] at hfields
    obtain ⟨hblock, hbits, hwork⟩ := hfields
    have hread : m'.readPrev (·.nChainWork) e' = m.readPrev (·.nChainWork) e := by
      rw [readPrev, readPrev, ← congrArg CBlockIndex.pprev hblock]
      cases e.pprev with
      | none => rfl
      | some p => exact hsame.read p
    rw [hread, ← hbits, ← hwork]
    exact h.work k e he

theorem exists_chainTo (h : ChainWorks m) {n : Nat} (he : m.lookup k = some e)
    (hn : e.nHeight = n) : ∃ l, ChainTo m k l := by
  induction n generalizing k e with
  | zero =>
    cases hp : e.pprev with
    | none => exact ⟨_, .root he hp⟩
    | some p =>
      obtain ⟨e', -, hheight⟩ := h.tree.parent k e p he hp
      omega
  | succ n ih =>
    cases hp : e.pprev with
    | none =>
      have := h.tree.root k e he hp
      omega
    | some p =>
      obtain ⟨e', he', hheight⟩ := h.tree.parent k e p he hp
      obtain ⟨l, hl⟩ := ih he' (by omega)
      exact ⟨_, .child he hp hl⟩

theorem eq_sum (h : ChainWorks m) (he : m.lookup k = some e) {l : List CBlockIndexEntry}
    (hl : ChainTo m k l) :
    e.nChainWork = (l.map fun e => expectedHashes e.nBits).sum % 2 ^ 256 := by
  induction hl generalizing e with
  | root he' hp =>
    obtain rfl := some.inj (he.symm.trans he')
    rw [h.work _ _ he, readPrev, hp, elim_none, getBlockProof_eq, zero_add,
      map_singleton, sum_singleton]
  | child he' hp hl ih =>
    obtain rfl := some.inj (he.symm.trans he')
    obtain ⟨prev, hprev, -⟩ := h.tree.parent _ _ _ he hp
    rw [h.work _ _ he, readPrev, hp, elim_some, read_of_lookup hprev, ih hprev,
      getBlockProof_eq, map_cons, sum_cons, mod_add_mod, add_comm]

theorem insert (h : ChainWorks m) (hk : k ∉ m) (hne : k ≠ 0) (hhash : e.hash = k)
    (hparent : ∀ p, e.pprev = some p → ∃ e', m.lookup p = some e' ∧ e.nHeight = e'.nHeight + 1)
    (hroot : e.pprev = none → e.nHeight = 0)
    (hwork : e.nChainWork = (m.readPrev (·.nChainWork) e + getBlockProof e.nBits) % 2 ^ 256) :
    ChainWorks (AList.insert k e m) where
  tree := h.tree.insert hk hhash hparent hroot
  notNull x hx := by
    rcases (AList.mem_insert _).mp hx with rfl | hx
    · exact hne
    · exact h.notNull x hx
  work x e' he' := by
    have hmem : ∀ e', m.lookup k ≠ some e' := fun e' he' =>
      hk (AList.lookup_isSome.mp (by rw [he']; rfl))
    -- the new block is no parent, so that the work of the parents stays
    rw [Maps.lookup_insert] at he'
    split at he'
    next =>
      obtain rfl := some.inj he'
      have hpk : e.pprev ≠ some k := fun hp => by
        obtain ⟨q, hq, -⟩ := hparent k hp
        exact hmem q hq
      rw [readPrev_insert _ hpk]
      exact hwork
    next =>
      have hpk : e'.pprev ≠ some k := fun hp => by
        obtain ⟨q, hq, -⟩ := h.tree.parent x e' k he' hp
        exact hmem q hq
      rw [readPrev_insert _ hpk]
      exact h.work x e' he'

end ChainWorks

/-! ## Blocks arrive -/

namespace ChainState

variable {s s' : ChainState} {k : Uint256} {block : CBlockHeader}

theorem newEntry_work {e : CBlockIndexEntry} (h : newEntry m block = some e) :
    e.hash = block.hash ∧
      (∀ p, e.pprev = some p → ∃ e', m.lookup p = some e' ∧ e.nHeight = e'.nHeight + 1) ∧
      (e.pprev = none → e.nHeight = 0) ∧
      e.nChainWork = (m.readPrev (·.nChainWork) e + getBlockProof e.nBits) % 2 ^ 256 := by
  rw [newEntry] at h
  cases hp : m.lookup block.hashPrevBlock with
  | none =>
    rw [hp] at h
    obtain rfl := some.inj h
    refine ⟨rfl, fun p hpp => ?_, fun _ => rfl, ?_⟩
    · cases hpp
    · show getBlockProof block.nBits = (0 + getBlockProof block.nBits) % 2 ^ 256
      rw [zero_add, getBlockProof_eq, mod_eq_of_lt (expectedHashes_lt _)]
  | some prev =>
    rw [hp] at h
    obtain ⟨skip, -, hsome⟩ := bind_eq_some_iff.mp h
    obtain rfl := some.inj hsome
    refine ⟨rfl, fun p hpp => ?_, fun hnone => (by cases hnone), ?_⟩
    · have hpe : block.hashPrevBlock = p := some.inj hpp
      exact ⟨prev, hpe ▸ hp, rfl⟩
    · show (prev.nChainWork + getBlockProof block.nBits) % 2 ^ 256 =
        (m.read (·.nChainWork) block.hashPrevBlock + getBlockProof block.nBits) % 2 ^ 256
      rw [read_of_lookup hp]

theorem addToBlockIndex_chainWorks (h : ChainWorks s.mapBlockIndex) (hne : block.hash ≠ 0)
    (hres : s.addToBlockIndex block = some (k, s')) : ChainWorks s'.mapBlockIndex := by
  rw [addToBlockIndex] at hres
  split at hres
  next =>
    obtain ⟨-, rfl⟩ := Prod.mk.inj (Option.some.inj hres)
    exact h
  next hnew =>
    obtain ⟨e, he, hsome⟩ := bind_eq_some_iff.mp hres
    obtain ⟨-, rfl⟩ := Prod.mk.inj (Option.some.inj hsome)
    obtain ⟨hhash, hparent, hroot, hwork⟩ := newEntry_work he
    exact h.insert hnew hne hhash hparent hroot hwork

theorem linkBlock_sameWork (hres : s.linkBlock k = some s') :
    SameWork s.mapBlockIndex s'.mapBlockIndex := by
  obtain ⟨e, he, hsome⟩ := bind_eq_some_iff.mp hres
  have hsame : SameWork s.mapBlockIndex (s.mapBlockIndex.insert k (s.linkedEntry e)) :=
    sameWork_insert he rfl
  dsimp only at hsome
  split at hsome
  · obtain rfl := some.inj hsome
    exact hsame
  · obtain rfl := some.inj hsome
    exact hsame

theorem linkLoop_sameWork {fuel : Nat} {queue : List Uint256}
    (hres : linkLoop fuel queue s = some s') : SameWork s.mapBlockIndex s'.mapBlockIndex := by
  induction fuel generalizing queue s with
  | zero =>
    cases queue with
    | nil =>
      obtain rfl := some.inj hres
      exact .refl _
    | cons k queue => nomatch hres
  | succ fuel ih =>
    cases queue with
    | nil =>
      obtain rfl := some.inj hres
      exact .refl _
    | cons k queue =>
      obtain ⟨s1, hlink, hloop⟩ := bind_eq_some_iff.mp hres
      have hrest := ih hloop
      exact (linkBlock_sameWork hlink).trans hrest

theorem receivedBlockTransactions_sameWork {nTx : Nat}
    (hres : s.receivedBlockTransactions nTx k = some s') :
    SameWork s.mapBlockIndex s'.mapBlockIndex := by
  obtain ⟨e, he, hres⟩ := bind_eq_some_iff.mp hres
  have hsame : SameWork s.mapBlockIndex (s.mapBlockIndex.insert k (receivedEntry nTx e)) :=
    sameWork_insert he (CBlockIndexEntry.raiseValidity_congr workFields (fun _ _ => rfl) _ _)
  split at hres
  · exact hsame.trans (linkLoop_sameWork hres)
  · obtain ⟨prev, -, hres⟩ := bind_eq_some_iff.mp hres
    split at hres
    · exact hsame.trans (linkLoop_sameWork hres)
    · split at hres
      · obtain rfl := some.inj hres
        exact hsame
      · obtain rfl := some.inj hres
        exact hsame

end ChainState

open ChainState

/-! ## Blocks are loaded -/

namespace ChainState

/-- The loop of `LoadBlockIndex`, which has passed the blocks in `done`: each of them has the
    work of its parent and its own. -/
structure PartlySummed (m : BlockMap) (done : List Uint256) (c : BlockMap) : Prop where
  same : ∀ k, (c.lookup k).map (fun e => (e.toCBlockIndex, e.nBits)) =
    (m.lookup k).map fun e => (e.toCBlockIndex, e.nBits)
  work : ∀ k ∈ done, ∀ e, c.lookup k = some e →
    e.nChainWork = (c.readPrev (·.nChainWork) e + getBlockProof e.nBits) % 2 ^ 256

variable {s s' : ChainState} {m c : BlockMap} {k : Uint256} {done : List Uint256}

theorem PartlySummed.sameBlocks (h : PartlySummed m done c) : m.SameBlocks c := by
  intro k
  have hk := congrArg (Option.map Prod.fst) (h.same k)
  rw [Option.map_map, Option.map_map] at hk
  exact hk.symm

theorem PartlySummed.loadBlock (hm : m.TreeOk) (h : PartlySummed m done s.mapBlockIndex)
    (hlow : ∀ x ∈ done, m.nHeight x ≤ m.nHeight k) (hres : s.loadBlock k = some s') :
    PartlySummed m (k :: done) s'.mapBlockIndex := by
  obtain ⟨e, he, hres⟩ := Option.bind_eq_some_iff.mp hres
  obtain ⟨e1, hskip, hres⟩ := Option.bind_eq_some_iff.mp hres
  obtain rfl := Option.some.inj hres
  have hfields : workFields e1 = workFields (s.mapBlockIndex.computedEntry e) := by
    rw [buildSkip] at hskip
    split at hskip
    · rw [← Option.some.inj hskip]
    · obtain ⟨pskip, -, hsome⟩ := Option.bind_eq_some_iff.mp hskip
      rw [← Option.some.inj hsome]
      rfl
  simp only [workFields, computedEntry, Prod.mk.injEq] at hfields
  obtain ⟨hblock, hbits, hwork⟩ := hfields
  have htree := h.sameBlocks.treeOk hm
  have hheight := h.sameBlocks.nHeight_eq
  -- a parent is below its child, so it is not the block that is written
  have hread : ∀ x e', s.mapBlockIndex.lookup x = some e' → m.nHeight x ≤ m.nHeight k →
      readPrev (AList.insert k e1 s.mapBlockIndex) (·.nChainWork) e' =
        s.mapBlockIndex.readPrev (·.nChainWork) e' := by
    intro x e' hx hle
    refine readPrev_insert _ fun hp => ?_
    obtain ⟨q, hq, hparent⟩ := htree.parent x e' k hx hp
    rw [hheight, hheight, nHeight_of_lookup hx, nHeight_of_lookup hq] at hle
    omega
  refine ⟨fun x => ?_, fun x hx e' he' => ?_⟩
  · show (AList.lookup x (AList.insert k e1 s.mapBlockIndex)).map _ = _
    rw [← h.same, Maps.lookup_insert]
    split
    next heq => rw [heq, he, map_some, map_some, hblock, hbits]
    next => rfl
  · change AList.lookup x (AList.insert k e1 s.mapBlockIndex) = some e' at he'
    rw [Maps.lookup_insert] at he'
    split at he'
    next heq =>
      obtain rfl := Option.some.inj he'
      have hself := hread k e he le_rfl
      rw [readPrev] at hself ⊢
      rw [congrArg CBlockIndex.pprev hblock, hself, hbits, hwork]
    next hne =>
      have hdone := (mem_cons.mp hx).resolve_left hne
      rw [hread x e' he' (hlow x hdone)]
      exact h.work x hdone e' he'

theorem PartlySummed.loadBlocks (hm : m.TreeOk) {l : List Uint256}
    (h : PartlySummed m done s.mapBlockIndex)
    (hlow : ∀ x ∈ done, ∀ k ∈ l, m.nHeight x ≤ m.nHeight k)
    (hsorted : l.Pairwise fun a b => m.nHeight a ≤ m.nHeight b)
    (hres : l.foldlM ChainState.loadBlock s = some s') :
    ∃ done', (∀ k, k ∈ l ∨ k ∈ done → k ∈ done') ∧ PartlySummed m done' s'.mapBlockIndex := by
  induction l generalizing s done with
  | nil =>
    obtain rfl := some.inj hres
    exact ⟨done, fun k hk => hk.resolve_left not_mem_nil, h⟩
  | cons a l ih =>
    obtain ⟨s1, hload, hrest⟩ := bind_eq_some_iff.mp hres
    obtain ⟨hhead, htail⟩ := pairwise_cons.mp hsorted
    have h₁ := h.loadBlock hm (fun x hx => hlow x hx a mem_cons_self) hload
    have hlow1 : ∀ x ∈ a :: done, ∀ k ∈ l, m.nHeight x ≤ m.nHeight k := by
      intro x hx k hk
      rcases mem_cons.mp hx with rfl | hx
      · exact hhead k hk
      · exact hlow x hx k (mem_cons_of_mem _ hk)
    obtain ⟨done', hmem, h'⟩ := ih h₁ hlow1 htail hrest
    refine ⟨done', fun k hk => hmem k ?_, h'⟩
    rw [mem_cons] at hk ⊢
    tauto

variable {records : List CDiskBlockIndex} {pow : Uint256 → Nat → Bool}

theorem loadBlockIndexGuts_unchecked (hres : loadBlockIndexGuts pow records m = some m') :
    loadBlockIndexGuts (fun _ _ => true) records m = some m' := by
  induction records generalizing m with
  | nil => exact hres
  | cons d records ih =>
    rw [loadBlockIndexGuts] at hres ⊢
    simp only [bind_eq_bind] at hres ⊢
    obtain ⟨pindexNew, hnew, hres⟩ := bind_eq_some_iff.mp hres
    split at hres
    next =>
      rw [hnew, bind_some, if_pos trivial]
      exact ih hres
    next => cases hres

theorem loadBlockIndex_chainWorks (h : ChainWorks s.mapBlockIndex)
    (hrecords : records.Perm s.mapBlockIndex.diskRecords)
    (hres : loadBlockIndex pow records = some s') : ChainWorks s'.mapBlockIndex := by
  obtain ⟨m, hguts, hblocks⟩ := bind_eq_some_iff.mp hres
  obtain ⟨m', hguts', hblank⟩ : ∃ m', loadBlockIndexGuts (fun _ _ => true) records ∅ = some m' ∧
      ∀ k, m'.lookup k = (s.mapBlockIndex.lookup k).map blankEntry :=
    h.tree.loadBlockIndexGuts h.notNull (fun _ _ _ => rfl) hrecords
  obtain rfl : m = m' :=
    some.inj ((loadBlockIndexGuts_unchecked hguts).symm.trans hguts')
  have hstart : PartlySummed s.mapBlockIndex [] m := by
    refine ⟨fun k => ?_, fun k hk => (nomatch hk)⟩
    rw [hblank, Option.map_map]
    rfl
  have hheight : m.nHeight = s.mapBlockIndex.nHeight :=
    funext fun k => (hstart.sameBlocks.nHeight_eq k).symm
  have hsorted := pairwise_sortedByHeight m
  rw [hheight] at hsorted
  obtain ⟨done, hdone, hend⟩ := PartlySummed.loadBlocks (s := { mapBlockIndex := m }) h.tree hstart
    (fun x hx => (nomatch hx)) hsorted hblocks
  refine ⟨hend.sameBlocks.treeOk h.tree, fun k hk => h.notNull k (hend.sameBlocks.mem_iff.mpr hk),
    fun k e he => hend.work k (hdone k (.inl (mem_sortedByHeight.mpr ?_))) e he⟩
  have hk : k ∈ s'.mapBlockIndex := AList.lookup_isSome.mp (by rw [he]; rfl)
  exact hstart.sameBlocks.mem_iff.mp (hend.sameBlocks.mem_iff.mpr hk)

end ChainState

/-! ## Runs -/

/-- The states that are reached from an empty index: blocks and their data arrive, tips are
    set, and the node is restarted with the records of its index. -/
inductive IndexReached : ChainState → Prop where
  | empty : IndexReached {}
  | arrival {s s'} (op : ArrivalOp) : IndexReached s →
      (∀ block, op = .addToBlockIndex block → block.hash ≠ 0) → op.apply s = some s' →
      IndexReached s'
  | restart {s s'} (pow : Uint256 → Nat → Bool) (records : List CDiskBlockIndex) : IndexReached s →
      records.Perm s.mapBlockIndex.diskRecords →
      loadBlockIndex pow records = some s' → IndexReached s'

theorem IndexReached.chainWorks {s : ChainState} (h : IndexReached s) :
    ChainWorks s.mapBlockIndex := by
  induction h with
  | empty => exact ⟨TreeOk.empty, fun k hk => absurd hk (AList.notMem_empty k), nofun⟩
  | arrival op _ hne hres ih =>
    cases op with
    | addToBlockIndex block =>
      obtain ⟨⟨k, s'⟩, hadd, rfl⟩ := map_eq_some_iff.mp hres
      exact addToBlockIndex_chainWorks ih (hne block rfl) hadd
    | receivedBlockTransactions nTx pindex =>
      exact ih.sameWork (receivedBlockTransactions_sameWork hres)
    | setTip chain =>
      obtain ⟨tip, -, hres⟩ := bind_eq_some_iff.mp hres
      obtain ⟨tipEntry, -, hres⟩ := bind_eq_some_iff.mp hres
      dsimp only at hres
      split at hres
      · nomatch hres
      · obtain rfl := some.inj hres
        exact ih
  | restart pow records _ hrecords hres ih =>
    exact loadBlockIndex_chainWorks ih hrecords hres

/-- The proof of a block is the number of hashes expected for its target, and is computed without
    an exception; `nChainWork` of every block is the sum over its chain when that is a
    number of 256 bits. -/
theorem nChainWork_exact :
    (∀ nBits : BitVec 32, ∃ proof, BaseUint.getBlockProof nBits = some proof ∧
      proof.value = expectedHashes nBits.toNat ∧
      proof.value = getBlockProof nBits.toNat) ∧
    ∀ s, IndexReached s → ∀ k e, s.mapBlockIndex.lookup k = some e →
      ∃ l, ChainTo s.mapBlockIndex k l ∧
        ((l.map fun e => expectedHashes e.nBits).sum < 2 ^ 256 →
          e.nChainWork = (l.map fun e => expectedHashes e.nBits).sum) := by
  refine ⟨fun nBits => ?_, fun s hs k e he => ?_⟩
  · obtain ⟨proof, hproof, hvalue⟩ := getBlockProof_word nBits
    exact ⟨proof, hproof, hvalue, hvalue.trans (getBlockProof_eq _).symm⟩
  · obtain ⟨l, hl⟩ := hs.chainWorks.exists_chainTo he rfl
    refine ⟨l, hl, fun hlt => ?_⟩
    rw [hs.chainWorks.eq_sum he hl, mod_eq_of_lt hlt]

end Rcoin
