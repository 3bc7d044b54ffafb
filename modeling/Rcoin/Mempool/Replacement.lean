/-
  What a transaction that replaces others in the pool has passed: which transactions go with
  it, what it pays for them, and which sums of fees 64 bits have to hold for that.

  Source: AcceptToMemoryPoolWorker in src/validation.cpp.
-/
import Rcoin.Chain.Connect
import Rcoin.Mempool.Accept

namespace Rcoin

open Relation CTxMemPool CTxMemPoolEntry Fallible AcceptEnv Closure SortedSet

/-! ## What is evicted -/

namespace CTxMemPool

/-- `c` is in the pool and spends an output that `tx` spends too. -/
def DirectConflict (pool : CTxMemPool) (tx : CTransaction) (c : Uint256) : Prop :=
  ∃ e, pool.mapTx.lookup c = some e ∧ ∃ o ∈ tx.prevouts, o ∈ e.tx.prevouts

/-- A direct conflict, or a descendant of one. -/
def Evicted (pool : CTxMemPool) (tx : CTransaction) (k : Uint256) : Prop :=
  ∃ c, pool.DirectConflict tx c ∧ ReflTransGen pool.SpendsFrom c k

/-- The modified fee of an entry. -/
def modifiedFeeAt (pool : CTxMemPool) (k : Uint256) : Int :=
  (pool.mapTx.lookup k).elim 0 getModifiedFee

end CTxMemPool

/-! ## Fees in 64 bits -/

/-- A fee, and what it is multiplied to for a rate, are amounts. -/
structure RateFits (nFee nSize : Int) : Prop where
  fee : IsAmount nFee
  rate : 0 < nSize → IsAmount (nFee * 1000)

/-- So are the modified fees of some entries, and the partial sums. -/
structure SumFits (pool : CTxMemPool) (l : List Uint256) : Prop where
  fee : ∀ k ∈ l, IsAmount (pool.modifiedFeeAt k)
  sum : ∀ r, r <+: l → IsAmount (r.map pool.modifiedFeeAt).sum

namespace AcceptEnv

variable (env : AcceptEnv) (pool : CTxMemPool) (call : AcceptCall)

/-- What the transaction spends more than it pays out. -/
def txFee : Int :=
  inputValue (pool.getCoin env.coinsTip) call.tx.prevouts - call.tx.outValue

def modifiedFee : Int := env.txFee pool call + (pool.mapDeltas.lookup call.tx.hash).getD 0

/-- The entry that the pool is to get. -/
def newEntry : CTxMemPoolEntry :=
  CTxMemPoolEntry.new env.toMempoolEnv call.tx (env.txFee pool call) call.nAcceptTime
    (env.getTransactionSigOpCost call.tx (env.inputCoins pool call.tx))

def newSize : Int := env.getTxSize (env.newEntry pool call)

/-- The fees that a replacement is measured by: its own with that of its relay, the modified fees
    of the conflicts, and those of all that is evicted, in the order of the set. -/
structure ReplacementFits (tx : CTransaction) (nModifiedFees nSize : Int) : Prop where
  rate : 0 < nSize → IsAmount (nModifiedFees * 1000)
  conflicts : ∀ c e, pool.DirectConflict tx c → pool.mapTx.lookup c = some e →
    RateFits e.getModifiedFee (env.getTxSize e)
  evicted : ∀ D : SetEntries, (∀ k, k ∈ D ↔ pool.Evicted tx k) →
    SumFits pool D.elems ∧
      IsAmount (nModifiedFees - ∑ k ∈ D.toFinset, pool.modifiedFeeAt k)
  incremental : IsAmount (env.incrementalRelayFee.nSatoshisPerK * nSize)

/-- Every sum and every product of fees that the function forms is an amount. -/
structure FeesFit : Prop where
  modified : IsAmount (env.modifiedFee pool call)
  minFee : IsAmount ((env.getMinFee pool).nSatoshisPerK * env.newSize pool call)
  minRelay : call.bypass_limits = false →
    IsAmount (env.minRelayTxFee.nSatoshisPerK * env.newSize pool call)
  replacement : env.ReplacementFits pool call.tx (env.modifiedFee pool call)
    (env.newSize pool call)

end AcceptEnv

section

variable {β : Type} {b : β} {x : Int} {f : Unit → Except AcceptError β} {rate newFeeRate : CFeeRate}

theorem orAssert_eq_ok {α : Type} {x : Option α} {a : α} : orAssert x = .ok a ↔ x = some a := by
  cases x with
  | none => exact ⟨fun h => (nomatch h), fun h => (nomatch h)⟩
  | some b => exact ⟨fun h => by cases h; rfl, fun h => by cases h; rfl⟩

theorem fits_bind_eq_ok : (fits x >>= f) = .ok b ↔ IsAmount x ∧ f ⟨⟩ = .ok b := by
  rw [fits, failIf_bind_eq_ok, decide_eq_false_iff_not, not_not]

theorem fits_eq_ok {u : Unit} : fits x = .ok u ↔ IsAmount x := by
  rw [fits, failIf_eq_ok, decide_eq_false_iff_not, not_not]

theorem fits_of (h : IsAmount x) : fits x = .ok ⟨⟩ := fits_eq_ok.mpr h

theorem checkedOfFee_eq_ok {nFee nSize : Int} : CFeeRate.checkedOfFee nFee nSize = .ok rate ↔
    (0 < nSize → IsAmount (nFee * 1000)) ∧ CFeeRate.ofFee nFee nSize = rate := by
  rw [CFeeRate.checkedOfFee]
  by_cases hsize : 0 < nSize
  · rw [decide_eq_true hsize, onlyIf, if_pos rfl, fits_bind_eq_ok, pure_eq_ok]
    exact and_congr_left' ⟨fun h _ => h, fun h => h hsize⟩
  · rw [decide_eq_false hsize]
    exact pure_eq_ok.trans ⟨fun h => ⟨fun hpos => absurd hpos hsize, h⟩, And.right⟩

theorem checkedGetFee_eq_ok {nSize nFee : Int} : rate.checkedGetFee nSize = .ok nFee ↔
    IsAmount (rate.nSatoshisPerK * nSize) ∧ rate.getFee nSize = nFee := by
  rw [CFeeRate.checkedGetFee, fits_bind_eq_ok, pure_eq_ok]

/-- The sum from what has been added up before. -/
theorem sumConflictingFees_eq_ok {pool : CTxMemPool} {l : List Uint256} {total n : Int}
    (h : IsAmount total) : sumConflictingFees pool l total = .ok n ↔
      (∀ k ∈ l, k ∈ pool.mapTx ∧ IsAmount (pool.modifiedFeeAt k)) ∧
      (∀ r, r <+: l → IsAmount (total + (r.map pool.modifiedFeeAt).sum)) ∧
      total + (l.map pool.modifiedFeeAt).sum = n := by
  induction l generalizing total with
  | nil =>
    simp only [sumConflictingFees, List.prefix_nil, forall_eq, List.map_nil, List.sum_nil, add_zero]
    exact ⟨fun hn => ⟨by simp, h, Except.ok.inj hn⟩, fun hn => congrArg _ hn.2.2⟩
  | cons k l ih =>
    rw [sumConflictingFees, bind_eq_ok, List.forall_mem_cons, List.map_cons, List.sum_cons,
      ← add_assoc]
    have hat : ∀ e, pool.mapTx.lookup k = some e → e.getModifiedFee = pool.modifiedFeeAt k :=
      fun e he => by rw [CTxMemPool.modifiedFeeAt, he, Option.elim_some]
    constructor
    · rintro ⟨e, he, hstep⟩
      have he := orAssert_eq_ok.mp he
      rw [hat e he] at hstep
      obtain ⟨hfee, hstep⟩ := fits_bind_eq_ok.mp hstep
      obtain ⟨htotal, hstep⟩ := fits_bind_eq_ok.mp hstep
      obtain ⟨hmem, hsums, hn⟩ := (ih htotal).mp hstep
      refine ⟨⟨⟨mem_mapTx_iff.mpr ⟨e, he⟩, hfee⟩, hmem⟩, fun r hr => ?_, hn⟩
      rcases List.prefix_cons_iff.mp hr with rfl | ⟨t, rfl, ht⟩
      · simpa using h
      · rw [List.map_cons, List.sum_cons, ← add_assoc]
        exact hsums t ht
    · rintro ⟨⟨⟨hk, hfee⟩, hmem⟩, hsums, hn⟩
      obtain ⟨e, he⟩ := mem_mapTx_iff.mp hk
      have hcons : ∀ r, r <+: l →
          IsAmount (total + pool.modifiedFeeAt k + (r.map pool.modifiedFeeAt).sum) := by
        intro r hr
        have hsum := hsums (k :: r) (List.cons_prefix_cons.mpr ⟨rfl, hr⟩)
        rwa [List.map_cons, List.sum_cons, ← add_assoc] at hsum
      have htotal : IsAmount (total + pool.modifiedFeeAt k) := by
        simpa using hcons [] List.nil_prefix
      refine ⟨e, orAssert_eq_ok.mpr he, ?_⟩
      rw [hat e he]
      exact fits_bind_eq_ok.mpr ⟨hfee, fits_bind_eq_ok.mpr
        ⟨htotal, (ih htotal).mpr ⟨hmem, hcons, hn⟩⟩⟩

theorem sumConflictingFees_zero {pool : CTxMemPool} {D : SetEntries} {n : Int} :
    sumConflictingFees pool D.elems 0 = .ok n ↔ (∀ k ∈ D, k ∈ pool.mapTx) ∧
      SumFits pool D.elems ∧ ∑ k ∈ D.toFinset, pool.modifiedFeeAt k = n := by
  rw [sumConflictingFees_eq_ok (by decide), forall₂_and, zero_add, SortedSet.sum_elems]
  simp only [zero_add]
  exact ⟨fun ⟨⟨hmem, hfee⟩, hsum, hn⟩ => ⟨hmem, ⟨hfee, hsum⟩, hn⟩,
    fun ⟨hmem, ⟨hfee, hsum⟩, hn⟩ => ⟨⟨hmem, hfee⟩, hsum, hn⟩⟩

/-! ### Nothing else overflows -/

theorem rejection_ne_overflow (level : Int) (chRejectCode : Nat) (strRejectReason : String) :
    rejection level chRejectCode strRejectReason ≠ .overflow := fun h => (nomatch h)

theorem corruptRejection_ne_overflow (level : Int) (chRejectCode : Nat)
    (strRejectReason : String) :
    corruptRejection level chRejectCode strRejectReason ≠ .overflow := fun h => (nomatch h)

theorem orAssert_avoids {α : Type} (x : Option α) : Avoids .overflow (orAssert x) := by
  cases x with
  | none => exact .error fun h => (nomatch h)
  | some a => exact .ok _ a

theorem avoids_of_eq_ok {α : Type} {x : Except AcceptError α} {a : α} (h : x = .ok a) :
    Avoids .overflow x := h ▸ .ok _ a

end

section

variable {env : AcceptEnv} {pool : CTxMemPool} {tx : CTransaction}

/-! ## The checks -/

theorem findConflicts_avoids (l : List COutPoint) (s : SetEntries) :
    Avoids .overflow (env.findConflicts pool l s) := by
  induction l generalizing s with
  | nil => exact .ok _ s
  | cons o l ih =>
    rw [findConflicts]
    split
    · exact ih s
    · split
      · exact ih s
      · split
        · exact .error (rejection_ne_overflow _ _ _)
        · exact ih _

theorem checkInputsExist_avoids (l : List COutPoint) :
    Avoids .overflow (env.checkInputsExist pool tx l) := by
  induction l with
  | nil => exact .ok _ _
  | cons o l ih =>
    rw [checkInputsExist]
    split
    · exact ih
    · split
      · exact .error (rejection_ne_overflow _ _ _)
      · exact .error fun h => (nomatch h)

variable {setConflicts : SetEntries}

theorem findConflicts_spec {l : List COutPoint} {s : SetEntries}
    (h : env.findConflicts pool l s = .ok setConflicts) (k : Uint256) :
    k ∈ setConflicts ↔ k ∈ s ∨ ∃ o ∈ l, ∃ t, pool.mapNextTx.lookup o = some t ∧ t.hash = k := by
  induction l generalizing s with
  | nil =>
    cases h
    simp
  | cons o l ih =>
    rw [findConflicts] at h
    cases hnext : pool.mapNextTx.lookup o with
    | none =>
      rw [hnext] at h
      rw [ih h]
      simp [hnext]
    | some t =>
      rw [hnext] at h
      simp only at h
      -- the spender is known already, or has to be replaceable
      split at h
      next hmem =>
        rw [ih h]
        simp only [List.mem_cons, exists_eq_or_imp, hnext, Option.some.injEq, exists_eq_left']
        constructor
        · exact fun hk => hk.imp_right .inr
        · rintro (hk | rfl | hk)
          · exact .inl hk
          · exact .inl hmem
          · exact .inr hk
      next hmem =>
        split at h
        · nomatch h
        · rw [ih h, SortedSet.mem_insert]
          simp only [List.mem_cons, exists_eq_or_imp, hnext, Option.some.injEq, exists_eq_left']
          rw [eq_comm (a := k), or_comm (a := t.hash = k), or_assoc]

theorem mem_findConflicts (hst : Stored env.toMempoolEnv pool)
    (h : env.findConflicts pool tx.prevouts ∅ = .ok setConflicts) {k : Uint256} :
    k ∈ setConflicts ↔ pool.DirectConflict tx k := by
  rw [findConflicts_spec h]
  constructor
  · rintro (hk | ⟨o, ho, t, hnext, rfl⟩)
    · exact absurd hk (not_mem_empty k)
    · obtain ⟨e, he, rfl, hspent⟩ := (hst.mapNextTx o t).mp hnext
      exact ⟨e, he, o, ho, hspent⟩
  · rintro ⟨e, he, o, ho, hspent⟩
    have hhash := hst.hashes k e he
    exact .inr ⟨o, ho, e.tx, (hst.mapNextTx o e.tx).mpr ⟨e, hhash.symm ▸ he, rfl, hspent⟩, hhash⟩

/-- What the loop over the conflicts has seen. -/
structure Visited (env : AcceptEnv) (pool : CTxMemPool) (newFeeRate : CFeeRate)
    (l : List Uint256) (st st' : ConflictState) : Prop where
  setIter : ∀ k, k ∈ st'.setIterConflicting ↔
    k ∈ st.setIterConflicting ∨ (k ∈ l ∧ k ∈ pool.mapTx)
  feeRate : ∀ k ∈ l, ∀ e, pool.mapTx.lookup k = some e →
    (CFeeRate.ofFee e.getModifiedFee (env.getTxSize e)).nSatoshisPerK < newFeeRate.nSatoshisPerK
  parents : ∀ h, h ∈ st'.setConflictsParents ↔ h ∈ st.setConflictsParents ∨
    ∃ k ∈ l, ∃ e, pool.mapTx.lookup k = some e ∧ h ∈ e.tx.prevouts.map COutPoint.hash
  fits : ∀ k ∈ l, ∀ e, pool.mapTx.lookup k = some e →
    RateFits e.getModifiedFee (env.getTxSize e)
  count : st'.nConflictingCount = st.nConflictingCount +
    (l.map fun k => (pool.mapTx.lookup k).elim 0 nCountWithDescendants).sum

theorem foldlM_visitConflict {newFeeRate : CFeeRate} {l : List Uint256}
    {st st' : ConflictState}
    (h : l.foldlM (env.visitConflict pool newFeeRate) st = .ok st') :
    Visited env pool newFeeRate l st st' := by
  induction l generalizing st with
  | nil =>
    cases h
    exact ⟨by simp, by simp, by simp, by simp, by simp⟩
  | cons k l ih =>
    obtain ⟨st1, hstep, h⟩ := bind_eq_ok.mp h
    have hrest := ih h
    rw [visitConflict] at hstep
    cases hlookup : pool.mapTx.lookup k with
    -- `continue` where the hash is not in the pool
    | none =>
      rw [hlookup] at hstep
      cases hstep
      have hnot : k ∉ pool.mapTx := AList.lookup_eq_none.mp hlookup
      refine ⟨fun x => ?_, List.forall_mem_cons.mpr ⟨by simp [hlookup], hrest.feeRate⟩,
        fun x => ?_, List.forall_mem_cons.mpr ⟨by simp [hlookup], hrest.fits⟩, ?_⟩
      · rw [hrest.setIter]
        refine or_congr_right ⟨fun hx => ⟨List.mem_cons_of_mem _ hx.1, hx.2⟩, fun hx => ?_⟩
        rcases List.mem_cons.mp hx.1 with rfl | hmem
        · exact absurd hx.2 hnot
        · exact ⟨hmem, hx.2⟩
      · rw [hrest.parents]
        simp [hlookup]
      · rw [hrest.count]
        simp [hlookup]
    | some e =>
      rw [hlookup] at hstep
      simp only at hstep
      obtain ⟨hfee, hstep⟩ := fits_bind_eq_ok.mp hstep
      obtain ⟨oldFeeRate, hold, hstep⟩ := bind_eq_ok.mp hstep
      obtain ⟨hproduct, rfl⟩ := checkedOfFee_eq_ok.mp hold
      split at hstep
      · nomatch hstep
      next hrate =>
        -- the conflict is collected, with its parents and its count
        cases hstep
        have hmem : k ∈ pool.mapTx := mem_mapTx_iff.mpr ⟨e, hlookup⟩
        refine ⟨fun x => ?_, List.forall_mem_cons.mpr ⟨?_, hrest.feeRate⟩, fun x => ?_,
          List.forall_mem_cons.mpr ⟨?_, hrest.fits⟩, ?_⟩
        · rw [hrest.setIter, SortedSet.mem_insert, List.mem_cons]
          constructor
          · rintro ((rfl | hx) | hx)
            · exact .inr ⟨.inl rfl, hmem⟩
            · exact .inl hx
            · exact .inr ⟨.inr hx.1, hx.2⟩
          · rintro (hx | ⟨rfl | hx, hin⟩)
            · exact .inl (.inr hx)
            · exact .inl (.inl rfl)
            · exact .inr ⟨hx, hin⟩
        · intro e' he'
          obtain rfl := Option.some.inj (hlookup.symm.trans he')
          exact Int.not_le.mp hrate
        · rw [hrest.parents, mem_insertAll, List.exists_mem_cons_iff]
          simp only [hlookup, Option.some.injEq, exists_eq_left', or_assoc]
        · intro e' he'
          obtain rfl := Option.some.inj (hlookup.symm.trans he')
          exact ⟨hfee, hproduct⟩
        · rw [hrest.count]
          simp only [List.map_cons, List.sum_cons, hlookup, Option.elim_some]
          omega

theorem nCountWithDescendants_eq (h : Consistent env.toMempoolEnv pool) {k : Uint256}
    {e : CTxMemPoolEntry} (he : pool.mapTx.lookup k = some e) :
    e.nCountWithDescendants =
      (reaching (Function.swap pool.SpendsFrom) pool.txids k).card := by
  have hcount : e.nCountWithDescendants =
      (∑ x ∈ reaching (Function.swap pool.SpendsFrom) pool.txids k,
        env.descendantWeightAt pool x).1 := congrArg Prod.fst (h.descendants k e he)
  rw [hcount, Prod.fst_sum, Finset.card_eq_sum_ones, Nat.cast_sum]
  refine Finset.sum_congr rfl fun x hx => ?_
  obtain ⟨e', he'⟩ := mem_mapTx_iff.mp (mem_txids.mp (mem_reaching.mp hx).1)
  rw [MempoolEnv.descendantWeightAt, he']
  rfl

variable {D : SetEntries}

theorem size_le_counts (h : Consistent env.toMempoolEnv pool) {conflicts : List Uint256}
    (hD : ∀ k ∈ D, ∃ c ∈ conflicts, c ∈ pool.mapTx ∧ ReflTransGen pool.SpendsFrom c k) :
    (D.size : Int) ≤
      (conflicts.map fun k => (pool.mapTx.lookup k).elim 0 nCountWithDescendants).sum := by
  classical
  have hreach : ∀ k ∈ D, ∀ c, c ∈ pool.mapTx → ReflTransGen pool.SpendsFrom c k →
      k ∈ reaching (Function.swap pool.SpendsFrom) pool.txids c := by
    intro k _ c hc hck
    refine mem_reaching.mpr ⟨?_, reflTransGen_swap.mpr hck⟩
    rcases ReflTransGen.cases_tail hck with rfl | ⟨b, -, -, e, he, -⟩
    · exact mem_txids.mpr hc
    · exact mem_txids.mpr (mem_mapTx_iff.mpr ⟨e, he⟩)
  -- one conflict after the other
  suffices hl : ∀ l : List Uint256,
      ((D.toFinset.filter fun k => ∃ c ∈ l, c ∈ pool.mapTx ∧
        ReflTransGen pool.SpendsFrom c k).card : Int) ≤
      (l.map fun k => (pool.mapTx.lookup k).elim 0 nCountWithDescendants).sum by
    have hall := hl conflicts
    rwa [Finset.filter_true_of_mem hD, SortedSet.card_toFinset] at hall
  intro l
  induction l with
  | nil => simp
  | cons c l ih =>
    rw [List.map_cons, List.sum_cons]
    cases hlookup : pool.mapTx.lookup c with
    | none =>
      have hnot : c ∉ pool.mapTx := AList.lookup_eq_none.mp hlookup
      simpa [hnot] using ih
    | some e =>
      have hsub : (D.toFinset.filter fun k => ∃ c' ∈ c :: l, c' ∈ pool.mapTx ∧
          ReflTransGen pool.SpendsFrom c' k) ⊆
          reaching (Function.swap pool.SpendsFrom) pool.txids c ∪
            D.toFinset.filter fun k => ∃ c' ∈ l, c' ∈ pool.mapTx ∧
              ReflTransGen pool.SpendsFrom c' k := by
        intro k hk
        obtain ⟨hkD, c', hc', hmem, hreaches⟩ := Finset.mem_filter.mp hk
        rcases List.mem_cons.mp hc' with rfl | hc'
        · exact Finset.mem_union_left _ (hreach k hkD c' hmem hreaches)
        · exact Finset.mem_union_right _ (Finset.mem_filter.mpr ⟨hkD, c', hc', hmem, hreaches⟩)
      have hcard := (Finset.card_le_card hsub).trans (Finset.card_union_le _ _)
      rw [Option.elim_some, nCountWithDescendants_eq h hlookup]
      omega

/-- What a replacement has passed: it pays for what it replaces and for itself, has a higher
    fee rate than each direct conflict, adds no new parent from the pool, and does not replace
    too much. -/
structure ReplacementOk (env : AcceptEnv) (pool : CTxMemPool) (tx : CTransaction)
    (nModifiedFees nSize : Int) (D : SetEntries) : Prop where
  fees : ∑ k ∈ D.toFinset, pool.modifiedFeeAt k + env.incrementalRelayFee.getFee nSize ≤
    nModifiedFees
  feeRate : ∀ c e, pool.DirectConflict tx c → pool.mapTx.lookup c = some e →
    (CFeeRate.ofFee e.getModifiedFee (env.getTxSize e)).nSatoshisPerK <
      (CFeeRate.ofFee nModifiedFees nSize).nSatoshisPerK
  parents : ∀ o ∈ tx.prevouts, o.hash ∈ pool.mapTx → ∃ c e, pool.DirectConflict tx c ∧
    pool.mapTx.lookup c = some e ∧ o.hash ∈ e.tx.prevouts.map COutPoint.hash
  count : D.size ≤ 100

theorem CTxMemPool.Evicted.mem_mapTx {k : Uint256} (h : pool.Evicted tx k) : k ∈ pool.mapTx := by
  obtain ⟨c, ⟨e, he, -⟩, hreach⟩ := h
  rcases ReflTransGen.cases_tail hreach with rfl | ⟨b, -, -, e', he', -⟩
  · exact mem_mapTx_iff.mpr ⟨e, he⟩
  · exact mem_mapTx_iff.mpr ⟨e', he'⟩

/-- The descendants of what the loop has collected are what goes. -/
theorem mem_allConflicting (hst : Stored env.toMempoolEnv pool) (hlinks : LinksInputs pool)
    (hconflicts : ∀ k, k ∈ setConflicts ↔ pool.DirectConflict tx k) {newFeeRate : CFeeRate}
    {st : ConflictState} (hvisited : Visited env pool newFeeRate setConflicts.elems {} st)
    (hD : orAssert (pool.calculateAllDescendants st.setIterConflicting) = .ok D) (k : Uint256) :
    k ∈ D ↔ pool.Evicted tx k := by
  have hmem : ∀ k, k ∈ st.setIterConflicting ↔ pool.DirectConflict tx k := by
    intro k
    rw [hvisited.setIter]
    constructor
    · rintro (hk | hk)
      · exact absurd hk (not_mem_empty k)
      · exact (hconflicts k).mp hk.1
    · intro hk
      obtain ⟨e, he, -⟩ := id hk
      exact .inr ⟨(hconflicts k).mpr hk, mem_mapTx_iff.mpr ⟨e, he⟩⟩
  have hin : ∀ k ∈ st.setIterConflicting, k ∈ pool.mapTx := by
    intro k hk
    obtain ⟨e, he, -⟩ := (hmem k).mp hk
    exact mem_mapTx_iff.mpr ⟨e, he⟩
  have hrel : pool.Parent = pool.SpendsFrom :=
    funext fun p => funext fun c => propext (hlinks p c)
  obtain ⟨D', hD', hiff⟩ := calculateAllDescendants_spec hst.tallied.links hin
  obtain rfl : D = D' := Option.some.inj ((orAssert_eq_ok.mp hD).symm.trans hD')
  rw [hiff, hrel]
  exact exists_congr fun c => and_congr_left fun _ => hmem c

theorem checkReplacement_spec (hst : Stored env.toMempoolEnv pool) (hlinks : LinksInputs pool)
    (hconflicts : ∀ k, k ∈ setConflicts ↔ pool.DirectConflict tx k) {nModifiedFees nSize : Int}
    (h : env.checkReplacement pool tx setConflicts nModifiedFees nSize = .ok D) :
    (∀ k, k ∈ D ↔ pool.Evicted tx k) ∧ ReplacementOk env pool tx nModifiedFees nSize D ∧
      env.ReplacementFits pool tx nModifiedFees nSize := by
  obtain ⟨newFeeRate, hnew, h⟩ := bind_eq_ok.mp h
  obtain ⟨hproduct, rfl⟩ := checkedOfFee_eq_ok.mp hnew
  obtain ⟨st, hloop, h⟩ := bind_eq_ok.mp h
  obtain ⟨hcount, h⟩ := failIf_bind_eq_ok.mp h
  obtain ⟨D', hD, h⟩ := bind_eq_ok.mp h
  obtain ⟨nConflictingFees, hfees, h⟩ := bind_eq_ok.mp h
  obtain ⟨hparents, h⟩ := failIf_bind_eq_ok.mp h
  obtain ⟨hpays, h⟩ := failIf_bind_eq_ok.mp h
  obtain ⟨hdelta, h⟩ := fits_bind_eq_ok.mp h
  obtain ⟨incrementalFee, hincremental, h⟩ := bind_eq_ok.mp h
  obtain ⟨hrelayed, rfl⟩ := checkedGetFee_eq_ok.mp hincremental
  obtain ⟨hrelay, h⟩ := failIf_bind_eq_ok.mp h
  obtain rfl := pure_eq_ok.mp h
  -- the loop has looked at every conflict, and what it sums bounds the rest
  have hvisited := foldlM_visitConflict hloop
  have hevicted := mem_allConflicting hst hlinks hconflicts hvisited hD
  obtain ⟨-, hsums, rfl⟩ := sumConflictingFees_zero.mp hfees
  refine ⟨hevicted, ⟨?_, ?_, ?_, ?_⟩, hproduct, ?_, fun E hE => ?_, hrelayed⟩
  · simp only [decide_eq_false_iff_not] at hrelay
    omega
  · intro c e hc he
    exact hvisited.feeRate c ((hconflicts c).mpr hc) e he
  · intro o ho hpool
    -- otherwise this input would have been reported
    by_contra hnone
    refine absurd (List.any_eq_true.mpr ⟨o, ho, ?_⟩) (Bool.eq_false_iff.mp hparents)
    rw [Bool.and_eq_true, decide_eq_true_iff, decide_eq_true_iff]
    refine ⟨fun hparent => ?_, hpool⟩
    rcases (hvisited.parents o.hash).mp hparent with hempty | ⟨c, hc, e, he, hspent⟩
    · exact not_mem_empty _ hempty
    · exact hnone ⟨c, e, (hconflicts c).mp hc, he, hspent⟩
  · have hsize : (D'.size : Int) ≤ (setConflicts.elems.map fun k =>
        (pool.mapTx.lookup k).elim 0 nCountWithDescendants).sum := by
      refine size_le_counts (hst.consistent hlinks) fun k hk => ?_
      obtain ⟨c, hc, hreach⟩ := (hevicted k).mp hk
      obtain ⟨e, he, -⟩ := id hc
      exact ⟨c, (hconflicts c).mpr hc, mem_mapTx_iff.mpr ⟨e, he⟩, hreach⟩
    have htotal : st.nConflictingCount = 0 + _ := hvisited.count
    have hle := of_decide_eq_false hcount
    rw [MAX_DESCENDANTS_TO_VISIT] at hle
    omega
  · intro c e hc he
    exact hvisited.fits c ((hconflicts c).mpr hc) e he
  · obtain rfl : E = D' := SortedSet.ext_mem fun k => (hE k).trans (hevicted k).symm
    exact ⟨hsums, hdelta⟩

theorem foldlM_visitConflict_avoids {newFeeRate : CFeeRate} {l : List Uint256}
    (hfits : ∀ k ∈ l, ∀ e, pool.mapTx.lookup k = some e →
      RateFits e.getModifiedFee (env.getTxSize e)) (st : ConflictState) :
    Avoids .overflow (l.foldlM (env.visitConflict pool newFeeRate) st) := by
  induction l generalizing st with
  | nil => exact .ok _ st
  | cons k l ih =>
    obtain ⟨hk, hl⟩ := List.forall_mem_cons.mp hfits
    rw [List.foldlM_cons]
    refine .bind ?_ fun st' _ => ih hl st'
    rw [visitConflict]
    split
    · exact .ok _ st
    next e he =>
      obtain ⟨hfee, hrate⟩ := hk e he
      refine .bind (avoids_of_eq_ok (fits_of hfee)) fun _ _ => ?_
      refine .bind (avoids_of_eq_ok (checkedOfFee_eq_ok.mpr ⟨hrate, rfl⟩)) fun _ _ => ?_
      split
      · exact .error (rejection_ne_overflow _ _ _)
      · exact .ok _ _

/-- Where the fees fit, the checks of a replacement have a defined result. -/
theorem checkReplacement_avoids (hst : Stored env.toMempoolEnv pool) (hlinks : LinksInputs pool)
    (hconflicts : ∀ k, k ∈ setConflicts ↔ pool.DirectConflict tx k) {nModifiedFees nSize : Int}
    (h : env.ReplacementFits pool tx nModifiedFees nSize) :
    Avoids .overflow (env.checkReplacement pool tx setConflicts nModifiedFees nSize) := by
  refine .bind (avoids_of_eq_ok (checkedOfFee_eq_ok.mpr ⟨h.rate, rfl⟩)) fun newFeeRate _ => ?_
  refine .bind (foldlM_visitConflict_avoids
    (fun k hk e he => h.conflicts k e ((hconflicts k).mp hk) he) _) fun st hloop => ?_
  refine .failIf (rejection_ne_overflow _ _ _) fun _ => ?_
  refine .bind (orAssert_avoids _) fun D hD => ?_
  have hevicted := mem_allConflicting hst hlinks hconflicts (foldlM_visitConflict hloop) hD
  obtain ⟨hsums, hdelta⟩ := h.evicted D hevicted
  have hsum : sumConflictingFees pool D.elems 0 = .ok _ :=
    sumConflictingFees_zero.mpr ⟨fun k hk => ((hevicted k).mp hk).mem_mapTx, hsums, rfl⟩
  rw [hsum]
  refine .failIf (rejection_ne_overflow _ _ _) fun _ => ?_
  refine .failIf (rejection_ne_overflow _ _ _) fun _ => ?_
  refine .bind (avoids_of_eq_ok (fits_of hdelta)) fun _ _ => ?_
  refine .bind (avoids_of_eq_ok (checkedGetFee_eq_ok.mpr ⟨h.incremental, rfl⟩)) fun _ _ => ?_
  exact .failIf (rejection_ne_overflow _ _ _) fun _ => .ok _ _

/-! ## The ancestors -/

theorem collect_of_ancestorsLoop {entrySize total : Int} {limits : AncestorLimits} {fuel : Nat}
    {stage marked A : SetEntries}
    (h : env.ancestorsLoop pool entrySize limits fuel stage marked total = some (.ok A)) :
    Worklist.collect pool.getMemPoolParents fuel stage marked = some A := by
  induction fuel generalizing stage marked total with
  | zero =>
    rw [MempoolEnv.ancestorsLoop] at h
    rw [Worklist.collect]
    split at h
    next hnil =>
      cases h
      rw [if_pos hnil]
    next => cases h
  | succ fuel ih =>
    rw [MempoolEnv.ancestorsLoop] at h
    rw [Worklist.collect]
    split at h
    next hnil =>
      cases h
      simp only [hnil]
    next it rest hcons =>
      split at h
      next e parents he hparents =>
        simp only [hcons, hparents]
        -- none of the tests of this round has failed
        split at h
        · cases h
        split at h
        · cases h
        dsimp only at h
        split at h
        · cases h
        split at h
        · cases h
        next stage' hstaged =>
          obtain ⟨err, heq⟩ := stageParents_eq limits.limitAncestorCount (marked.insert it)
            parents.elems (stage.erase it)
          rw [hstaged] at heq
          split at heq
          · cases heq
            exact ih h
          · cases heq
      next => cases h

theorem findAncestors_spec (hpool : Consistent env.toMempoolEnv pool) {entry : CTxMemPoolEntry}
    {A : SetEntries} (h : env.findAncestors pool entry = .ok A) (a : Uint256) :
    a ∈ A ↔ pool.IsAncestor a entry.tx := by
  obtain ⟨r, hr, h⟩ := bind_eq_ok.mp h
  obtain rfl := mapError_eq_ok.mp h
  have hwalk := orAssert_eq_ok.mp hr
  rw [MempoolEnv.calculateMemPoolAncestors, if_pos rfl] at hwalk
  obtain ⟨err, hsearch⟩ :=
    searchParents_eq pool env.limits.limitAncestorCount entry.tx.prevouts ∅
  obtain ⟨A', hA', hiff⟩ := collect_ancestors hpool entry.tx
  split at hsearch
  · rw [hsearch] at hwalk
    obtain rfl : A = A' := Option.some.inj ((collect_of_ancestorsLoop hwalk).symm.trans hA')
    exact hiff a
  · rw [hsearch] at hwalk
    cases hwalk

/-! ## All that is checked -/

theorem checkInputsExist_spec {l : List COutPoint} (h : env.checkInputsExist pool tx l = .ok ⟨⟩) :
    ∀ o ∈ l, ∃ coin, pool.getCoin env.coinsTip o = some coin ∧ coin.isSpent = false := by
  induction l with
  | nil => exact fun o ho => (nomatch ho)
  | cons o l ih =>
    rw [checkInputsExist] at h
    split at h
    next hany =>
      refine List.forall_mem_cons.mpr ⟨?_, ih h⟩
      cases hcoin : pool.getCoin env.coinsTip o with
      | none =>
        rw [hcoin] at hany
        nomatch hany
      | some coin =>
        rw [hcoin] at hany
        exact ⟨coin, rfl, by simpa using hany⟩
    · split at h <;> nomatch h

theorem lookup_inputView (hexist : ∀ o ∈ tx.prevouts, ∃ coin,
    pool.getCoin env.coinsTip o = some coin ∧ coin.isSpent = false) :
    (env.inputView pool tx).base.Coherent ∧
      ∀ o ∈ tx.prevouts, (env.inputView pool tx).coinAt o = pool.getCoin env.coinsTip o := by
  have hlookup := Maps.lookup_foldl_elim_insert (pool.getCoin env.coinsTip) ∅ tx.prevouts
  constructor
  · intro o coin ho
    have hsome : ite _ _ _ = some coin := (hlookup o).symm.trans ho
    split at hsome
    next hmem =>
      obtain ⟨coin', hcoin', hspent⟩ := hexist o hmem.1
      obtain rfl := Option.some.inj (hcoin'.symm.trans hsome)
      exact hspent
    · nomatch hsome
  · intro o ho
    obtain ⟨coin, hcoin, -⟩ := hexist o ho
    exact (hlookup o).trans (if_pos ⟨ho, by rw [hcoin]; rfl⟩)

variable {call : AcceptCall} {ws : Workspace}

theorem checkSpends_spec {nFees nSigOpsCost : Int}
    (h : env.checkSpends pool call.tx = .ok (nFees, nSigOpsCost)) :
    nFees = env.txFee pool call ∧
      nSigOpsCost = env.getTransactionSigOpCost call.tx (env.inputCoins pool call.tx) := by
  obtain ⟨_, hexist, h⟩ := bind_eq_ok.mp h
  obtain ⟨-, h⟩ := failIf_bind_eq_ok.mp h
  obtain ⟨⟨fees, view⟩, hfees, h⟩ := bind_eq_ok.mp h
  obtain ⟨-, h⟩ := failIf_bind_eq_ok.mp h
  obtain ⟨-, h⟩ := failIf_bind_eq_ok.mp h
  cases pure_eq_ok.mp h
  obtain ⟨hcoherent, hat⟩ := lookup_inputView (checkInputsExist_spec hexist)
  obtain ⟨-, rfl, -⟩ := checkTxInputs_spec hcoherent (mapError_eq_ok.mp hfees)
  refine ⟨congrArg (· - _) (congrArg List.sum (List.map_congr_left fun o ho => ?_)), rfl⟩
  rw [valueAt, valueAt, hat o ho]

/-- What a transaction has passed before the pool changes. -/
structure PreChecked (env : AcceptEnv) (pool : CTxMemPool) (call : AcceptCall) (ws : Workspace) :
    Prop where
  new : call.tx.hash ∉ pool.mapTx
  conflicts : ∀ k, k ∈ ws.setConflicts ↔ pool.DirectConflict call.tx k
  entry : ws.entry = env.newEntry pool call
  sigOps : (env.newEntry pool call).sigOpCost < 2 ^ 31
  ancestors : ∀ a, a ∈ ws.setAncestors ↔ pool.IsAncestor a call.tx
  disjoint : ∀ a, pool.IsAncestor a call.tx → ¬ pool.DirectConflict call.tx a
  evicted : ∀ k, k ∈ ws.allConflicting ↔ pool.Evicted call.tx k
  replacement : (∃ c, pool.DirectConflict call.tx c) → ReplacementOk env pool call.tx
    (env.modifiedFee pool call) (env.newSize pool call) ws.allConflicting
  fits : (∃ c, pool.DirectConflict call.tx c) → env.FeesFit pool call

theorem preChecks_spec (hst : Stored env.toMempoolEnv pool) (hlinks : LinksInputs pool)
    (h : env.preChecks pool call = .ok ws) : PreChecked env pool call ws := by
  obtain ⟨_, hloose, h⟩ := bind_eq_ok.mp h
  obtain ⟨setConflicts, hfound, h⟩ := bind_eq_ok.mp h
  obtain ⟨⟨nFees, nSigOpsCost⟩, hspends, h⟩ := bind_eq_ok.mp h
  obtain ⟨rfl, rfl⟩ := checkSpends_spec hspends
  obtain ⟨hmodified, h⟩ := fits_bind_eq_ok.mp h
  obtain ⟨_, hfees, h⟩ := bind_eq_ok.mp h
  obtain ⟨setAncestors, hancestors, h⟩ := bind_eq_ok.mp h
  obtain ⟨hapart, h⟩ := failIf_bind_eq_ok.mp h
  obtain ⟨allConflicting, hreplace, h⟩ := bind_eq_ok.mp h
  obtain ⟨-, -, h⟩ := bind_eq_ok.mp h
  obtain rfl := pure_eq_ok.mp h
  have hconflicts := fun k => mem_findConflicts (k := k) hst hfound
  have hisAncestor := findAncestors_spec (hst.consistent hlinks) hancestors
  have hsome : ∀ c, pool.DirectConflict call.tx c → setConflicts.size ≠ 0 := fun c hc =>
    (List.length_pos_of_mem ((hconflicts c).mpr hc)).ne'
  rw [checkFees] at hfees
  obtain ⟨hsigOps, hfees⟩ := failIf_bind_eq_ok.mp hfees
  obtain ⟨mempoolRejectFee, hminFee, hfees⟩ := bind_eq_ok.mp hfees
  obtain ⟨-, hfees⟩ := failIf_bind_eq_ok.mp hfees
  obtain ⟨_, hminRelay, -⟩ := bind_eq_ok.mp hfees
  refine ⟨?_, hconflicts, rfl, ?_, hisAncestor, fun a ha hc => ?_, ?_, ?_, ?_⟩
  · rw [checkLoose] at hloose
    obtain ⟨-, -, hloose⟩ := bind_eq_ok.mp hloose
    obtain ⟨-, hloose⟩ := failIf_bind_eq_ok.mp hloose
    obtain ⟨-, hloose⟩ := failIf_bind_eq_ok.mp hloose
    obtain ⟨-, hloose⟩ := failIf_bind_eq_ok.mp hloose
    obtain ⟨-, hloose⟩ := failIf_bind_eq_ok.mp hloose
    exact of_decide_eq_false (failIf_eq_ok.mp hloose)
  · have hle := of_decide_eq_false hsigOps
    have hmax : MAX_STANDARD_TX_SIGOPS_COST = 16000 := rfl
    have heq : (env.newEntry pool call).sigOpCost =
        env.getTransactionSigOpCost call.tx (env.inputCoins pool call.tx) := rfl
    omega
  · refine absurd (List.any_eq_true.mpr ⟨a, (hisAncestor a).mpr ha, ?_⟩)
      (Bool.eq_false_iff.mp hapart)
    exact decide_eq_true ((hconflicts a).mpr hc)
  · intro k
    split at hreplace
    · exact (checkReplacement_spec hst hlinks hconflicts hreplace).1 k
    next hsize =>
      cases hreplace
      exact ⟨fun hk => absurd hk (not_mem_empty k),
        fun ⟨c, hc, _⟩ => absurd (hsome c hc) hsize⟩
  · rintro ⟨c, hc⟩
    rw [if_pos (hsome c hc)] at hreplace
    exact (checkReplacement_spec hst hlinks hconflicts hreplace).2.1
  · rintro ⟨c, hc⟩
    rw [if_pos (hsome c hc)] at hreplace
    refine ⟨hmodified, (checkedGetFee_eq_ok.mp hminFee).1, fun hlimits => ?_,
      (checkReplacement_spec hst hlinks hconflicts hreplace).2.2⟩
    rw [hlimits] at hminRelay
    exact fits_eq_ok.mp hminRelay

/-- Where the fees fit, all the checks have a defined result. -/
theorem preChecks_avoids (hst : Stored env.toMempoolEnv pool) (hlinks : LinksInputs pool)
    (h : env.FeesFit pool call) : Avoids .overflow (env.preChecks pool call) := by
  refine .bind ?_ fun _ _ => ?_
  · refine .bind (.mapError (fun _ => by simp) _) fun _ _ => ?_
    refine .failIf (rejection_ne_overflow _ _ _) fun _ => ?_
    refine .failIf (corruptRejection_ne_overflow _ _ _) fun _ => ?_
    refine .failIf (rejection_ne_overflow _ _ _) fun _ => ?_
    refine .failIf (rejection_ne_overflow _ _ _) fun _ => ?_
    exact .lastFailIf (rejection_ne_overflow _ _ _)
  refine .bind (findConflicts_avoids _ _) fun setConflicts hfound => ?_
  have hconflicts := fun k => mem_findConflicts (k := k) hst hfound
  refine .bind ?_ fun ⟨nFees, nSigOpsCost⟩ hspends => ?_
  · refine .bind (checkInputsExist_avoids _) fun _ _ => ?_
    refine .failIf (rejection_ne_overflow _ _ _) fun _ => ?_
    refine .bind (.mapError (fun _ => by simp) _) fun _ _ => ?_
    refine .failIf (rejection_ne_overflow _ _ _) fun _ => ?_
    exact .failIf (corruptRejection_ne_overflow _ _ _) fun _ => .ok _ _
  obtain ⟨rfl, rfl⟩ := checkSpends_spec hspends
  refine .bind (avoids_of_eq_ok (fits_of h.modified)) fun _ _ => ?_
  refine .bind ?_ fun _ _ => ?_
  · refine .failIf (rejection_ne_overflow _ _ _) fun _ => ?_
    refine .bind (avoids_of_eq_ok (checkedGetFee_eq_ok.mpr ⟨h.minFee, rfl⟩)) fun _ _ => ?_
    refine .failIf (rejection_ne_overflow _ _ _) fun _ => ?_
    refine .bind ?_ fun _ _ => ?_
    · cases hlimits : call.bypass_limits with
      | true => exact .ok _ _
      | false => exact avoids_of_eq_ok (fits_of (h.minRelay hlimits))
    refine .failIf (rejection_ne_overflow _ _ _) fun _ => ?_
    exact .lastFailIf (rejection_ne_overflow _ _ _)
  refine .bind ?_ fun _ _ => ?_
  · refine .bind (orAssert_avoids _) fun r _ => ?_
    exact .mapError (fun _ => rejection_ne_overflow _ _ _) r
  refine .failIf (rejection_ne_overflow _ _ _) fun _ => ?_
  refine .bind ?_ fun _ _ => ?_
  · split
    · exact checkReplacement_avoids hst hlinks hconflicts h.replacement
    · exact .ok _ _
  exact .bind (.mapError (fun _ => by simp) _) fun _ _ => .ok _ _

theorem PreChecked.not_evicted (h : PreChecked env pool call ws) {a : Uint256}
    (ha : pool.IsAncestor a call.tx) : ¬ pool.Evicted call.tx a := by
  rintro ⟨c, hc, hreach⟩
  obtain ⟨p, hp, hmem, hspent⟩ := ha
  -- the conflict itself would be an ancestor
  exact h.disjoint c ⟨p, hreach.trans hp, hmem, hspent⟩ hc

end

end Rcoin
