/-
  The comparators that order the pool's entries: by descendant score, by score, by
  entry time and by ancestor fee.  Each but the first is the order of a key.

  Source: src/txmempool.h.  The products of a fee and a size are exact.
-/
import Rcoin.Mempool.Pool

namespace Rcoin

open OrderDual

namespace CompareTxMemPoolEntryByDescendantScore

variable (env : MempoolEnv) (a b : CTxMemPoolEntry)

def getModFeeAndSize : Int × Int :=
  let f1 := a.getModifiedFee * a.nSizeWithDescendants
  let f2 := a.nModFeesWithDescendants * env.getTxSize a
  if f2 > f1 then (a.nModFeesWithDescendants, a.nSizeWithDescendants)
  else (a.getModifiedFee, env.getTxSize a)

def call : Bool :=
  let (a_mod_fee, a_size) := getModFeeAndSize env a
  let (b_mod_fee, b_size) := getModFeeAndSize env b
  let f1 := a_mod_fee * b_size
  let f2 := a_size * b_mod_fee
  if f1 = f2 then decide (a.nTime ≥ b.nTime) else decide (f1 < f2)

end CompareTxMemPoolEntryByDescendantScore

open CompareTxMemPoolEntryByDescendantScore

def CompareTxMemPoolEntryByScore.call (env : MempoolEnv) (a b : CTxMemPoolEntry) : Bool :=
  let f1 := a.nFee * env.getTxSize b
  let f2 := b.nFee * env.getTxSize a
  if f1 = f2 then decide (b.tx.hash < a.tx.hash) else decide (f1 > f2)

def CompareTxMemPoolEntryByEntryTime.call (a b : CTxMemPoolEntry) : Bool :=
  decide (a.nTime < b.nTime)

namespace CompareTxMemPoolEntryByAncestorFee

variable (env : MempoolEnv) (a b : CTxMemPoolEntry)

def getModFeeAndSize : Int × Int :=
  let f1 := a.getModifiedFee * a.nSizeWithAncestors
  let f2 := a.nModFeesWithAncestors * env.getTxSize a
  if f1 > f2 then (a.nModFeesWithAncestors, a.nSizeWithAncestors)
  else (a.getModifiedFee, env.getTxSize a)

def call : Bool :=
  let (a_mod_fee, a_size) := getModFeeAndSize env a
  let (b_mod_fee, b_size) := getModFeeAndSize env b
  let f1 := a_mod_fee * b_size
  let f2 := a_size * b_mod_fee
  if f1 = f2 then decide (a.tx.hash < b.tx.hash) else decide (f1 > f2)

end CompareTxMemPoolEntryByAncestorFee

/-- The divisors of the comparators are positive. -/
structure MempoolEnv.PositiveSizes (env : MempoolEnv) (e : CTxMemPoolEntry) : Prop where
  size : 0 < env.getTxSize e
  descendants : 0 < e.nSizeWithDescendants
  ancestors : 0 < e.nSizeWithAncestors

/-- A comparator is a strict weak ordering of the entries of a set. -/
def Sorts (S : Set CTxMemPoolEntry) (cmp : CTxMemPoolEntry → CTxMemPoolEntry → Bool) : Prop :=
  IsStrictWeakOrder S fun a b => cmp a b = true

/-! ## Rates -/

/-- The fee rate of a fee and a size. -/
def rate (feeAndSize : Int × Int) : ℚ := feeAndSize.1 / feeAndSize.2

variable {p q : Int × Int}

theorem rate_lt_iff (hp : 0 < p.2) (hq : 0 < q.2) : rate p < rate q ↔ p.1 * q.2 < p.2 * q.1 := by
  have hp' : (0 : ℚ) < p.2 := by exact_mod_cast hp
  have hq' : (0 : ℚ) < q.2 := by exact_mod_cast hq
  rw [rate, rate, div_lt_div_iff₀ hp' hq', mul_comm (q.1 : ℚ)]
  exact_mod_cast Iff.rfl

theorem rate_gt_iff (hp : 0 < p.2) (hq : 0 < q.2) : rate q < rate p ↔ p.2 * q.1 < p.1 * q.2 := by
  rw [rate_lt_iff hq hp, mul_comm, mul_comm q.2]

theorem rate_eq_iff (hp : 0 < p.2) (hq : 0 < q.2) : rate p = rate q ↔ p.1 * q.2 = p.2 * q.1 := by
  rw [← not_iff_not, ← ne_eq, ← ne_eq, ne_iff_lt_or_gt, ne_iff_lt_or_gt, rate_lt_iff hp hq,
    rate_gt_iff hp hq]

variable {env : MempoolEnv} {e : CTxMemPoolEntry}

variable (h : env.PositiveSizes e)

include h

theorem size_pos_descendants :
    0 < (getModFeeAndSize env e).2 := by
  rw [getModFeeAndSize]
  split
  · exact h.descendants
  · exact h.size

theorem size_pos_ancestors : 0 < (CompareTxMemPoolEntryByAncestorFee.getModFeeAndSize env e).2 := by
  rw [CompareTxMemPoolEntryByAncestorFee.getModFeeAndSize]
  split
  · exact h.ancestors
  · exact h.size

omit h

/-! ## Keys -/

variable {S : Set CTxMemPoolEntry} {cmp : CTxMemPoolEntry → CTxMemPoolEntry → Bool}

theorem sorts_of_key {κ : Type} [LinearOrder κ] (key : CTxMemPoolEntry → κ)
    (h : ∀ a ∈ S, ∀ b ∈ S, cmp a b = true ↔ key a < key b) : Sorts S cmp := by
  have hkey : (fun a b : S => cmp a b = true) = Order.Preimage (fun a : S => key a) (· < ·) := by
    funext a b
    exact propext (h a a.2 b b.2)
  have : IsStrictWeakOrder κ (· < ·) := isStrictWeakOrder_of_isOrderConnected
  rw [Sorts, hkey]
  infer_instance

variable (env) in
def descendantKey (e : CTxMemPoolEntry) : ℚ ×ₗ ℤ :=
  toLex (rate (getModFeeAndSize env e), -e.nTime)

variable {a b : CTxMemPoolEntry}

theorem descendantScore_iff (ha : env.PositiveSizes a) (hb : env.PositiveSizes b) :
    call env a b = true ↔
      descendantKey env a ≤ descendantKey env b := by
  have hlt := rate_lt_iff (size_pos_descendants ha) (size_pos_descendants hb)
  have heq := rate_eq_iff (size_pos_descendants ha) (size_pos_descendants hb)
  simp only [call, descendantKey, Prod.Lex.toLex_le_toLex,
    hlt, heq, neg_le_neg_iff]
  split
  next h => simp [h]
  next h => simp [h]

theorem sorts_byScore (hS : ∀ e ∈ S, env.PositiveSizes e) :
    Sorts S (CompareTxMemPoolEntryByScore.call env) := by
  refine sorts_of_key (fun e => toDual (toLex (rate (e.nFee, env.getTxSize e), e.tx.hash)))
    fun a ha b hb => ?_
  have hlt := @rate_lt_iff (b.nFee, env.getTxSize b) (a.nFee, env.getTxSize a)
    (hS b hb).size (hS a ha).size
  have heq := @rate_eq_iff (b.nFee, env.getTxSize b) (a.nFee, env.getTxSize a)
    (hS b hb).size (hS a ha).size
  simp only [mul_comm (env.getTxSize b)] at hlt heq
  simp only [CompareTxMemPoolEntryByScore.call, toDual_lt_toDual, Prod.Lex.toLex_lt_toLex, hlt, heq]
  split
  next h => simp [h]
  next h => simp [Ne.symm h]

theorem sorts_byEntryTime : Sorts S CompareTxMemPoolEntryByEntryTime.call := by
  refine sorts_of_key CTxMemPoolEntry.nTime fun a _ b _ => ?_
  rw [CompareTxMemPoolEntryByEntryTime.call, decide_eq_true_iff]

theorem sorts_byAncestorFee (hS : ∀ e ∈ S, env.PositiveSizes e) :
    Sorts S (CompareTxMemPoolEntryByAncestorFee.call env) := by
  refine sorts_of_key (fun e => toLex (toDual (rate
    (CompareTxMemPoolEntryByAncestorFee.getModFeeAndSize env e)), e.tx.hash)) fun a ha b hb => ?_
  have hgt := rate_gt_iff (size_pos_ancestors (hS a ha)) (size_pos_ancestors (hS b hb))
  have heq := rate_eq_iff (size_pos_ancestors (hS a ha)) (size_pos_ancestors (hS b hb))
  simp only [CompareTxMemPoolEntryByAncestorFee.call, Prod.Lex.toLex_lt_toLex, toDual_lt_toDual,
    toDual_inj, hgt, heq]
  split
  next h => simp [h]
  next h => simp [h]

/-! ## The comparators -/

theorem sorts_byDescendantScore_iff (hS : ∀ e ∈ S, env.PositiveSizes e) :
    Sorts S (call env) ↔ S = ∅ := by
  constructor
  · intro h
    refine Set.eq_empty_of_forall_notMem fun e he => ?_
    exact h.irrefl ⟨e, he⟩ ((descendantScore_iff (hS e he) (hS e he)).mpr le_rfl)
  · rintro rfl
    exact sorts_of_key CTxMemPoolEntry.nTime fun a ha => absurd ha (Set.notMem_empty a)

variable (S) in
/-- Every comparator but the one by descendant score is a strict weak ordering; that
    one, which compares the times by `>=`, is one of no entries only: each of any two
    entries of one score and one time is before the other. -/
theorem comparators_sort_iff (hS : ∀ e ∈ S, env.PositiveSizes e) :
    ((Sorts S (call env) ∧
        Sorts S (CompareTxMemPoolEntryByScore.call env) ∧
        Sorts S CompareTxMemPoolEntryByEntryTime.call ∧
        Sorts S (CompareTxMemPoolEntryByAncestorFee.call env)) ↔ S = ∅) ∧
      Sorts S (CompareTxMemPoolEntryByScore.call env) ∧
      Sorts S CompareTxMemPoolEntryByEntryTime.call ∧
      Sorts S (CompareTxMemPoolEntryByAncestorFee.call env) ∧
      ∀ a ∈ S, ∀ b ∈ S, call env a b = true ∧
        call env b a = true ↔
          descendantKey env a = descendantKey env b := by
  have hscore := sorts_byScore hS
  have htime : Sorts S CompareTxMemPoolEntryByEntryTime.call := sorts_byEntryTime
  have hanc := sorts_byAncestorFee hS
  refine ⟨⟨fun h => (sorts_byDescendantScore_iff hS).mp h.1, fun h => ?_⟩, hscore, htime, hanc, ?_⟩
  · exact ⟨(sorts_byDescendantScore_iff hS).mpr h, hscore, htime, hanc⟩
  · intro a ha b hb
    rw [descendantScore_iff (hS a ha) (hS b hb), descendantScore_iff (hS b hb) (hS a ha)]
    exact le_antisymm_iff.symm

def loneEnv : MempoolEnv where
  nBytesPerSigOp := 20
  getTransactionWeight _ := 400
  dynamicMemoryUsage _ := 1000
  descendantScoreBegin _ := none

def loneEntry : CTxMemPoolEntry :=
  .new loneEnv { hash := 7, vin := [{ prevout := ⟨1, 0⟩ }], vout := [⟨4900, []⟩] } 100 1500000000 4

theorem loneEntry_positiveSizes :
    ∀ e ∈ ({loneEntry} : Set CTxMemPoolEntry), loneEnv.PositiveSizes e := by
  intro e he
  obtain rfl := Set.mem_singleton_iff.mp he
  exact ⟨by decide, by decide, by decide⟩

/-- The one entry of a pool is before itself. -/
theorem lone_entry_not_sorted :
    (∀ e ∈ ({loneEntry} : Set CTxMemPoolEntry), loneEnv.PositiveSizes e) ∧
      call loneEnv loneEntry loneEntry = true ∧
      ¬Sorts {loneEntry} (call loneEnv) := by
  have hself : call loneEnv loneEntry loneEntry = true := by
    decide
  exact ⟨loneEntry_positiveSizes, hself, fun h => h.irrefl ⟨_, Set.mem_singleton _⟩ hself⟩

/-- An entry that pays more for the same weight and came later. -/
def richEntry : CTxMemPoolEntry :=
  .new loneEnv { hash := 8, vin := [{ prevout := ⟨2, 0⟩ }], vout := [⟨4500, []⟩] } 500 1500000060 4

/-- Two entries: three comparators sort them, and the fourth has each of them before itself. -/
theorem comparators_sort_iff_pair :
    (∀ e ∈ ({loneEntry, richEntry} : Set CTxMemPoolEntry), loneEnv.PositiveSizes e) ∧
      Sorts {loneEntry, richEntry} (CompareTxMemPoolEntryByScore.call loneEnv) ∧
      Sorts {loneEntry, richEntry} CompareTxMemPoolEntryByEntryTime.call ∧
      Sorts {loneEntry, richEntry} (CompareTxMemPoolEntryByAncestorFee.call loneEnv) ∧
      ¬Sorts {loneEntry, richEntry} (call loneEnv) := by
  have hsizes : ∀ e ∈ ({loneEntry, richEntry} : Set CTxMemPoolEntry), loneEnv.PositiveSizes e := by
    rintro e (rfl | rfl)
    · exact ⟨by decide, by decide, by decide⟩
    · exact ⟨by decide, by decide, by decide⟩
  obtain ⟨hall, hscore, htime, hanc, -⟩ := comparators_sort_iff {loneEntry, richEntry} hsizes
  refine ⟨hsizes, hscore, htime, hanc, fun hdesc => ?_⟩
  exact (Set.insert_nonempty _ _).ne_empty (hall.mp ⟨hdesc, hscore, htime, hanc⟩)

end Rcoin
