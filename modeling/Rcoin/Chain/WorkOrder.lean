/-
  `CBlockIndexWorkComparator` as a linear order: by the work, then by the sequence
  id, of which the smaller one is better, then by the address.

  Source: CBlockIndexWorkComparator in src/validation.cpp.
-/
import Rcoin.Chain.Receive

namespace Rcoin

namespace CBlockIndexEntry

variable {a b c : CBlockIndexEntry}

/-- The place of a block in the order of the candidates. -/
def sortKey (e : CBlockIndexEntry) : ℕ ×ₗ ℤᵒᵈ ×ₗ ℕᵒᵈ :=
  toLex (e.nChainWork, toLex (OrderDual.toDual e.nSequenceId, OrderDual.toDual e.hash))

theorem workComparator_iff : a.workComparator b = true ↔ a.sortKey < b.sortKey := by
  unfold workComparator sortKey
  rw [Prod.Lex.toLex_lt_toLex, Prod.Lex.toLex_lt_toLex]
  simp only [OrderDual.toDual_lt_toDual, OrderDual.toDual_inj]
  split
  next h => simp only [Bool.false_eq_true, false_iff]; omega
  next h =>
    split
    next h' => simp only [true_iff]; omega
    next h' =>
      split
      next h'' => simp only [Bool.false_eq_true, false_iff]; omega
      next h'' =>
        split
        next h3 => simp only [true_iff]; omega
        next h3 =>
          have hwork : a.nChainWork = b.nChainWork := by omega
          have hseq : a.nSequenceId = b.nSequenceId := by omega
          rw [decide_eq_true_iff]
          simp only [hwork, hseq, lt_irrefl, false_or, true_and, gt_iff_lt]

theorem workComparator_eq_false_iff : a.workComparator b = false ↔ b.sortKey ≤ a.sortKey := by
  rw [← Bool.not_eq_true, workComparator_iff, not_lt]

end CBlockIndexEntry

namespace ChainState

variable {s : ChainState} {t : Uint256} {e te : CBlockIndexEntry}

theorem isWorseThanTip_of_tip (ht : s.tip = some t) (hte : s.mapBlockIndex.lookup t = some te) :
    s.isWorseThanTip e = e.workComparator te := by
  rw [isWorseThanTip, ht, Option.bind_some, hte, Option.any_some]

theorem isWorseThanTip_of_no_tip (ht : s.tip = none) : s.isWorseThanTip e = false := by
  rw [isWorseThanTip, ht, Option.bind_none, Option.any_none]

end ChainState

end Rcoin
