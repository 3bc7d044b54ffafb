/-
  `ReorderTransactions`: positions for the wallet transactions and the accounting
  entries of wallets from before there was an order.

  Source: src/wallet/wallet.cpp.  The accounting entries are those that
  `ListAccountCreditDebit("")` lists, in the database's order.
-/
import Rcoin.Lib.Multimap
import Rcoin.Primitives

namespace Rcoin

namespace Reorder

open List

structure CWalletTx where
  hash : Uint256
  nTimeReceived : Int
  nOrderPos : Int

structure CAccountingEntry where
  nEntryNo : Nat
  nTime : Int
  nOrderPos : Int

/-- One of the two pointers of the source's pair is null. -/
abbrev TxPair := CWalletTx ⊕ CAccountingEntry

namespace TxPair

def time : TxPair → Int
  | .inl wtx => wtx.nTimeReceived
  | .inr entry => entry.nTime

def nOrderPos : TxPair → Int
  | .inl wtx => wtx.nOrderPos
  | .inr entry => entry.nOrderPos

def setOrderPos (nOrderPos : Int) : TxPair → TxPair
  | .inl wtx => .inl { wtx with nOrderPos }
  | .inr entry => .inr { entry with nOrderPos }

end TxPair

def txByTime (mapWallet : List CWalletTx) (acentries : List CAccountingEntry) :
    List TxPair :=
  ((mapWallet.map Sum.inl ++ acentries.map Sum.inr).foldl
    (fun m e => Multimap.insert (TxPair.time e) e m) Multimap.empty).entries.map Prod.snd

/-- The variables of the loop. -/
structure Order where
  nOrderPosNext : Int := 0
  nOrderPosOffsets : List Int := []

/-- Where an entry with a position is moved to. -/
def shift (nOrderPosOffsets : List Int) (nOrderPos : Int) : Int :=
  nOrderPos + nOrderPosOffsets.countP fun nOffsetStart => nOrderPos ≥ nOffsetStart

/-- One pass: the new position, and whether it has to be written. -/
def place (s : Order) (nOrderPos : Int) : Int × Bool × Order :=
  if nOrderPos = -1 then
    (s.nOrderPosNext, true,
      { nOrderPosNext := s.nOrderPosNext + 1
        nOrderPosOffsets := s.nOrderPosOffsets ++ [s.nOrderPosNext] })
  else
    let moved := shift s.nOrderPosOffsets nOrderPos
    (moved, moved ≠ nOrderPos, { s with nOrderPosNext := max s.nOrderPosNext (moved + 1) })

/-- The entries with their new positions; `write` tells whether the database takes an
    entry, and none is `DB_LOAD_FAIL`. -/
def reorderLoop (write : TxPair → Bool) : Order → List TxPair →
    Option (List (TxPair × Int) × Order)
  | s, [] => some ([], s)
  | s, e :: rest =>
    let (p, changed, s) := place s e.nOrderPos
    if changed && !write (e.setOrderPos p) then none
    else (reorderLoop write s rest).map fun (placed, s) => ((e, p) :: placed, s)

def reorderTransactions (write : TxPair → Bool) (mapWallet : List CWalletTx)
    (acentries : List CAccountingEntry) : Option (List (TxPair × Int) × Int) :=
  (reorderLoop write {} (txByTime mapWallet acentries)).map
    fun (placed, s) => (placed, s.nOrderPosNext)

/-! ## Positions -/

/-- Distinct positions on the entries that have one, and -1 on the others. -/
structure Positions (l : List TxPair) : Prop where
  nonneg : ∀ e ∈ l, e.nOrderPos ≠ -1 → 0 ≤ e.nOrderPos
  distinct : l.Pairwise fun e f => e.nOrderPos ≠ -1 → e.nOrderPos ≠ f.nOrderPos

/-- No pass moves an entry that has a position to one that was recorded for an entry
    without. -/
def Clear : Order → List TxPair → Prop
  | _, [] => True
  | s, e :: rest =>
    (e.nOrderPos ≠ -1 → shift s.nOrderPosOffsets e.nOrderPos ∉ s.nOrderPosOffsets) ∧
      Clear (place s e.nOrderPos).2.2 rest

/-- Every entry has a position of its own below `next`, and those that had one stand in
    the order they had. -/
structure Reordered (placed : List (TxPair × Int)) (next : Int) : Prop where
  bounds : ∀ x ∈ placed, 0 ≤ x.2 ∧ x.2 < next
  distinct : (placed.map Prod.snd).Nodup
  order : ∀ x ∈ placed, ∀ y ∈ placed, x.1.nOrderPos ≠ -1 → y.1.nOrderPos ≠ -1 →
    x.1.nOrderPos < y.1.nOrderPos → x.2 < y.2

variable {O : List Int} {p q : Int}

theorem shift_lt_shift (h : p < q) : shift O p < shift O q := by
  have hcount : O.countP (p ≥ ·) ≤ O.countP (q ≥ ·) := by
    refine countP_mono_left fun o _ ho => ?_
    rw [decide_eq_true_iff] at ho ⊢
    omega
  rw [shift, shift]
  omega

theorem le_shift : p ≤ shift O p := by
  rw [shift]
  omega

theorem shift_append (h : shift O p < q) : shift (O ++ [q]) p = shift O p := by
  have hle := @le_shift O p
  have hnot : ¬p ≥ q := by omega
  simp [shift, countP_append, hnot]

/-! ## The loop -/

/-- The passes behind a state gave the positions in `done`.  The entries that had one
    are where the offsets that are recorded by now move them. -/
structure Placed (s : Order) (done : List (TxPair × Int)) : Prop where
  next : 0 ≤ s.nOrderPosNext
  bounds : ∀ x ∈ done, 0 ≤ x.2 ∧ x.2 < s.nOrderPosNext
  offsets : ∀ o ∈ s.nOrderPosOffsets, o ∈ done.map Prod.snd
  recorded : ∀ x ∈ done, x.1.nOrderPos = -1 → x.2 ∈ s.nOrderPosOffsets
  moved : ∀ x ∈ done, x.1.nOrderPos ≠ -1 → x.2 = shift s.nOrderPosOffsets x.1.nOrderPos

variable {s s' : Order} {done placed : List (TxPair × Int)} {e : TxPair}

theorem Placed.place (h : Placed s done) (hp : e.nOrderPos ≠ -1 → 0 ≤ e.nOrderPos) :
    Placed (place s e.nOrderPos).2.2 (done ++ [(e, (place s e.nOrderPos).1)]) := by
  have hnext := h.next
  rw [Reorder.place]
  split
  next hneg =>
    constructor
    · exact Int.add_nonneg hnext Int.one_nonneg
    · intro x hx
      obtain hx | hx := mem_append.mp hx
      · exact ⟨(h.bounds x hx).1, (h.bounds x hx).2.trans (Int.lt_succ _)⟩
      · obtain rfl := mem_singleton.mp hx
        exact ⟨hnext, Int.lt_succ _⟩
    · intro o ho
      rw [map_append]
      exact mem_append.mpr ((mem_append.mp ho).imp (h.offsets o) id)
    · intro x hx hx1
      obtain hx | hx := mem_append.mp hx
      · exact mem_append_left _ (h.recorded x hx hx1)
      · obtain rfl := mem_singleton.mp hx
        exact mem_append_right _ (mem_singleton_self _)
    · intro x hx hx1
      obtain hx | hx := mem_append.mp hx
      · -- the new offset is above what was given before
        have hmoved := h.moved x hx hx1
        rw [shift_append (hmoved ▸ (h.bounds x hx).2)]
        exact hmoved
      · obtain rfl := mem_singleton.mp hx
        exact absurd hneg hx1
  next hpos =>
    have hshift := (hp hpos).trans (@le_shift s.nOrderPosOffsets e.nOrderPos)
    constructor
    · exact hnext.trans (le_max_left _ _)
    · intro x hx
      obtain hx | hx := mem_append.mp hx
      · exact ⟨(h.bounds x hx).1, (h.bounds x hx).2.trans_le (le_max_left _ _)⟩
      · obtain rfl := mem_singleton.mp hx
        exact ⟨hshift, (Int.lt_succ _).trans_le (le_max_right _ _)⟩
    · intro o ho
      rw [map_append]
      exact mem_append_left _ (h.offsets o ho)
    · intro x hx hx1
      obtain hx | hx := mem_append.mp hx
      · exact h.recorded x hx hx1
      · obtain rfl := mem_singleton.mp hx
        exact absurd hx1 hpos
    · intro x hx hx1
      obtain hx | hx := mem_append.mp hx
      · exact h.moved x hx hx1
      · obtain rfl := mem_singleton.mp hx
        rfl

/-- An entry is given a position that is taken only if it had one, and its move ends
    at an offset: the moves keep the entries with positions apart. -/
theorem Placed.taken_iff (h : Placed s done)
    (hne : ∀ x ∈ done, x.1.nOrderPos ≠ -1 → x.1.nOrderPos ≠ e.nOrderPos) :
    (Reorder.place s e.nOrderPos).1 ∉ done.map Prod.snd ↔
      (e.nOrderPos ≠ -1 → shift s.nOrderPosOffsets e.nOrderPos ∉ s.nOrderPosOffsets) := by
  rw [Reorder.place]
  split
  next hneg =>
    refine iff_of_true (fun hmem => ?_) fun hpos => absurd hneg hpos
    obtain ⟨x, hx, heq⟩ := mem_map.mp hmem
    exact (h.bounds x hx).2.ne heq
  next hpos =>
    refine ⟨fun hnot _ ho => hnot (h.offsets _ ho), fun hnot hmem => ?_⟩
    obtain ⟨x, hx, heq⟩ := mem_map.mp hmem
    by_cases hx1 : x.1.nOrderPos = -1
    · exact hnot hpos (Eq.subst heq (h.recorded x hx hx1))
    · have hshift := (h.moved x hx hx1).symm.trans heq
      obtain hlt | heq | hgt := lt_trichotomy x.1.nOrderPos e.nOrderPos
      · exact (shift_lt_shift hlt).ne hshift
      · exact hne x hx hx1 heq
      · exact (shift_lt_shift hgt).ne' hshift

variable {write : TxPair → Bool} {l : List TxPair}

theorem reorderLoop_placed (h : reorderLoop write s l = some (placed, s')) (hd : Placed s done)
    (hpos : ∀ e ∈ l, e.nOrderPos ≠ -1 → 0 ≤ e.nOrderPos) :
    placed.map Prod.fst = l ∧ Placed s' (done ++ placed) := by
  induction l generalizing s done placed with
  | nil =>
    obtain ⟨rfl, rfl⟩ := Prod.mk.inj (Option.some.inj h)
    rw [append_nil]
    exact ⟨rfl, hd⟩
  | cons e rest ih =>
    simp only [reorderLoop] at h
    split at h
    · cases h
    obtain ⟨⟨placed', s''⟩, hrest, heq⟩ := Option.map_eq_some_iff.mp h
    obtain ⟨rfl, rfl⟩ := Prod.mk.inj heq
    have hstep := hd.place (hpos e mem_cons_self)
    obtain ⟨hfst, hplaced⟩ := ih hrest hstep fun f hf => hpos f (mem_cons_of_mem _ hf)
    rw [append_assoc, singleton_append] at hplaced
    exact ⟨congrArg (e :: ·) hfst, hplaced⟩

theorem reorderLoop_nodup (h : reorderLoop write s l = some (placed, s')) (hd : Placed s done)
    (hpos : Positions (done.map Prod.fst ++ l)) (hnd : (done.map Prod.snd).Nodup) :
    ((done ++ placed).map Prod.snd).Nodup ↔ Clear s l := by
  induction l generalizing s done placed with
  | nil =>
    obtain ⟨rfl, rfl⟩ := Prod.mk.inj (Option.some.inj h)
    rw [append_nil]
    exact iff_of_true hnd trivial
  | cons e rest ih =>
    simp only [reorderLoop] at h
    split at h
    · cases h
    obtain ⟨⟨placed', s''⟩, hrest, heq⟩ := Option.map_eq_some_iff.mp h
    obtain ⟨rfl, rfl⟩ := Prod.mk.inj heq
    have hstep := hd.place (hpos.nonneg e (mem_append_right _ mem_cons_self))
    have htaken := hd.taken_iff fun x hx =>
      (pairwise_append.mp hpos.distinct).2.2 _ (mem_map_of_mem hx) _ mem_cons_self
    rw [Clear, ← htaken]
    by_cases hmem : (place s e.nOrderPos).1 ∈ done.map Prod.snd
    · refine iff_of_false (fun hnodup => ?_) fun hclear => hclear.1 hmem
      rw [map_append] at hnodup
      exact (nodup_append.mp hnodup).2.2 _ hmem _ mem_cons_self rfl
    · have hnd' : ((done ++ [(e, (place s e.nOrderPos).1)]).map Prod.snd).Nodup := by
        rw [map_append]
        refine nodup_append.mpr ⟨hnd, nodup_singleton _, fun a ha b hb hab => ?_⟩
        obtain rfl := mem_singleton.mp hb
        exact hmem (Eq.subst hab ha)
      have hpos' : Positions ((done ++ [(e, (place s e.nOrderPos).1)]).map Prod.fst ++ rest) := by
        rw [map_append, append_assoc]
        exact hpos
      have hih := ih hrest hstep hpos' hnd'
      rw [append_assoc, singleton_append] at hih
      rw [hih]
      exact (and_iff_right hmem).symm

theorem reorderLoop_isSome (hwrite : ∀ e, write e = true) (s : Order) (l : List TxPair) :
    (reorderLoop write s l).isSome := by
  induction l generalizing s with
  | nil => rfl
  | cons e rest ih =>
    simp only [reorderLoop, hwrite, Bool.not_true, Bool.and_false, Bool.false_eq_true, if_false]
    rw [Option.isSome_map]
    exact ih _

theorem clear_of_count (h : ∀ pre e post, l = pre ++ e :: post →
    e.nOrderPos ≠ -1 → s.nOrderPosOffsets.length + pre.countP (·.nOrderPos = -1) ≤ 1) :
    Clear s l := by
  induction l generalizing s with
  | nil => trivial
  | cons e rest ih =>
    refine ⟨fun hpos hmem => ?_, ih fun pre f post heq hf => ?_⟩
    · have hlen := h [] e rest rfl hpos
      match ho : s.nOrderPosOffsets with
      | [] => rw [ho] at hmem; cases hmem
      | [o] =>
        rw [ho, mem_singleton, shift, countP_singleton] at hmem
        split at hmem
        next hge => rw [decide_eq_true_iff] at hge; omega
        next hlt => rw [decide_eq_true_iff] at hlt; omega
      | _ :: _ :: _ => rw [ho] at hlen; simp at hlen
    · have hlen := h (e :: pre) f post (by rw [heq]; rfl) hf
      rw [countP_cons] at hlen
      rw [place]
      split
      next hneg => simp only [hneg, length_append, length_singleton] at hlen ⊢; simp at hlen; omega
      next hpos => simp only [hpos] at hlen ⊢; simpa using hlen

theorem perm_txByTime (mapWallet : List CWalletTx) (acentries : List CAccountingEntry) :
    (txByTime mapWallet acentries).Perm (mapWallet.map .inl ++ acentries.map .inr) := by
  have hfold : ∀ (l : List TxPair) (m : Multimap Int TxPair),
      ((l.foldl (fun m e => Multimap.insert (TxPair.time e) e m) m).entries.map Prod.snd).Perm
        (m.entries.map Prod.snd ++ l) := by
    intro l
    induction l with
    | nil => intro m; rw [append_nil]; exact .refl _
    | cons e l ih =>
      intro m
      exact (ih _).trans ((((m.perm_insert _ _).map Prod.snd).append_right l).trans
        perm_middle.symm)
  exact hfold _ _

/-- After a reordering the entries are those that there were. It is as the entries'
    positions ask for if and only if none was moved to a position recorded for an
    entry without one, which two such entries before it are needed for. -/
theorem reorderTransactions_spec (write : TxPair → Bool) {mapWallet : List CWalletTx}
    {acentries : List CAccountingEntry}
    (hpos : Positions (mapWallet.map .inl ++ acentries.map .inr)) :
    (∀ placed next, reorderTransactions write mapWallet acentries = some (placed, next) →
      placed.map Prod.fst = txByTime mapWallet acentries ∧
        (Reordered placed next ↔ Clear {} (txByTime mapWallet acentries))) ∧
    ((∀ e, write e = true) → (reorderTransactions write mapWallet acentries).isSome) ∧
    ((∀ pre e post, txByTime mapWallet acentries = pre ++ e :: post → e.nOrderPos ≠ -1 →
      pre.countP (·.nOrderPos = -1) ≤ 1) → Clear {} (txByTime mapWallet acentries)) := by
  have hperm := perm_txByTime mapWallet acentries
  have hpos' : Positions (txByTime mapWallet acentries) := by
    refine ⟨fun e he => hpos.nonneg e (hperm.mem_iff.mp he), ?_⟩
    refine (hperm.pairwise_iff fun hab hb heq => ?_).mpr hpos.distinct
    exact hab (heq ▸ hb) heq.symm
  refine ⟨fun placed next h => ?_, fun hwrite => ?_, fun h => clear_of_count (by simpa using h)⟩
  · obtain ⟨⟨placed', s'⟩, hloop, heq⟩ := Option.map_eq_some_iff.mp h
    obtain ⟨rfl, rfl⟩ := Prod.mk.inj heq
    have hstart : Placed {} [] := ⟨le_rfl, nofun, nofun, nofun, nofun⟩
    obtain ⟨hfst, hplaced⟩ := reorderLoop_placed hloop hstart hpos'.nonneg
    have hnodup := reorderLoop_nodup hloop hstart hpos' nodup_nil
    refine ⟨hfst, fun h => hnodup.mp h.distinct, fun h => ?_⟩
    refine ⟨hplaced.bounds, hnodup.mpr h, fun x hx y hy hx1 hy1 hlt => ?_⟩
    rw [hplaced.moved x hx hx1, hplaced.moved y hy hy1]
    exact shift_lt_shift hlt
  · rw [reorderTransactions, Option.isSome_map]
    exact reorderLoop_isSome hwrite _ _

/-- Two transactions without a position, and one with the first position that was
    received after them. -/
def received : List CWalletTx :=
  [⟨11, 1300000001, -1⟩, ⟨12, 1300000002, -1⟩, ⟨13, 1300000003, 0⟩]

theorem received_positions : Positions (received.map Sum.inl ++ [].map Sum.inr) :=
  ⟨by decide, by decide⟩

/-- The second transaction and the third are given position 1. -/
theorem reorder_not_distinct : Positions (received.map Sum.inl ++ [].map Sum.inr) ∧
    ∃ placed next, reorderTransactions (fun _ => true) received [] = some (placed, next) ∧
      placed.map Prod.snd = [0, 1, 1] ∧ ¬Reordered placed next := by
  refine ⟨received_positions, _, _, rfl, by decide, fun h => ?_⟩
  exact absurd h.distinct (by decide)

theorem reorderTransactions_spec_received :
    Positions (received.map .inl ++ [].map .inr) ∧
      (reorderTransactions (fun _ => true) received []).isSome :=
  ⟨received_positions, (reorderTransactions_spec _ received_positions).2.1 fun _ => rfl⟩

end Reorder

end Rcoin
