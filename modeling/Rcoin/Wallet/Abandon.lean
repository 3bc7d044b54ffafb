/-
  `AbandonTransaction`: a transaction that is not going to be confirmed is marked as
  abandoned, and the transactions of the wallet that spend it.

  Source: src/wallet/wallet.cpp.  The balances that are cached, the database and the
  notification are left out.  `none` stands for a failed assertion.
-/
import Rcoin.Lib.Maps
import Rcoin.Lib.Multimap
import Rcoin.Lib.Worklist
import Rcoin.Primitives

namespace Rcoin

namespace Abandon

open List Maps Relation

def ABANDON_HASH : Uint256 := 1

structure CWalletTx where
  hashBlock : Uint256
  nIndex : Int
  fInMempool : Bool

/-- `mapTxSpends` has the spending transactions by outpoint. -/
structure CWallet where
  mapWallet : AList fun _ : Uint256 => CWalletTx
  mapTxSpends : Multimap (Uint256 ×ₗ Nat) Uint256

-- the number of blocks in the active chain above the block with a hash, if it is there
variable (above : Uint256 → Option Nat)

namespace CWalletTx

def hashUnset (wtx : CWalletTx) : Bool := wtx.hashBlock = 0 || wtx.hashBlock = ABANDON_HASH

def isAbandoned (wtx : CWalletTx) : Bool := wtx.hashBlock = ABANDON_HASH

def getDepthInMainChain (wtx : CWalletTx) : Int :=
  if wtx.hashUnset then 0
  else match above wtx.hashBlock with
    | none => 0
    | some n => (if wtx.nIndex = -1 then -1 else 1) * (n + 1)

def setAbandoned (wtx : CWalletTx) : CWalletTx :=
  { wtx with nIndex := -1, hashBlock := ABANDON_HASH }

end CWalletTx

namespace CWallet

/-- The transactions that the walk from `lower_bound(COutPoint(hashTx, 0))` on meets
    while the spent transaction is `now`. -/
def spends (w : CWallet) (hashTx now : Uint256) : List Uint256 :=
  ((w.mapTxSpends.lowerBound (toLex (hashTx, 0))).takeWhile
    fun e => (ofLex e.1).1 = now).map Prod.snd

/-- One pass: what is left to do, and the wallet. -/
def abandonPass (hashTx now : Uint256) (todo done : SortedSet Uint256) (w : CWallet) :
    Option (SortedSet Uint256 × CWallet) :=
  match w.mapWallet.lookup now with
  | none => none
  | some wtx =>
    let currentconfirm := wtx.getDepthInMainChain above
    if currentconfirm > 0 then none
    else if currentconfirm = 0 ∧ wtx.isAbandoned = false then
      if wtx.fInMempool then none
      else some ((w.spends hashTx now).foldl (fun s c => if c ∈ done then s else s.insert c) todo,
        { w with mapWallet := w.mapWallet.insert now wtx.setAbandoned })
    else some (todo, w)

/-- At most every spending transaction and the first one are done. -/
def abandonLoop (hashTx : Uint256) (fuel : Nat) (todo done : SortedSet Uint256) (w : CWallet) :
    Option CWallet :=
  match todo.elems with
  | [] => some w
  | now :: _ =>
    match fuel with
    | 0 => none
    | fuel + 1 =>
      match abandonPass above hashTx now (todo.erase now) (done.insert now) w with
      | none => none
      | some (todo, w) => abandonLoop hashTx fuel todo (done.insert now) w

def abandonTransaction (w : CWallet) (hashTx : Uint256) : Option (Bool × CWallet) :=
  match w.mapWallet.lookup hashTx with
  | none => none
  | some origtx =>
    if origtx.getDepthInMainChain above ≠ 0 ∨ origtx.fInMempool then some (false, w)
    else (abandonLoop above hashTx (w.mapTxSpends.entries.length + 1) (.ofList [hashTx]) ∅ w).map
      (true, ·)

/-! ## The spending transactions -/

variable (w : CWallet) {hashTx now k : Uint256}

/-- `k` spends an output of `hashTx`. -/
def Spent (hashTx k : Uint256) : Prop := ∃ n, (toLex (hashTx, n), k) ∈ w.mapTxSpends.entries

variable {w}

theorem hash_le {a b : Uint256 ×ₗ Nat} (h : a ≤ b) : (ofLex a).1 ≤ (ofLex b).1 :=
  (Prod.Lex.le_iff.mp h).elim Nat.le_of_lt fun h => h.1.le

theorem mem_spends_self : k ∈ w.spends hashTx hashTx ↔ w.Spent hashTx k := by
  have hfirst : ∀ e ∈ w.mapTxSpends.lowerBound (toLex (hashTx, 0)), hashTx ≤ (ofLex e.1).1 :=
    fun e he => hash_le ((w.mapTxSpends.mem_lowerBound _).mp he).2
  have hsorted : (w.mapTxSpends.lowerBound (toLex (hashTx, 0))).Pairwise fun a b =>
      decide ((ofLex b.1).1 = hashTx) = true → decide ((ofLex a.1).1 = hashTx) = true := by
    refine (w.mapTxSpends.sorted.sublist (w.mapTxSpends.lowerBound_sublist _)).imp_of_mem ?_
    intro a b ha _ hab hb
    rw [decide_eq_true_iff] at hb ⊢
    exact ((hash_le hab).trans hb.le).antisymm (hfirst a ha)
  rw [spends, mem_map]
  constructor
  · rintro ⟨e, he, rfl⟩
    obtain ⟨hmem, hhash⟩ := (Multimap.mem_takeWhile hsorted).mp he
    exact ⟨(ofLex e.1).2, of_decide_eq_true hhash ▸ ((w.mapTxSpends.mem_lowerBound _).mp hmem).1⟩
  · rintro ⟨n, hn⟩
    refine ⟨(toLex (hashTx, n), k), (Multimap.mem_takeWhile hsorted).mpr
      ⟨?_, decide_eq_true rfl⟩, rfl⟩
    refine (w.mapTxSpends.mem_lowerBound _).mpr ⟨hn, ?_⟩
    exact Prod.Lex.toLex_le_toLex.mpr (.inr ⟨rfl, Nat.zero_le n⟩)

theorem spends_of_ne (hne : now ≠ hashTx) (h : w.Spent hashTx k) : w.spends hashTx now = [] := by
  obtain ⟨n, hn⟩ := h
  have hmem := (w.mapTxSpends.mem_lowerBound (toLex (hashTx, 0))).mpr
    ⟨hn, Prod.Lex.toLex_le_toLex.mpr (.inr ⟨rfl, Nat.zero_le n⟩)⟩
  have hsorted := w.mapTxSpends.sorted.sublist
    (w.mapTxSpends.lowerBound_sublist (toLex (hashTx, 0)))
  rw [spends]
  match hl : w.mapTxSpends.lowerBound (toLex (hashTx, 0)) with
  | [] => rfl
  | f :: l =>
    have hge := hash_le ((w.mapTxSpends.mem_lowerBound (toLex (hashTx, 0))).mp
      (hl ▸ mem_cons_self : f ∈ _)).2
    rw [hl] at hmem hsorted
    have hle : (ofLex f.1).1 ≤ hashTx := by
      obtain heq | hmem := mem_cons.mp hmem
      · rw [← heq]
        exact le_rfl
      · exact hash_le ((pairwise_cons.mp hsorted).1 _ hmem)
    have hf : decide ((ofLex f.1).1 = now) = false :=
      decide_eq_false fun h => hne (h.symm.trans (hle.antisymm hge))
    rw [takeWhile_cons, hf]
    rfl

/-! ## The loop -/

variable {above}

variable (above) in
/-- The transaction as a pass leaves it. -/
def passed (wtx : CWalletTx) : CWalletTx :=
  if wtx.getDepthInMainChain above = 0 ∧ wtx.isAbandoned = false then wtx.setAbandoned else wtx

/-- A pass over a transaction of the wallet that is not confirmed, and not in the memory
    pool if it is still open. -/
structure Passes (above : Uint256 → Option Nat) (wtx : CWalletTx) : Prop where
  unconfirmed : wtx.getDepthInMainChain above ≤ 0
  notInMempool : wtx.getDepthInMainChain above = 0 → wtx.fInMempool = false

variable {todo done : SortedSet Uint256} {wtx : CWalletTx}

variable (hashTx todo done) in
theorem abandonPass_spec (hk : w.mapWallet.lookup now = some wtx) (h : Passes above wtx) :
    ∃ w', abandonPass above hashTx now todo done w =
        some (if wtx.getDepthInMainChain above = 0 ∧ wtx.isAbandoned = false then
          (w.spends hashTx now).foldl (fun s c => if c ∈ done then s else s.insert c) todo
          else todo, w') ∧
      w'.mapTxSpends = w.mapTxSpends ∧
      ∀ k, w'.mapWallet.lookup k =
        if k = now then some (passed above wtx) else w.mapWallet.lookup k := by
  rw [abandonPass, hk, passed]
  simp only [if_neg (Int.not_lt.mpr h.unconfirmed)]
  split
  next hopen =>
    rw [h.notInMempool hopen.1]
    exact ⟨_, rfl, rfl, fun k => lookup_insert _ _ _ _⟩
  next =>
    refine ⟨w, rfl, rfl, fun k => ?_⟩
    split
    next heq => rw [heq, hk]
    next => rfl

variable {fuel : Nat}

theorem abandonLoop_nil (h : todo.elems = []) :
    abandonLoop above hashTx fuel todo done w = some w := by
  rw [abandonLoop.eq_def, h]

theorem abandonLoop_cons {rest : List Uint256} (h : todo.elems = now :: rest) :
    abandonLoop above hashTx (fuel + 1) todo done w =
      match abandonPass above hashTx now (todo.erase now) (done.insert now) w with
      | none => none
      | some (todo, w) => abandonLoop above hashTx fuel todo (done.insert now) w := by
  rw [abandonLoop.eq_def, h]

theorem abandonLoop_rest (hadd : ∀ now ∈ todo, w.spends hashTx now = [])
    (hpass : ∀ now ∈ todo, ∃ wtx, w.mapWallet.lookup now = some wtx ∧ Passes above wtx)
    (hfuel : todo.size ≤ fuel) :
    ∃ w', abandonLoop above hashTx fuel todo done w = some w' ∧
      ∀ k, w'.mapWallet.lookup k =
        if k ∈ todo then (w.mapWallet.lookup k).map (passed above) else w.mapWallet.lookup k := by
  induction fuel generalizing todo done w with
  | zero =>
    have hnil : todo.elems = [] := length_eq_zero_iff.mp (Nat.le_zero.mp hfuel)
    refine ⟨w, abandonLoop_nil hnil, fun k => (if_neg fun hk => ?_).symm⟩
    rw [← SortedSet.mem_elems, hnil] at hk
    cases hk
  | succ fuel ih =>
    match hl : todo.elems with
    | [] =>
      refine ⟨w, abandonLoop_nil hl, fun k => (if_neg fun hk => ?_).symm⟩
      rw [← SortedSet.mem_elems, hl] at hk
      cases hk
    | now :: rest =>
      have hnow : now ∈ todo := SortedSet.mem_elems.mp (hl ▸ mem_cons_self)
      obtain ⟨wtx, hwtx, hok⟩ := hpass now hnow
      obtain ⟨w1, hw1, hspends, hlookup⟩ :=
        abandonPass_spec hashTx (todo.erase now) (done.insert now) hwtx hok
      rw [hadd now hnow, foldl_nil, ite_self] at hw1
      have hsize := SortedSet.size_erase_of_mem hnow
      obtain ⟨w', hw', hall⟩ := @ih w1 (todo.erase now) (done.insert now)
        (fun k hk => by
          rw [spends, hspends]
          exact hadd k (SortedSet.mem_erase.mp hk).2)
        (fun k hk => by
          rw [hlookup, if_neg (SortedSet.mem_erase.mp hk).1]
          exact hpass k (SortedSet.mem_erase.mp hk).2) (by omega)
      refine ⟨w', by rw [abandonLoop_cons hl, hw1]; exact hw', fun k => ?_⟩
      rw [hall, hlookup]
      by_cases hk : k = now
      · rw [if_neg fun h => (SortedSet.mem_erase.mp h).1 hk, if_pos hk, hk, if_pos hnow, hwtx]
        rfl
      · simp only [SortedSet.mem_erase, hk, ne_eq, not_false_eq_true, true_and, if_false]

/-! ## Descendants -/

variable (above w) in
/-- `k` spends an output of `now`, and was open: unconfirmed, and neither abandoned nor
    conflicted. -/
def Follows (now k : Uint256) : Prop :=
  w.Spent now k ∧ ∃ wtx, w.mapWallet.lookup k = some wtx ∧
    wtx.getDepthInMainChain above = 0 ∧ wtx.isAbandoned = false

variable (above w) in
/-- The spending transactions are in the wallet, and no descendant of a transaction that
    is unconfirmed and not in the memory pool is confirmed or in the memory pool. -/
structure Consistent : Prop where
  known : ∀ now k, w.Spent now k → k ∈ w.mapWallet
  descendants : ∀ {now k wtx wtx'}, w.mapWallet.lookup now = some wtx →
    wtx.getDepthInMainChain above = 0 → wtx.fInMempool = false → TransGen w.Spent now k →
    w.mapWallet.lookup k = some wtx' →
      wtx'.getDepthInMainChain above ≤ 0 ∧ wtx'.fInMempool = false

variable (above w) in
/-- Exactly the transaction and its descendants are marked. -/
structure Abandons (hashTx : Uint256) (w' : CWallet) : Prop where
  marked : ∀ k, k = hashTx ∨ TransGen (w.Follows above) hashTx k →
    ∃ wtx, w'.mapWallet.lookup k = some wtx ∧ wtx.isAbandoned = true
  others : ∀ k, k ≠ hashTx → ¬TransGen (w.Follows above) hashTx k →
    w'.mapWallet.lookup k = w.mapWallet.lookup k

theorem abandonTransaction_eq (h : w.Consistent above)
    (hwtx : w.mapWallet.lookup hashTx = some wtx) (hdepth : wtx.getDepthInMainChain above = 0)
    (hmempool : wtx.fInMempool = false) :
    ∃ w', abandonTransaction above w hashTx = some (true, w') ∧
      ∀ k, (k = hashTx ∨ wtx.isAbandoned = false ∧ w.Spent hashTx k →
          w'.mapWallet.lookup k = (w.mapWallet.lookup k).map (passed above)) ∧
        (¬(k = hashTx ∨ wtx.isAbandoned = false ∧ w.Spent hashTx k) →
          w'.mapWallet.lookup k = w.mapWallet.lookup k) := by
  have hfirst : (SortedSet.ofList [hashTx]).elems = [hashTx] := rfl
  obtain ⟨w1, hw1, hspends, hlookup⟩ := abandonPass_spec hashTx
    ((SortedSet.ofList [hashTx]).erase hashTx) ((∅ : SortedSet Uint256).insert hashTx) hwtx
    ⟨hdepth.le, fun _ => hmempool⟩
  obtain ⟨todo, htodo, hw1⟩ : ∃ todo : SortedSet Uint256,
      (∀ k, k ∈ todo ↔ wtx.isAbandoned = false ∧ k ≠ hashTx ∧ w.Spent hashTx k) ∧
      abandonPass above hashTx hashTx ((SortedSet.ofList [hashTx]).erase hashTx)
        ((∅ : SortedSet Uint256).insert hashTx) w = some (todo, w1) := by
    refine ⟨_, fun k => ?_, hw1⟩
    rw [hdepth]
    split
    next hopen =>
      rw [Worklist.mem_stage, mem_spends_self]
      simp [hopen.2, and_comm]
    next hnot =>
      rw [eq_self, true_and] at hnot
      simp [hnot]
  have hsize : todo.size ≤ w.mapTxSpends.entries.length := by
    have hsub : todo.toFinset ⊆ (w.mapTxSpends.entries.map Prod.snd).toFinset := by
      intro k hk
      obtain ⟨n, hn⟩ := ((htodo k).mp hk).2.2
      exact List.mem_toFinset.mpr (mem_map_of_mem hn)
    calc todo.size = todo.toFinset.card := todo.card_toFinset.symm
      _ ≤ _ := Finset.card_le_card hsub
      _ ≤ _ := List.toFinset_card_le _
      _ = _ := length_map _
  -- the passes behind the first one add nothing: they look behind the outputs of `hashTx`
  obtain ⟨w', hw', hall⟩ := @abandonLoop_rest above w1 hashTx todo
    ((∅ : SortedSet Uint256).insert hashTx) w.mapTxSpends.entries.length
    (fun k hk => by
      rw [spends, hspends]
      exact spends_of_ne ((htodo k).mp hk).2.1 ((htodo k).mp hk).2.2)
    (fun k hk => by
      obtain ⟨-, hne, hspent⟩ := (htodo k).mp hk
      obtain ⟨wtx', hk'⟩ := Option.isSome_iff_exists.mp
        (AList.lookup_isSome.mpr (h.known hashTx k hspent))
      have hok := h.descendants hwtx hdepth hmempool (.single hspent) hk'
      exact ⟨wtx', by rw [hlookup, if_neg hne, hk'], hok.1, fun _ => hok.2⟩) hsize
  refine ⟨w', ?_, fun k => ?_⟩
  · rw [abandonTransaction, hwtx]
    simp only [hdepth, hmempool, ne_eq, not_true_eq_false, Bool.false_eq_true, or_self, if_false]
    rw [abandonLoop_cons hfirst, hw1]
    simp only [hw', Option.map_some]
  · rw [hall, hlookup]
    by_cases hk : k = hashTx
    · have hnot : k ∉ todo := fun h => ((htodo k).mp h).2.1 hk
      rw [if_neg hnot, if_pos hk, hk, hwtx]
      exact ⟨fun _ => rfl, fun hor => absurd (.inl rfl) hor⟩
    · rw [if_neg hk]
      refine ⟨fun hor => if_pos ?_, fun hor => if_neg fun h => hor (.inr ?_)⟩
      · obtain ⟨hnot, hspent⟩ := hor.resolve_left hk
        exact (htodo k).mpr ⟨hnot, hk, hspent⟩
      · exact ⟨((htodo k).mp h).1, ((htodo k).mp h).2.2⟩

/-- An unconfirmed transaction that is not in the memory pool is abandoned, and what is
    marked is it and its descendants if and only if these all spend its own outputs, and
    there are none where it was abandoned before. -/
theorem abandonTransaction_spec (h : w.Consistent above)
    (hwtx : w.mapWallet.lookup hashTx = some wtx) (hdepth : wtx.getDepthInMainChain above = 0)
    (hmempool : wtx.fInMempool = false) :
    ∃ w', abandonTransaction above w hashTx = some (true, w') ∧
      (w.Abandons above hashTx w' ↔ ∀ k, TransGen (w.Follows above) hashTx k →
        k = hashTx ∨ wtx.isAbandoned = false ∧ w.Follows above hashTx k) := by
  obtain ⟨w', hw', hlookup⟩ := abandonTransaction_eq h hwtx hdepth hmempool
  have hopen : ∀ k, TransGen (w.Follows above) hashTx k → ∃ wtx, w.mapWallet.lookup k = some wtx ∧
      wtx.getDepthInMainChain above = 0 ∧ wtx.isAbandoned = false := by
    intro k hk
    obtain ⟨_, -, hlast⟩ := TransGen.tail'_iff.mp hk
    exact hlast.2
  refine ⟨w', hw', fun habandons k hk => ?_, fun hall => ⟨fun k hk => ?_, fun k hne hk => ?_⟩⟩
  · -- a transaction that was open has been passed over
    by_contra hnot
    obtain ⟨wtx', hk', -, hopen'⟩ := hopen k hk
    obtain ⟨wtx'', hk'', hmarked⟩ := habandons.marked k (.inr hk)
    have hpassed : ¬(k = hashTx ∨ wtx.isAbandoned = false ∧ w.Spent hashTx k) := by
      rintro (heq | hspent)
      · exact hnot (.inl heq)
      · exact hnot (.inr ⟨hspent.1, hspent.2, hopen k hk⟩)
    rw [(hlookup k).2 hpassed, hk'] at hk''
    rw [Option.some.inj hk'', hmarked] at hopen'
    cases hopen'
  · obtain ⟨wtx', hk', hor⟩ : ∃ wtx', w.mapWallet.lookup k = some wtx' ∧
        (wtx'.getDepthInMainChain above = 0 ∧ wtx'.isAbandoned = false ∨
          wtx'.isAbandoned = true) := by
      obtain rfl | hk := hk
      · refine ⟨wtx, hwtx, ?_⟩
        cases hab : wtx.isAbandoned with
        | true => exact .inr rfl
        | false => exact .inl ⟨hdepth, rfl⟩
      · obtain ⟨wtx', hk', hopen'⟩ := hopen k hk
        exact ⟨wtx', hk', .inl hopen'⟩
    have hpassed : k = hashTx ∨ wtx.isAbandoned = false ∧ w.Spent hashTx k :=
      hk.elim .inl fun hk => (hall k hk).imp_right fun h => ⟨h.1, h.2.1⟩
    refine ⟨passed above wtx', by rw [(hlookup k).1 hpassed, hk']; rfl, ?_⟩
    rw [passed]
    split
    next => rfl
    next hnot => exact hor.resolve_left hnot
  · by_cases hpassed : wtx.isAbandoned = false ∧ w.Spent hashTx k
    · -- one that is passed over but was not open is left as it is
      rw [(hlookup k).1 (.inr hpassed)]
      match hk' : w.mapWallet.lookup k with
      | none => rfl
      | some wtx' =>
        have hnot : ¬(wtx'.getDepthInMainChain above = 0 ∧ wtx'.isAbandoned = false) :=
          fun hopen' => hk (.single ⟨hpassed.2, wtx', hk', hopen'⟩)
        rw [Option.map_some, passed, if_neg hnot]
    · exact (hlookup k).2 fun hor => hor.elim hne hpassed

/-! ## A chain of three -/

def unconfirmed : CWalletTx := ⟨0, -1, false⟩

/-- Transaction 20 spends 10, and 30 spends 20. -/
def chained : CWallet where
  mapWallet := ((AList.singleton 30 unconfirmed).insert 20 unconfirmed).insert 10 unconfirmed
  mapTxSpends := (Multimap.empty.insert (toLex (10, 0)) 20).insert (toLex (20, 0)) 30

theorem chained_lookup {k : Uint256} {wtx : CWalletTx}
    (h : chained.mapWallet.lookup k = some wtx) : wtx = unconfirmed := by
  have hall : chained.mapWallet.entries.map Sigma.snd = replicate 3 unconfirmed := rfl
  have hmem : wtx ∈ chained.mapWallet.entries.map Sigma.snd :=
    mem_map_of_mem (lookup_eq_some_iff_mem.mp h)
  rw [hall] at hmem
  exact eq_of_mem_replicate hmem

theorem chained_consistent : chained.Consistent fun _ => none := by
  refine ⟨fun now k hspent => ?_, fun _ _ _ _ h => ?_⟩
  · obtain ⟨n, hn⟩ := hspent
    have hall : ∀ e ∈ chained.mapTxSpends.entries, e.2 ∈ chained.mapWallet := by decide
    exact hall _ hn
  · rw [chained_lookup h]
    exact ⟨by decide, rfl⟩

/-- The grandchild of the abandoned transaction is not marked. -/
theorem grandchild_left : chained.Consistent (fun _ => none) ∧
    chained.mapWallet.lookup 10 = some unconfirmed ∧
    ∃ w', abandonTransaction (fun _ => none) chained 10 = some (true, w') ∧
      (w'.mapWallet.lookup 20).map (·.isAbandoned) = some true ∧
      (w'.mapWallet.lookup 30).map (·.isAbandoned) = some false ∧
      ¬chained.Abandons (fun _ => none) 10 w' := by
  refine ⟨chained_consistent, rfl, _, rfl, by decide, by decide, fun h => ?_⟩
  have hchild : chained.Follows (fun _ => none) 10 20 :=
    ⟨⟨0, by decide⟩, unconfirmed, rfl, by decide, by decide⟩
  have hgrandchild : chained.Follows (fun _ => none) 20 30 :=
    ⟨⟨0, by decide⟩, unconfirmed, rfl, by decide, by decide⟩
  obtain ⟨wtx, hwtx, hmarked⟩ := h.marked 30 (.inr (.tail (.single hchild) hgrandchild))
  obtain rfl : unconfirmed = wtx := Option.some.inj hwtx
  cases hmarked

theorem abandonTransaction_spec_chained :
    ∃ w', abandonTransaction (fun _ => none) chained 30 = some (true, w') ∧
      (chained.Abandons (fun _ => none) 30 w' ↔ ∀ k,
        TransGen (chained.Follows fun _ => none) 30 k →
          k = 30 ∨ unconfirmed.isAbandoned = false ∧ chained.Follows (fun _ => none) 30 k) :=
  abandonTransaction_spec chained_consistent rfl (by decide) rfl

end CWallet

end Abandon

end Rcoin
