/-
  `SelectCoinsMinConf`: coins of the wallet that pay for a target, by a randomised
  approximation of the subset sum.

  Source: src/wallet/wallet.cpp.
-/
import Rcoin.Primitives

namespace Rcoin

namespace SelectCoins

open List

def MIN_CHANGE : Int := 1000000

structure CInputCoin where
  outpoint : COutPoint
  nValue : Int

/-- Output `i` of `tx` has the value `nValue`. -/
structure COutput where
  tx : Uint256
  i : Nat
  nValue : Int
  nDepth : Int
  fSpendable : Bool

def COutput.coin (output : COutput) : CInputCoin := ⟨⟨output.tx, output.i⟩, output.nValue⟩

/-- What the wallet and the pool say, and the outcome of the random choices: any order
    of the coins, any order of equal values, and the flips by attempt and index, which
    the second approximation makes anew. -/
structure Env where
  isFromMe : Uint256 → Bool
  withinChainLimit : Uint256 → Nat → Bool
  shuffle : List COutput → List COutput
  shuffle_perm : ∀ l, (shuffle l).Perm l
  sort : List CInputCoin → List CInputCoin
  sort_perm : ∀ l, (sort l).Perm l
  sort_sorted : ∀ l, (sort l).Pairwise fun a b => a.nValue ≤ b.nValue
  randbool : Bool → Nat → Nat → Bool

/-! ## The approximation -/

/-- The best subset so far. -/
structure Best where
  vfBest : List Bool
  nBest : Int

structure Attempt extends Best where
  vfIncluded : List Bool
  nTotal : Int
  fReachedTarget : Bool

def consider (nTargetValue : Int) (s : Attempt) (i : Nat) (coin : CInputCoin) : Attempt :=
  let nTotal := s.nTotal + coin.nValue
  let vfIncluded := s.vfIncluded.set i true
  if nTotal ≥ nTargetValue then
    { nBest := if nTotal < s.nBest then nTotal else s.nBest
      vfBest := if nTotal < s.nBest then vfIncluded else s.vfBest
      nTotal := nTotal - coin.nValue
      vfIncluded := vfIncluded.set i false
      fReachedTarget := true }
  else { s with nTotal, vfIncluded }

/-- The pass over the coins from index `i` on. -/
def pass (nTargetValue : Int) (wanted : Attempt → Nat → Bool) :
    Attempt → Nat → List CInputCoin → Attempt
  | s, _, [] => s
  | s, i, coin :: rest =>
    pass nTargetValue wanted (if wanted s i then consider nTargetValue s i coin else s) (i + 1) rest

def attempt (randbool : Nat → Bool) (nTargetValue : Int) (vValue : List CInputCoin)
    (b : Best) : Best :=
  let s := pass nTargetValue (fun _ i => randbool i)
    { b with vfIncluded := replicate vValue.length false, nTotal := 0, fReachedTarget := false }
    0 vValue
  if s.fReachedTarget then s.toBest
  else (pass nTargetValue (fun s i => !s.vfIncluded.getD i false) s 0 vValue).toBest

def attempts (randbool : Nat → Nat → Bool) (nTargetValue : Int) (vValue : List CInputCoin) :
    (iterations nRep : Nat) → Best → Best
  | 0, _, b => b
  | iterations + 1, nRep, b =>
    if b.nBest = nTargetValue then b
    else attempts randbool nTargetValue vValue iterations (nRep + 1)
      (attempt (randbool nRep) nTargetValue vValue b)

def approximateBestSubset (randbool : Nat → Nat → Bool) (vValue : List CInputCoin)
    (nTotalLower nTargetValue : Int) : Best :=
  attempts randbool nTargetValue vValue 1000 0 ⟨replicate vValue.length true, nTotalLower⟩

/-! ## The selection -/

/-- `setCoinsRet`, a set by outpoint, and `nValueRet`. -/
structure Selected where
  setCoinsRet : List CInputCoin := []
  nValueRet : Int := 0

def Selected.insert (s : Selected) (coin : CInputCoin) : Selected where
  setCoinsRet :=
    if coin.outpoint ∈ s.setCoinsRet.map CInputCoin.outpoint then s.setCoinsRet
    else s.setCoinsRet ++ [coin]
  nValueRet := s.nValueRet + coin.nValue

/-- What the first loop has sorted out. -/
structure Gathered where
  coinLowestLarger : Option CInputCoin := none
  vValue : List CInputCoin := []
  nTotalLower : Int := 0

variable (env : Env) (nTargetValue nConfMine nConfTheirs : Int) (nMaxAncestors : Nat)

def eligible (output : COutput) : Bool :=
  output.fSpendable &&
    !decide (output.nDepth < if env.isFromMe output.tx then nConfMine else nConfTheirs) &&
    env.withinChainLimit output.tx nMaxAncestors

/-- The coin with the exact value, or what the loop over the coins leaves; `ok` tells the
    eligible coins. -/
def gather (ok : COutput → Bool) (nTargetValue : Int) :
    Gathered → List COutput → CInputCoin ⊕ Gathered
  | g, [] => .inr g
  | g, output :: rest =>
    if !ok output then gather ok nTargetValue g rest
    else
      let coin := output.coin
      if coin.nValue = nTargetValue then .inl coin
      else if coin.nValue < nTargetValue + MIN_CHANGE then
        gather ok nTargetValue
          { g with vValue := g.vValue ++ [coin], nTotalLower := g.nTotalLower + coin.nValue } rest
      else if g.coinLowestLarger.all fun lowest => coin.nValue < lowest.nValue then
        gather ok nTargetValue { g with coinLowestLarger := some coin } rest
      else gather ok nTargetValue g rest

/-- The coins that `vfBest` marks. -/
def picked : List CInputCoin → List Bool → List CInputCoin
  | coin :: vValue, f :: vfBest => if f then coin :: picked vValue vfBest else picked vValue vfBest
  | _, _ => []

/-- The approximation of the target, and that of the target with change. -/
def bestSubset (vValue : List CInputCoin) (nTotalLower : Int) : Best :=
  let b := approximateBestSubset (env.randbool false) vValue nTotalLower nTargetValue
  if b.nBest ≠ nTargetValue ∧ nTotalLower ≥ nTargetValue + MIN_CHANGE then
    approximateBestSubset (env.randbool true) vValue nTotalLower (nTargetValue + MIN_CHANGE)
  else b

def selectCoinsMinConf (vCoins : List COutput) : Bool × Selected :=
  match gather (eligible env nConfMine nConfTheirs nMaxAncestors) nTargetValue {}
    (env.shuffle vCoins) with
  | .inl coin => (true, Selected.insert {} coin)
  | .inr g =>
    if g.nTotalLower = nTargetValue then (true, g.vValue.foldl Selected.insert {})
    else if g.nTotalLower < nTargetValue then
      match g.coinLowestLarger with
      | none => (false, {})
      | some coin => (true, Selected.insert {} coin)
    else
      let vValue := (env.sort g.vValue).reverse
      let b := bestSubset env nTargetValue vValue g.nTotalLower
      match g.coinLowestLarger.filter fun coin =>
        (b.nBest ≠ nTargetValue ∧ b.nBest < nTargetValue + MIN_CHANGE) ∨ coin.nValue ≤ b.nBest with
      | some coin => (true, Selected.insert {} coin)
      | none => (true, (picked vValue b.vfBest).foldl Selected.insert {})

/-! ## What a selection pays -/

def total (coins : List CInputCoin) : Int := (coins.map CInputCoin.nValue).sum

def coinsOf (ok : COutput → Bool) (vCoins : List COutput) : List CInputCoin :=
  (vCoins.filter ok).map COutput.coin

/-- Some of the coins, with the target paid and no small change unless the coins
    do not have more. -/
structure Pays (nTargetValue : Int) (coins : List CInputCoin) (s : Selected) : Prop where
  nodup : (s.setCoinsRet.map CInputCoin.outpoint).Nodup
  subset : s.setCoinsRet ⊆ coins
  value : s.nValueRet = total s.setCoinsRet
  target : nTargetValue ≤ s.nValueRet
  change : s.nValueRet = nTargetValue ∨ nTargetValue + MIN_CHANGE ≤ s.nValueRet ∨
    total coins < nTargetValue + MIN_CHANGE

variable {env nTargetValue nConfMine nConfTheirs nMaxAncestors}
variable {s : Attempt} {b : Best} {g : Gathered} {coin : CInputCoin}
  {coins vValue l : List CInputCoin} {vCoins : List COutput} {vf : List Bool} {i : Nat}
  {ok : COutput → Bool} {r : Selected}

theorem foldl_insert (h : ((r.setCoinsRet ++ l).map CInputCoin.outpoint).Nodup) :
    l.foldl Selected.insert r = ⟨r.setCoinsRet ++ l, r.nValueRet + total l⟩ := by
  induction l generalizing r with
  | nil => simp [total]
  | cons coin l ih =>
    have hmem : coin.outpoint ∉ r.setCoinsRet.map CInputCoin.outpoint := by
      rw [map_append, map_cons] at h
      exact fun hc => (nodup_append.mp h).2.2 _ hc _ mem_cons_self rfl
    rw [foldl_cons, ih (by simpa [Selected.insert, hmem] using h)]
    simp [Selected.insert, hmem, total, add_assoc]

/-! ## The flags -/

theorem total_picked_set (hf : vf[i]? = some false) (hc : vValue[i]? = some coin) :
    total (picked vValue (vf.set i true)) = total (picked vValue vf) + coin.nValue := by
  induction vValue generalizing vf i with
  | nil => cases hc
  | cons c vValue ih =>
    match vf, i with
    | f :: vf, 0 =>
      obtain rfl := Option.some.inj hf
      obtain rfl := Option.some.inj hc
      simp [picked, total, add_comm]
    | f :: vf, i + 1 =>
      have hih := @ih vf i hf hc
      cases f <;> simp_all [picked, total, add_assoc]

theorem picked_sublist : (picked vValue vf).Sublist vValue := by
  fun_induction picked vValue vf with
  | case1 coin vValue vfBest ih => exact ih.cons_cons _
  | case2 coin vValue f vfBest _ ih => exact ih.cons _
  | case3 => exact nil_sublist _

theorem picked_replicate : picked vValue (replicate vValue.length true) = vValue := by
  induction vValue with
  | nil => rfl
  | cons coin vValue ih => simp [picked, replicate_succ, ih]

theorem total_picked_none : total (picked vValue (replicate vValue.length false)) = 0 := by
  induction vValue with
  | nil => rfl
  | cons coin vValue ih => simpa [picked, replicate_succ] using ih

/-- The best subset so far reaches the target. -/
structure Reaches (nTargetValue : Int) (vValue : List CInputCoin) (b : Best) : Prop where
  total : total (picked vValue b.vfBest) = b.nBest
  ge : nTargetValue ≤ b.nBest

/-- `nTotal` is the total of what an attempt includes. -/
structure Included (nTargetValue : Int) (vValue : List CInputCoin) (s : Attempt) : Prop
    extends Reaches nTargetValue vValue s.toBest where
  included : SelectCoins.total (picked vValue s.vfIncluded) = s.nTotal
  length : s.vfIncluded.length = vValue.length

theorem Included.consider (h : Included nTargetValue vValue s)
    (hf : s.vfIncluded[i]? = some false) (hc : vValue[i]? = some coin) :
    Included nTargetValue vValue (consider nTargetValue s i coin) ∧
      ∀ j ≠ i, (SelectCoins.consider nTargetValue s i coin).vfIncluded[j]? =
        s.vfIncluded[j]? := by
  have hset := total_picked_set hf hc
  rw [h.included] at hset
  rw [SelectCoins.consider]
  split
  next hge =>
    have hback : (s.vfIncluded.set i true).set i false = s.vfIncluded := by
      obtain ⟨hi, hfalse⟩ := List.getElem?_eq_some_iff.mp hf
      rw [set_set, ← hfalse, set_getElem_self]
    refine ⟨⟨⟨?_, ?_⟩, ?_, ?_⟩, fun j _ => congrArg (·[j]?) hback⟩
    · dsimp only
      split
      · exact hset
      · exact h.total
    · dsimp only
      split
      · exact hge
      · exact h.ge
    · dsimp only
      rw [hback, h.included]
      omega
    · rw [hback]
      exact h.length
  next =>
    refine ⟨⟨⟨h.total, h.ge⟩, hset, ?_⟩, fun j hj => getElem?_set_ne hj.symm⟩
    rw [length_set]
    exact h.length

theorem Included.pass {wanted : Attempt → Nat → Bool} {rest : List CInputCoin}
    (h : Included nTargetValue vValue s) (hrest : vValue.drop i = rest)
    (hw : (∀ s i, wanted s i = !s.vfIncluded.getD i false) ∨
      ∀ j, i ≤ j → j < vValue.length → s.vfIncluded[j]? = some false) :
    Included nTargetValue vValue (pass nTargetValue wanted s i rest) := by
  induction rest generalizing s i with
  | nil => exact h
  | cons coin rest ih =>
    have hc : vValue[i]? = some coin := by
      rw [← Nat.add_zero i, ← getElem?_drop, hrest]
      rfl
    have hi := (List.getElem?_eq_some_iff.mp hc).1
    have hrest' : vValue.drop (i + 1) = rest := by
      rw [← tail_drop, hrest]
      rfl
    rw [SelectCoins.pass]
    split
    next hwanted =>
      have hf : s.vfIncluded[i]? = some false := by
        obtain hw | hw := hw
        · rw [hw] at hwanted
          rw [getElem?_eq_getElem (h.length ▸ hi)]
          simpa [getD_eq_getElem?_getD, getElem?_eq_getElem (h.length ▸ hi)] using hwanted
        · exact hw i le_rfl hi
      obtain ⟨hconsider, hframe⟩ := h.consider hf hc
      refine ih hconsider hrest' (hw.imp id fun hw j hj hlt => ?_)
      rw [hframe j (by omega)]
      exact hw j (by omega) hlt
    next => exact ih h hrest' (hw.imp id fun hw j hj hlt => hw j (by omega) hlt)

theorem Reaches.attempt {randbool : Nat → Bool} (h : Reaches nTargetValue vValue b) :
    Reaches nTargetValue vValue (attempt randbool nTargetValue vValue b) := by
  have hstart : Included nTargetValue vValue
      { b with vfIncluded := replicate vValue.length false, nTotal := 0,
               fReachedTarget := false } :=
    ⟨⟨h.total, h.ge⟩, total_picked_none, length_replicate⟩
  have hfirst : Included nTargetValue vValue (pass nTargetValue (fun _ i => randbool i) _ 0 vValue) :=
    hstart.pass drop_zero (.inr fun j _ hj => getElem?_replicate_of_lt hj)
  rw [SelectCoins.attempt]
  split
  · exact hfirst.toReaches
  · exact (hfirst.pass drop_zero (.inl fun _ _ => rfl)).toReaches

theorem reaches_approximateBestSubset (randbool : Nat → Nat → Bool)
    (hle : nTargetValue ≤ total vValue) :
    Reaches nTargetValue vValue
      (approximateBestSubset randbool vValue (total vValue) nTargetValue) := by
  have hrun : ∀ iterations nRep b, Reaches nTargetValue vValue b →
      Reaches nTargetValue vValue
        (attempts randbool nTargetValue vValue iterations nRep b) := by
    intro iterations
    induction iterations with
    | zero => exact fun _ _ h => h
    | succ iterations ih =>
      intro nRep b h
      rw [attempts]
      split
      · exact h
      · exact ih _ _ h.attempt
  exact hrun _ _ _ ⟨congrArg total picked_replicate, hle⟩

variable (env) in
theorem reaches_bestSubset (hle : nTargetValue ≤ total vValue) :
    Reaches nTargetValue vValue
      (bestSubset env nTargetValue vValue (total vValue)) ∧
      ((bestSubset env nTargetValue vValue (total vValue)).nBest = nTargetValue ∨
        nTargetValue + MIN_CHANGE ≤ (bestSubset env nTargetValue vValue (total vValue)).nBest ∨
        total vValue < nTargetValue + MIN_CHANGE) := by
  have hfirst := reaches_approximateBestSubset (env.randbool false) hle
  rw [bestSubset]
  split
  next hsecond =>
    have h := reaches_approximateBestSubset (env.randbool true) hsecond.2
    exact ⟨⟨h.total, (le_add_of_nonneg_right (by decide)).trans h.ge⟩, .inr (.inl h.ge)⟩
  next hnot =>
    rw [not_and_or, not_not, ge_iff_le, not_le] at hnot
    exact ⟨hfirst, hnot.imp id .inr⟩

/-! ## The coins of the loop -/

/-- What the loop leaves of the coins it has seen. -/
structure Leaves (nTargetValue : Int) (coins : List CInputCoin) (g : Gathered) : Prop where
  lower : g.nTotalLower = total g.vValue
  sublist : g.vValue.Sublist coins
  all : g.coinLowestLarger = none → g.vValue = coins
  larger : ∀ coin, g.coinLowestLarger = some coin →
    coin ∈ coins ∧ nTargetValue + MIN_CHANGE ≤ coin.nValue

theorem coinsOf_cons {output : COutput} {rest : List COutput} (hok : ¬(!ok output) = true) :
    coins ++ coinsOf ok (output :: rest) = coins ++ [output.coin] ++ coinsOf ok rest := by
  rw [coinsOf, filter_cons_of_pos (by simpa using hok), append_assoc]
  rfl

theorem gather_spec : ∀ coins, Leaves nTargetValue coins g →
    match gather ok nTargetValue g vCoins with
    | .inl coin => coin ∈ coins ++ coinsOf ok vCoins ∧ coin.nValue = nTargetValue
    | .inr g => Leaves nTargetValue (coins ++ coinsOf ok vCoins) g := by
  fun_induction gather ok nTargetValue g vCoins with
  | case1 g =>
    intro coins h
    rwa [coinsOf, filter_nil, map_nil, append_nil]
  | case2 g output rest hnot ih =>
    rw [coinsOf, filter_cons_of_neg (by simpa using hnot)]
    exact ih
  | case3 g output rest hok coin heq =>
    intro coins h
    rw [coinsOf_cons hok]
    exact ⟨mem_append_left _ (mem_append_right _ mem_cons_self), heq⟩
  | case4 g output rest hok coin hne hlt ih =>
    intro coins h
    rw [coinsOf_cons hok]
    refine ih _ ⟨?_, h.sublist.append (.refl _), fun hn => by rw [h.all hn],
      fun c hc => (h.larger c hc).imp_left (mem_append_left _)⟩
    simp [total, h.lower]
  | case5 g output rest hok coin hne hnlt hall ih =>
    intro coins h
    rw [coinsOf_cons hok]
    refine ih _ ⟨h.lower, h.sublist.trans (sublist_append_left _ _), nofun, fun c hc => ?_⟩
    obtain rfl := Option.some.inj hc
    exact ⟨mem_append_right _ mem_cons_self, not_lt.mp hnlt⟩
  | case6 g output rest hok coin hne hnlt hall ih =>
    intro coins h
    rw [coinsOf_cons hok]
    refine ih _ ⟨h.lower, h.sublist.trans (sublist_append_left _ _), fun hn => absurd ?_ hall,
      fun c hc => (h.larger c hc).imp_left (mem_append_left _)⟩
    rw [hn]
    rfl

/-! ## The selection pays -/

theorem pays_foldl (hnd : (coins.map CInputCoin.outpoint).Nodup) (hl : l.Subperm coins)
    (ht : nTargetValue ≤ total l)
    (hc : total l = nTargetValue ∨ nTargetValue + MIN_CHANGE ≤ total l ∨
      total coins < nTargetValue + MIN_CHANGE) :
    Pays nTargetValue coins (l.foldl Selected.insert {}) := by
  have hnodup : (l.map CInputCoin.outpoint).Nodup := by
    obtain ⟨l', hperm, hsub⟩ := hl
    exact (hperm.map _).nodup_iff.mp (hnd.sublist (hsub.map _))
  have heq : l.foldl Selected.insert {} = ⟨l, total l⟩ := by
    rw [foldl_insert (r := {}) hnodup]
    simp
  rw [heq]
  exact ⟨hnodup, hl.subset, rfl, ht, hc⟩

theorem total_perm (h : l.Perm coins) : total l = total coins :=
  (h.map _).sum_eq

theorem Pays.perm (h : Pays nTargetValue l r) (hperm : l.Perm coins) : Pays nTargetValue coins r :=
  { h with
    subset := fun _ hc => hperm.subset (h.subset hc)
    change := by
      rw [← total_perm hperm]
      exact h.change }

theorem Pays.le_total (h : Pays nTargetValue coins r) (hvalue : ∀ coin ∈ coins, 0 ≤ coin.nValue) :
    nTargetValue ≤ total coins := by
  obtain ⟨l, hperm, hsub⟩ := subperm_of_subset (Nodup.of_map _ h.nodup) h.subset
  calc nTargetValue ≤ r.nValueRet := h.target
    _ = total l := h.value.trans (total_perm hperm).symm
    _ ≤ total coins := (hsub.map _).sum_le_sum fun v hv => by
      obtain ⟨coin, hcoin, rfl⟩ := mem_map.mp hv
      exact hvalue coin hcoin

theorem selectCoinsMinConf_cases (env : Env) (nTargetValue nConfMine nConfTheirs : Int)
    (nMaxAncestors : Nat) {vCoins : List COutput}
    (hdistinct : (vCoins.map fun o => o.coin.outpoint).Nodup) :
    let coins := coinsOf (eligible env nConfMine nConfTheirs nMaxAncestors) vCoins
    let r := selectCoinsMinConf env nTargetValue nConfMine nConfTheirs nMaxAncestors vCoins
    r.1 = false ∧ total coins < nTargetValue ∨ r.1 = true ∧ Pays nTargetValue coins r.2 := by
  intro coins
  have hperm := ((env.shuffle_perm vCoins).filter
    (eligible env nConfMine nConfTheirs nMaxAncestors)).map COutput.coin
  have hnd : ((coinsOf (eligible env nConfMine nConfTheirs nMaxAncestors)
      (env.shuffle vCoins)).map CInputCoin.outpoint).Nodup := by
    refine (hperm.map _).nodup_iff.mpr ?_
    rw [map_map]
    exact hdistinct.sublist (filter_sublist.map _)
  have hgather := @gather_spec nTargetValue {} (env.shuffle vCoins)
    (eligible env nConfMine nConfTheirs nMaxAncestors) []
    ⟨rfl, nil_sublist _, fun _ => rfl, nofun⟩
  rw [nil_append] at hgather
  have hsingle : ∀ coin ∈ coinsOf (eligible env nConfMine nConfTheirs nMaxAncestors)
      (env.shuffle vCoins), nTargetValue ≤ coin.nValue →
      (coin.nValue = nTargetValue ∨ nTargetValue + MIN_CHANGE ≤ coin.nValue) →
      Pays nTargetValue coins (Selected.insert {} coin) := by
    intro coin hmem hle hc
    have hsum : total [coin] = coin.nValue := by simp [total]
    refine (pays_foldl hnd (singleton_sublist.mpr hmem).subperm ?_ ?_).perm hperm
    · rwa [hsum]
    · rw [hsum]
      exact hc.imp_right .inl
  rw [selectCoinsMinConf]
  split
  next coin hg =>
    -- a coin of just the value
    rw [hg] at hgather
    exact .inr ⟨rfl, hsingle coin hgather.1 hgather.2.ge (.inl hgather.2)⟩
  next g hg =>
    rw [hg] at hgather
    have hlower := hgather.lower
    have hlarger : ∀ coin, g.coinLowestLarger = some coin →
        Pays nTargetValue coins (Selected.insert {} coin) := by
      intro coin hsome
      obtain ⟨hmem, hge⟩ := hgather.larger coin hsome
      exact hsingle coin hmem ((le_add_of_nonneg_right (by decide)).trans hge) (.inr hge)
    split
    next heq =>
      -- all the lower coins together
      rw [hlower] at heq
      exact .inr ⟨rfl, (pays_foldl hnd hgather.sublist.subperm heq.ge (.inl heq)).perm hperm⟩
    split
    next hlt =>
      -- too little below: the lowest larger coin, if there is one
      split
      next hnone =>
        rw [hlower, hgather.all hnone] at hlt
        exact .inl ⟨rfl, total_perm hperm ▸ hlt⟩
      next coin hsome => exact .inr ⟨rfl, hlarger coin hsome⟩
    next hnlt =>
    -- the approximation, unless the larger coin comes closer
    have hsort : (env.sort g.vValue).reverse.Perm g.vValue :=
      (reverse_perm _).trans (env.sort_perm _)
    have htotal := hlower.trans (total_perm hsort).symm
    rw [htotal] at hnlt ⊢
    obtain ⟨hbest, hchange⟩ := reaches_bestSubset env (not_lt.mp hnlt)
    dsimp only
    split
    next coin hsome => exact .inr ⟨rfl, hlarger coin (Option.filter_eq_some_iff.mp hsome).1⟩
    next hnone =>
      have hv := hsort.subperm.trans hgather.sublist.subperm
      refine .inr ⟨rfl, (pays_foldl hnd (picked_sublist.subperm.trans hv) ?_ ?_).perm hperm⟩
      · rw [hbest.total]
        exact hbest.ge
      rw [hbest.total]
      cases hcoin : g.coinLowestLarger with
      | none =>
        rw [total_perm hsort, hgather.all hcoin] at hchange
        rwa [total_perm hsort, hgather.all hcoin]
      | some coin =>
        have hnot := Option.filter_eq_none_iff.mp hnone coin hcoin
        simp only [decide_eq_true_eq, not_or, not_and_or, not_lt, not_not] at hnot
        exact hnot.1.imp_right .inl

/-- A selection is found if and only if the eligible coins reach the target, and it
    pays.  The values are those of outputs, which `CheckTransaction` keeps from being
    negative. -/
theorem selectCoinsMinConf_spec (env : Env) (nTargetValue nConfMine nConfTheirs : Int)
    (nMaxAncestors : Nat) {vCoins : List COutput}
    (hdistinct : (vCoins.map fun o => o.coin.outpoint).Nodup)
    (hvalue : ∀ o ∈ vCoins, 0 ≤ o.nValue) :
    let coins := coinsOf (eligible env nConfMine nConfTheirs nMaxAncestors) vCoins
    let r := selectCoinsMinConf env nTargetValue nConfMine nConfTheirs nMaxAncestors vCoins
    (r.1 = true ↔ nTargetValue ≤ total coins) ∧ (r.1 = true → Pays nTargetValue coins r.2) := by
  intro coins r
  have hcoins : ∀ coin ∈ coins, 0 ≤ coin.nValue := by
    intro coin hcoin
    obtain ⟨o, ho, rfl⟩ := mem_map.mp hcoin
    exact hvalue o (mem_filter.mp ho).1
  obtain ⟨hfalse, hlt⟩ | ⟨htrue, hpays⟩ :=
    selectCoinsMinConf_cases env nTargetValue nConfMine nConfTheirs nMaxAncestors hdistinct
  · rw [show r.1 = false from hfalse]
    exact ⟨iff_of_false nofun (not_le.mpr hlt), nofun⟩
  · exact ⟨iff_of_true htrue (hpays.le_total hcoins), fun _ => hpays⟩

/-- All coins are the wallet's own and no chain is too long. -/
def quietEnv : Env where
  isFromMe _ := true
  withinChainLimit _ _ := true
  shuffle := id
  shuffle_perm _ := .refl _
  sort l := l.mergeSort fun a b => a.nValue ≤ b.nValue
  sort_perm l := mergeSort_perm l _
  sort_sorted l := by
    refine (pairwise_mergeSort (fun a b c hab hbc => ?_) (fun a b => ?_) l).imp of_decide_eq_true
    · simp only [decide_eq_true_eq] at *
      omega
    · simp only [Bool.or_eq_true, decide_eq_true_eq]
      omega
  randbool _ _ i := i % 2 = 0

def threeCoins : List COutput := [⟨11, 0, 3000000, 6, true⟩, ⟨12, 1, 500000, 6, true⟩,
  ⟨13, 0, 200000, 6, true⟩]

theorem selectCoinsMinConf_spec_three :
    (selectCoinsMinConf quietEnv 600000 1 6 25 threeCoins).1 = true ∧
      Pays 600000 (coinsOf (eligible quietEnv 1 6 25) threeCoins)
        (selectCoinsMinConf quietEnv 600000 1 6 25 threeCoins).2 := by
  have h := @selectCoinsMinConf_spec quietEnv 600000 1 6 25 threeCoins (by decide) (by decide)
  have htrue := h.1.mpr (by decide)
  exact ⟨htrue, h.2 htrue⟩

end SelectCoins

end Rcoin
