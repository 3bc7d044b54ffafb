/-
  `CalculateMemPoolAncestors` with its four limits, which the loop tests as it
  goes, against the limits as their documentation states them.  The tests look
  at everything but two things: a transaction without parents in the pool is
  never compared with the limits on its ancestors, and without a search for
  parents the number of direct parents is compared only where some ancestor has
  parents of its own.

  Source: src/txmempool.{h,cpp}.  The totals are those of transactions held in
  memory, so the 64-bit sums of the source do not wrap.
-/
import Rcoin.Mempool.Run

namespace Rcoin

open Relation CTxMemPool Finset SortedSet Worklist

/-! ## The walk -/

/-- The four limits, each a `uint64_t`. -/
structure AncestorLimits where
  limitAncestorCount : Nat
  limitAncestorSize : Nat
  limitDescendantCount : Nat
  limitDescendantSize : Nat

/-- The reasons for which a limit is reported as exceeded. -/
inductive LimitError where
  | tooManyParents (limit : Nat)
  | descendantSize (hash : Uint256) (limit : Nat)
  | descendantCount (hash : Uint256) (limit : Nat)
  | ancestorSize (limit : Nat)
  | tooManyAncestors (limit : Nat)
  deriving DecidableEq

/-- `uint256::ToString`: 64 hexadecimal digits. -/
def hashToString (hash : Uint256) : String :=
  String.ofList (List.leftpad 64 '0' (Nat.toDigits 16 hash))

def LimitError.errString : LimitError → String
  | .tooManyParents limit => s!"too many unconfirmed parents [limit: {limit}]"
  | .descendantSize hash limit =>
    s!"exceeds descendant size limit for tx {hashToString hash} [limit: {limit}]"
  | .descendantCount hash limit =>
    s!"too many descendants for tx {hashToString hash} [limit: {limit}]"
  | .ancestorSize limit => s!"exceeds ancestor size limit [limit: {limit}]"
  | .tooManyAncestors limit => s!"too many unconfirmed ancestors [limit: {limit}]"

namespace CTxMemPool

/-- The search of a transaction's inputs for in-pool parents. -/
def searchParents (pool : CTxMemPool) (limitAncestorCount : Nat) :
    List COutPoint → SetEntries → Except LimitError SetEntries
  | [], parentHashes => .ok parentHashes
  | prevout :: rest, parentHashes =>
    if prevout.hash ∈ pool.mapTx then
      let parentHashes := parentHashes.insert prevout.hash
      if limitAncestorCount < parentHashes.size + 1 then .error (.tooManyParents limitAncestorCount)
      else searchParents pool limitAncestorCount rest parentHashes
    else searchParents pool limitAncestorCount rest parentHashes

end CTxMemPool

/-- The loop over the parents of a staged entry. -/
def stageParents (limitAncestorCount : Nat) (setAncestors : SetEntries) :
    List Uint256 → SetEntries → Except LimitError SetEntries
  | [], parentHashes => .ok parentHashes
  | phash :: rest, parentHashes =>
    let parentHashes := if phash ∈ setAncestors then parentHashes else parentHashes.insert phash
    if limitAncestorCount < parentHashes.size + setAncestors.size + 1 then
      .error (.tooManyAncestors limitAncestorCount)
    else stageParents limitAncestorCount setAncestors rest parentHashes

namespace MempoolEnv

variable (env : MempoolEnv)

/-- The loop of `CalculateMemPoolAncestors`; it visits each entry once, so as
    many rounds as there are entries are enough. -/
def ancestorsLoop (pool : CTxMemPool) (entrySize : Int) (limits : AncestorLimits) :
    Nat → SetEntries → SetEntries → Int → Option (Except LimitError SetEntries)
  | 0, parentHashes, setAncestors, _ =>
    if parentHashes.elems = [] then some (.ok setAncestors) else none
  | fuel + 1, parentHashes, setAncestors, totalSizeWithAncestors =>
    match parentHashes.elems with
    | [] => some (.ok setAncestors)
    | stageit :: _ =>
      match pool.mapTx.lookup stageit, pool.getMemPoolParents stageit with
      | some e, some setMemPoolParents =>
        let setAncestors := setAncestors.insert stageit
        let parentHashes := parentHashes.erase stageit
        let totalSizeWithAncestors := totalSizeWithAncestors + env.getTxSize e
        if limits.limitDescendantSize < e.nSizeWithDescendants + entrySize then
          some (.error (.descendantSize e.tx.hash limits.limitDescendantSize))
        else if limits.limitDescendantCount < e.nCountWithDescendants + 1 then
          some (.error (.descendantCount e.tx.hash limits.limitDescendantCount))
        else if limits.limitAncestorSize < totalSizeWithAncestors then
          some (.error (.ancestorSize limits.limitAncestorSize))
        else
          match stageParents limits.limitAncestorCount setAncestors setMemPoolParents.elems
              parentHashes with
          | .error err => some (.error err)
          | .ok parentHashes =>
            ancestorsLoop pool entrySize limits fuel parentHashes setAncestors
              totalSizeWithAncestors
      | _, _ => none

/-- `CalculateMemPoolAncestors` with an empty `setAncestors`. -/
def calculateMemPoolAncestors (pool : CTxMemPool) (entry : CTxMemPoolEntry)
    (limits : AncestorLimits) (fSearchForParents : Bool) : Option (Except LimitError SetEntries) :=
  let walk := fun parentHashes => env.ancestorsLoop pool (env.getTxSize entry) limits
    pool.mapTx.keys.length parentHashes ∅ (env.getTxSize entry)
  if fSearchForParents then
    match pool.searchParents limits.limitAncestorCount entry.tx.prevouts ∅ with
    | .error err => some (.error err)
    | .ok parentHashes => walk parentHashes
  else (pool.getMemPoolParents entry.tx.hash).bind walk

end MempoolEnv

open MempoolEnv

/-! ## Tests while parents are staged -/

/-- The parents of one entry are staged, unless there are too many with the last
    of them.  The set only grows, so the last test decides. -/
theorem stageParents_eq (limit : Nat) (marked : SetEntries) (l : List Uint256)
    (stage : SetEntries) : ∃ err, stageParents limit marked l stage =
      if l = [] ∨ (l.foldl (fun s c => if c ∈ marked then s else s.insert c) stage).size +
          marked.size + 1 ≤ limit
      then .ok (l.foldl (fun s c => if c ∈ marked then s else s.insert c) stage)
      else .error err := by
  induction l generalizing stage with
  | nil => exact ⟨.tooManyAncestors limit, by rw [if_pos (Or.inl rfl)]; rfl⟩
  | cons c l ih =>
    obtain ⟨err, ih⟩ := ih (if c ∈ marked then stage else stage.insert c)
    rw [stageParents, List.foldl_cons]
    generalize hst : (if c ∈ marked then stage else stage.insert c) = stage' at ih ⊢
    have hgrow : stage'.size ≤
        (l.foldl (fun s c => if c ∈ marked then s else s.insert c) stage').size := by
      refine size_le_of_subset fun x hx => ?_
      exact List.foldlRecOn l _ (motive := fun s => x ∈ s) hx fun s hs c _ => by
        split
        · exact hs
        · exact mem_insert.mpr (.inr hs)
    by_cases hlim : limit < stage'.size + marked.size + 1
    · refine ⟨.tooManyAncestors limit, ?_⟩
      rw [if_pos hlim, if_neg]
      rintro (h | h)
      · nomatch h
      · omega
    · refine ⟨err, ?_⟩
      rw [if_neg hlim, ih]
      cases l with
      | nil =>
        rw [if_pos (Or.inl rfl), if_pos (Or.inr (by simpa using hlim))]
      | cons c' l => simp

theorem searchParents_eq (pool : CTxMemPool) (limit : Nat) (l : List COutPoint)
    (found : SetEntries) :
    ∃ err, pool.searchParents limit l found =
      if (l.map COutPoint.hash).filter (· ∈ pool.mapTx) = [] ∨
          (found.insertAll ((l.map COutPoint.hash).filter (· ∈ pool.mapTx))).size + 1 ≤ limit
      then .ok (found.insertAll ((l.map COutPoint.hash).filter (· ∈ pool.mapTx)))
      else .error err := by
  induction l generalizing found with
  | nil => exact ⟨.tooManyParents limit, (if_pos (.inl rfl)).symm⟩
  | cons o l ih =>
    rw [searchParents, List.map_cons]
    by_cases hmem : o.hash ∈ pool.mapTx
    · obtain ⟨err, ih⟩ := ih (found.insert o.hash)
      rw [if_pos hmem, List.filter_cons_of_pos (by simpa using hmem)]
      generalize hhits : (l.map COutPoint.hash).filter (· ∈ pool.mapTx) = hits at ih ⊢
      have hall : found.insertAll (o.hash :: hits) = (found.insert o.hash).insertAll hits := rfl
      have hgrow : (found.insert o.hash).size ≤ ((found.insert o.hash).insertAll hits).size :=
        size_le_of_subset fun x hx => mem_insertAll.mpr (.inl hx)
      rw [hall]
      by_cases hlim : limit < (found.insert o.hash).size + 1
      · refine ⟨.tooManyParents limit, ?_⟩
        rw [if_pos hlim, if_neg]
        rintro (h | h)
        · nomatch h
        · omega
      · refine ⟨err, ?_⟩
        rw [if_neg hlim, ih]
        cases hits with
        | nil =>
          have hle : (insertAll (found.insert o.hash) []).size + 1 ≤ limit :=
            not_lt.mp hlim
          rw [if_pos (Or.inl rfl), if_pos (Or.inr hle)]
        | cons h hits => simp
    · obtain ⟨err, ih⟩ := ih found
      rw [if_neg hmem, List.filter_cons_of_neg (by simpa using hmem)]
      exact ⟨err, ih⟩

/-! ## Tests of the loop -/

/-- An ancestor with the entry as one more descendant. -/
def DescendantsWithin (pool : CTxMemPool) (entrySize : Int) (limits : AncestorLimits)
    (a : Uint256) : Prop :=
  ∀ e, pool.mapTx.lookup a = some e →
    e.nSizeWithDescendants + entrySize ≤ limits.limitDescendantSize ∧
      e.nCountWithDescendants + 1 ≤ limits.limitDescendantCount

def HasParent (pool : CTxMemPool) (a : Uint256) : Prop := ∃ p, pool.Parent p a

section

variable {env : MempoolEnv} {pool : CTxMemPool} {a : Uint256}

theorem hasParent_iff : HasParent pool a ↔ (pool.links a).parents.elems ≠ [] :=
  ⟨fun ⟨_, hp⟩ => List.ne_nil_of_mem hp, fun h => List.exists_mem_of_ne_nil _ h⟩

/-- What the rounds from here on test: the descendants of each entry that is
    still to be visited, the size if an entry is still to be visited (or was, so
    that the size so far is within the limit), and the count if a parent is still
    to be looked at (or was). -/
structure LoopTests (env : MempoolEnv) (pool : CTxMemPool) (entrySize : Int)
    (limits : AncestorLimits) (A stage marked : SetEntries) (sizeTested countTested : Prop) :
    Prop where
  descendants : ∀ a ∈ A, a ∉ marked → DescendantsWithin pool entrySize limits a
  size : (sizeTested ∨ ∃ a, a ∈ stage) →
    entrySize + ∑ a ∈ A.toFinset, env.sizeAt pool a ≤ limits.limitAncestorSize
  count : (countTested ∨ ∃ a ∈ A, a ∉ marked ∧ HasParent pool a) →
    A.size + 1 ≤ limits.limitAncestorCount

theorem sizeAt_of_lookup {e : CTxMemPoolEntry} (he : pool.mapTx.lookup a = some e) :
    env.sizeAt pool a = env.getTxSize e := by
  rw [sizeAt, he]
  rfl

theorem sizeAt_nonneg (hweight : ∀ h e, pool.mapTx.lookup h = some e → 0 ≤ e.nTxWeight)
    (a : Uint256) : 0 ≤ env.sizeAt pool a := by
  rcases ha : pool.mapTx.lookup a with _ | e
  · rw [sizeAt, ha]
    rfl
  · rw [sizeAt_of_lookup ha]
    have hweight := hweight a e ha
    have hscale : (WITNESS_SCALE_FACTOR : Int) = 4 := rfl
    exact Int.tdiv_nonneg (by omega) (by omega)

section Loop

variable {entrySize : Int} {limits : AncestorLimits} {stage marked A : SetEntries} {total : Int}
  {sizeTested countTested : Prop}

theorem loopTests_end (hnil : stage.elems = [])
    (htotal : total = entrySize + ∑ a ∈ marked.toFinset, env.sizeAt pool a)
    (hs : sizeTested → total ≤ limits.limitAncestorSize)
    (hc : countTested → stage.size + marked.size + 1 ≤ limits.limitAncestorCount) :
    LoopTests env pool entrySize limits marked stage marked sizeTested countTested := by
  have hnone : ∀ a, a ∉ stage := by
    intro a ha
    rw [← mem_elems, hnil] at ha
    nomatch ha
  refine ⟨fun a ha hnot => absurd ha hnot, fun h => ?_, fun h => ?_⟩
  · rw [← htotal]
    exact hs (h.resolve_right fun ⟨a, ha⟩ => hnone a ha)
  · have hle := hc (h.resolve_right fun ⟨a, ha, hnot, _⟩ => hnot ha)
    omega

theorem loopTests_step {it : Uint256} {stage' : SetEntries} (hit : it ∈ stage) (hnot : it ∉ marked)
    (hitA : it ∈ A) (hdesc : DescendantsWithin pool entrySize limits it) :
    LoopTests env pool entrySize limits A stage' (marked.insert it) True
        (countTested ∨ HasParent pool it) ↔
      LoopTests env pool entrySize limits A stage marked sizeTested countTested := by
  constructor
  · intro h
    refine ⟨fun a ha had => ?_, fun _ => h.size (.inl trivial), fun hor => h.count ?_⟩
    · by_cases hait : a = it
      · exact hait ▸ hdesc
      · refine h.descendants a ha fun hmem => ?_
        exact (mem_insert.mp hmem).elim hait had
    · rcases hor with hct | ⟨a, ha, had, hpar⟩
      · exact .inl (.inl hct)
      · by_cases hait : a = it
        · exact .inl (.inr (hait ▸ hpar))
        · exact .inr ⟨a, ha, fun hmem => (mem_insert.mp hmem).elim hait had, hpar⟩
  · intro h
    have hout : ∀ a, a ∉ marked.insert it → a ∉ marked := fun a hnot hmem =>
      hnot (mem_insert.mpr (.inr hmem))
    refine ⟨fun a ha had => h.descendants a ha (hout a had), fun _ => h.size (.inr ⟨it, hit⟩),
      fun hor => h.count ?_⟩
    rcases hor with (hct | hpar) | ⟨a, ha, had, hpar⟩
    · exact .inl hct
    · exact .inr ⟨it, hitA, hnot, hpar⟩
    · exact .inr ⟨a, ha, hout a had, hpar⟩

theorem failed_spec {err : LimitError} {P : Prop} (h : ¬ P) :
    (∀ s : SetEntries, Except.error err = .ok s → s = A) ∧
      ((∃ s : SetEntries, Except.error err = .ok s) ↔ P) := by
  refine ⟨fun s hs => (nomatch hs), fun hex => ?_, fun hp => absurd hp h⟩
  obtain ⟨s, hs⟩ := hex
  nomatch hs

variable (entrySize limits sizeTested countTested) in
theorem ancestorsLoop_spec (hok : LinksOk pool) (hsize : ∀ a, 0 ≤ env.sizeAt pool a) {fuel : Nat}
    (hA : collect pool.getMemPoolParents fuel stage marked = some A)
    (hstage : ∀ a ∈ stage, a ∈ pool.mapTx ∧ a ∉ marked)
    (htotal : total = entrySize + ∑ a ∈ marked.toFinset, env.sizeAt pool a)
    (hs : sizeTested → total ≤ limits.limitAncestorSize)
    (hc : countTested → stage.size + marked.size + 1 ≤ limits.limitAncestorCount) :
    ∃ r, env.ancestorsLoop pool entrySize limits fuel stage marked total = some r ∧
      (∀ s, r = .ok s → s = A) ∧
      ((∃ s, r = .ok s) ↔
        LoopTests env pool entrySize limits A stage marked sizeTested countTested) := by
  induction fuel generalizing stage marked total sizeTested countTested with
  | zero =>
    rw [collect] at hA
    split at hA
    case isFalse => cases hA
    next hnil =>
      obtain rfl : marked = A := Option.some.inj hA
      refine ⟨.ok marked, ?_, fun s h => (Except.ok.inj h).symm,
        fun _ => loopTests_end hnil htotal hs hc, fun _ => ⟨marked, rfl⟩⟩
      rw [ancestorsLoop, if_pos hnil]
  | succ fuel ih =>
    rw [collect] at hA
    rw [ancestorsLoop]
    split at hA
    next hnil =>
      obtain rfl : marked = A := Option.some.inj hA
      exact ⟨.ok marked, by rw [hnil], fun s h => (Except.ok.inj h).symm,
        fun _ => loopTests_end hnil htotal hs hc, fun _ => ⟨marked, rfl⟩⟩
    next it rest hcons =>
      have hit : it ∈ stage := by
        rw [← mem_elems, hcons]
        exact List.mem_cons_self
      obtain ⟨hitmem, hitnot⟩ := hstage it hit
      obtain ⟨e, he⟩ := mem_mapTx_iff.mp hitmem
      have hpar := getMemPoolParents_eq ((hok.dom it).mpr hitmem)
      rw [hpar] at hA
      simp only [hcons, he, hpar]
      obtain ⟨hmarkedA, hstageA⟩ := mem_of_collect hA
      set marked' := marked.insert it with hmarked'
      set stage' := stageSuccessors marked' (stage.erase it) (pool.links it).parents
        with hst'
      have hitA : it ∈ A := hmarkedA it (mem_insert.mpr (.inl rfl))
      have hnotit : it ∉ marked.toFinset := hitnot
      have htotal' : total + env.getTxSize e =
          entrySize + ∑ a ∈ marked'.toFinset, env.sizeAt pool a := by
        rw [hmarked', toFinset_insert, sum_insert hnotit, htotal,
          sizeAt_of_lookup he]
        omega
      have hleA : total + env.getTxSize e ≤ entrySize + ∑ a ∈ A.toFinset, env.sizeAt pool a := by
        have hsub : marked'.toFinset ⊆ A.toFinset := hmarkedA
        have hsum := sum_le_sum_of_subset_of_nonneg hsub fun a _ _ => hsize a
        omega
      have hdisj : ∀ a ∈ stage', a ∉ marked' := by
        intro a ha hmem
        rcases mem_stageSuccessors.mp ha with h | ⟨-, hnot⟩
        · obtain ⟨hne, hst⟩ := mem_erase.mp h
          exact (mem_insert.mp hmem).elim hne (hstage a hst).2
        · exact hnot hmem
      have hcard : stage'.size + marked'.size ≤ A.size :=
        size_add_size_le hdisj hstageA hmarkedA
      have hit' : it ∉ stage.erase it := fun hmem => (mem_erase.mp hmem).1 rfl
      by_cases hdsz : limits.limitDescendantSize < e.nSizeWithDescendants + entrySize
      · refine ⟨_, if_pos hdsz, failed_spec fun h => ?_⟩
        have hle := (h.descendants it hitA hitnot e he).1
        omega
      by_cases hdct : limits.limitDescendantCount < e.nCountWithDescendants + 1
      · refine ⟨_, (if_neg hdsz).trans (if_pos hdct), failed_spec fun h => ?_⟩
        have hle := (h.descendants it hitA hitnot e he).2
        omega
      by_cases hasz : limits.limitAncestorSize < total + env.getTxSize e
      · refine ⟨_, ((if_neg hdsz).trans (if_neg hdct)).trans (if_pos hasz),
          failed_spec fun h => ?_⟩
        have hle := h.size (Or.inr ⟨it, hit⟩)
        omega
      have hdesc : DescendantsWithin pool entrySize limits it := by
        intro e' he'
        obtain rfl : e = e' := Option.some.inj (he.symm.trans he')
        omega
      rw [if_neg hdsz, if_neg hdct, if_neg hasz]
      obtain ⟨err, hstaged⟩ :=
        stageParents_eq limits.limitAncestorCount marked' (pool.links it).parents.elems
          (stage.erase it)
      change _ = if (pool.links it).parents.elems = [] ∨
        stage'.size + marked'.size + 1 ≤ limits.limitAncestorCount
        then Except.ok stage' else _ at hstaged
      rw [hstaged]
      by_cases hfits : (pool.links it).parents.elems = [] ∨
          stage'.size + marked'.size + 1 ≤ limits.limitAncestorCount
      · rw [if_pos hfits]
        -- the count was within the limit before, or is now that a parent was looked at
        have hc' : countTested ∨ HasParent pool it →
            stage'.size + marked'.size + 1 ≤ limits.limitAncestorCount := by
          intro hor
          rcases hfits with hnone | hle
          · have hst : stage' = stage.erase it := by
              rw [hst', stageSuccessors, hnone]
              rfl
            have hle := hc (hor.resolve_right fun hpar => hasParent_iff.mp hpar hnone)
            have herase := size_erase_of_mem hit
            have hinsert := size_insert_of_not_mem hitnot
            rw [hst, hmarked', hinsert]
            omega
          · exact hle
        have hstage' : ∀ a ∈ stage', a ∈ pool.mapTx ∧ a ∉ marked' := by
          intro a ha
          refine ⟨?_, hdisj a ha⟩
          rcases mem_stageSuccessors.mp ha with h | ⟨h, -⟩
          · exact (hstage a (mem_erase.mp h).2).1
          · exact hok.mem a it h
        obtain ⟨r, hr, hrA, hiff⟩ := ih _ _ hA hstage' htotal' (fun _ => not_lt.mp hasz) hc'
        exact ⟨r, hr, hrA, hiff.trans (loopTests_step hit hitnot hitA hdesc)⟩
      · rw [if_neg hfits]
        refine ⟨.error err, rfl, failed_spec fun h => ?_⟩
        obtain ⟨hsome, hlt⟩ := not_or.mp hfits
        have hle := h.count (.inr ⟨it, hitA, hitnot, hasParent_iff.mpr hsome⟩)
        omega

end Loop

/-! ## Against the documented limits -/

theorem Consistent.parent_iff (h : Consistent env pool) {p c : Uint256} :
    pool.Parent p c ↔ pool.SpendsFrom p c := h.parents p c

theorem Consistent.linksOk (h : Consistent env pool) : LinksOk pool where
  dom := h.linked
  symm p c := (h.children p c).trans (h.parents p c).symm
  mem p c hp := (h.parents p c).mp hp |>.1

theorem mem_searchForParents {tx : CTransaction} {p : Uint256} :
    p ∈ pool.searchForParents tx ↔ p ∈ pool.mapTx ∧ p ∈ tx.prevouts.map COutPoint.hash := by
  rw [searchForParents, mem_ofList, List.mem_filter, decide_eq_true_iff, and_comm]

theorem collect_ancestors (h : Consistent env pool) (tx : CTransaction) :
    ∃ A, collect pool.getMemPoolParents pool.mapTx.keys.length (pool.searchForParents tx)
        ∅ = some A ∧ ∀ a, a ∈ A ↔ pool.IsAncestor a tx := by
  have hok := h.linksOk
  have hnext : ∀ x ∈ pool.txids, ∃ s, pool.getMemPoolParents x = some s ∧ ∀ c ∈ s, c ∈ pool.txids :=
    fun x hx => ⟨_, getMemPoolParents_eq ((hok.dom x).mpr (mem_txids.mp hx)),
      fun c hc => mem_txids.mpr (hok.mem c x hc)⟩
  obtain ⟨A, hA, hiff⟩ := collect_spec hnext (pool.searchForParents tx) ∅
    (fun x hx => ⟨mem_txids.mpr (mem_searchForParents.mp hx).1, not_mem_empty x⟩)
    (fun x hx => absurd hx (not_mem_empty x)) (le_of_eq card_txids)
  refine ⟨A, hA, fun a => (hiff a).trans ?_⟩
  have hswap : Worklist.Succ pool.getMemPoolParents = Function.swap pool.SpendsFrom :=
    funext fun _ => funext fun _ => propext (succ_getMemPoolParents.trans h.parent_iff)
  rw [hswap]
  constructor
  · rintro (ha | ⟨p, hp, hreach⟩)
    · exact absurd ha (not_mem_empty a)
    · obtain ⟨hmem, hspent⟩ := mem_searchForParents.mp hp
      exact ⟨p, reflTransGen_swap.mp hreach, hmem, hspent⟩
  · rintro ⟨p, hreach, hmem, hspent⟩
    exact .inr ⟨p, mem_searchForParents.mpr ⟨hmem, hspent⟩, reflTransGen_swap.mpr hreach⟩

variable {entry : CTxMemPoolEntry}

theorem Consistent.parents_eq (h : Consistent env pool)
    (hentry : pool.mapTx.lookup entry.tx.hash = some entry) :
    (pool.links entry.tx.hash).parents = pool.searchForParents entry.tx := by
  refine ext_mem fun p => ?_
  rw [h.parents, mem_searchForParents]
  constructor
  · rintro ⟨hmem, e, he, hspent⟩
    obtain rfl : e = entry := Option.some.inj (he.symm.trans hentry)
    exact ⟨hmem, hspent⟩
  · rintro ⟨hmem, hspent⟩
    exact ⟨hmem, entry, hentry, hspent⟩

theorem calculateMemPoolAncestors_tests (h : Consistent env pool)
    (hsize : ∀ a, 0 ≤ env.sizeAt pool a) (limits : AncestorLimits) {fSearchForParents : Bool}
    (hentry : fSearchForParents = false → pool.mapTx.lookup entry.tx.hash = some entry) :
    ∃ A, (∀ a, a ∈ A ↔ pool.IsAncestor a entry.tx) ∧
      ∃ r, env.calculateMemPoolAncestors pool entry limits fSearchForParents = some r ∧
        (∀ s, r = .ok s → s = A) ∧
        ((∃ s, r = .ok s) ↔ LoopTests env pool (env.getTxSize entry) limits A
          (pool.searchForParents entry.tx) ∅ False
          (fSearchForParents = true ∧ ∃ p, p ∈ pool.searchForParents entry.tx)) := by
  obtain ⟨A, hA, hmemA⟩ := collect_ancestors h entry.tx
  refine ⟨A, hmemA, ?_⟩
  have hloop := fun countTested : Prop => ancestorsLoop_spec (env.getTxSize entry) limits False
    countTested h.linksOk hsize hA
    (fun a ha => ⟨(mem_searchForParents.mp ha).1, not_mem_empty a⟩)
    (by
      change _ = env.getTxSize entry + ∑ a ∈ (∅ : Finset Uint256), env.sizeAt pool a
      rw [sum_empty, add_zero])
    (fun hf => hf.elim)
  cases fSearchForParents with
  | false =>
    -- an entry of the pool: its links give its parents, and no count was compared
    obtain ⟨r, hr, hrA, hiff⟩ := hloop (false = true ∧ ∃ p, p ∈ pool.searchForParents entry.tx)
      fun hf => (nomatch hf.1)
    refine ⟨r, ?_, hrA, hiff⟩
    have hmem : entry.tx.hash ∈ pool.mapTx := mem_mapTx_iff.mpr ⟨entry, hentry rfl⟩
    rw [← hr, MempoolEnv.calculateMemPoolAncestors, if_neg Bool.false_ne_true,
      getMemPoolParents_eq ((h.linked _).mpr hmem), h.parents_eq (hentry rfl)]
    rfl
  | true =>
    obtain ⟨err, hsearch⟩ := searchParents_eq pool limits.limitAncestorCount entry.tx.prevouts ∅
    generalize hhits : (entry.tx.prevouts.map COutPoint.hash).filter (· ∈ pool.mapTx) = hits
      at hsearch
    have hfound : insertAll ∅ hits = pool.searchForParents entry.tx := by
      rw [← hhits]
      rfl
    rw [hfound] at hsearch
    rw [MempoolEnv.calculateMemPoolAncestors, if_pos rfl, hsearch]
    -- the search compares the count after each parent that is new, so the last
    -- comparison decides
    by_cases hfits : hits = [] ∨
        (pool.searchForParents entry.tx).size + 1 ≤ limits.limitAncestorCount
    · rw [if_pos hfits]
      have hc : (true = true ∧ ∃ p, p ∈ pool.searchForParents entry.tx) →
          (pool.searchForParents entry.tx).size + 1 ≤ limits.limitAncestorCount := by
        rintro ⟨-, p, hp⟩
        refine hfits.resolve_left fun hnil => ?_
        rw [← hfound, hnil] at hp
        exact not_mem_empty p hp
      obtain ⟨r, hr, hrA, hiff⟩ := hloop _ hc
      exact ⟨r, hr, hrA, hiff⟩
    · rw [if_neg hfits]
      -- too many parents are too many ancestors
      refine ⟨.error err, rfl, failed_spec fun htests => ?_⟩
      obtain ⟨hsome, hlt⟩ := not_or.mp hfits
      obtain ⟨p, hp⟩ := List.exists_mem_of_ne_nil _ hsome
      have hpf : p ∈ pool.searchForParents entry.tx := by
        rw [← hfound]
        exact mem_insertAll.mpr (.inr hp)
      have hle := htests.count (.inl ⟨rfl, p, hpf⟩)
      have hsub : (pool.searchForParents entry.tx).size ≤ A.size :=
        size_le_of_subset (mem_of_collect hA).2
      omega

/-- What the limits are documented to bound: the transaction with its in-pool
    ancestors `A`, and each ancestor with its descendants. -/
structure WithinLimits (env : MempoolEnv) (pool : CTxMemPool) (entry : CTxMemPoolEntry)
    (limits : AncestorLimits) (A : SetEntries) : Prop where
  count : A.size + 1 ≤ limits.limitAncestorCount
  size : env.getTxSize entry + ∑ a ∈ A.toFinset, env.sizeAt pool a ≤ limits.limitAncestorSize
  descendants : ∀ a ∈ A, DescendantsWithin pool (env.getTxSize entry) limits a

/-- The function succeeds exactly within the limits, and then with the ancestors. -/
def AncestorContract (env : MempoolEnv) (pool : CTxMemPool) (entry : CTxMemPoolEntry)
    (limits : AncestorLimits) (fSearchForParents : Bool) : Prop :=
  ∃ A : SetEntries, (∀ a, a ∈ A ↔ pool.IsAncestor a entry.tx) ∧
    ∃ r, env.calculateMemPoolAncestors pool entry limits fSearchForParents = some r ∧
      (∀ s, r = .ok s → s = A) ∧ ((∃ s, r = .ok s) ↔ WithinLimits env pool entry limits A)

/-- Where no test compares the transaction alone, or the number of its parents,
    with a limit, the comparison would have found nothing. -/
structure NothingMissed (env : MempoolEnv) (pool : CTxMemPool) (entry : CTxMemPoolEntry)
    (limits : AncestorLimits) (fSearchForParents : Bool) : Prop where
  alone : (∀ p, p ∉ pool.searchForParents entry.tx) →
    1 ≤ limits.limitAncestorCount ∧ env.getTxSize entry ≤ limits.limitAncestorSize
  parents : fSearchForParents = false →
    (∀ p ∈ pool.searchForParents entry.tx, ¬ HasParent pool p) →
    env.getTxSize entry + ∑ p ∈ (pool.searchForParents entry.tx).toFinset, env.sizeAt pool p ≤
      limits.limitAncestorSize →
    (∀ p ∈ pool.searchForParents entry.tx, DescendantsWithin pool (env.getTxSize entry) limits p) →
    (pool.searchForParents entry.tx).size + 1 ≤ limits.limitAncestorCount

section Ancestors

variable {A : SetEntries}

theorem parents_subset (hA : ∀ a, a ∈ A ↔ pool.IsAncestor a entry.tx) :
    ∀ p ∈ pool.searchForParents entry.tx, p ∈ A := by
  intro p hp
  obtain ⟨hmem, hspent⟩ := mem_searchForParents.mp hp
  exact (hA p).mpr ⟨p, .refl, hmem, hspent⟩

theorem ancestors_eq_parents (h : Consistent env pool)
    (hA : ∀ a, a ∈ A ↔ pool.IsAncestor a entry.tx)
    (hnone : ∀ p ∈ pool.searchForParents entry.tx, ¬ HasParent pool p) :
    A = pool.searchForParents entry.tx := by
  refine ext_mem fun a => ⟨fun ha => ?_, parents_subset hA a⟩
  obtain ⟨p, hreach, hmem, hspent⟩ := (hA a).mp ha
  have hp : p ∈ pool.searchForParents entry.tx := mem_searchForParents.mpr ⟨hmem, hspent⟩
  rcases ReflTransGen.cases_tail hreach with rfl | ⟨q, -, hq⟩
  · exact hp
  · exact absurd ⟨q, h.parent_iff.mpr hq⟩ (hnone p hp)

end Ancestors

/-- In a consistent pool the function meets its contract exactly if the
    comparisons it leaves out would have found nothing.  An entry's weight is a
    `size_t`; without a search for parents the entry has to be one of the pool. -/
theorem calculateMemPoolAncestors_iff (env : MempoolEnv) (pool : CTxMemPool)
    (entry : CTxMemPoolEntry) (limits : AncestorLimits) (fSearchForParents : Bool)
    (hpool : Consistent env pool)
    (hweight : ∀ h e, pool.mapTx.lookup h = some e → 0 ≤ e.nTxWeight)
    (hentry : fSearchForParents = false → pool.mapTx.lookup entry.tx.hash = some entry) :
    AncestorContract env pool entry limits fSearchForParents ↔
      NothingMissed env pool entry limits fSearchForParents := by
  obtain ⟨A, hA, r, hr, hrA, htests⟩ :=
    calculateMemPoolAncestors_tests hpool (sizeAt_nonneg hweight) limits hentry
  have hsub : ∀ p ∈ pool.searchForParents entry.tx, p ∈ A := parents_subset hA
  constructor
  · rintro ⟨A', hA', r', hr', -, hiff⟩
    -- with no parents no comparison is made, and with parents that have none the
    -- count is compared only under a search: both are read off the contract
    obtain rfl : A' = A := ext_mem fun a => (hA' a).trans (hA a).symm
    obtain rfl : r' = r := Option.some.inj (hr'.symm.trans hr)
    have hwithin := fun tests => hiff.mp (htests.mpr tests)
    refine ⟨fun hnone => ?_, fun hsearch hroots hsize hdesc => ?_⟩
    · have hAp : A' = pool.searchForParents entry.tx :=
        ancestors_eq_parents hpool hA fun p hp => absurd hp (hnone p)
      have hnoA : ∀ a, a ∉ A' := fun a ha => hnone a (hAp ▸ ha)
      have hlimits := hwithin
        ⟨fun a ha => absurd ha (hnoA a), fun hor => ?_, fun hor => ?_⟩
      · have hempty : A'.toFinset = ∅ := eq_empty_of_forall_notMem hnoA
        have hsize := hlimits.size
        rw [hempty, sum_empty, add_zero] at hsize
        exact ⟨le_trans (Nat.le_add_left 1 _) hlimits.count, hsize⟩
      · obtain ⟨a, ha⟩ := hor.resolve_left id
        exact absurd ha (hnone a)
      · rcases hor with ⟨-, p, hp⟩ | ⟨a, ha, -⟩
        · exact absurd hp (hnone p)
        · exact absurd ha (hnoA a)
    · have hAp : A' = pool.searchForParents entry.tx := ancestors_eq_parents hpool hA hroots
      have hlimits := hwithin
        ⟨fun a ha _ => hdesc a (hAp ▸ ha), fun _ => hAp ▸ hsize, fun hor => ?_⟩
      · exact hAp ▸ hlimits.count
      · rcases hor with ⟨htrue, -⟩ | ⟨a, ha, -, hpar⟩
        · rw [hsearch] at htrue
          nomatch htrue
        · exact absurd hpar (hroots a (hAp ▸ ha))
  · intro hmissed
    refine ⟨A, hA, r, hr, hrA, htests.trans ⟨fun tests => ?_, fun hlimits => ?_⟩⟩
    · by_cases hnone : ∀ p, p ∉ pool.searchForParents entry.tx
      · have hAp : A = pool.searchForParents entry.tx :=
          ancestors_eq_parents hpool hA fun p hp => absurd hp (hnone p)
        have hnoA : ∀ a, a ∉ A := fun a ha => hnone a (hAp ▸ ha)
        have hempty : A.toFinset = ∅ := eq_empty_of_forall_notMem hnoA
        have hcard : A.size = 0 := by rw [← card_toFinset, hempty, card_empty]
        obtain ⟨hcount, hsize⟩ := hmissed.alone hnone
        refine ⟨by omega, ?_, fun a ha => absurd ha (hnoA a)⟩
        rw [hempty, sum_empty, add_zero]
        exact hsize
      -- a parent makes the loop compare the sizes, and a parent of a parent the count
      · obtain ⟨p, hp⟩ := not_forall_not.mp hnone
        have hsize := tests.size (.inr ⟨p, hp⟩)
        have hdesc : ∀ a ∈ A, DescendantsWithin pool (env.getTxSize entry) limits a :=
          fun a ha => tests.descendants a ha (not_mem_empty a)
        refine ⟨?_, hsize, hdesc⟩
        by_cases hroots : ∀ p ∈ pool.searchForParents entry.tx, ¬ HasParent pool p
        · have hAp : A = pool.searchForParents entry.tx := ancestors_eq_parents hpool hA hroots
          cases hsearch : fSearchForParents with
          | true => exact tests.count (.inl ⟨hsearch, p, hp⟩)
          | false =>
            rw [hAp]
            exact hmissed.parents hsearch hroots (hAp ▸ hsize) (hAp ▸ hdesc)
        · push Not at hroots
          obtain ⟨q, hq, hpar⟩ := hroots
          exact tests.count (.inr ⟨q, hsub q hq, not_mem_empty q, hpar⟩)
    · exact ⟨fun a ha _ => hlimits.descendants a ha, fun _ => hlimits.size, fun _ => hlimits.count⟩

end

namespace SamplePool

/-- The default limits. -/
def limits : AncestorLimits := ⟨25, 101000, 25, 101000⟩

/-- `-limitancestorsize=1`, for a transaction of 2000 virtual bytes without
    parents in the pool. -/
def lowLimits : AncestorLimits := { limits with limitAncestorSize := 1000 }

def large : CTxMemPoolEntry :=
  CTxMemPoolEntry.new { env with getTransactionWeight := fun _ => 8000 } parent 10 0 4

/-- An entry without parents is larger than the limit on ancestors, and no limit is tested. -/
theorem calculateMemPoolAncestors_alone :
    Consistent env (empty ∅) ∧ env.getTxSize large = 2000 ∧
      ¬ AncestorContract env (empty ∅) large lowLimits true := by
  have hgood : Good env (empty ∅) := good_empty ∅
  refine ⟨hgood.stored.consistent hgood.links, by decide, ?_⟩
  rintro ⟨A, hA, r, hr, -, hiff⟩
  obtain rfl : r = .ok ∅ := Option.some.inj (hr.symm.trans rfl)
  have hempty : A.toFinset = ∅ := eq_empty_of_forall_notMem fun a ha => by
    obtain ⟨p, -, hp, -⟩ := (hA a).mp ha
    exact absurd (AList.mem_keys.mpr hp) List.not_mem_nil
  have hsize := (hiff.mp ⟨∅, rfl⟩).size
  rw [hempty, sum_empty] at hsize
  exact absurd hsize (by decide)

theorem consistent_after_two : Consistent env (after 2) := by
  have hlegal : env.LegalRun (empty ∅) (ops.take 2) :=
    legalRun_cons (after 1) rfl legal_parent <|
      legalRun_cons (after 2) rfl legal_child trivial
  have hgood : Good env (after 2) := run_good (good_empty ∅) hlegal rfl
  exact hgood.stored.consistent hgood.links

/-- The child, which is in the pool with its parent. -/
def childEntry : CTxMemPoolEntry := ((after 2).mapTx.lookup 2).getD large

theorem calculateMemPoolAncestors_iff_child :
    AncestorContract env (after 2) childEntry limits false ↔
      NothingMissed env (after 2) childEntry limits false := by
  refine calculateMemPoolAncestors_iff env (after 2) childEntry limits false consistent_after_two
    (fun h e he => ?_) fun _ => by decide
  have hmem : h ∈ (after 2).mapTx.keys := AList.mem_keys.mpr (mem_mapTx_iff.mpr ⟨e, he⟩)
  have hkeys : h = 2 ∨ h = 1 := by
    rw [show (after 2).mapTx.keys = [2, 1] by decide] at hmem
    simpa using hmem
  rcases hkeys with rfl | rfl
  · cases he
    decide
  · cases he
    decide

end SamplePool

end Rcoin
