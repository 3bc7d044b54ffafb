/-
  Which blocks are linked: a block whose data has come is linked when all blocks
  below it are, and otherwise waits in `mapBlocksUnlinked` for its parent.  While
  the queue is worked off, the blocks in it are the only exceptions.

  Source: CChainState::ReceivedBlockTransactions in src/validation.cpp.
-/
import Rcoin.Chain.Receive

namespace Rcoin

open List Maps

namespace BlockMap

variable {m m' m'' : BlockMap} {k p x : Uint256} {e e' : CBlockIndexEntry}
  {unlinked : List (Uint256 × Uint256)} {queue : List Uint256}

/-! ## Reading fields -/

def nTx (m : BlockMap) (k : Uint256) : Nat := m.read (·.nTx) k

def nChainTx (m : BlockMap) (k : Uint256) : Nat := m.read (·.nChainTx) k

theorem read_of_lookup (he : m.lookup k = some e) (f : CBlockIndexEntry → Nat) :
    m.read f k = f e := by
  rw [read, he, Option.elim_some]

theorem read_insert (f : CBlockIndexEntry → Nat) (x : Uint256) :
    read (AList.insert k e m) f x = if x = k then f e else m.read f x := by
  rw [read, lookup_insert]
  split
  · rfl
  · rfl

theorem exists_lookup_of_read {f : CBlockIndexEntry → Nat} (h : m.read f k ≠ 0) :
    ∃ e, m.lookup k = some e ∧ f e ≠ 0 := by
  cases he : m.lookup k with
  | none =>
    rw [read, he] at h
    exact absurd rfl h
  | some e =>
    rw [read_of_lookup he] at h
    exact ⟨e, rfl, h⟩

theorem pprev_insert_of_eq (he : m.lookup k = some e) (h : e'.pprev = e.pprev) (x : Uint256) :
    pprev (AList.insert k e' m) x = m.pprev x := by
  rw [pprev, pprev, lookup_insert]
  split
  next heq => rw [heq, he, Option.bind_some, Option.bind_some, h]
  next => rfl

theorem readPrev_eq (he : m.lookup k = some e) (f : CBlockIndexEntry → Nat) :
    m.readPrev f e = (m.pprev k).elim 0 (m.read f) := by
  rw [readPrev, pprev_of_lookup he]

theorem readPrev_insert (f : CBlockIndexEntry → Nat) (h : e'.pprev ≠ some k) :
    readPrev (AList.insert k e m) f e' = m.readPrev f e' := by
  rw [readPrev, readPrev]
  cases hp : e'.pprev with
  | none => rfl
  | some p =>
    have hne : p ≠ k := fun heq => h (heq ▸ hp)
    rw [Option.elim_some, Option.elim_some, read_insert, if_neg hne]

theorem TreeOk.pprev_ne (h : m.TreeOk) (hp : m.pprev k = some p) : p ≠ k := by
  intro heq
  have hh := h.forest.height_parent (k := k) (p := p) hp
  rw [heq] at hh
  omega

/-! ## The transactions of a chain -/

/-- The transactions of a block and of the `n` blocks before it. -/
def txsUpTo (m : BlockMap) : Nat → Uint256 → Nat
  | 0, k => m.nTx k
  | n + 1, k => (m.pprev k).elim 0 (txsUpTo m n) + m.nTx k

/-- The transactions of a block and of all blocks before it whose data has come. -/
def chainTxs (m : BlockMap) (k : Uint256) : Nat := m.txsUpTo (m.nHeight k) k

/-- No chain has more transactions than an `unsigned int` can count. -/
def CountsFit (m : BlockMap) : Prop := ∀ k, m.chainTxs k < 2 ^ 32

theorem TreeOk.chainTxs_eq (h : m.TreeOk) (k : Uint256) :
    m.chainTxs k = (m.pprev k).elim 0 m.chainTxs + m.nTx k := by
  unfold chainTxs
  cases hp : m.pprev k with
  | none =>
    have hzero : m.nHeight k = 0 := h.forest.height_root (k := k) hp
    rw [hzero, Option.elim_none, txsUpTo, Nat.zero_add]
  | some p =>
    have hsucc : m.nHeight k = m.nHeight p + 1 := h.forest.height_parent (k := k) (p := p) hp
    rw [hsucc, Option.elim_some, txsUpTo, hp, Option.elim_some]

/-! ## Linked and waiting blocks -/

/-- The data of all blocks below `k` has come. -/
def LinkedBelow (m : BlockMap) (k : Uint256) : Prop :=
  ∀ p, m.pprev k = some p → m.nChainTx p ≠ 0

/-- The blocks whose data has come are linked, in the queue or waiting for their
    parents. -/
structure Linking (m : BlockMap) (unlinked : List (Uint256 × Uint256)) (queue : List Uint256) :
    Prop where
  linked : ∀ k, m.nChainTx k ≠ 0 → m.nTx k ≠ 0 ∧ m.LinkedBelow k ∧
    m.nChainTx k = (m.pprev k).elim 0 m.nChainTx + m.nTx k
  queued : ∀ k ∈ queue, m.nTx k ≠ 0 ∧ m.nChainTx k = 0 ∧ m.LinkedBelow k
  waiting : ∀ p k, (p, k) ∈ unlinked → m.pprev k = some p ∧ m.nTx k ≠ 0 ∧ m.nChainTx p = 0
  covered : ∀ k, m.nTx k ≠ 0 → m.nChainTx k = 0 → k ∈ queue ∨ ∃ p, (p, k) ∈ unlinked
  queueNodup : queue.Nodup
  unlinkedNodup : unlinked.Nodup

namespace Linking

theorem nChainTx_eq (hlink : Linking m unlinked queue) (h : m.TreeOk) (hk : m.nChainTx k ≠ 0) :
    m.nChainTx k = m.chainTxs k := by
  induction hn : m.nHeight k using Nat.strong_induction_on generalizing k with
  | _ n ih =>
    obtain ⟨-, hbelow, hsum⟩ := hlink.linked k hk
    rw [hsum, h.chainTxs_eq]
    cases hp : m.pprev k with
    | none => rfl
    | some p =>
      have hsucc : m.nHeight k = m.nHeight p + 1 := h.forest.height_parent (k := k) (p := p) hp
      rw [Option.elim_some, Option.elim_some, ih (m.nHeight p) (by omega) (hbelow p hp) rfl]

theorem count_lt (hlink : Linking m unlinked queue) (h : m.TreeOk) (hfit : m.CountsFit)
    (hbelow : m.LinkedBelow k) : (m.pprev k).elim 0 m.nChainTx + m.nTx k < 2 ^ 32 := by
  have hk := hfit k
  rw [h.chainTxs_eq] at hk
  cases hp : m.pprev k with
  | none =>
    rw [hp] at hk
    exact hk
  | some p =>
    rw [hp, Option.elim_some] at hk
    rw [Option.elim_some, hlink.nChainTx_eq h (hbelow p hp)]
    exact hk

theorem link (hlink : Linking m unlinked (k :: queue)) (h : m.TreeOk)
    (he : m.lookup k = some e) (hpprev : e'.pprev = e.pprev) (hnTx : e'.nTx = e.nTx)
    (hcount : e'.nChainTx = (m.pprev k).elim 0 m.nChainTx + m.nTx k) :
    Linking (AList.insert k e' m) (unlinked.filter (·.1 ≠ k))
      (queue ++ (unlinked.filter (·.1 = k)).map Prod.snd) := by
  obtain ⟨hkTx, hkZero, hkBelow⟩ := hlink.queued k mem_cons_self
  obtain ⟨hkNot, hqueueNodup⟩ := nodup_cons.mp hlink.queueNodup
  have hne : e'.nChainTx ≠ 0 := by omega
  have hp : ∀ x, pprev (AList.insert k e' m) x = m.pprev x := pprev_insert_of_eq he hpprev
  have htx : ∀ x, nTx (AList.insert k e' m) x = m.nTx x := by
    intro x
    unfold nTx
    rw [read_insert]
    split
    next heq => rw [heq, hnTx, read_of_lookup he]
    next => rfl
  have hchain : ∀ x, nChainTx (AList.insert k e' m) x = if x = k then e'.nChainTx else m.nChainTx x :=
    fun x => read_insert _ x
  have hstays : ∀ x, m.nChainTx x ≠ 0 → nChainTx (AList.insert k e' m) x = m.nChainTx x := by
    intro x hx
    rw [hchain, if_neg]
    rintro rfl
    exact hx hkZero
  have hbelow : ∀ x, m.LinkedBelow x → LinkedBelow (AList.insert k e' m) x := by
    intro x hx p hpx
    rw [hp] at hpx
    rw [hstays p (hx p hpx)]
    exact hx p hpx
  -- the parent of a linked block is not the block that is linked now
  have hparent : ∀ x, m.LinkedBelow x →
      (pprev (AList.insert k e' m) x).elim 0 (nChainTx (AList.insert k e' m)) =
        (m.pprev x).elim 0 m.nChainTx := by
    intro x hx
    rw [hp]
    cases hpx : m.pprev x with
    | none => rfl
    | some p => exact hstays p (hx p hpx)
  have hwaits : ∀ x, (k, x) ∈ unlinked → m.nChainTx x = 0 ∧ x ≠ k := by
    intro x hx
    obtain ⟨hpx, -, -⟩ := hlink.waiting k x hx
    refine ⟨?_, fun heq => h.pprev_ne hpx heq.symm⟩
    by_contra hx0
    exact (hlink.linked x hx0).2.1 k hpx hkZero
  have hmem : ∀ x, x ∈ (unlinked.filter (·.1 = k)).map Prod.snd ↔ (k, x) ∈ unlinked := by
    intro x
    rw [mem_map]
    constructor
    · rintro ⟨⟨p, y⟩, hy, rfl⟩
      obtain ⟨hy, hpk⟩ := mem_filter.mp hy
      rwa [← of_decide_eq_true hpk]
    · intro hx
      exact ⟨(k, x), mem_filter.mpr ⟨hx, decide_eq_true rfl⟩, rfl⟩
  refine ⟨fun x hx => ?_, fun x hx => ?_, fun p x hx => ?_, fun x hxTx hx => ?_, ?_, ?_⟩
  · rw [htx]
    by_cases hxk : x = k
    · subst hxk
      refine ⟨hkTx, hbelow x hkBelow, ?_⟩
      rw [hparent x hkBelow, hchain, if_pos rfl, hcount]
    · rw [hchain, if_neg hxk] at hx
      obtain ⟨hnz, hxBelow, hsum⟩ := hlink.linked x hx
      refine ⟨hnz, hbelow x hxBelow, ?_⟩
      rw [hparent x hxBelow, hchain, if_neg hxk, hsum]
  · rw [htx]
    rcases mem_append.mp hx with hx | hx
    · obtain ⟨hnz, hx0, hxBelow⟩ := hlink.queued x (mem_cons_of_mem _ hx)
      have hxk : x ≠ k := fun heq => hkNot (heq ▸ hx)
      exact ⟨hnz, by rw [hchain, if_neg hxk, hx0], hbelow x hxBelow⟩
    · have hx' := (hmem x).mp hx
      obtain ⟨hpx, hnz, -⟩ := hlink.waiting k x hx'
      obtain ⟨hx0, hxk⟩ := hwaits x hx'
      refine ⟨hnz, by rw [hchain, if_neg hxk, hx0], fun p hp' => ?_⟩
      rw [hp, hpx] at hp'
      rw [← Option.some.inj hp', hchain, if_pos rfl]
      exact hne
  · obtain ⟨hx, hpk⟩ := mem_filter.mp hx
    obtain ⟨hpx, hnz, hp0⟩ := hlink.waiting p x hx
    refine ⟨(hp x).trans hpx, (htx x).trans_ne hnz, ?_⟩
    rw [hchain, if_neg (of_decide_eq_true hpk), hp0]
  · rw [htx] at hxTx
    have hxk : x ≠ k := by
      rintro rfl
      rw [hchain, if_pos rfl] at hx
      exact hne hx
    rw [hchain, if_neg hxk] at hx
    rcases hlink.covered x hxTx hx with hq | ⟨p, hpx⟩
    · exact .inl (mem_append_left _ (mem_of_ne_of_mem hxk hq))
    · by_cases hpk : p = k
      · subst hpk
        exact .inl (mem_append_right _ ((hmem x).mpr hpx))
      · exact .inr ⟨p, mem_filter.mpr ⟨hpx, decide_eq_true hpk⟩⟩
  · have hsnd : ((unlinked.filter (·.1 = k)).map Prod.snd).Nodup := by
      refine Nodup.map_on ?_ (hlink.unlinkedNodup.filter _)
      rintro ⟨p, x⟩ hx ⟨q, y⟩ hy hxy
      have hpk : p = k := of_decide_eq_true (mem_filter.mp hx).2
      have hqk : q = k := of_decide_eq_true (mem_filter.mp hy).2
      rw [hpk, hqk, show x = y from hxy]
    refine List.Nodup.append hqueueNodup hsnd fun x hx hx' => ?_
    have hpx := (hlink.waiting k x ((hmem x).mp hx')).1
    exact (hlink.queued x (mem_cons_of_mem _ hx)).2.2 k hpx hkZero
  · exact hlink.unlinkedNodup.filter _

end Linking

/-! ## What linking changes -/

/-- Two states of the index of which the later one has more linked blocks. -/
def Extends (m m' : BlockMap) : Prop :=
  ∀ k, m'.lookup k = m.lookup k ∨ ∃ e e', m.lookup k = some e ∧ m'.lookup k = some e' ∧
    e.nChainTx = 0 ∧ e'.nChainTx ≠ 0 ∧
    e' = { e with nChainTx := e'.nChainTx, nSequenceId := e'.nSequenceId }

namespace Extends

theorem refl (m : BlockMap) : Extends m m := fun _ => Or.inl rfl

theorem trans (h : Extends m m') (h' : Extends m' m'') : Extends m m'' := by
  intro k
  rcases h' k with heq | ⟨e', e'', he', he'', hzero, hne, hfields⟩
  · rw [heq]
    exact h k
  · rcases h k with heq | ⟨e, e1, -, he1, -, hne1, -⟩
    · exact .inr ⟨e', e'', heq.symm.trans he', he'', hzero, hne, hfields⟩
    · -- a linked block is not linked again
      rw [he1] at he'
      exact absurd (Option.some.inj he' ▸ hzero) hne1

theorem insert (he : m.lookup k = some e) (hzero : e.nChainTx = 0) (hne : e'.nChainTx ≠ 0)
    (hfields : e' = { e with nChainTx := e'.nChainTx, nSequenceId := e'.nSequenceId }) :
    Extends m (AList.insert k e' m) := by
  intro x
  rw [lookup_insert]
  split
  next heq => exact .inr ⟨e, e', heq ▸ he, rfl, hzero, hne, hfields⟩
  next => exact .inl rfl

variable (h : Extends m m')

include h

theorem lookup_of_linked (hk : m.nChainTx k ≠ 0) : m'.lookup k = m.lookup k := by
  rcases h k with heq | ⟨e, -, he, -, hzero, -⟩
  · exact heq
  · exact absurd ((read_of_lookup he _).trans hzero) hk

theorem map_lookup_eq {β : Type*} (f : CBlockIndexEntry → β)
    (hf : ∀ e n i, f { e with nChainTx := n, nSequenceId := i } = f e) (k : Uint256) :
    (m'.lookup k).map f = (m.lookup k).map f := by
  rcases h k with heq | ⟨e, e', he, he', -, -, hfields⟩
  · rw [heq]
  · rw [he, he', Option.map_some, Option.map_some, hfields, hf]

theorem sameTree : m.SameTree m' :=
  fun k => (h.map_lookup_eq (fun e => (e.toCBlockIndex, e.pskip)) (fun _ _ _ => rfl) k).symm

theorem nTx_eq (k : Uint256) : m'.nTx k = m.nTx k := by
  have hmap := h.map_lookup_eq (·.nTx) (fun _ _ _ => rfl) k
  have helim := congrArg (Option.elim · 0 id) hmap
  rwa [Option.elim_map, Option.elim_map] at helim

theorem chainTxs_eq (k : Uint256) : m'.chainTxs k = m.chainTxs k := by
  have hup : ∀ n k, m'.txsUpTo n k = m.txsUpTo n k := by
    intro n
    induction n with
    | zero => exact h.nTx_eq
    | succ n ih =>
      intro k
      have hfun : m'.txsUpTo n = m.txsUpTo n := funext ih
      rw [txsUpTo, txsUpTo, h.nTx_eq, h.sameTree.pprev_eq, hfun]
  rw [chainTxs, chainTxs, hup, ← h.sameTree.nHeight_eq]

theorem countsFit (hfit : m.CountsFit) : m'.CountsFit :=
  fun k => (h.chainTxs_eq k).trans_lt (hfit k)

omit h

end Extends

end BlockMap

namespace CBlockIndexEntry

theorem raiseValidity_congr {β : Type*} (f : CBlockIndexEntry → β)
    (hf : ∀ e st, f { e with nStatus := st } = f e) (n : Nat) (e : CBlockIndexEntry) :
    f (e.raiseValidity n) = f e := by
  rw [raiseValidity]
  split
  · rfl
  · split
    · exact hf e _
    · rfl

end CBlockIndexEntry

namespace ChainState

open BlockMap

variable {s : ChainState} {k : Uint256} {e : CBlockIndexEntry} {queue : List Uint256}

/-- The tip, if there is one, is linked. -/
def TipLinked (s : ChainState) : Prop := ∀ t, s.tip = some t → s.mapBlockIndex.nChainTx t ≠ 0

theorem isWorseThanTip_congr (htip : s.TipLinked) (s' : ChainState)
    (hchain : s'.chainActive = s.chainActive)
    (hm : ∀ x, s.mapBlockIndex.nChainTx x ≠ 0 →
      s'.mapBlockIndex.lookup x = s.mapBlockIndex.lookup x)
    (e : CBlockIndexEntry) : s'.isWorseThanTip e = s.isWorseThanTip e := by
  have htip' : s'.tip = s.tip := congrArg List.getLast? hchain
  rw [isWorseThanTip, isWorseThanTip, htip']
  cases ht : s.tip with
  | none => rfl
  | some t => rw [Option.bind_some, Option.bind_some, hm t (htip t ht)]

theorem linkBlock_spec (htree : s.mapBlockIndex.TreeOk) (hfit : s.mapBlockIndex.CountsFit)
    (htip : s.TipLinked)
    (hlink : Linking s.mapBlockIndex s.mapBlocksUnlinked (k :: queue)) :
    ∃ e e', s.mapBlockIndex.lookup k = some e ∧ e.nChainTx = 0 ∧ e'.nChainTx ≠ 0 ∧
      e' = { e with nChainTx := e'.nChainTx, nSequenceId := e'.nSequenceId } ∧
      e'.nChainTx = (s.mapBlockIndex.pprev k).elim 0 s.mapBlockIndex.nChainTx +
        s.mapBlockIndex.nTx k ∧
      s.linkBlock k = some { s with
        mapBlockIndex := s.mapBlockIndex.insert k e'
        nBlockSequenceId := s.nBlockSequenceId + 1
        setBlockIndexCandidates := if s.isWorseThanTip e' then s.setBlockIndexCandidates
          else s.setBlockIndexCandidates.insert k } := by
  obtain ⟨hnTx, hzero, hbelow⟩ := hlink.queued k mem_cons_self
  obtain ⟨e, he, -⟩ := exists_lookup_of_read hnTx
  have hcount : (s.linkedEntry e).nChainTx =
      (s.mapBlockIndex.pprev k).elim 0 s.mapBlockIndex.nChainTx + s.mapBlockIndex.nTx k := by
    show (s.mapBlockIndex.readPrev (·.nChainTx) e + e.nTx) % 2 ^ 32 = _
    have hown : e.nTx = s.mapBlockIndex.nTx k := (read_of_lookup he _).symm
    rw [readPrev_eq he, hown]
    exact Nat.mod_eq_of_lt (hlink.count_lt htree hfit hbelow)
  have hzero' : e.nChainTx = 0 := (read_of_lookup he _).symm.trans hzero
  refine ⟨e, s.linkedEntry e, he, hzero', by omega, rfl, hcount, ?_⟩
  let s1 : ChainState :=
    { s with
      mapBlockIndex := s.mapBlockIndex.insert k (s.linkedEntry e)
      nBlockSequenceId := s.nBlockSequenceId + 1 }
  have hworse : s1.isWorseThanTip (s.linkedEntry e) = s.isWorseThanTip (s.linkedEntry e) := by
    refine isWorseThanTip_congr htip s1 rfl (fun x hx => ?_) _
    have hxk : x ≠ k := fun heq => hx (heq ▸ hzero)
    rw [lookup_insert, if_neg hxk]
  have hworse' : isWorseThanTip { s with
      mapBlockIndex := s.mapBlockIndex.insert k (s.linkedEntry e)
      nBlockSequenceId := s.nBlockSequenceId + 1 } (s.linkedEntry e) =
      s.isWorseThanTip (s.linkedEntry e) := hworse
  simp only [linkBlock, he, Option.bind_eq_bind, Option.bind_some, hworse']
  split
  · rfl
  · rfl

/-- The loop over the queue links what it can: afterwards only blocks with a parent
    that is not linked wait.  The candidates gain the blocks that are linked, unless
    they are worse than the tip. -/
theorem linkLoop_spec {fuel : Nat} (htree : s.mapBlockIndex.TreeOk)
    (hfit : s.mapBlockIndex.CountsFit) (htip : s.TipLinked)
    (hlink : Linking s.mapBlockIndex s.mapBlocksUnlinked queue)
    (hfuel : queue.length + s.mapBlocksUnlinked.length ≤ fuel) :
    ∃ m' unlinked' candidates' n', linkLoop fuel queue s = some { s with
        mapBlockIndex := m'
        mapBlocksUnlinked := unlinked'
        setBlockIndexCandidates := candidates'
        nBlockSequenceId := n' } ∧
      s.mapBlockIndex.Extends m' ∧ Linking m' unlinked' [] ∧
      ∀ x, x ∈ candidates' ↔ x ∈ s.setBlockIndexCandidates ∨
        (s.mapBlockIndex.nChainTx x = 0 ∧ ∃ e, m'.lookup x = some e ∧ e.nChainTx ≠ 0 ∧
          s.isWorseThanTip e = false) := by
  -- each round takes a block off the queue for good: what it puts on it leaves
  -- mapBlocksUnlinked, so the two lengths together go down
  induction fuel generalizing s queue with
  | zero =>
    have hnil : queue = [] := List.eq_nil_of_length_eq_zero (by omega)
    subst hnil
    refine ⟨_, _, _, _, rfl, Extends.refl _, hlink, fun x => ?_⟩
    refine ⟨.inl, fun hx => hx.elim id ?_⟩
    rintro ⟨hx0, e, he, hne, -⟩
    exact absurd ((read_of_lookup he _).symm.trans hx0) hne
  | succ fuel ih =>
    cases queue with
    | nil =>
      refine ⟨_, _, _, _, rfl, Extends.refl _, hlink, fun x => ?_⟩
      refine ⟨.inl, fun hx => hx.elim id ?_⟩
      rintro ⟨hx0, e, he, hne, -⟩
      exact absurd ((read_of_lookup he _).symm.trans hx0) hne
    | cons k queue =>
      obtain ⟨e, e', he, hzero, hne, hfields, hcount, hround⟩ :=
        linkBlock_spec htree hfit htip hlink
      have hpprev : e'.pprev = e.pprev := by rw [hfields]
      have hnTx : e'.nTx = e.nTx := by rw [hfields]
      have hlink' := hlink.link htree he hpprev hnTx hcount
      have hext : s.mapBlockIndex.Extends (AList.insert k e' s.mapBlockIndex) :=
        Extends.insert he hzero hne hfields
      let s1 : ChainState :=
        { s with
          mapBlockIndex := s.mapBlockIndex.insert k e'
          nBlockSequenceId := s.nBlockSequenceId + 1
          setBlockIndexCandidates := if s.isWorseThanTip e' then s.setBlockIndexCandidates
            else s.setBlockIndexCandidates.insert k
          mapBlocksUnlinked := s.mapBlocksUnlinked.filter (·.1 ≠ k) }
      -- the round writes only the entry of k, which had no transaction count yet
      have hstays : ∀ x, s.mapBlockIndex.nChainTx x ≠ 0 →
          s1.mapBlockIndex.lookup x = s.mapBlockIndex.lookup x :=
        fun x hx => hext.lookup_of_linked hx
      have htree1 : s1.mapBlockIndex.TreeOk := hext.sameTree.treeOk htree
      have hfit1 : s1.mapBlockIndex.CountsFit := hext.countsFit hfit
      have htip1 : s1.TipLinked := by
        intro t ht
        have htl := htip t ht
        unfold nChainTx BlockMap.read at htl ⊢
        rw [hstays t (htip t ht)]
        exact htl
      have hlen : (queue ++ s.waitingFor k).length + s1.mapBlocksUnlinked.length ≤ fuel := by
        have hsplit : s.mapBlocksUnlinked.length =
            (s.mapBlocksUnlinked.filter (·.1 = k)).length + s1.mapBlocksUnlinked.length := by
          rw [List.length_eq_length_filter_add (·.1 = k)]
          show _ = _ + (s.mapBlocksUnlinked.filter (·.1 ≠ k)).length
          simp only [decide_not]
        rw [List.length_append, waitingFor, List.length_map]
        rw [List.length_cons] at hfuel
        omega
      obtain ⟨m', unlinked', candidates', n', hrest, hext', hlink'', hcand⟩ :=
        ih htree1 hfit1 htip1 hlink' hlen
      refine ⟨m', unlinked', candidates', n', ?_, hext.trans hext', hlink'', fun x => ?_⟩
      · rw [linkLoop, hround]
        exact hrest
      · rw [hcand]
        have hworse : ∀ e, s1.isWorseThanTip e = s.isWorseThanTip e :=
          isWorseThanTip_congr htip s1 rfl hstays
        have hread : s1.mapBlockIndex.nChainTx x =
            if x = k then e'.nChainTx else s.mapBlockIndex.nChainTx x := read_insert _ x
        have hcand1 : x ∈ s1.setBlockIndexCandidates ↔
            x ∈ s.setBlockIndexCandidates ∨ x = k ∧ s.isWorseThanTip e' = false := by
          show x ∈ (if s.isWorseThanTip e' then _ else _) ↔ _
          cases s.isWorseThanTip e' with
          | true => simp
          | false => simp [or_comm]
        simp only [hworse, hread, hcand1]
        by_cases hxk : x = k
        · subst hxk
          have hx' : m'.lookup x = some e' := by
            rw [hext'.lookup_of_linked ?_, lookup_insert, if_pos rfl]
            rw [hread, if_pos rfl]
            exact hne
          have hx0 : s.mapBlockIndex.nChainTx x = 0 := (read_of_lookup he _).trans hzero
          rw [if_pos rfl, or_assoc]
          refine or_congr_right ⟨fun hx => ?_, ?_⟩
          · rcases hx with ⟨-, hx⟩ | ⟨hx, -⟩
            · exact ⟨hx0, e', hx', hne, hx⟩
            · exact absurd hx hne
          · rintro ⟨-, e1, he1, -, hx⟩
            rw [hx'] at he1
            exact .inl ⟨rfl, Option.some.inj he1 ▸ hx⟩
        · simp only [hxk, if_false, false_and, or_false]

/-! ## ReceivedBlockTransactions -/

@[simp] theorem receivedEntry_toCBlockIndex (nTx : Nat) (e : CBlockIndexEntry) :
    (receivedEntry nTx e).toCBlockIndex = e.toCBlockIndex :=
  CBlockIndexEntry.raiseValidity_toCBlockIndex _ _

@[simp] theorem receivedEntry_pskip (nTx : Nat) (e : CBlockIndexEntry) :
    (receivedEntry nTx e).pskip = e.pskip := CBlockIndexEntry.raiseValidity_pskip _ _

@[simp] theorem receivedEntry_nTx (nTx : Nat) (e : CBlockIndexEntry) :
    (receivedEntry nTx e).nTx = nTx % 2 ^ 32 :=
  CBlockIndexEntry.raiseValidity_congr (·.nTx) (fun _ _ => rfl) _ _

@[simp] theorem receivedEntry_nChainTx (nTx : Nat) (e : CBlockIndexEntry) :
    (receivedEntry nTx e).nChainTx = 0 :=
  CBlockIndexEntry.raiseValidity_congr (·.nChainTx) (fun _ _ => rfl) _ _

theorem receivedEntry_sameTree (nTx : Nat) (he : s.mapBlockIndex.lookup k = some e) :
    s.mapBlockIndex.SameTree (s.mapBlockIndex.insert k (receivedEntry nTx e)) :=
  sameTree_insert he (receivedEntry_toCBlockIndex nTx e) (receivedEntry_pskip nTx e)

theorem Linking.receive {m : BlockMap} {unlinked : List (Uint256 × Uint256)}
    (hlink : Linking m unlinked []) (he : m.lookup k = some e) (hno : e.nTx = 0) {nTx : Nat}
    (hpos : nTx % 2 ^ 32 ≠ 0) :
    (m.LinkedBelow k → Linking (m.insert k (receivedEntry nTx e)) unlinked [k]) ∧
      ∀ p, m.pprev k = some p → m.nChainTx p = 0 →
        Linking (m.insert k (receivedEntry nTx e)) (unlinked ++ [(p, k)]) [] := by
  have hno' : m.nTx k = 0 := (read_of_lookup he _).trans hno
  have hzero : m.nChainTx k = 0 := by
    by_contra hne
    exact (hlink.linked k hne).1 hno'
  -- the entry keeps its parent and its count of zero, and only its own nTx changes
  have hp : ∀ x, pprev (m.insert k (receivedEntry nTx e)) x = m.pprev x :=
    pprev_insert_of_eq he (congrArg CBlockIndex.pprev (receivedEntry_toCBlockIndex nTx e))
  have hchain : nChainTx (m.insert k (receivedEntry nTx e)) = m.nChainTx := by
    funext x
    unfold nChainTx
    rw [read_insert]
    split
    next heq => rw [heq, receivedEntry_nChainTx]; exact hzero.symm
    next => rfl
  have htx : ∀ x, BlockMap.nTx (m.insert k (receivedEntry nTx e)) x =
      if x = k then nTx % 2 ^ 32 else m.nTx x := by
    intro x
    unfold BlockMap.nTx
    rw [read_insert, receivedEntry_nTx]
  have hgrows : ∀ x, m.nTx x ≠ 0 → BlockMap.nTx (m.insert k (receivedEntry nTx e)) x = m.nTx x := by
    intro x hx
    rw [htx, if_neg]
    rintro rfl
    exact hx hno'
  have hbelow : ∀ x, LinkedBelow (m.insert k (receivedEntry nTx e)) x ↔ m.LinkedBelow x := by
    intro x
    unfold LinkedBelow
    rw [hp, hchain]
  have hlinked : ∀ x, m.nChainTx x ≠ 0 → BlockMap.nTx (m.insert k (receivedEntry nTx e)) x ≠ 0 ∧
      LinkedBelow (m.insert k (receivedEntry nTx e)) x ∧
      m.nChainTx x = (m.pprev x).elim 0 m.nChainTx +
        BlockMap.nTx (m.insert k (receivedEntry nTx e)) x := by
    intro x hx
    obtain ⟨hnz, hxBelow, hsum⟩ := hlink.linked x hx
    rw [hgrows x hnz]
    exact ⟨hnz, (hbelow x).mpr hxBelow, hsum⟩
  have hkTx : BlockMap.nTx (m.insert k (receivedEntry nTx e)) k ≠ 0 := by
    rw [htx, if_pos rfl]
    exact hpos
  have hwaiting : ∀ p x, (p, x) ∈ unlinked →
      pprev (m.insert k (receivedEntry nTx e)) x = some p ∧
      BlockMap.nTx (m.insert k (receivedEntry nTx e)) x ≠ 0 ∧ m.nChainTx p = 0 := by
    intro p x hx
    obtain ⟨hpx, hnz, hp0⟩ := hlink.waiting p x hx
    exact ⟨(hp x).trans hpx, (hgrows x hnz).trans_ne hnz, hp0⟩
  have hcovered : ∀ x, x ≠ k → BlockMap.nTx (m.insert k (receivedEntry nTx e)) x ≠ 0 →
      m.nChainTx x = 0 → ∃ p, (p, x) ∈ unlinked := by
    intro x hxk hx hx0
    rw [htx, if_neg hxk] at hx
    exact (hlink.covered x hx hx0).resolve_left not_mem_nil
  refine ⟨fun hkBelow => ?_, fun p hpk hp0 => ?_⟩
  -- the parent is linked: the block is the queue
  · refine ⟨fun x hx => ?_, fun x hx => ?_, fun p x hx => ?_, fun x hx hx0 => ?_,
      nodup_singleton k, hlink.unlinkedNodup⟩
    · rw [hchain] at hx ⊢
      rw [hp]
      exact hlinked x hx
    · rw [mem_singleton.mp hx, hchain]
      exact ⟨hkTx, hzero, (hbelow k).mpr hkBelow⟩
    · rw [hchain]
      exact hwaiting p x hx
    · rw [hchain] at hx0
      by_cases hxk : x = k
      · exact .inl (mem_singleton.mpr hxk)
      · exact .inr (hcovered x hxk hx hx0)
  -- the parent is not: the block waits under it, and had no data to wait with before
  · refine ⟨fun x hx => ?_, fun x hx => (nomatch hx), fun q x hx => ?_, fun x hx hx0 => ?_,
      nodup_nil, ?_⟩
    · rw [hchain] at hx ⊢
      rw [hp]
      exact hlinked x hx
    · rw [hchain]
      rcases mem_append.mp hx with hx | hx
      · exact hwaiting q x hx
      · obtain ⟨rfl, rfl⟩ := Prod.mk.inj (mem_singleton.mp hx)
        exact ⟨(hp x).trans hpk, hkTx, hp0⟩
    · rw [hchain] at hx0
      by_cases hxk : x = k
      · exact .inr ⟨p, mem_append_right _ (mem_singleton.mpr (by rw [hxk]))⟩
      · obtain ⟨q, hq⟩ := hcovered x hxk hx hx0
        exact .inr ⟨q, mem_append_left _ hq⟩
    · refine List.Nodup.append hlink.unlinkedNodup (nodup_singleton _) fun x hx hx' => ?_
      rw [mem_singleton.mp hx'] at hx
      exact (hlink.waiting p k hx).2.1 hno'

theorem receivedBlockTransactions_spec (htree : s.mapBlockIndex.TreeOk) (htip : s.TipLinked)
    (hlink : Linking s.mapBlockIndex s.mapBlocksUnlinked [])
    (he : s.mapBlockIndex.lookup k = some e) (hno : e.nTx = 0) {nTx : Nat}
    (hpos : nTx % 2 ^ 32 ≠ 0)
    (hfit : CountsFit (s.mapBlockIndex.insert k (receivedEntry nTx e)))
    (hparent : ∀ p prev, e.pprev = some p → s.mapBlockIndex.lookup p = some prev →
      prev.nChainTx = 0 → prev.isValid BLOCK_VALID_TREE = true) :
    ∃ m' unlinked' candidates' n', s.receivedBlockTransactions nTx k = some { s with
        mapBlockIndex := m'
        mapBlocksUnlinked := unlinked'
        setBlockIndexCandidates := candidates'
        nBlockSequenceId := n' } ∧
      Extends (s.mapBlockIndex.insert k (receivedEntry nTx e)) m' ∧ Linking m' unlinked' [] ∧
      ∀ x, x ∈ candidates' ↔ x ∈ s.setBlockIndexCandidates ∨
        (s.mapBlockIndex.nChainTx x = 0 ∧ ∃ e, m'.lookup x = some e ∧ e.nChainTx ≠ 0 ∧
          s.isWorseThanTip e = false) := by
  let s1 : ChainState :=
    { s with mapBlockIndex := s.mapBlockIndex.insert k (receivedEntry nTx e) }
  obtain ⟨hqueue, hwait⟩ := Linking.receive hlink he hno hpos
  have hzero : s.mapBlockIndex.nChainTx k = 0 := by
    by_contra hne
    exact (hlink.linked k hne).1 ((read_of_lookup he _).trans hno)
  have hchain : ∀ x, s1.mapBlockIndex.nChainTx x = s.mapBlockIndex.nChainTx x := by
    intro x
    show BlockMap.read _ _ x = _
    rw [read_insert]
    split
    next heq => rw [heq, receivedEntry_nChainTx, hzero]
    next => rfl
  have htree1 : s1.mapBlockIndex.TreeOk := (receivedEntry_sameTree _ he).treeOk htree
  have hstays : ∀ x, s.mapBlockIndex.nChainTx x ≠ 0 →
      s1.mapBlockIndex.lookup x = s.mapBlockIndex.lookup x := by
    intro x hx
    rw [lookup_insert, if_neg]
    rintro rfl
    exact hx hzero
  have htip1 : s1.TipLinked := fun t ht => (hchain t).trans_ne (htip t ht)
  have hworse : ∀ e, s1.isWorseThanTip e = s.isWorseThanTip e :=
    isWorseThanTip_congr htip s1 rfl hstays
  -- the queue starts with the block alone
  have hloop : s.mapBlockIndex.LinkedBelow k → ∃ m' unlinked' candidates' n',
      linkLoop (s.mapBlocksUnlinked.length + 1) [k] s1 = some { s with
        mapBlockIndex := m'
        mapBlocksUnlinked := unlinked'
        setBlockIndexCandidates := candidates'
        nBlockSequenceId := n' } ∧
      s1.mapBlockIndex.Extends m' ∧ Linking m' unlinked' [] ∧
      ∀ x, x ∈ candidates' ↔ x ∈ s.setBlockIndexCandidates ∨
        (s.mapBlockIndex.nChainTx x = 0 ∧ ∃ e, m'.lookup x = some e ∧ e.nChainTx ≠ 0 ∧
          s.isWorseThanTip e = false) := by
    intro hbelow
    have hfuel : [k].length + s1.mapBlocksUnlinked.length ≤ s.mapBlocksUnlinked.length + 1 :=
      Nat.le_of_eq (Nat.add_comm 1 _)
    obtain ⟨m', unlinked', candidates', n', hres, hext, hlink', hcand⟩ :=
      linkLoop_spec htree1 hfit htip1 (hqueue hbelow) hfuel
    refine ⟨m', unlinked', candidates', n', hres, hext, hlink', fun x => ?_⟩
    rw [hcand]
    simp only [hworse, hchain]
    rfl
  simp only [receivedBlockTransactions, he, Option.bind_eq_bind, Option.bind_some]
  cases hp : e.pprev with
  | none =>
    refine hloop fun p hp' => ?_
    rw [pprev_of_lookup he, hp] at hp'
    cases hp'
  | some p =>
    have hpprev : s.mapBlockIndex.pprev k = some p := (pprev_of_lookup he).trans hp
    obtain ⟨prev, hprev, -⟩ := htree.parent k e p he hp
    have hne : p ≠ k := htree.pprev_ne hpprev
    have hprev1 : s1.mapBlockIndex.lookup p = some prev := by
      rw [lookup_insert, if_neg hne, hprev]
    have hread : s.mapBlockIndex.nChainTx p = prev.nChainTx := read_of_lookup hprev _
    have hbind : ((s.mapBlockIndex.insert k (receivedEntry nTx e)).lookup p) = some prev := hprev1
    simp only [hbind, Option.bind_some]
    split
    next hlinked =>
      refine hloop fun q hq => ?_
      rw [hpprev] at hq
      rw [← Option.some.inj hq, hread]
      exact hlinked
    next hlinked =>
      have hzero' : prev.nChainTx = 0 := not_not.mp hlinked
      rw [if_pos (hparent p prev hp hprev hzero')]
      refine ⟨_, _, _, _, rfl, Extends.refl _, hwait p hpprev (hread.trans hzero'), fun x => ?_⟩
      refine ⟨.inl, fun hx => hx.elim id ?_⟩
      rintro ⟨hx0, e', he', hne', -⟩
      exact absurd (((read_of_lookup he' _).symm.trans (hchain x)).trans hx0) hne'

end ChainState

end Rcoin
