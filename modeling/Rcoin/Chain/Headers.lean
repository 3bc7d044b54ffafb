/-
  States of the chain whose pointers are in order, and what a new header does to
  them.

  Source: CChainState::AddToBlockIndex in src/validation.cpp.
-/
import Rcoin.Chain.ChainState

namespace Rcoin

open AList List

/-! ## A new block below the others -/

namespace BlockMap

variable {m : BlockMap} {k x : Uint256} {e : CBlockIndexEntry}

theorem TreeOk.parent_insert (h : m.TreeOk) (h' : TreeOk (AList.insert k e m))
    (hx : x ≠ k) : h'.forest.parent x = h.forest.parent x := by
  show BlockMap.pprev _ x = BlockMap.pprev _ x
  rw [pprev, pprev, Maps.lookup_insert, if_neg hx]

theorem TreeOk.height_insert (h : m.TreeOk) (h' : TreeOk (AList.insert k e m))
    (hx : x ≠ k) : h'.forest.height x = h.forest.height x := by
  show BlockMap.nHeight _ x = BlockMap.nHeight _ x
  rw [nHeight, nHeight, Maps.lookup_insert, if_neg hx]

theorem TreeOk.up_insert (h : m.TreeOk) (h' : TreeOk (AList.insert k e m)) (hk : k ∉ m)
    (hx : x ∈ m) (n : Nat) : h'.forest.up n x = h.forest.up n x := by
  induction n generalizing x with
  | zero => rfl
  | succ n ih =>
    have hne : x ≠ k := fun hc => hk (hc ▸ hx)
    rw [Forest.up, Forest.up, h.parent_insert h' hne]
    cases hp : h.forest.parent x with
    | none => rfl
    | some p => exact ih (h.mem_of_parent hp).2

theorem TreeOk.ancestorAt_insert (h : m.TreeOk) (h' : TreeOk (AList.insert k e m))
    (hk : k ∉ m) (hx : x ∈ m) (height : Nat) :
    h'.forest.ancestorAt height x = h.forest.ancestorAt height x := by
  have hne : x ≠ k := fun hc => hk (hc ▸ hx)
  rw [Forest.ancestorAt, Forest.ancestorAt, h.height_insert h' hne, h.up_insert h' hk hx]

theorem SkipOk.insert {h : m.TreeOk} (hskip : SkipOk m h) (h' : TreeOk (AList.insert k e m))
    (hk : k ∉ m) (hparent : ∀ p, e.pprev = some p → p ∈ m)
    (hnew : ∀ skip, e.pskip = some skip → e.pprev.bind (fun p =>
      h.forest.ancestorAt (getSkipHeight e.nHeight) p) = some skip) :
    SkipOk (AList.insert k e m) h' := by
  -- ancestors in the old tree are those in the new one
  have hkeep : ∀ (e' : CBlockIndexEntry) (skip : Uint256), (∀ p, e'.pprev = some p → p ∈ m) →
      e'.pprev.bind (fun p => h.forest.ancestorAt (getSkipHeight e'.nHeight) p) = some skip →
      e'.pprev.bind (fun p => h'.forest.ancestorAt (getSkipHeight e'.nHeight) p) = some skip := by
    intro e' skip hmem hat
    cases hp : e'.pprev with
    | none =>
      rw [hp] at hat
      nomatch hat
    | some p =>
      rw [hp] at hat
      exact (h.ancestorAt_insert h' hk (hmem p hp) _).trans hat
  intro k' e' skip he' hs
  rw [Maps.lookup_insert] at he'
  split at he'
  next =>
    obtain rfl := Option.some.inj he'
    exact hkeep e skip hparent (hnew skip hs)
  next =>
    refine hkeep e' skip (fun p hp => ?_) (hskip k' e' skip he' hs)
    obtain ⟨e'', he'', -⟩ := h.parent k' e' p he' hp
    exact lookup_isSome.mp (by rw [he'']; rfl)

end BlockMap

namespace CBlockIndexEntry

@[simp] theorem raiseValidity_toCBlockIndex (n : Nat) (e : CBlockIndexEntry) :
    (e.raiseValidity n).toCBlockIndex = e.toCBlockIndex := by
  rw [raiseValidity]
  split
  · rfl
  · split <;> rfl

@[simp] theorem raiseValidity_pskip (n : Nat) (e : CBlockIndexEntry) :
    (e.raiseValidity n).pskip = e.pskip := by
  rw [raiseValidity]
  split
  · rfl
  · split <;> rfl

end CBlockIndexEntry

namespace ChainState

/-! ## The pointers of a state -/

/-- The pointers of the state go to blocks of the index; the active chain is a chain
    that starts at a genesis block. -/
structure WellFormed (s : ChainState) : Prop where
  tree : s.mapBlockIndex.TreeOk
  skip : BlockMap.SkipOk s.mapBlockIndex tree
  nonempty : s.chainActive ≠ []
  chain : ∀ i k, s.chainActive[i]? = some k → k ∈ s.mapBlockIndex ∧ tree.forest.height k = i ∧
    (0 < i → tree.forest.parent k = s.chainActive[i - 1]?)
  failed : ∀ k ∈ s.g_failed_blocks, k ∈ s.mapBlockIndex

variable {s s' : ChainState} {k a : Uint256}

theorem WellFormed.exists_tip (hs : s.WellFormed) : ∃ t e, s.tip = some t ∧
    s.mapBlockIndex.lookup t = some e ∧ s.chainActive[s.chainActive.length - 1]? = some t := by
  have hlast := getLast?_eq_some_getLast hs.nonempty
  have hat : s.chainActive[s.chainActive.length - 1]? =
      some (s.chainActive.getLast hs.nonempty) := by
    rw [← getLast?_eq_getElem?, hlast]
  have hmem := (hs.chain _ _ hat).1
  obtain ⟨e, he⟩ := Option.isSome_iff_exists.mp (lookup_isSome.mpr hmem)
  exact ⟨_, e, hlast, he, hat⟩

variable {t : Uint256}

variable (hs : s.WellFormed)

include hs

theorem WellFormed.chain_eq (ht : s.tip = some t) {n : Nat} (hn : n < s.chainActive.length) :
    s.chainActive[s.chainActive.length - 1 - n]? = hs.tree.forest.up n t := by
  induction n with
  | zero =>
    rw [Nat.sub_zero, ← getLast?_eq_getElem?]
    exact ht
  | succ n ih =>
    have ih := ih (by omega)
    obtain ⟨x, hx⟩ : ∃ x, s.chainActive[s.chainActive.length - 1 - n]? = some x :=
      ⟨_, getElem?_eq_getElem (by omega)⟩
    have hparent := (hs.chain _ x hx).2.2 (by omega)
    rw [hs.tree.forest.up_add, ← ih, hx, Option.bind_some, Forest.up_one, hparent]
    congr 1

theorem WellFormed.height_tip (ht : s.tip = some t) :
    hs.tree.forest.height t + 1 = s.chainActive.length := by
  obtain ⟨t', -, ht', -, hat⟩ := hs.exists_tip
  obtain rfl := Option.some.inj (ht.symm.trans ht')
  have hpos := length_pos_iff.mpr hs.nonempty
  have hh := (hs.chain _ _ hat).2.1
  omega

theorem WellFormed.mem_chain_iff (ht : s.tip = some t) :
    k ∈ s.chainActive ↔ hs.tree.forest.IsAncestor k t := by
  have hlen := hs.height_tip ht
  constructor
  · intro hk
    obtain ⟨i, hi⟩ := mem_iff_getElem?.mp hk
    have hlt : i < s.chainActive.length := (List.getElem?_eq_some_iff.mp hi).1
    refine ⟨s.chainActive.length - 1 - i, ?_⟩
    rw [← hs.chain_eq ht (by omega), ← hi]
    congr 1
    omega
  · rintro ⟨n, hn⟩
    have hh := hs.tree.forest.height_up hn
    rw [← hs.chain_eq ht (by omega)] at hn
    exact mem_of_getElem? hn

theorem WellFormed.contains_iff : s.contains k = true ↔ k ∈ s.chainActive := by
  rw [contains, beq_iff_eq]
  constructor
  · exact mem_of_getElem?
  · intro hk
    obtain ⟨i, hi⟩ := mem_iff_getElem?.mp hk
    have hh : s.mapBlockIndex.nHeight k = i := (hs.chain i k hi).2.1
    rw [hh, hi]

theorem WellFormed.of_sameTree (hm : s.mapBlockIndex.SameTree s'.mapBlockIndex)
    (hchain : s'.chainActive <+: s.chainActive) (hne : s'.chainActive ≠ [])
    (hfailed : ∀ k ∈ s'.g_failed_blocks, k ∈ s'.mapBlockIndex) : s'.WellFormed := by
  have htree := hm.treeOk hs.tree
  have hforest := hm.forest_eq hs.tree htree
  refine ⟨htree, hm.skipOk hs.tree htree hs.skip, hne, ?_, hfailed⟩
  have hold : ∀ i, i < s'.chainActive.length → s'.chainActive[i]? = s.chainActive[i]? := by
    intro i hi
    obtain ⟨l, hl⟩ := hchain
    rw [← hl, getElem?_append_left hi]
  intro i k hk
  have hi := (List.getElem?_eq_some_iff.mp hk).1
  obtain ⟨hmem, hh, hparent⟩ := hs.chain i k ((hold i hi).symm.trans hk)
  refine ⟨hm.mem_iff.mp hmem, by rw [hforest, hh], fun hpos => ?_⟩
  rw [hforest, hparent hpos, hold (i - 1) (by omega)]

omit hs

/-! ## AddToBlockIndex -/

theorem newEntry_spec {m : BlockMap} (h : m.TreeOk) (hskip : BlockMap.SkipOk m h)
    (block : CBlockHeader) : ∃ e, newEntry m block = some e ∧ e.hash = block.hash ∧
      (∀ p, e.pprev = some p → ∃ e', m.lookup p = some e' ∧ e.nHeight = e'.nHeight + 1) ∧
      (e.pprev = none → e.nHeight = 0) ∧
      e.pskip = e.pprev.bind fun p => h.forest.ancestorAt (getSkipHeight e.nHeight) p := by
  rw [newEntry]
  cases hp : m.lookup block.hashPrevBlock with
  | none =>
    refine ⟨_, rfl, ?_⟩
    simp
  | some prev =>
    have hmem : block.hashPrevBlock ∈ m := lookup_isSome.mp (by rw [hp]; rfl)
    simp only [BlockMap.getAncestor_eq h hskip hmem, Option.bind_eq_bind, Option.bind_some]
    refine ⟨_, rfl, ?_⟩
    simp [hp]

theorem newEntry_header {m : BlockMap} {block : CBlockHeader} {e : CBlockIndexEntry}
    (h : newEntry m block = some e) : e.nTime = block.nTime ∧
      e.pprev = (m.lookup block.hashPrevBlock).map fun _ => block.hashPrevBlock := by
  rw [newEntry] at h
  cases hp : m.lookup block.hashPrevBlock with
  | none =>
    rw [hp] at h
    rw [← Option.some.inj h]
    exact ⟨rfl, rfl⟩
  | some prev =>
    rw [hp] at h
    obtain ⟨skip, -, hsome⟩ := Option.bind_eq_some_iff.mp h
    rw [← Option.some.inj hsome]
    exact ⟨rfl, rfl⟩

theorem addToBlockIndex_spec (hs : s.WellFormed) (block : CBlockHeader) :
    ∃ s', s.addToBlockIndex block = some (block.hash, s') ∧ s'.WellFormed ∧
      s'.g_failed_blocks = s.g_failed_blocks ∧
      ∀ k e, s.mapBlockIndex.lookup k = some e → s'.mapBlockIndex.lookup k = some e := by
  rw [addToBlockIndex]
  by_cases hmem : block.hash ∈ s.mapBlockIndex
  · exact ⟨s, if_pos hmem, hs, rfl, fun _ _ he => he⟩
  · obtain ⟨e, hnew, hhash, hparent, hroot, hskip⟩ := newEntry_spec hs.tree hs.skip block
    have htree := hs.tree.insert hmem hhash hparent hroot
    have hkeep : ∀ x ∈ s.mapBlockIndex, x ≠ block.hash := fun x hx hc => hmem (hc ▸ hx)
    have hmemNew : ∀ x ∈ s.mapBlockIndex, x ∈ s.mapBlockIndex.insert block.hash e :=
      fun x hx => (mem_insert _).mpr (.inr hx)
    rw [if_neg hmem, hnew]
    have hparentMem : ∀ p, e.pprev = some p → p ∈ s.mapBlockIndex := by
      intro p hp
      obtain ⟨e', he', -⟩ := hparent p hp
      exact lookup_isSome.mp (by rw [he']; rfl)
    refine ⟨_, rfl, ⟨htree, ?_, hs.nonempty, ?_, ?_⟩, rfl, ?_⟩
    · exact hs.skip.insert htree hmem hparentMem fun skip hsk => hskip.symm.trans hsk
    · intro i k hk
      obtain ⟨hkm, hh, hpar⟩ := hs.chain i k hk
      refine ⟨hmemNew k hkm, ?_, fun hpos => ?_⟩
      · rw [hs.tree.height_insert htree (hkeep k hkm), hh]
      · rw [hs.tree.parent_insert htree (hkeep k hkm), hpar hpos]
    · exact fun k hk => hmemNew k (hs.failed k hk)
    · intro k e' he'
      have hk : k ∈ s.mapBlockIndex := lookup_isSome.mp (by rw [he']; rfl)
      rw [Maps.lookup_insert, if_neg (hkeep k hk), he']

end ChainState

end Rcoin
