/-
  A chain as a vector of the blocks at its heights: how it is set to a tip, where other
  blocks fork from it, and how one node tells another where it is by the hashes of a few blocks.

  Source: CChain and LastCommonAncestor in src/chain.{h,cpp}, FindForkInGlobalIndex in
  src/validation.cpp.  As a result, `none` around a pointer is the use of a null pointer or a
  failed `assert`.
-/
import Rcoin.Chain.SkipList

namespace Rcoin

open BlockMap Forest List Option

/-! ## The functions -/

/-- `CChain::vChain`; `resize` leaves null pointers. -/
abbrev CChain := List (Option Uint256)

namespace CChain

def genesis (c : CChain) : Option Uint256 := c.head?.join

def tip (c : CChain) : Option Uint256 := c.getLast?.join

/-- `operator[]`. -/
def atHeight (c : CChain) (nHeight : Int) : Option Uint256 :=
  if nHeight < 0 ∨ nHeight ≥ c.length then none else c.getD nHeight.toNat none

def height (c : CChain) : Int := c.length - 1

def contains (m : BlockMap) (c : CChain) (pindex : Uint256) : Bool :=
  c.atHeight (m.nHeight pindex) == some pindex

def resize (c : CChain) (n : Nat) : CChain := c.take n ++ List.replicate (n - c.length) none

/-- The loop of `SetTip`; each round goes down by one. -/
def setTipLoop (m : BlockMap) : Nat → CChain → Option Uint256 → CChain
  | _, c, none => c
  | 0, c, _ => c
  | fuel + 1, c, some pindex =>
    if c.getD (m.nHeight pindex) none ≠ some pindex then
      setTipLoop m fuel (c.set (m.nHeight pindex) (some pindex)) (m.pprev pindex)
    else c

def setTip (m : BlockMap) (c : CChain) : Option Uint256 → CChain
  | none => []
  | some pindex =>
    setTipLoop m (m.nHeight pindex + 1) (c.resize (m.nHeight pindex + 1)) (some pindex)

/-- The loop of `GetLocator`; `vHave` has `size` hashes already.  Doubling `nStep` beyond an
    `int` takes more steps down than there are heights. -/
def locatorLoop (m : BlockMap) (c : CChain) :
    Nat → Nat → Nat → Option Uint256 → Option (List Uint256)
  | _, _, _, none => some []
  | 0, _, _, _ => none
  | fuel + 1, size, nStep, some pindex =>
    -- Stop when we have added the genesis block.
    if m.nHeight pindex = 0 then some [pindex]
    else do
      -- Exponentially larger steps back, plus the genesis block.
      let nHeight := m.nHeight pindex - nStep
      let next ← (if c.contains m pindex then some (c.atHeight nHeight)
        else m.getAncestor pindex nHeight)
      let rest ← locatorLoop m c fuel (size + 1) (if size + 1 > 10 then nStep * 2 else nStep) next
      some (pindex :: rest)

def getLocator (m : BlockMap) (c : CChain) (pindex : Option Uint256) : Option (List Uint256) :=
  let pindex := pindex <|> c.tip
  locatorLoop m c ((pindex.elim 0 m.nHeight) + 1) 0 1 pindex

/-- The loop of `FindFork`. -/
def findForkLoop (m : BlockMap) (c : CChain) : Nat → Option Uint256 → Option Uint256
  | fuel + 1, some pindex =>
    if c.contains m pindex then some pindex else findForkLoop m c fuel (m.pprev pindex)
  | _, _ => none

def findFork (m : BlockMap) (c : CChain) : Option Uint256 → Option (Option Uint256)
  | none => some none
  | some pindex =>
    (if m.nHeight pindex > c.height then m.getAncestor pindex c.height
      else some (some pindex)).map (findForkLoop m c (m.nHeight pindex + 1))

/-- `FindForkInGlobalIndex`, for the hashes of a locator. -/
def findForkInGlobalIndex (m : BlockMap) (c : CChain) : List Uint256 → Option (Option Uint256)
  | [] => some c.genesis
  | hash :: vHave =>
    if hash ∈ m then
      if c.contains m hash then some (some hash)
      else do
        let ancestor ← m.getAncestor hash c.height
        if ancestor = c.tip then some c.tip else findForkInGlobalIndex m c vHave
    else findForkInGlobalIndex m c vHave

end CChain

open CChain

namespace BlockMap

/-- The loop of `LastCommonAncestor`, both at one height. -/
def lastCommonLoop (m : BlockMap) : Nat → Option Uint256 → Option Uint256 → Option (Option Uint256)
  | fuel + 1, some pa, some pb =>
    if pa ≠ pb then lastCommonLoop m fuel (m.pprev pa) (m.pprev pb) else some (some pa)
  -- the `assert`
  | _, pa, pb => if pa = pb then some pa else none

def lastCommonAncestor (m : BlockMap) (pa pb : Uint256) : Option (Option Uint256) := do
  let a ← (if m.nHeight pa > m.nHeight pb then m.getAncestor pa (m.nHeight pb) else some (some pa))
  let b ← (if m.nHeight pb > m.nHeight pa then m.getAncestor pb (m.nHeight pa) else some (some pb))
  lastCommonLoop m (min (m.nHeight pa) (m.nHeight pb) + 1) a b

end BlockMap

/-! ## Trees of blocks -/

/-- A tree of blocks above one genesis block, with skip pointers where `BuildSkip` sets them. -/
structure BlockTree where
  map : BlockMap
  tree : map.TreeOk
  skip : SkipOk map tree
  hashGenesisBlock : Uint256
  root : ∀ k ∈ map, map.pprev k = none → k = hashGenesisBlock

/-- Every tree to which blocks are added and for whose blocks `BuildSkip` is called. -/
def BlockMap.SkipsBuilt.blockTree {m : BlockMap} (built : SkipsBuilt m) (hashGenesisBlock : Uint256)
    (root : ∀ k ∈ m, m.pprev k = none → k = hashGenesisBlock) : BlockTree where
  map := m
  tree := built.skipOk.1
  skip := built.skipOk.2
  hashGenesisBlock := hashGenesisBlock
  root := root

theorem BlockMap.TreeOk.exists_parent {m : BlockMap} (h : m.TreeOk) {k : Uint256} {n : Nat}
    (hn : h.forest.height k = n + 1) :
    ∃ p, h.forest.parent k = some p ∧ p ∈ m ∧ h.forest.height p = n := by
  obtain ⟨p, hp⟩ := h.forest.exists_up (k := k) (n := 1) (by omega)
  rw [h.forest.up_one] at hp
  have := h.forest.height_parent hp
  exact ⟨p, hp, (h.mem_of_parent hp).2, by omega⟩

variable {j : Nat}

namespace BlockTree

variable (t : BlockTree) {k p : Uint256}

def forest : Forest Uint256 := t.tree.forest

theorem getAncestor_eq (hk : k ∈ t.map) (height : Int) :
    t.map.getAncestor k height =
      some (if height < 0 then none else t.forest.ancestorAt height.toNat k) :=
  BlockMap.getAncestor_eq t.tree t.skip hk height

theorem mem_of_parent (hp : t.forest.parent k = some p) : p ∈ t.map :=
  (t.tree.mem_of_parent hp).2

theorem mem_of_isAncestor (hk : k ∈ t.map) (h : t.forest.IsAncestor p k) : p ∈ t.map := by
  obtain ⟨n, hn⟩ := h
  exact t.tree.mem_of_up hk hn

theorem getAncestor_some (hk : k ∈ t.map) (hj : j ≤ t.forest.height k) :
    ∃ a, t.map.getAncestor k j = some (some a) ∧ t.forest.ancestorAt j k = some a ∧ a ∈ t.map ∧
      t.forest.height a = j := by
  obtain ⟨a, ha, hheight⟩ := t.forest.exists_ancestorAt hj
  refine ⟨a, ?_, ha, t.mem_of_isAncestor hk (isAncestor_of_ancestorAt ha), hheight⟩
  rw [t.getAncestor_eq hk, if_neg (by omega), Int.toNat_natCast, ha]

theorem eq_genesis (hk : k ∈ t.map) (h0 : t.forest.height k = 0) : k = t.hashGenesisBlock := by
  refine t.root k hk ?_
  cases hp : t.map.pprev k with
  | none => rfl
  | some p =>
    have := t.forest.height_parent hp
    omega

variable {n : Nat}

theorem exists_parent (h : t.forest.height k = n + 1) :
    ∃ p, t.forest.parent k = some p ∧ p ∈ t.map ∧ t.forest.height p = n := t.tree.exists_parent h

theorem genesis_isAncestor (hk : k ∈ t.map) : t.forest.IsAncestor t.hashGenesisBlock k := by
  obtain ⟨a, ha, hheight⟩ := t.forest.exists_ancestorAt (Nat.zero_le (t.forest.height k))
  have hanc := isAncestor_of_ancestorAt ha
  rw [← t.eq_genesis (t.mem_of_isAncestor hk hanc) hheight]
  exact hanc

end BlockTree

/-! ## Setting the tip -/

/-- The chain holds the ancestors of `tip` at their heights. -/
structure ActiveChain (t : BlockTree) (c : CChain) (tip : Uint256) : Prop where
  mem : tip ∈ t.map
  length : c.length = t.forest.height tip + 1
  block : ∀ j ≤ t.forest.height tip, c.getD j none = t.forest.ancestorAt j tip

namespace CChain

variable {t : BlockTree} {c : CChain} {tip p : Uint256}

theorem getD_set (c : CChain) {i : Nat} (hi : i < c.length) (x : Option Uint256) (j : Nat) :
    List.getD (c.set i x) j none = if j = i then x else c.getD j none := by
  rw [getD_eq_getElem?_getD, getElem?_set, getD_eq_getElem?_getD]
  by_cases hj : j = i
  · rw [if_pos hj.symm, if_pos hi, if_pos hj, getD_some]
  · rw [if_neg (Ne.symm hj), if_neg hj]

theorem length_resize (c : CChain) (n : Nat) : (c.resize n).length = n := by
  rw [resize, length_append, length_take, length_replicate]
  omega

theorem getD_resize (c : CChain) (hj : j < n) : List.getD (c.resize n) j none = c.getD j none := by
  rw [getD_eq_getElem?_getD, getD_eq_getElem?_getD, resize, getElem?_append,
    length_take]
  split
  next h => rw [getElem?_take_of_lt hj]
  next h =>
    rw [getElem?_replicate, getElem?_eq_none (by omega)]
    split
    · rfl
    · rfl

/-- With a block, a chain holds its ancestors at their heights. -/
def Closed {m : BlockMap} (h : m.TreeOk) (c : CChain) : Prop :=
  ∀ j x, c.getD j none = some x → ∀ i ≤ j, c.getD i none = h.forest.ancestorAt i x

theorem setTipLoop_spec {m : BlockMap} (h : m.TreeOk) (hn : h.forest.height p = n)
    (hlen : n < c.length)
    (hbelow : ∀ j ≤ n, ∀ x, c.getD j none = some x → ∀ i ≤ j,
      c.getD i none = h.forest.ancestorAt i x) :
    (setTipLoop m (n + 1) c (some p)).length = c.length ∧
      (∀ i ≤ n, (setTipLoop m (n + 1) c (some p)).getD i none = h.forest.ancestorAt i p) ∧
      ∀ i, n < i → (setTipLoop m (n + 1) c (some p)).getD i none = c.getD i none := by
  induction n generalizing c p with
  | zero =>
    have hheight : m.nHeight p = 0 := hn
    have hself : h.forest.ancestorAt 0 p = some p := h.forest.ancestorAt_eq_self hn
    rw [setTipLoop, hheight]
    split
    next =>
      have hroot : m.pprev p = none := by
        cases hp : m.pprev p with
        | none => rfl
        | some q =>
          have := h.forest.height_parent hp
          omega
      rw [hroot, setTipLoop]
      refine ⟨length_set, fun i hi => ?_, fun i hi => ?_⟩
      · rw [getD_set c hlen, if_pos (Nat.le_zero.mp hi), Nat.le_zero.mp hi, hself]
      · rw [getD_set c hlen, if_neg (by omega)]
    next hsame =>
      exact ⟨rfl, fun i hi => hbelow 0 le_rfl p (not_not.mp hsame) i hi, fun _ _ => rfl⟩
  | succ n ih =>
    have hheight : m.nHeight p = n + 1 := hn
    rw [setTipLoop, hheight]
    split
    next =>
      obtain ⟨q, hq, -, hqn⟩ := h.exists_parent hn
      have hprev : m.pprev p = some q := hq
      have hset := getD_set c hlen (some p)
      -- what is below the block written is as before
      have hbelow' : ∀ j ≤ n, ∀ x, List.getD (c.set (n + 1) (some p)) j none = some x →
          ∀ i ≤ j, List.getD (c.set (n + 1) (some p)) i none = h.forest.ancestorAt i x := by
        intro j hj x hx i hi
        rw [hset, if_neg (by omega)] at hx ⊢
        exact hbelow j (by omega) x hx i hi
      obtain ⟨hlen', hlow, hhigh⟩ := ih hqn (by rw [length_set]; omega) hbelow'
      rw [hprev]
      refine ⟨hlen'.trans length_set, fun i hi => ?_, fun i hi => ?_⟩
      · by_cases htop : i = n + 1
        · rw [hhigh i (by omega), hset, if_pos htop, htop, h.forest.ancestorAt_eq_self hn]
        · rw [hlow i (by omega), h.forest.ancestorAt_parent hq (by omega)]
      · rw [hhigh i (by omega), hset, if_neg (by omega)]
    next hsame =>
      exact ⟨rfl, fun i hi => hbelow (n + 1) le_rfl p (not_not.mp hsame) i hi, fun _ _ => rfl⟩

theorem setTip_ancestors {m : BlockMap} (h : m.TreeOk) (hc : c.Closed h) (p : Uint256) :
    (setTip m c (some p)).length = h.forest.height p + 1 ∧
      ∀ j ≤ h.forest.height p, (setTip m c (some p)).getD j none = h.forest.ancestorAt j p := by
  set n := h.forest.height p with hn
  have hbelow : ∀ j ≤ n, ∀ x, (c.resize (n + 1)).getD j none = some x → ∀ i ≤ j,
      (c.resize (n + 1)).getD i none = h.forest.ancestorAt i x := by
    intro j hj x hx i hi
    rw [getD_resize c (by omega)] at hx ⊢
    exact hc j x hx i hi
  have hlen := length_resize c (n + 1)
  obtain ⟨hlen', hlow, -⟩ := setTipLoop_spec h hn.symm (by omega) hbelow
  exact ⟨hlen'.trans hlen, hlow⟩

theorem closed_of_ancestors {m : BlockMap} {h : m.TreeOk} (hlen : c.length = h.forest.height p + 1)
    (hblock : ∀ j ≤ h.forest.height p, c.getD j none = h.forest.ancestorAt j p) : c.Closed h := by
  intro j x hx i hi
  have hj : j ≤ h.forest.height p := by
    by_contra hlt
    rw [getD_eq_default _ _ (by omega)] at hx
    nomatch hx
  rw [hblock j hj] at hx
  rw [hblock i (by omega), h.forest.ancestorAt_trans hx hi]

theorem setTip_spec (hc : c = [] ∨ ∃ old, ActiveChain t c old) (hp : p ∈ t.map) :
    ActiveChain t (setTip t.map c (some p)) p := by
  have hclosed : c.Closed t.tree := by
    rcases hc with rfl | ⟨old, hold⟩
    · exact fun _ _ hx => nomatch hx
    · exact closed_of_ancestors hold.length hold.block
  obtain ⟨hlen, hblock⟩ := setTip_ancestors t.tree hclosed p
  exact ⟨hp, hlen, hblock⟩

/-- The chain after calls of `SetTip`. -/
def afterTips (m : BlockMap) (tips : List (Option Uint256)) : CChain := tips.foldl (setTip m) []

theorem afterTips_spec {tips : List (Option Uint256)} (htips : ∀ p, some p ∈ tips → p ∈ t.map)
    (hlast : tips.getLast? = some (some tip)) : ActiveChain t (afterTips t.map tips) tip := by
  have hrun : ∀ (l : List (Option Uint256)) (c : CChain), (∀ p, some p ∈ l → p ∈ t.map) →
      (c = [] ∨ ∃ old, ActiveChain t c old) →
      (l.foldl (setTip t.map) c = [] ∨ ∃ old, ActiveChain t (l.foldl (setTip t.map) c) old) := by
    intro l
    induction l with
    | nil => exact fun c _ hc => hc
    | cons x l ih =>
      intro c hl hc
      refine ih _ (fun p hp => hl p (mem_cons_of_mem _ hp)) ?_
      cases x with
      | none => exact .inl rfl
      | some p => exact .inr ⟨p, setTip_spec hc (hl p mem_cons_self)⟩
  obtain ⟨l, rfl⟩ := getLast?_eq_some_iff.mp hlast
  rw [afterTips, foldl_append, foldl_cons, foldl_nil]
  refine setTip_spec (hrun l [] (fun p hp => htips p (mem_append_left _ hp)) (.inl rfl)) ?_
  exact htips tip (mem_append_right _ mem_cons_self)

end CChain

namespace ActiveChain

variable {t : BlockTree} {c : CChain} {tip k : Uint256}

variable (h : ActiveChain t c tip)

include h

theorem height_eq : c.height = t.forest.height tip := by
  rw [CChain.height, h.length]
  omega

theorem atHeight_eq (j : Nat) : c.atHeight j = t.forest.ancestorAt j tip := by
  rw [atHeight, h.length, Int.toNat_natCast]
  split
  next hout => rw [ancestorAt, if_neg (by omega)]
  next hin => exact h.block j (by omega)

theorem contains_iff : c.contains t.map k = true ↔ t.forest.IsAncestor k tip := by
  rw [CChain.contains, h.atHeight_eq, beq_iff_eq]
  exact isAncestor_iff.symm

theorem tip_eq : c.tip = some tip := by
  have hlast := h.block _ le_rfl
  rw [t.forest.ancestorAt_self, getD_eq_getElem?_getD] at hlast
  rw [CChain.tip, getLast?_eq_getElem?, h.length, Nat.add_sub_cancel]
  cases hx : (c : List _)[t.forest.height tip]? with
  | none => simp [hx] at hlast
  | some x => simpa [hx] using hlast

theorem genesis_eq : c.genesis = some t.hashGenesisBlock := by
  have hanc : t.forest.ancestorAt 0 tip = some t.hashGenesisBlock := by
    obtain ⟨a, ha, hheight⟩ := t.forest.exists_ancestorAt (Nat.zero_le (t.forest.height tip))
    rw [ha, t.eq_genesis (t.mem_of_isAncestor h.mem (isAncestor_of_ancestorAt ha)) hheight]
  rw [← h.block 0 (Nat.zero_le _)] at hanc
  cases c with
  | nil => nomatch hanc
  | cons x c => exact hanc

omit h

end ActiveChain

/-! ## Forks -/

variable {fuel : Nat}

namespace CChain

variable {t : BlockTree} {c : CChain} {tip b : Uint256}

theorem findForkLoop_spec (h : ActiveChain t c tip) (hb : b ∈ t.map)
    (hfuel : t.forest.height b < fuel) :
    ∃ f, findForkLoop t.map c fuel (some b) = some f ∧ t.forest.IsFork b tip f := by
  induction fuel generalizing b with
  | zero => omega
  | succ fuel ih =>
    rw [findForkLoop]
    split
    next hin => exact ⟨b, rfl, IsAncestor.isFork (h.contains_iff.mp hin)⟩
    next hout =>
      rw [h.contains_iff] at hout
      cases hp : t.map.pprev b with
      | none =>
        -- the walk never passes the genesis block
        rw [t.root b hb hp] at hout
        exact absurd (t.genesis_isAncestor h.mem) hout
      | some p =>
        have hparent : t.forest.parent b = some p := hp
        have := t.forest.height_parent hparent
        obtain ⟨f, hf, hfork⟩ := ih (t.mem_of_parent hparent) (by omega)
        exact ⟨f, hf, hfork.of_parent hparent hout⟩

theorem findFork_spec (h : ActiveChain t c tip) (hb : b ∈ t.map) :
    ∃ f, findFork t.map c (some b) = some (some f) ∧ t.forest.IsFork b tip f := by
  have hnh : t.map.nHeight b = t.forest.height b := rfl
  rw [findFork, h.height_eq, hnh]
  split
  next hgt =>
    have hle : t.forest.height tip ≤ t.forest.height b := by omega
    obtain ⟨a, hget, ha, hmem, hheight⟩ := t.getAncestor_some hb hle
    have hlt : t.forest.height a < t.forest.height b + 1 := by omega
    obtain ⟨f, hf, hfork⟩ := findForkLoop_spec h hmem hlt
    refine ⟨f, ?_, hfork.of_ancestorAt ha le_rfl⟩
    rw [hget, map_some, hf]
  next =>
    obtain ⟨f, hf, hfork⟩ := findForkLoop_spec h hb (Nat.lt_add_one _)
    exact ⟨f, by rw [map_some, hf], hfork⟩

end CChain

namespace BlockTree

variable (t : BlockTree) {a b : Uint256}

theorem lastCommonLoop_spec (ha : a ∈ t.map) (hb : b ∈ t.map) (hna : t.forest.height a = n)
    (hnb : t.forest.height b = n) (hfuel : n < fuel) :
    ∃ f, t.map.lastCommonLoop fuel (some a) (some b) = some (some f) ∧ t.forest.IsFork a b f := by
  induction n generalizing a b fuel with
  | zero =>
    obtain rfl := (t.eq_genesis ha hna).trans (t.eq_genesis hb hnb).symm
    cases fuel with
    | zero => omega
    | succ fuel =>
      rw [lastCommonLoop, if_neg (not_not.mpr rfl)]
      exact ⟨a, rfl, (IsAncestor.refl _).isFork⟩
  | succ n ih =>
    cases fuel with
    | zero => omega
    | succ fuel =>
      rw [lastCommonLoop]
      split
      next hne =>
        obtain ⟨pa, hpa, hpam, hpan⟩ := t.exists_parent hna
        obtain ⟨pb, hpb, hpbm, hpbn⟩ := t.exists_parent hnb
        have hprevA : t.map.pprev a = some pa := hpa
        have hprevB : t.map.pprev b = some pb := hpb
        obtain ⟨f, hf, hfork⟩ := ih hpam hpbm hpan hpbn (Nat.lt_of_succ_lt_succ hfuel)
        rw [hprevA, hprevB]
        refine ⟨f, hf, ?_⟩
        -- two blocks of one height, or `b` and a block below it, are on no common branch
        have hba : ¬ t.forest.IsAncestor b pa := by
          intro hanc
          have := hanc.height_le
          omega
        have hab : ¬ t.forest.IsAncestor a b := fun hanc => hne (hanc.eq_of_height (by omega))
        have hforkB : t.forest.IsFork b pa f := hfork.symm.of_parent hpb hba
        exact hforkB.symm.of_parent hpa hab
      next heq =>
        obtain rfl := not_not.mp heq
        exact ⟨a, rfl, (IsAncestor.refl _).isFork⟩

theorem lastCommonAncestor_spec (ha : a ∈ t.map) (hb : b ∈ t.map) :
    ∃ f, t.map.lastCommonAncestor a b = some (some f) ∧ t.forest.IsFork a b f := by
  have hna : t.map.nHeight a = t.forest.height a := rfl
  have hnb : t.map.nHeight b = t.forest.height b := rfl
  rw [lastCommonAncestor, hna, hnb]
  rcases Nat.lt_trichotomy (t.forest.height a) (t.forest.height b) with hlt | heq | hgt
  · obtain ⟨x, hget, hx, hxm, hxn⟩ := t.getAncestor_some hb hlt.le
    obtain ⟨f, hf, hfork⟩ := t.lastCommonLoop_spec ha hxm rfl hxn (Nat.lt_succ_self _)
    refine ⟨f, ?_, (hfork.symm.of_ancestorAt hx le_rfl).symm⟩
    rw [if_neg (by omega), if_pos hlt, hget, Nat.min_eq_left hlt.le]
    exact hf
  · obtain ⟨f, hf, hfork⟩ := t.lastCommonLoop_spec ha hb rfl heq.symm (Nat.lt_succ_self _)
    refine ⟨f, ?_, hfork⟩
    rw [if_neg (by omega), if_neg (by omega), Nat.min_eq_left heq.le]
    exact hf
  · obtain ⟨x, hget, hx, hxm, hxn⟩ := t.getAncestor_some ha hgt.le
    obtain ⟨f, hf, hfork⟩ := t.lastCommonLoop_spec hxm hb hxn rfl (Nat.lt_succ_self _)
    refine ⟨f, ?_, hfork.of_ancestorAt hx le_rfl⟩
    rw [if_pos hgt, if_neg (by omega), hget, Nat.min_eq_right hgt.le]
    exact hf

end BlockTree

/-! ## Locators -/

/-- The hashes lead from `b` down to the genesis block. -/
structure IsLocator (t : BlockTree) (b : Uint256) (vHave : List Uint256) : Prop where
  ancestor : ∀ k ∈ vHave, t.forest.IsAncestor k b
  decreasing : vHave.Pairwise fun k k' => t.forest.height k' < t.forest.height k
  last : vHave.getLast? = some t.hashGenesisBlock

variable {vHave : List Uint256}

theorem IsLocator.cons {t : BlockTree} {b a : Uint256} (h : IsLocator t a vHave)
    (hanc : t.forest.IsAncestor a b) (hlt : t.forest.height a < t.forest.height b) :
    IsLocator t b (b :: vHave) where
  ancestor k hk := by
    rcases mem_cons.mp hk with rfl | hk
    · exact .refl _
    · exact (h.ancestor k hk).trans hanc
  decreasing := by
    refine pairwise_cons.mpr ⟨fun k hk => ?_, h.decreasing⟩
    exact Nat.lt_of_le_of_lt (h.ancestor k hk).height_le hlt
  last := by rw [getLast?_cons, h.last, getD_some]

namespace CChain

variable {t : BlockTree} {c : CChain} {tip b : Uint256}

variable (hc : c = [] ∨ ∃ tip, ActiveChain t c tip)

include hc

theorem locator_next (hb : b ∈ t.map) (hj : j ≤ t.forest.height b) :
    (if c.contains t.map b then some (c.atHeight j) else t.map.getAncestor b j) =
      some (t.forest.ancestorAt j b) := by
  split
  next hin =>
    rcases hc with rfl | ⟨tip, h⟩
    · simp [contains, atHeight] at hin
    · have hanc := isAncestor_iff.mp (h.contains_iff.mp hin)
      rw [h.atHeight_eq, t.forest.ancestorAt_trans hanc hj]
  next => rw [t.getAncestor_eq hb, if_neg (by omega), Int.toNat_natCast]

theorem locatorLoop_spec {size nStep : Nat} (hb : b ∈ t.map) (hfuel : t.forest.height b < fuel)
    (hstep : 0 < nStep) :
    ∃ vHave, locatorLoop t.map c fuel size nStep (some b) = some vHave ∧ IsLocator t b vHave := by
  have hnh : ∀ k, t.map.nHeight k = t.forest.height k := fun _ => rfl
  induction fuel generalizing size nStep b with
  | zero => omega
  | succ fuel ih =>
    rw [locatorLoop, hnh]
    split
    next h0 =>
      refine ⟨[b], rfl, fun k hk => ?_, pairwise_singleton _ _, ?_⟩
      · rw [mem_singleton.mp hk]
        exact .refl _
      · rw [← t.eq_genesis hb h0]
        rfl
    next h0 =>
      have hle : t.forest.height b - nStep ≤ t.forest.height b := Nat.sub_le _ _
      obtain ⟨a, -, ha, hmem, hheight⟩ := t.getAncestor_some hb hle
      -- the step doubles, but never vanishes
      have hstep' : 0 < if size + 1 > 10 then nStep * 2 else nStep := by
        split <;> omega
      obtain ⟨vHave, hrest, hloc⟩ : ∃ vHave, locatorLoop t.map c fuel (size + 1) _ (some a) =
          some vHave ∧ IsLocator t a vHave := ih hmem (by omega) hstep'
      refine ⟨b :: vHave, ?_, hloc.cons (isAncestor_of_ancestorAt ha) (by omega)⟩
      simp only [locator_next hc hb hle, ha, bind_eq_bind, bind_some, hrest]

theorem getLocator_spec {pindex : Option Uint256} (hstart : (pindex <|> c.tip) = some b)
    (hb : b ∈ t.map) : ∃ vHave, getLocator t.map c pindex = some vHave ∧ IsLocator t b vHave := by
  have hfuel : t.forest.height b < t.map.nHeight b + 1 := Nat.lt_add_one _
  rw [getLocator, hstart]
  exact locatorLoop_spec hc hb hfuel Nat.one_pos

omit hc

end CChain

/-! ## Finding the fork of another tree -/

namespace BlockTree

/-- Two trees with the same genesis block; a hash in both stands for one block. -/
structure Agrees (t t' : BlockTree) : Prop where
  genesis : t.hashGenesisBlock = t'.hashGenesisBlock
  pprev : ∀ k ∈ t.map, k ∈ t'.map → t.map.pprev k = t'.map.pprev k

/-- `f` is the highest block that is below `tip` in one tree and below `b` in the other. -/
structure IsForkBetween (t t' : BlockTree) (tip b f : Uint256) : Prop where
  left : t.forest.IsAncestor f tip
  right : t'.forest.IsAncestor f b
  highest : ∀ x, t.forest.IsAncestor x tip → t'.forest.IsAncestor x b → t.forest.IsAncestor x f

variable {t t' : BlockTree} {k a tip b : Uint256}

theorem Agrees.isAncestor (h : t.Agrees t') (hk : k ∈ t.map) (hk' : k ∈ t'.map)
    (hanc : t.forest.IsAncestor a k) : t'.forest.IsAncestor a k := by
  obtain ⟨n, hn⟩ := hanc
  induction n generalizing k with
  | zero =>
    rw [← Option.some.inj hn]
    exact .refl _
  | succ n ih =>
    obtain ⟨p, hp, hn⟩ := bind_eq_some_iff.mp hn
    have hp' : t'.forest.parent k = some p := (h.pprev k hk hk').symm.trans hp
    exact (ih (t.mem_of_parent hp) (t'.mem_of_parent hp') hn).trans (isAncestor_parent hp')

theorem Agrees.exists_fork (h : t.Agrees t') (htip : tip ∈ t.map) (hb : b ∈ t'.map) :
    ∃ f, IsForkBetween t t' tip b f := by
  classical
  let common (n : Nat) : Prop :=
    ∃ x, t.forest.IsAncestor x tip ∧ t'.forest.IsAncestor x b ∧ t.forest.height x = n
  have hgenesis : common (t.forest.height t.hashGenesisBlock) :=
    ⟨_, t.genesis_isAncestor htip, h.genesis ▸ t'.genesis_isAncestor hb, rfl⟩
  have hbound : ∀ n, common n → n ≤ t.forest.height tip := by
    rintro n ⟨x, hx, -, rfl⟩
    exact hx.height_le
  obtain ⟨f, hf, hf', hheight⟩ := Nat.findGreatest_spec (hbound _ hgenesis) hgenesis
  refine ⟨f, hf, hf', fun x hx hx' => hx.of_height_le hf ?_⟩
  rw [hheight]
  exact Nat.le_findGreatest hx.height_le ⟨x, hx, hx', rfl⟩

end BlockTree

namespace CChain

variable {t t' : BlockTree} {c : CChain} {tip b : Uint256}

theorem findForkInGlobalIndex_spec (h : t.Agrees t') (hc : ActiveChain t c tip) (hb : b ∈ t'.map)
    (hv : ∀ k ∈ vHave, t'.forest.IsAncestor k b) :
    ∃ r, findForkInGlobalIndex t.map c vHave = some (some r) ∧ t.forest.IsAncestor r tip ∧
      t'.forest.IsAncestor r b := by
  induction vHave with
  | nil =>
    refine ⟨t.hashGenesisBlock, ?_, t.genesis_isAncestor hc.mem, ?_⟩
    · rw [findForkInGlobalIndex, hc.genesis_eq]
    · rw [h.genesis]
      exact t'.genesis_isAncestor hb
  | cons hash vHave ih =>
    have hhash := hv hash mem_cons_self
    specialize ih fun k hk => hv k (mem_cons_of_mem _ hk)
    rw [findForkInGlobalIndex]
    split
    next hmem =>
      split
      next hin => exact ⟨hash, rfl, hc.contains_iff.mp hin, hhash⟩
      next =>
        rw [hc.height_eq, t.getAncestor_eq hmem, if_neg (by omega), Int.toNat_natCast,
          bind_eq_bind, bind_some, hc.tip_eq]
        split
        next htip =>
          -- the other node is ahead on this branch
          have hanc := isAncestor_of_ancestorAt htip
          have hmem' := t'.mem_of_isAncestor hb hhash
          exact ⟨tip, rfl, .refl _, (h.isAncestor hmem hmem' hanc).trans hhash⟩
        next => exact ih
    next => exact ih

end CChain

/-! ## Every pair of branches -/

namespace BlockTree

abbrev Block (t : BlockTree) : Type := { k : Uint256 // k ∈ t.map }

/-- The chain after calls of `SetTip` with blocks of the tree, or with null pointers. -/
def chain (t : BlockTree) (tips : List (Option t.Block)) : CChain :=
  afterTips t.map (tips.map fun tip => tip.map Subtype.val)

variable (t : BlockTree)

theorem chain_spec (earlier : List (Option t.Block)) (tip : t.Block) :
    ActiveChain t (t.chain (earlier ++ [some tip])) tip.1 := by
  refine afterTips_spec (fun p hp => ?_) ?_
  · obtain ⟨x, -, hx⟩ := List.mem_map.mp hp
    obtain ⟨k, -, rfl⟩ := Option.map_eq_some_iff.mp hx
    exact k.2
  · rw [map_append, map_singleton, getLast?_concat, map_some]

theorem chain_cases (tips : List (Option t.Block)) :
    t.chain tips = [] ∨ ∃ tip, ActiveChain t (t.chain tips) tip := by
  rcases eq_nil_or_concat tips with rfl | ⟨earlier, last, rfl⟩
  · exact .inl rfl
  · rw [concat_eq_append]
    cases last with
    | none =>
      refine .inl ?_
      rw [chain, afterTips, map_append, foldl_append]
      rfl
    | some tip => exact .inr ⟨tip.1, t.chain_spec earlier tip⟩

end BlockTree

/-- `FindFork` and `LastCommonAncestor` find the highest common block, for any block and any
    chain that `SetTip` has made.  A locator from any chain over a tree that agrees goes down
    to the genesis block, and what it leads to is on both branches, not above their fork. -/
theorem forks_exact (t t' : BlockTree) (hagree : t.Agrees t') (earlier : List (Option t.Block))
    (tip : t.Block) :
    let c := t.chain (earlier ++ [some tip])
    (∀ b : t.Block, ∃ f, c.findFork t.map (some b.1) = some (some f) ∧
      t.forest.IsFork b.1 tip.1 f) ∧
    (∀ a b : t.Block, ∃ f, t.map.lastCommonAncestor a.1 b.1 = some (some f) ∧
      t.forest.IsFork a.1 b.1 f) ∧
    ∀ (tips' : List (Option t'.Block)) (pindex : Option Uint256) (b : t'.Block),
      (pindex <|> (t'.chain tips').tip) = some b.1 →
      ∃ vHave, (t'.chain tips').getLocator t'.map pindex = some vHave ∧ IsLocator t' b.1 vHave ∧
        ∃ r, c.findForkInGlobalIndex t.map vHave = some (some r) ∧ c.contains t.map r = true ∧
          t'.forest.IsAncestor r b.1 ∧
          ∃ f, BlockTree.IsForkBetween t t' tip.1 b.1 f ∧ t.forest.IsAncestor r f := by
  intro c
  have hc := t.chain_spec earlier tip
  refine ⟨fun b => findFork_spec hc b.2, fun a b => t.lastCommonAncestor_spec a.2 b.2, ?_⟩
  intro tips' pindex b hstart
  obtain ⟨vHave, hget, hloc⟩ := getLocator_spec (t'.chain_cases tips') hstart b.2
  obtain ⟨r, hr, hrtip, hrb⟩ := findForkInGlobalIndex_spec hagree hc b.2 hloc.ancestor
  obtain ⟨f, hf⟩ := hagree.exists_fork tip.2 b.2
  exact ⟨vHave, hget, hloc, r, hr, hc.contains_iff.mpr hrtip, hrb, f, hf, hf.highest r hrtip hrb⟩

/-- The entry of a header. -/
def header (hash : Uint256) (pprev : Option Uint256) (nHeight : Nat) : CBlockIndexEntry :=
  { hash, pprev, nHeight, nVersion := 1, nTime := 0, nBits := 0
    nStatus := { valid := BLOCK_VALID_TREE } }

theorem BlockMap.SkipsBuilt.header {m : BlockMap} (hm : SkipsBuilt m) (hash p : Uint256)
    {e : CBlockIndexEntry} (hnew : hash ∉ m) (hp : m.lookup p = some e) :
    SkipsBuilt (AList.insert hash (header hash (some p) (e.nHeight + 1)) m) :=
  hm.add (e := Rcoin.header hash (some p) (e.nHeight + 1)) hnew
    (fun q hq => by cases hq; exact ⟨e, hp, rfl⟩) (fun hroot => by cases hroot) rfl

theorem skipsBuilt_genesis : SkipsBuilt (AList.insert 7 (header 7 none 0) ∅) :=
  .add (e := header 7 none 0) .empty (AList.notMem_empty _) (fun _ hp => by simp [header] at hp)
    (fun _ => rfl) rfl

/-- The blocks 8, 9 and the block 10 on the genesis block. -/
def forkTree : BlockTree :=
  BlockMap.SkipsBuilt.blockTree
    (((skipsBuilt_genesis.header 8 7 (by decide) rfl).header 9 8 (by decide) rfl).header 10 7
      (by decide) rfl)
    7 (by decide)

/-- The blocks 10, 11 on the genesis block. -/
def otherTree : BlockTree :=
  BlockMap.SkipsBuilt.blockTree
    ((skipsBuilt_genesis.header 10 7 (by decide) rfl).header 11 10 (by decide) rfl)
    7 (by decide)

/-- The active chain ends with 9, the locator comes from 11. -/
theorem forks_exact_branches :
    let c := forkTree.chain [some ⟨8, by decide⟩, some ⟨9, by decide⟩]
    (c.findFork forkTree.map (some 10) = some (some 7) ∧ forkTree.forest.IsFork 10 9 7) ∧
    (otherTree.chain [some ⟨11, by decide⟩]).getLocator otherTree.map none = some [11, 10, 7] ∧
    IsLocator otherTree 11 [11, 10, 7] ∧
    c.findForkInGlobalIndex forkTree.map [11, 10, 7] = some (some 7) ∧
    ∃ f, BlockTree.IsForkBetween forkTree otherTree 9 11 f ∧ forkTree.forest.IsAncestor 7 f := by
  intro c
  have hagree : forkTree.Agrees otherTree := ⟨rfl, by decide⟩
  obtain ⟨hfork, -, hfind⟩ := forks_exact forkTree otherTree hagree [some ⟨8, by decide⟩]
    ⟨9, by decide⟩
  obtain ⟨f, hf, hisFork⟩ := hfork ⟨10, by decide⟩
  obtain ⟨vHave, hget, hloc, r, hr, -, -, hbetween⟩ := hfind [some ⟨11, by decide⟩] none
    ⟨11, by decide⟩ rfl
  have hfork' : c.findFork forkTree.map (some 10) = some (some 7) := rfl
  have hget' : (otherTree.chain [some ⟨11, by decide⟩]).getLocator otherTree.map none =
      some [11, 10, 7] := rfl
  have hr' : c.findForkInGlobalIndex forkTree.map [11, 10, 7] = some (some 7) := rfl
  cases hfork'.symm.trans hf
  cases hget'.symm.trans hget
  cases hr'.symm.trans hr
  exact ⟨⟨hf, hisFork⟩, hget, hloc, hr, hbetween⟩

end Rcoin
