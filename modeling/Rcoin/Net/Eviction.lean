/-
  `AttemptToEvictConnection` (src/net.cpp): which node is disconnected when another one
  connects. `std::sort` is any that sorts by strict weak orders; it need not be stable.
-/
import Mathlib

namespace Rcoin

open List

namespace Eviction

/-! ## The function -/

def NODE_NETWORK : UInt64 := 1
def NODE_WITNESS : UInt64 := 8
def NODE_NETWORK_LIMITED : UInt64 := 1024

def getDesirableServiceFlags (initialBlockDownloadCompleted : Bool) (services : UInt64) : UInt64 :=
  if services &&& NODE_NETWORK_LIMITED ≠ 0 ∧ initialBlockDownloadCompleted then
    NODE_NETWORK_LIMITED ||| NODE_WITNESS
  else NODE_NETWORK ||| NODE_WITNESS

def hasAllDesirableServiceFlags (initialBlockDownloadCompleted : Bool) (services : UInt64) : Bool :=
  getDesirableServiceFlags initialBlockDownloadCompleted services &&& ~~~services == 0

structure CNode where
  id : Int
  fWhitelisted : Bool
  fInbound : Bool
  fDisconnect : Bool
  nTimeConnected : Int
  nMinPingUsecTime : Int
  nLastBlockTime : Int
  nLastTXTime : Int
  nServices : UInt64
  fRelayTxes : Bool
  /-- `pfilter != nullptr`. -/
  pfilter : Bool
  nKeyedNetGroup : UInt64

structure NodeEvictionCandidate where
  id : Int
  nTimeConnected : Int
  nMinPingUsecTime : Int
  nLastBlockTime : Int
  nLastTXTime : Int
  fRelevantServices : Bool
  fRelayTxes : Bool
  fBloomFilter : Bool
  nKeyedNetGroup : UInt64

def reverseCompareNodeMinPingTime (a b : NodeEvictionCandidate) : Bool :=
  decide (a.nMinPingUsecTime > b.nMinPingUsecTime)

def reverseCompareNodeTimeConnected (a b : NodeEvictionCandidate) : Bool :=
  decide (a.nTimeConnected > b.nTimeConnected)

def compareNetGroupKeyed (a b : NodeEvictionCandidate) : Bool :=
  decide (a.nKeyedNetGroup < b.nKeyedNetGroup)

def compareNodeBlockTime (a b : NodeEvictionCandidate) : Bool :=
  if a.nLastBlockTime ≠ b.nLastBlockTime then decide (a.nLastBlockTime < b.nLastBlockTime)
  else if a.fRelevantServices ≠ b.fRelevantServices then b.fRelevantServices
  else decide (a.nTimeConnected > b.nTimeConnected)

def compareNodeTXTime (a b : NodeEvictionCandidate) : Bool :=
  if a.nLastTXTime ≠ b.nLastTXTime then decide (a.nLastTXTime < b.nLastTXTime)
  else if a.fRelayTxes ≠ b.fRelayTxes then b.fRelayTxes
  else if a.fBloomFilter ≠ b.fBloomFilter then a.fBloomFilter
  else decide (a.nTimeConnected > b.nTimeConnected)

/-- What `std::sort` asks of a comparator. -/
structure StrictWeak {α : Type} (cmp : α → α → Bool) : Prop where
  asymm : ∀ a b, cmp a b = true → cmp b a = false
  incomp : ∀ a b c, cmp a b = false → cmp b c = false → cmp a c = false

/-- What `std::sort` leaves: a permutation that is ordered. -/
structure StdSort where
  sort : (NodeEvictionCandidate → NodeEvictionCandidate → Bool) → List NodeEvictionCandidate →
    List NodeEvictionCandidate
  perm : ∀ cmp l, (sort cmp l).Perm l
  sorted : ∀ cmp l, StrictWeak cmp → (sort cmp l).Pairwise fun a b => cmp b a = false

variable (S : StdSort)

def eraseLastKElements (elements : List NodeEvictionCandidate)
    (comparator : NodeEvictionCandidate → NodeEvictionCandidate → Bool) (k : Nat) :
    List NodeEvictionCandidate :=
  let elements := S.sort comparator elements
  let eraseSize := min k elements.length
  elements.take (elements.length - eraseSize)

def toCandidate (ibd : Bool) (node : CNode) : NodeEvictionCandidate :=
  { node with
    fRelevantServices := hasAllDesirableServiceFlags ibd node.nServices
    fBloomFilter := node.pfilter }

def candidates (ibd : Bool) (vNodes : List CNode) : List NodeEvictionCandidate :=
  vNodes.filterMap fun node =>
    if node.fWhitelisted then none
    else if !node.fInbound then none
    else if node.fDisconnect then none
    else some (toCandidate ibd node)

/-- What the protections leave. -/
def protect (vEvictionCandidates : List NodeEvictionCandidate) : List NodeEvictionCandidate :=
  let v := eraseLastKElements S vEvictionCandidates compareNetGroupKeyed 4
  let v := eraseLastKElements S v reverseCompareNodeMinPingTime 8
  let v := eraseLastKElements S v compareNodeTXTime 4
  let v := eraseLastKElements S v compareNodeBlockTime 4
  eraseLastKElements S v reverseCompareNodeTimeConnected (v.length / 2)

/-- The loop's variables; the map yields an empty vector for a new key. -/
structure Groups where
  mapNetGroupNodes : UInt64 → List NodeEvictionCandidate
  naMostConnections : UInt64
  nMostConnections : Nat
  nMostConnectionsTime : Int

def groupStep (g : Groups) (node : NodeEvictionCandidate) : Groups :=
  let group := g.mapNetGroupNodes node.nKeyedNetGroup ++ [node]
  let mapNetGroupNodes := Function.update g.mapNetGroupNodes node.nKeyedNetGroup group
  let grouptime := (group.headD node).nTimeConnected
  if group.length > g.nMostConnections ∨
      (group.length = g.nMostConnections ∧ grouptime > g.nMostConnectionsTime) then
    ⟨mapNetGroupNodes, node.nKeyedNetGroup, group.length % 2 ^ 32, grouptime⟩
  else { g with mapNetGroupNodes := mapNetGroupNodes }

def markLoop (evicted : Int) : List CNode → Bool × List CNode
  | [] => (false, [])
  | pnode :: vNodes =>
    if pnode.id = evicted then (true, { pnode with fDisconnect := true } :: vNodes)
    else ((markLoop evicted vNodes).1, pnode :: (markLoop evicted vNodes).2)

/-- What is returned, and the nodes; none if `front` is called on an empty vector. -/
def attemptToEvictConnection (ibd : Bool) (vNodes : List CNode) : Option (Bool × List CNode) :=
  let vEvictionCandidates := protect S (candidates ibd vNodes)
  if vEvictionCandidates.isEmpty then some (false, vNodes)
  else
    let g := vEvictionCandidates.foldl groupStep ⟨fun _ => [], 0, 0, 0⟩
    match g.mapNetGroupNodes g.naMostConnections with
    | [] => none
    | front :: _ => some (markLoop front.id vNodes)

/-! ## The comparators -/

theorem strictWeak_netGroup : StrictWeak compareNetGroupKeyed := by
  constructor <;> simp only [compareNetGroupKeyed] <;> grind

theorem strictWeak_pingTime : StrictWeak reverseCompareNodeMinPingTime := by
  constructor <;> simp only [reverseCompareNodeMinPingTime] <;> grind

theorem strictWeak_timeConnected : StrictWeak reverseCompareNodeTimeConnected := by
  constructor <;> simp only [reverseCompareNodeTimeConnected] <;> grind

theorem strictWeak_blockTime : StrictWeak compareNodeBlockTime := by
  constructor <;> simp only [compareNodeBlockTime] <;> grind

theorem strictWeak_txTime : StrictWeak compareNodeTXTime := by
  constructor <;> simp only [compareNodeTXTime] <;> grind

/-! ## Protection -/

/-- How many others match or beat `c`. -/
def others (cmp : NodeEvictionCandidate → NodeEvictionCandidate → Bool)
    (l : List NodeEvictionCandidate) (c : NodeEvictionCandidate) : Nat :=
  l.countP fun y => y.id ≠ c.id && !cmp y c

section

variable {S}

theorem erase_subperm (l : List NodeEvictionCandidate)
    (cmp : NodeEvictionCandidate → NodeEvictionCandidate → Bool) (k : Nat) :
    (eraseLastKElements S l cmp k).Subperm l :=
  ((take_sublist _ _).subperm).trans (S.perm cmp l).subperm

variable {l : List NodeEvictionCandidate}

theorem le_others_of_mem_erase (hl : (l.map (·.id)).Nodup)
    {cmp : NodeEvictionCandidate → NodeEvictionCandidate → Bool} (hcmp : StrictWeak cmp) {k : Nat}
    {c : NodeEvictionCandidate} (hc : c ∈ eraseLastKElements S l cmp k) : k ≤ others cmp l c := by
  have hperm := S.perm cmp l
  have hsorted := S.sorted cmp l hcmp
  have hids := (hperm.map (·.id)).nodup_iff.mpr hl
  rw [others, ← hperm.countP_eq]
  rw [eraseLastKElements] at hc
  generalize S.sort cmp l = s at hc hsorted hids ⊢
  rw [← take_append_drop (s.length - min k s.length) s] at hsorted hids ⊢
  rw [map_append, nodup_append] at hids
  -- all that was erased came after `c`
  have hall : (s.drop (s.length - min k s.length)).countP
      (fun y => y.id ≠ c.id && !cmp y c) = min k s.length := by
    rw [countP_eq_length.mpr, length_drop]
    · omega
    · intro y hy
      have hne := hids.2.2 _ (List.mem_map_of_mem hc) _ (List.mem_map_of_mem hy)
      have hlast := (pairwise_append.mp hsorted).2.2 c hc y hy
      simp [hlast, hne.symm]
  have hlen := length_pos_of_mem hc
  rw [length_take] at hlen
  rw [countP_append, hall]
  omega

variable {l' : List NodeEvictionCandidate}

theorem le_others_of_subperm (h : l.Subperm l')
    (cmp : NodeEvictionCandidate → NodeEvictionCandidate → Bool) (c : NodeEvictionCandidate) :
    others cmp l c ≤ others cmp l' c :=
  h.countP_le _

theorem nodup_of_subperm (h : l.Subperm l') (hl : (l'.map (·.id)).Nodup) :
    (l.map (·.id)).Nodup := by
  obtain ⟨m, hperm, hsub⟩ := h
  exact (hperm.map _).nodup_iff.mp ((hsub.map _).nodup hl)

theorem protect_spec (hl : (l.map (·.id)).Nodup) : (protect S l).Subperm l ∧
    ((protect S l).Pairwise fun a b => b.nTimeConnected ≤ a.nTimeConnected) ∧
    ∀ c ∈ protect S l, 4 ≤ others compareNetGroupKeyed l c ∧
      8 ≤ others reverseCompareNodeMinPingTime l c ∧ 4 ≤ others compareNodeTXTime l c ∧
      4 ≤ others compareNodeBlockTime l c := by
  have h1 := erase_subperm (S := S) l compareNetGroupKeyed 4
  have h2 := (erase_subperm (S := S) _ reverseCompareNodeMinPingTime 8).trans h1
  have h3 := (erase_subperm (S := S) _ compareNodeTXTime 4).trans h2
  have h4 := (erase_subperm (S := S) _ compareNodeBlockTime 4).trans h3
  refine ⟨(erase_subperm _ _ _).trans h4, ?_, fun c hc => ?_⟩
  · refine (List.Pairwise.sublist (take_sublist _ _)
      (S.sorted _ _ strictWeak_timeConnected)).imp fun h => ?_
    exact not_lt.mp (of_decide_eq_false h)
  · have hc4 := (erase_subperm _ _ _).subset hc
    have hc3 := (erase_subperm _ _ _).subset hc4
    have hc2 := (erase_subperm _ _ _).subset hc3
    have hc1 := (erase_subperm _ _ _).subset hc2
    exact ⟨le_others_of_mem_erase hl strictWeak_netGroup hc1,
      (le_others_of_mem_erase (nodup_of_subperm h1 hl) strictWeak_pingTime hc2).trans
        (le_others_of_subperm h1 _ c),
      (le_others_of_mem_erase (nodup_of_subperm h2 hl) strictWeak_txTime hc3).trans
        (le_others_of_subperm h2 _ c),
      (le_others_of_mem_erase (nodup_of_subperm h3 hl) strictWeak_blockTime hc4).trans
        (le_others_of_subperm h3 _ c)⟩

end

/-! ## The group -/

def groupOf (l : List NodeEvictionCandidate) (k : UInt64) : List NodeEvictionCandidate :=
  l.filter fun c => c.nKeyedNetGroup = k

/-- The groups of `l`, of which one with the most nodes is known, the youngest of these. -/
structure Counted (l : List NodeEvictionCandidate) (g : Groups) : Prop where
  map : ∀ k, g.mapNetGroupNodes k = groupOf l k
  most : l = [] ∧ g.nMostConnections = 0 ∨ ∃ front,
    (groupOf l g.naMostConnections).head? = some front ∧
    g.nMostConnections = (groupOf l g.naMostConnections).length ∧
    g.nMostConnectionsTime = front.nTimeConnected
  max : ∀ k front, (groupOf l k).head? = some front →
    (groupOf l k).length < g.nMostConnections ∨
      (groupOf l k).length = g.nMostConnections ∧ front.nTimeConnected ≤ g.nMostConnectionsTime

theorem Counted.step {g : Groups} (h : Counted l g) (node : NodeEvictionCandidate)
    (hfits : l.length + 1 < 2 ^ 32) : Counted (l ++ [node]) (groupStep g node) := by
  have hsame : groupOf (l ++ [node]) node.nKeyedNetGroup =
      groupOf l node.nKeyedNetGroup ++ [node] := by
    simp [groupOf]
  have hother : ∀ k, k ≠ node.nKeyedNetGroup → groupOf (l ++ [node]) k = groupOf l k := by
    intro k hk
    simp [groupOf, hk.symm]
  have hmap : ∀ k, Function.update g.mapNetGroupNodes node.nKeyedNetGroup
      (groupOf (l ++ [node]) node.nKeyedNetGroup) k = groupOf (l ++ [node]) k := by
    intro k
    by_cases hk : k = node.nKeyedNetGroup
    · rw [hk, Function.update_self]
    · rw [Function.update_of_ne hk, h.map, hother k hk]
  obtain ⟨front, hfront⟩ : ∃ f, (groupOf (l ++ [node]) node.nKeyedNetGroup).head? = some f := by
    refine Option.isSome_iff_exists.mp ?_
    rw [hsame]
    simp
  have hlen : (groupOf (l ++ [node]) node.nKeyedNetGroup).length < 2 ^ 32 := by
    refine Nat.lt_of_le_of_lt (length_filter_le _ _) ?_
    rwa [length_append]
  rw [groupStep, h.map, ← hsame, headD_eq_head?_getD, hfront, Option.getD_some]
  split
  · next hmore =>
    refine ⟨hmap, .inr ⟨front, hfront, Nat.mod_eq_of_lt hlen, rfl⟩, fun k f hf => ?_⟩
    dsimp only
    rw [Nat.mod_eq_of_lt hlen]
    by_cases hk : k = node.nKeyedNetGroup
    · subst hk
      cases hfront.symm.trans hf
      exact .inr ⟨rfl, le_refl _⟩
    · rw [hother k hk] at hf ⊢
      have := h.max k f hf
      omega
  · next hless =>
    rw [not_or] at hless
    -- the best group is another one, for this one has become larger
    have hmost : l ≠ [] ∧ g.naMostConnections ≠ node.nKeyedNetGroup := by
      rw [hsame, length_append, length_singleton] at hless
      rcases h.most with ⟨rfl, hzero⟩ | ⟨f, hf, hmost, -⟩
      · exact absurd hless.1 (by omega)
      · refine ⟨?_, fun heq => hless.1 ?_⟩
        · rintro rfl
          cases hf
        · rw [heq] at hmost
          omega
    refine ⟨hmap, .inr ?_, fun k f hf => ?_⟩
    · obtain ⟨f, hf⟩ := h.most.resolve_left fun h => hmost.1 h.1
      exact ⟨f, by rwa [hother _ hmost.2]⟩
    · by_cases hk : k = node.nKeyedNetGroup
      · subst hk
        cases hfront.symm.trans hf
        dsimp only
        omega
      · rw [hother k hk] at hf ⊢
        exact h.max k f hf

theorem Counted.run {rest : List NodeEvictionCandidate} {g : Groups} (h : Counted l g)
    (hfits : l.length + rest.length < 2 ^ 32) : Counted (l ++ rest) (rest.foldl groupStep g) := by
  induction rest generalizing l g with
  | nil => rwa [append_nil]
  | cons node rest ih =>
    rw [length_cons] at hfits
    have hstep := ih (h.step node (by omega)) (by rw [length_append]; simp; omega)
    rwa [append_assoc] at hstep

/-! ## The nodes -/

variable {vNodes : List CNode}

theorem markLoop_spec (hids : (vNodes.map (·.id)).Nodup) {node : CNode} (hnode : node ∈ vNodes) :
    ∃ before after, vNodes = before ++ node :: after ∧
      markLoop node.id vNodes = (true, before ++ { node with fDisconnect := true } :: after) := by
  induction vNodes with
  | nil => cases hnode
  | cons n vNodes ih =>
    rw [map_cons, nodup_cons] at hids
    rcases mem_cons.mp hnode with rfl | hmem
    · exact ⟨[], vNodes, rfl, if_pos rfl⟩
    · obtain ⟨before, after, hsplit, hmark⟩ := ih hids.2 hmem
      have hne : n.id ≠ node.id := fun h => hids.1 (h ▸ List.mem_map_of_mem hmem)
      refine ⟨n :: before, after, congrArg (n :: ·) hsplit, ?_⟩
      rw [markLoop, if_neg hne, hmark]
      rfl

theorem mem_candidates {ibd : Bool} {c : NodeEvictionCandidate} (h : c ∈ candidates ibd vNodes) :
    ∃ node ∈ vNodes, toCandidate ibd node = c ∧
      node.fWhitelisted = false ∧ node.fInbound = true ∧ node.fDisconnect = false := by
  obtain ⟨node, hnode, hc⟩ := mem_filterMap.mp h
  refine ⟨node, hnode, ?_⟩
  split at hc
  · cases hc
  · split at hc
    · cases hc
    · split at hc
      · cases hc
      · simp_all

theorem ids_candidates (ibd : Bool) (vNodes : List CNode) :
    ((candidates ibd vNodes).map (·.id)).Sublist (vNodes.map (·.id)) := by
  induction vNodes with
  | nil => exact List.Sublist.slnil
  | cons node vNodes ih =>
    rw [candidates, filterMap_cons]
    split
    · exact ih.cons _
    · next c hc =>
      have hid : c.id = node.id := by
        split_ifs at hc
        cases hc
        rfl
      rw [map_cons, map_cons, hid]
      exact ih.cons_cons _

/-- The connected nodes: `GetNewNodeId` counts, and every node has a socket, an `int`. -/
structure ConnectedNodes where
  vNodes : List CNode
  ids : (vNodes.map (·.id)).Nodup
  count : vNodes.length < 2 ^ 32

/-- Either no candidate is left, or one of these is marked, in a group with the most of them
    and among these groups the youngest one. -/
theorem attemptToEvictConnection_spec (S : StdSort) (ibd : Bool) (nodes : ConnectedNodes) :
    protect S (candidates ibd nodes.vNodes) = [] ∧
        attemptToEvictConnection S ibd nodes.vNodes = some (false, nodes.vNodes) ∨
    ∃ before node after, nodes.vNodes = before ++ node :: after ∧
      attemptToEvictConnection S ibd nodes.vNodes =
        some (true, before ++ { node with fDisconnect := true } :: after) ∧
      node.fWhitelisted = false ∧ node.fInbound = true ∧ node.fDisconnect = false ∧
      (4 ≤ others compareNetGroupKeyed (candidates ibd nodes.vNodes) (toCandidate ibd node) ∧
        8 ≤ others reverseCompareNodeMinPingTime (candidates ibd nodes.vNodes)
          (toCandidate ibd node) ∧
        4 ≤ others compareNodeTXTime (candidates ibd nodes.vNodes) (toCandidate ibd node) ∧
        4 ≤ others compareNodeBlockTime (candidates ibd nodes.vNodes) (toCandidate ibd node)) ∧
      toCandidate ibd node ∈ protect S (candidates ibd nodes.vNodes) ∧
      ∀ y ∈ protect S (candidates ibd nodes.vNodes),
        (groupOf (protect S (candidates ibd nodes.vNodes)) y.nKeyedNetGroup).length <
          (groupOf (protect S (candidates ibd nodes.vNodes)) node.nKeyedNetGroup).length ∨
        (groupOf (protect S (candidates ibd nodes.vNodes)) y.nKeyedNetGroup).length =
          (groupOf (protect S (candidates ibd nodes.vNodes)) node.nKeyedNetGroup).length ∧
        y.nTimeConnected ≤ node.nTimeConnected := by
  have hsub := ids_candidates ibd nodes.vNodes
  obtain ⟨hperm, hsorted, hmin⟩ := protect_spec (S := S) (hsub.nodup nodes.ids)
  have hlen := hperm.length_le
  have hcands := hsub.length_le
  have hcount := nodes.count
  rw [length_map, length_map] at hcands
  rw [attemptToEvictConnection]
  generalize hleft : protect S (candidates ibd nodes.vNodes) = left at hperm hsorted hmin hlen ⊢
  by_cases hnil : left = []
  · subst hnil
    exact .inl ⟨rfl, rfl⟩
  have hcounted : Counted left (left.foldl groupStep ⟨fun _ => [], 0, 0, 0⟩) :=
    Counted.run (l := []) ⟨fun _ => rfl, .inl ⟨rfl, rfl⟩, nofun⟩ (by simp; omega)
  obtain ⟨front, hfront, hmost, htime⟩ := hcounted.most.resolve_left fun h => hnil h.1
  obtain ⟨tail, hgroup⟩ := head?_eq_some_iff.mp hfront
  have hmem := hgroup ▸ mem_cons_self (a := front) (l := tail)
  obtain ⟨hleftMem, hkey⟩ := mem_filter.mp hmem
  have hkey := of_decide_eq_true hkey
  obtain ⟨node, hnode, rfl, hflags⟩ := mem_candidates (hperm.subset hleftMem)
  obtain ⟨before, after, hsplit, hmark⟩ := markLoop_spec nodes.ids hnode
  refine .inr ⟨before, node, after, hsplit, ?_, hflags.1, hflags.2.1, hflags.2.2,
    hmin _ hleftMem, hleftMem, fun y hy => ?_⟩
  · dsimp only
    rw [if_neg (by simpa using hnil), hcounted.map, hgroup]
    exact congrArg some hmark
  · have hyGroup : y ∈ groupOf left y.nKeyedNetGroup :=
      mem_filter.mpr ⟨hy, decide_eq_true rfl⟩
    obtain ⟨f, hf⟩ := exists_cons_of_ne_nil (ne_nil_of_mem hyGroup)
    obtain ⟨ftail, hf⟩ := hf
    -- the front of a group is its youngest member
    have hyoung : y.nTimeConnected ≤ f.nTimeConnected := by
      have hpair := hsorted.filter fun c => c.nKeyedNetGroup = y.nKeyedNetGroup
      rw [groupOf] at hf hyGroup
      rw [hf] at hpair hyGroup
      rcases mem_cons.mp hyGroup with rfl | hmem
      · exact le_refl _
      · exact (pairwise_cons.mp hpair).1 y hmem
    have hkey' : (toCandidate ibd node).nKeyedNetGroup = node.nKeyedNetGroup := rfl
    have hmax := hcounted.max y.nKeyedNetGroup f (by rw [hf]; rfl)
    have htime' : (toCandidate ibd node).nTimeConnected = node.nTimeConnected := rfl
    rw [hmost, htime, ← hkey, hkey', htime'] at hmax
    exact hmax.imp_right fun h => ⟨h.1, hyoung.trans h.2⟩

/-- The sort may be the stable one. -/
def StdSort.stable : StdSort where
  sort cmp l := l.mergeSort fun a b => !cmp b a
  perm cmp l := mergeSort_perm l _
  sorted cmp l h := by
    have hsorted := @pairwise_mergeSort _ (fun a b => !cmp b a) ?_ ?_ l
    · exact hsorted.imp fun h => by simpa using h
    · intro a b c hab hbc
      rw [Bool.not_eq_true'] at hab hbc ⊢
      exact h.incomp c b a hbc hab
    · intro a b
      cases hab : cmp a b with
      | false => simp
      | true => simp [h.asymm a b hab]

theorem length_erase (S : StdSort) (l : List NodeEvictionCandidate)
    (cmp : NodeEvictionCandidate → NodeEvictionCandidate → Bool) (k : Nat) :
    (eraseLastKElements S l cmp k).length = l.length - k := by
  have hlen := (S.perm cmp l).length_eq
  rw [eraseLastKElements, length_take]
  omega

/-- Twenty candidates are protected, and half of the others. -/
theorem length_protect (S : StdSort) (l : List NodeEvictionCandidate) :
    (protect S l).length = l.length - 20 - (l.length - 20) / 2 := by
  simp only [protect, length_erase]
  omega

/-- An outbound node, a whitelisted one and 23 others in three groups. -/
def sampleNodes : ConnectedNodes where
  vNodes := (range 25).map fun i : Nat =>
    { id := i, fWhitelisted := i == 1, fInbound := i != 0, fDisconnect := false
      nTimeConnected := 100 * i, nMinPingUsecTime := 7 * i % 10, nLastBlockTime := i % 4
      nLastTXTime := i % 5, nServices := 9, fRelayTxes := true, pfilter := false
      nKeyedNetGroup := .ofNat (i % 3) }
  ids := by decide
  count := by decide

theorem attemptToEvictConnection_sample : ∃ before node after,
    sampleNodes.vNodes = before ++ node :: after ∧
      attemptToEvictConnection .stable false sampleNodes.vNodes =
        some (true, before ++ { node with fDisconnect := true } :: after) ∧
      node.fWhitelisted = false ∧ node.fInbound = true ∧ node.fDisconnect = false := by
  rcases attemptToEvictConnection_spec .stable false sampleNodes with ⟨hnone, -⟩ | hevicted
  · have hlen := length_protect .stable (candidates false sampleNodes.vNodes)
    rw [hnone, show (candidates false sampleNodes.vNodes).length = 23 from rfl] at hlen
    exact absurd hlen (by decide)
  · obtain ⟨before, node, after, hsplit, hmark, hwhite, hinbound, hconnected, -⟩ := hevicted
    exact ⟨before, node, after, hsplit, hmark, hwhite, hinbound, hconnected⟩

end Eviction

end Rcoin
