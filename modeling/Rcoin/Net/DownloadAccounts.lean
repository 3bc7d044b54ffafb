/-
  The block downloads of all peers, counted two ways.  `PeerAccounts` says that
  `mapBlocksInFlight` and the peers' lists name the same downloads and that every
  counter is the count of what it stands for.  Each operation keeps it, and under
  it an operation can fail only because its peer is not there: no assertion of
  `FinalizeNode` is reached with a false condition and no iterator dangles.
-/
import Rcoin.Net.BlocksInFlight
import Rcoin.Lib.Fallible

namespace Rcoin

open List Maps PeerOp

/-! ## Lists with stable iterators -/

namespace NodeList

variable {α : Type*}

variable {l : NodeList α} {it : ListIterator}

variable {a : α}

theorem get?_of_mem (hl : (l.map Prod.fst).Nodup) (h : (it, a) ∈ l) : l.get? it = some a := by
  induction l with
  | nil => cases h
  | cons x l ih =>
    rw [map_cons, nodup_cons] at hl
    rw [get?, find?_cons]
    rcases mem_cons.mp h with rfl | hmem
    · rw [beq_self_eq_true]
      rfl
    · have hne : (x.1 == it) = false := by
        rw [beq_eq_false_iff_ne]
        rintro rfl
        exact hl.1 (List.mem_map.mpr ⟨_, hmem, rfl⟩)
      rw [hne]
      exact ih hl.2 hmem

theorem perm_erase (h : l.get? it = some a) : l.Perm ((it, a) :: l.erase it) := by
  induction l with
  | nil => cases h
  | cons x l ih =>
    by_cases hx : (x.1 == it) = true
    · have hxa : x = (it, a) := by
        rw [get?, find?_cons, hx] at h
        exact Prod.ext (by simpa using hx) (Option.some.inj h)
      have herase : erase (x :: l) it = l :=
        eraseP_cons_of_pos (p := fun y : ListIterator × α => y.1 == it) hx
      rw [herase, hxa]
    · have hl : get? l it = some a := by
        rw [get?, find?_cons, Bool.eq_false_iff.mpr hx] at h
        exact h
      have herase : erase (x :: l) it = x :: erase l it :=
        eraseP_cons_of_neg (p := fun y : ListIterator × α => y.1 == it) hx
      rw [herase]
      exact ((ih hl).cons x).trans (.swap _ _ _)

theorem mem_erase (hl : (l.map Prod.fst).Nodup) (h : l.get? it = some a) {x : ListIterator × α}
    : x ∈ l.erase it ↔ x ∈ l ∧ x.1 ≠ it := by
  have hperm := perm_erase h
  have hnd := (hperm.map Prod.fst).nodup_iff.mp hl
  rw [map_cons, nodup_cons] at hnd
  rw [hperm.mem_iff, mem_cons]
  constructor
  · intro hx
    exact ⟨.inr hx, fun heq => hnd.1 (List.mem_map.mpr ⟨x, hx, heq⟩)⟩
  · rintro ⟨rfl | hx, hne⟩
    · exact absurd rfl hne
    · exact hx

theorem nodup_erase (hl : (l.map Prod.fst).Nodup) (it : ListIterator) :
    ((l.erase it).map Prod.fst).Nodup :=
  hl.sublist (eraseP_sublist.map _)

theorem nodup_push_back (hl : (l.map Prod.fst).Nodup) (hit : ∀ x ∈ l, x.1 < it) (a : α)
    : ((l.push_back it a).map Prod.fst).Nodup := by
  rw [push_back, map_append, nodup_append]
  refine ⟨hl, nodup_singleton _, ?_⟩
  intro i hi j hj
  obtain ⟨x, hx, rfl⟩ := List.mem_map.mp hi
  have hj : j = it := by simpa using hj
  rw [hj]
  exact Nat.ne_of_lt (hit x hx)

end NodeList

open NodeList

/-! ## The accounts -/

/-- A peer's counters are the counts over its list. -/
structure CNodeState.Counted (state : CNodeState) : Prop where
  blocks : state.nBlocksInFlight = state.vBlocksInFlight.length
  validHeaders : state.nBlocksInFlightValidHeaders =
    state.vBlocksInFlight.countP fun x => x.2.fValidatedHeaders
  /-- No node is in the list twice. -/
  nodes : (state.vBlocksInFlight.map Prod.fst).Nodup

def CNodeState.hasValidatedDownloads (state : CNodeState) : Bool :=
  decide (0 < state.nBlocksInFlightValidHeaders)

/-- The counters of a peer agree with the queues. -/
structure PeerAccounts (s : PeerState) : Prop where
  /-- The map's entries are the elements of the lists, found by their hash. -/
  linked : ∀ hash nodeid it, s.mapBlocksInFlight.lookup hash = some (nodeid, it) ↔
    ∃ state queued, s.nodeState nodeid = some state ∧ (it, queued) ∈ state.vBlocksInFlight ∧
      queued.hash = hash
  counted : ∀ nodeid state, s.nodeState nodeid = some state → state.Counted
  /-- The next node is a new one. -/
  fresh : ∀ nodeid state, s.nodeState nodeid = some state →
    ∀ x ∈ state.vBlocksInFlight, x.1 < s.nextNode
  validated : s.nPeersWithValidatedDownloads =
    count CNodeState.hasValidatedDownloads s.mapNodeState
  preferred : s.nPreferredDownload = count CNodeState.fPreferredDownload s.mapNodeState
  guarded : s.g_outbound_peers_with_protect_from_disconnect =
    count CNodeState.m_protect s.mapNodeState

namespace PeerState

/-- The entries of `mapBlocksInFlight`. -/
def inFlight (s : PeerState) : List (Uint256 × NodeId × ListIterator) :=
  s.mapBlocksInFlight.entries.map fun e => (e.1, e.2)

/-- The elements of all peers' lists, each with its hash, its peer and its node. -/
def queued (s : PeerState) : List (Uint256 × NodeId × ListIterator) :=
  s.mapNodeState.entries.flatMap fun e => e.2.vBlocksInFlight.map fun x => (x.2.hash, e.1, x.1)

theorem nodeState_setNodeState (s : PeerState) (n n' : NodeId) (state : CNodeState) :
    (s.setNodeState n state).nodeState n' = if n' = n then some state else s.nodeState n' :=
  lookup_insert ..

variable {x : Uint256 × NodeId × ListIterator}

theorem mem_inFlight {s : PeerState} :
    x ∈ s.inFlight ↔ s.mapBlocksInFlight.lookup x.1 = some x.2 := by
  rw [lookup_eq_some_iff_mem, inFlight, List.mem_map]
  constructor
  · rintro ⟨e, he, rfl⟩
    exact he
  · intro h
    exact ⟨_, h, rfl⟩

theorem mem_queued {s : PeerState} :
    x ∈ s.queued ↔ ∃ state queued, s.nodeState x.2.1 = some state ∧
      (x.2.2, queued) ∈ state.vBlocksInFlight ∧ queued.hash = x.1 := by
  simp only [queued, mem_flatMap, List.mem_map]
  constructor
  · rintro ⟨e, he, y, hy, rfl⟩
    exact ⟨e.2, y.2, lookup_eq_some_iff_mem.mpr he, hy, rfl⟩
  · rintro ⟨state, queued, hs, hq, hh⟩
    refine ⟨⟨x.2.1, state⟩, lookup_eq_some_iff_mem.mp hs, (x.2.2, queued), hq, ?_⟩
    rw [hh]

end PeerState

namespace PeerAccounts

open PeerState

variable {s : PeerState}

theorem inFlight_perm (h : PeerAccounts s) : s.inFlight.Perm s.queued ∧ s.inFlight.Nodup := by
  have hin : s.inFlight.Nodup := by
    have hkeys : (s.inFlight.map Prod.fst).Nodup := by
      rw [inFlight, List.map_map]
      exact s.mapBlocksInFlight.nodupKeys
    exact Nodup.of_map _ hkeys
  have hq : s.queued.Nodup := by
    rw [queued, nodup_flatMap]
    constructor
    · intro e he
      have hc := (h.counted e.1 e.2 (lookup_eq_some_iff_mem.mpr he)).nodes
      refine Nodup.of_map (fun x : Uint256 × NodeId × ListIterator => x.2.2) ?_
      rw [List.map_map]
      exact hc
    · have hkeys : s.mapNodeState.entries.Pairwise fun e e' => e.1 ≠ e'.1 :=
        pairwise_map.mp s.mapNodeState.nodupKeys
      refine hkeys.imp fun {e e'} hne => ?_
      intro x hx hx'
      obtain ⟨y, -, rfl⟩ := List.mem_map.mp hx
      obtain ⟨y', -, heq⟩ := List.mem_map.mp hx'
      exact hne (congrArg (fun x => x.2.1) heq).symm
  refine ⟨(perm_ext_iff_of_nodup hin hq).mpr fun x => ?_, hin⟩
  rw [mem_inFlight, mem_queued]
  exact h.linked x.1 x.2.1 x.2.2

theorem empty : PeerAccounts {} where
  linked hash nodeid it := by
    constructor
    · intro h
      cases h
    · rintro ⟨state, queued, h, -⟩
      cases h
  counted nodeid state h := by cases h
  fresh nodeid state h := by cases h
  validated := rfl
  preferred := rfl
  guarded := rfl

end PeerAccounts

/-! ## The counters of one peer -/

namespace CNodeState

variable {state state' : CNodeState}

theorem Counted.of_same (h : state.Counted) (hv : state'.vBlocksInFlight = state.vBlocksInFlight)
    (hn : state'.nBlocksInFlight = state.nBlocksInFlight)
    (hvalid : state'.nBlocksInFlightValidHeaders = state.nBlocksInFlightValidHeaders) :
    state'.Counted where
  blocks := by rw [hn, hv]; exact h.blocks
  validHeaders := by rw [hvalid, hv]; exact h.validHeaders
  nodes := by rw [hv]; exact h.nodes

variable {queued : QueuedBlock}

theorem Counted.erase (h : state.Counted) (hq : state.vBlocksInFlight.get? it = some queued)
    (hv : state'.vBlocksInFlight = state.vBlocksInFlight.erase it)
    (hn : state'.nBlocksInFlight = state.nBlocksInFlight - 1)
    (hvalid : state'.nBlocksInFlightValidHeaders =
      state.nBlocksInFlightValidHeaders - queued.fValidatedHeaders.toInt) : state'.Counted := by
  have hperm := perm_erase hq
  have hlen := hperm.length_eq
  have hcount := hperm.countP_eq fun x => x.2.fValidatedHeaders
  rw [length_cons] at hlen
  rw [countP_cons] at hcount
  constructor
  · rw [hn, hv, h.blocks, hlen]
    omega
  · rw [hvalid, hv, h.validHeaders, hcount]
    cases queued.fValidatedHeaders <;> simp
  · rw [hv]
    exact nodup_erase h.nodes it

theorem Counted.push_back (h : state.Counted) (hit : ∀ x ∈ state.vBlocksInFlight, x.1 < it)
    (hv : state'.vBlocksInFlight = state.vBlocksInFlight.push_back it queued)
    (hn : state'.nBlocksInFlight = state.nBlocksInFlight + 1)
    (hvalid : state'.nBlocksInFlightValidHeaders =
      state.nBlocksInFlightValidHeaders + queued.fValidatedHeaders.toInt) : state'.Counted := by
  constructor
  · rw [hn, hv, h.blocks, NodeList.push_back, length_append]
    simp
  · rw [hvalid, hv, h.validHeaders, NodeList.push_back, countP_append]
    cases hq : queued.fValidatedHeaders <;> simp [hq]
  · rw [hv]
    exact nodup_push_back h.nodes hit queued

theorem Counted.validHeaders_nonneg (h : state.Counted) :
    0 ≤ state.nBlocksInFlightValidHeaders := by
  rw [h.validHeaders]
  exact Int.natCast_nonneg _

end CNodeState

open CNodeState

namespace PeerAccounts

open PeerState

variable {s : PeerState}

/-! ## One peer's flags -/

variable {n : NodeId}

theorem linked_setNodeState (h : PeerAccounts s) (hs : s.nodeState n = some state)
    (hv : state'.vBlocksInFlight = state.vBlocksInFlight) (hash : Uint256) (nodeid : NodeId)
    (it : ListIterator) : s.mapBlocksInFlight.lookup hash = some (nodeid, it) ↔
      ∃ st queued, (s.setNodeState n state').nodeState nodeid = some st ∧
        (it, queued) ∈ st.vBlocksInFlight ∧ queued.hash = hash := by
  rw [h.linked, nodeState_setNodeState]
  by_cases hn : nodeid = n
  · subst hn
    rw [if_pos rfl, hs]
    constructor
    · rintro ⟨st, queued, hst, hq, hh⟩
      cases hst
      exact ⟨state', queued, rfl, hv ▸ hq, hh⟩
    · rintro ⟨st, queued, hst, hq, hh⟩
      cases hst
      exact ⟨state, queued, rfl, hv ▸ hq, hh⟩
  · rw [if_neg hn]

theorem nodeState_cases {n' : NodeId} {st : CNodeState}
    (h : (s.setNodeState n state).nodeState n' = some st) :
    n' = n ∧ st = state ∨ n' ≠ n ∧ s.nodeState n' = some st := by
  rw [nodeState_setNodeState] at h
  split at h
  next hn => exact .inl ⟨hn, (Option.some.inj h).symm⟩
  next hn => exact .inr ⟨hn, h⟩

theorem count_setNodeState {p : CNodeState → Bool} (hs : s.nodeState n = some state)
    (state' : CNodeState) : (count p (s.setNodeState n state').mapNodeState : Int) =
      count p s.mapNodeState - (p state).toInt + (p state').toInt := by
  have hc := count_insert (p := p) state' (show s.mapNodeState.lookup n = some state from hs)
  show ((count p (s.mapNodeState.insert n state') : Nat) : Int) = _
  have hb : ∀ b : Bool, b.toInt = (b.toNat : Int) := fun b => by cases b <;> rfl
  rw [hb, hb]
  omega

variable {s' : PeerState}

variable (h : PeerAccounts s)

include h

theorem writePeer (hs : s.nodeState n = some state)
    (hnodes : s'.mapNodeState = (s.setNodeState n state').mapNodeState)
    (hlinked : ∀ hash nodeid it, s'.mapBlocksInFlight.lookup hash = some (nodeid, it) ↔
      ∃ st queued, (s.setNodeState n state').nodeState nodeid = some st ∧
        (it, queued) ∈ st.vBlocksInFlight ∧ queued.hash = hash) (hcounted : state'.Counted)
    (hnext : s.nextNode ≤ s'.nextNode) (hfresh : ∀ x ∈ state'.vBlocksInFlight, x.1 < s'.nextNode)
    (hvalidated : s'.nPeersWithValidatedDownloads = s.nPeersWithValidatedDownloads -
      state.hasValidatedDownloads.toInt + state'.hasValidatedDownloads.toInt)
    (hpreferred : s'.nPreferredDownload = s.nPreferredDownload -
      state.fPreferredDownload.toInt + state'.fPreferredDownload.toInt)
    (hguarded : s'.g_outbound_peers_with_protect_from_disconnect =
      s.g_outbound_peers_with_protect_from_disconnect - state.m_protect.toInt +
        state'.m_protect.toInt)
    : PeerAccounts s' := by
  have hstate : ∀ nodeid, s'.nodeState nodeid = (s.setNodeState n state').nodeState nodeid :=
    fun nodeid => congrArg (AList.lookup nodeid) hnodes
  refine ⟨fun hash nodeid it => ?_, fun nodeid st hst => ?_, fun nodeid st hst x hx => ?_, ?_, ?_,
    ?_⟩
  · simp only [hstate]
    exact hlinked hash nodeid it
  · rcases nodeState_cases ((hstate nodeid).symm.trans hst) with ⟨-, rfl⟩ | ⟨-, hold⟩
    · exact hcounted
    · exact h.counted nodeid st hold
  · rcases nodeState_cases ((hstate nodeid).symm.trans hst) with ⟨-, rfl⟩ | ⟨-, hold⟩
    · exact hfresh x hx
    · exact Nat.lt_of_lt_of_le (h.fresh nodeid st hold x hx) hnext
  · rw [hnodes, count_setNodeState hs, ← h.validated, hvalidated]
  · rw [hnodes, count_setNodeState hs, ← h.preferred, hpreferred]
  · rw [hnodes, count_setNodeState hs, ← h.guarded, hguarded]

theorem setFlags (state' : CNodeState) (hs : s.nodeState n = some state)
    (hv : state'.vBlocksInFlight = state.vBlocksInFlight)
    (hn : state'.nBlocksInFlight = state.nBlocksInFlight)
    (hvalid : state'.nBlocksInFlightValidHeaders = state.nBlocksInFlightValidHeaders) :
    PeerAccounts { s.setNodeState n state' with
      nPreferredDownload := s.nPreferredDownload - state.fPreferredDownload.toInt +
        state'.fPreferredDownload.toInt
      g_outbound_peers_with_protect_from_disconnect :=
        s.g_outbound_peers_with_protect_from_disconnect - state.m_protect.toInt +
          state'.m_protect.toInt } := by
  have hsame : state'.hasValidatedDownloads = state.hasValidatedDownloads := by
    rw [hasValidatedDownloads, hvalid, hasValidatedDownloads]
  refine h.writePeer hs rfl (h.linked_setNodeState hs hv)
    ((h.counted n state hs).of_same hv hn hvalid) (Nat.le_refl _)
    (fun x hx => h.fresh n state hs x (hv ▸ hx)) ?_ rfl rfl
  rw [hsame, Int.sub_add_cancel]
  rfl

theorem updatePreferredDownload {node : CNode} (hrun : s.updatePreferredDownload node = .ok s') :
    PeerAccounts s' := by
  unfold PeerState.updatePreferredDownload at hrun
  cases hs : s.nodeState node.id with
  | none => rw [hs] at hrun; cases hrun
  | some state =>
    rw [hs] at hrun
    cases hrun
    have hset := h.setFlags { state with fPreferredDownload :=
      (!node.fInbound || node.fWhitelisted) && !node.fOneShot && !node.fClient } hs rfl rfl rfl
    have hguard : s.g_outbound_peers_with_protect_from_disconnect - state.m_protect.toInt +
        state.m_protect.toInt = s.g_outbound_peers_with_protect_from_disconnect := by omega
    rw [hguard] at hset
    exact hset

theorem protectPeer {node : CNode} {bestKnownWork : Option Uint256} {tipWork : Uint256}
    (hrun : s.protectPeer node bestKnownWork tipWork = .ok s')
    : PeerAccounts s' := by
  unfold PeerState.protectPeer at hrun
  cases hs : s.nodeState node.id with
  | none => rw [hs] at hrun; cases hrun
  | some state =>
    rw [hs] at hrun
    cases bestKnownWork with
    | none => cases hrun; exact h
    | some work =>
      dsimp only at hrun
      split at hrun
      next hc =>
        cases hrun
        have hprot : state.m_protect = false := by
          simp only [Bool.and_eq_true, Bool.not_eq_true'] at hc
          exact hc.2
        have hset := h.setFlags { state with m_protect := true } hs rfl rfl rfl
        have hpref : s.nPreferredDownload - state.fPreferredDownload.toInt +
            state.fPreferredDownload.toInt = s.nPreferredDownload := by omega
        have hguard : s.g_outbound_peers_with_protect_from_disconnect - state.m_protect.toInt +
            (true : Bool).toInt = s.g_outbound_peers_with_protect_from_disconnect + 1 := by
          rw [hprot]
          show _ - (0 : Int) + 1 = _
          omega
        rw [hpref, hguard] at hset
        exact hset
      next => cases hrun; exact h

/-! ## Peers that come -/

theorem initializeNode (node : CNode) : PeerAccounts (s.initializeNode node) := by
  unfold PeerState.initializeNode
  cases hs : s.mapNodeState.lookup node.id with
  | some state =>
    have hsame : insertNew s.mapNodeState node.id ({} : CNodeState) = s.mapNodeState := by
      rw [insertNew, if_pos (AList.lookup_isSome.mp (by rw [hs]; rfl))]
    rw [hsame]
    exact h
  | none =>
    have hnew : insertNew s.mapNodeState node.id ({} : CNodeState) =
        s.mapNodeState.insert node.id {} := by
      rw [insertNew, if_neg (AList.lookup_eq_none.mp hs)]
    rw [hnew]
    have hcount : ∀ p : CNodeState → Bool, p {} = false →
        count p (s.mapNodeState.insert node.id {}) = count p s.mapNodeState := by
      intro p hp
      rw [count_insert_new _ hs, hp]
      rfl
    refine ⟨?_, ?_, ?_, ?_, ?_, ?_⟩
    · intro hash nodeid it
      show s.mapBlocksInFlight.lookup hash = some (nodeid, it) ↔ ∃ st queued,
        (s.setNodeState node.id {}).nodeState nodeid = some st ∧ _
      rw [h.linked]
      constructor
      · rintro ⟨st, queued, hst, hq⟩
        have hne : nodeid ≠ node.id := by
          rintro rfl
          cases hst.symm.trans hs
        refine ⟨st, queued, ?_, hq⟩
        rw [nodeState_setNodeState, if_neg hne]
        exact hst
      · rintro ⟨st, queued, hst, hq⟩
        rcases nodeState_cases hst with ⟨-, rfl⟩ | ⟨-, hold⟩
        · cases hq.1
        · exact ⟨st, queued, hold, hq⟩
    · intro nodeid st hst
      rcases nodeState_cases (s := s) hst with ⟨-, rfl⟩ | ⟨-, hold⟩
      · exact ⟨rfl, rfl, nodup_nil⟩
      · exact h.counted nodeid st hold
    · intro nodeid st hst x hx
      rcases nodeState_cases (s := s) hst with ⟨-, rfl⟩ | ⟨-, hold⟩
      · cases hx
      · exact h.fresh nodeid st hold x hx
    · exact h.validated.trans (congrArg Nat.cast (hcount _ rfl).symm)
    · exact h.preferred.trans (congrArg Nat.cast (hcount _ rfl).symm)
    · exact h.guarded.trans (congrArg Nat.cast (hcount _ rfl).symm)

omit h

/-! ## Blocks that are asked for and come -/

variable {nodeid : NodeId}

variable {hash : Uint256}

theorem queued_of_lookup (h : PeerAccounts s)
    (hl : s.mapBlocksInFlight.lookup hash = some (nodeid, it)) :
    ∃ state queued, s.nodeState nodeid = some state ∧
      state.vBlocksInFlight.get? it = some queued ∧ queued.hash = hash := by
  obtain ⟨state, queued, hs, hq, hh⟩ := (h.linked hash nodeid it).mp hl
  exact ⟨state, queued, hs, get?_of_mem (h.counted nodeid state hs).nodes hq, hh⟩

theorem validated_erase {nValid nValid' nPeers : Int} {b : Bool} (hpos : 0 ≤ nValid')
    (hvalid : nValid' = nValid - b.toInt) :
    (if nValid' = 0 ∧ b = true then nPeers - 1 else nPeers) =
      nPeers - (decide (0 < nValid)).toInt + (decide (0 < nValid')).toInt := by
  cases b with
  | false =>
    have heq : nValid' = nValid := by simpa using hvalid
    rw [heq, if_neg (by simp)]
    omega
  | true =>
    have heq : nValid = nValid' + 1 := by
      have : nValid' = nValid - 1 := hvalid
      omega
    have hgt : decide (0 < nValid) = true := decide_eq_true (by omega)
    rw [hgt]
    by_cases hz : nValid' = 0
    · rw [if_pos ⟨hz, rfl⟩, hz]
      show _ = _ - (1 : Int) + 0
      omega
    · rw [if_neg fun hc => hz hc.1, decide_eq_true (show 0 < nValid' by omega)]
      omega

theorem receiveQueued (h : PeerAccounts s) {queued : QueuedBlock}
    (hl : s.mapBlocksInFlight.lookup hash = some (nodeid, it))
    (hs : s.nodeState nodeid = some state) (hq : state.vBlocksInFlight.get? it = some queued)
    (hh : queued.hash = hash) (now : Int) :
    PeerAccounts (s.receiveQueued hash nodeid it state queued now) := by
  have hc := h.counted nodeid state hs
  unfold PeerState.receiveQueued
  dsimp only
  generalize hstate' : ({ state with
    nBlocksInFlightValidHeaders :=
      state.nBlocksInFlightValidHeaders - queued.fValidatedHeaders.toInt
    nDownloadingSince :=
      if state.vBlocksInFlight.isFirst it then max state.nDownloadingSince now
      else state.nDownloadingSince
    vBlocksInFlight := state.vBlocksInFlight.erase it
    nBlocksInFlight := state.nBlocksInFlight - 1
    nStallingSince := 0 } : CNodeState) = state'
  have hc' : state'.Counted := by
    subst hstate'
    exact hc.erase hq rfl rfl rfl
  have hv : state'.vBlocksInFlight = state.vBlocksInFlight.erase it := by rw [← hstate']
  have hvalid : state'.nBlocksInFlightValidHeaders =
      state.nBlocksInFlightValidHeaders - queued.fValidatedHeaders.toInt := by rw [← hstate']
  have hpref : state'.fPreferredDownload = state.fPreferredDownload := by rw [← hstate']
  have hprot : state'.m_protect = state.m_protect := by rw [← hstate']
  have hmem : ∀ x, x ∈ state'.vBlocksInFlight ↔ x ∈ state.vBlocksInFlight ∧ x.1 ≠ it := by
    intro x
    rw [hv]
    exact mem_erase hc.nodes hq
  refine h.writePeer hs rfl ?_ hc' (Nat.le_refl _)
    (fun x hx => h.fresh nodeid state hs x ((hmem x).mp hx).1) ?_ ?_ ?_
  · intro hash' nodeid' it'
    rw [lookup_erase]
    constructor
    · intro hl'
      by_cases hhash : hash' = hash
      · rw [if_pos hhash] at hl'
        cases hl'
      · rw [if_neg hhash] at hl'
        obtain ⟨st, q, hst, hmemq, hqh⟩ := (h.linked hash' nodeid' it').mp hl'
        rw [nodeState_setNodeState]
        by_cases hn : nodeid' = nodeid
        · subst hn
          cases hst.symm.trans hs
          refine ⟨state', q, if_pos rfl, (hmem _).mpr ⟨hmemq, ?_⟩, hqh⟩
          -- the node erased is the one of another hash
          rintro rfl
          have hget := get?_of_mem hc.nodes hmemq
          cases hget.symm.trans hq
          exact hhash (hqh.symm.trans hh)
        · exact ⟨st, q, (if_neg hn).trans hst, hmemq, hqh⟩
    · rintro ⟨st, q, hst, hmemq, hqh⟩
      rcases nodeState_cases hst with ⟨rfl, rfl⟩ | ⟨hn, hold⟩
      · obtain ⟨hold, hne⟩ := (hmem _).mp hmemq
        have hl' := (h.linked hash' nodeid' it').mpr ⟨state, q, hs, hold, hqh⟩
        rw [if_neg ?_]
        · exact hl'
        · rintro rfl
          exact hne (congrArg Prod.snd (Option.some.inj (hl'.symm.trans hl)))
      · have hl' := (h.linked hash' nodeid' it').mpr ⟨st, q, hold, hmemq, hqh⟩
        rw [if_neg ?_]
        · exact hl'
        · rintro rfl
          exact hn (congrArg Prod.fst (Option.some.inj (hl'.symm.trans hl)))
  · exact hvalid ▸ validated_erase hc'.validHeaders_nonneg hvalid
  · rw [hpref, Int.sub_add_cancel]
    rfl
  · rw [hprot, Int.sub_add_cancel]
    rfl

theorem validated_push {nValid nValid' nPeers : Int} {b : Bool} (hpos : 0 ≤ nValid)
    (hvalid : nValid' = nValid + b.toInt) :
    (if nValid' = 1 ∧ b = true then nPeers + 1 else nPeers) =
      nPeers - (decide (0 < nValid)).toInt + (decide (0 < nValid')).toInt := by
  have hsub : nValid = nValid' - b.toInt := by omega
  by_cases hc : nValid' = 1 ∧ b = true
  · obtain ⟨h1, rfl⟩ := hc
    have hz : nValid = 0 := by
      have : nValid = nValid' - 1 := hsub
      omega
    rw [if_pos ⟨h1, rfl⟩, hz, h1]
    show _ = _ - (0 : Int) + 1
    omega
  · rw [if_neg hc]
    have hsame : decide (0 < nValid) = decide (0 < nValid') := by
      cases b with
      | false =>
        have heq : nValid' = nValid := by simpa using hvalid
        rw [heq]
      | true =>
        have heq : nValid' = nValid + 1 := hvalid
        have hne : nValid' ≠ 1 := fun h1 => hc ⟨h1, rfl⟩
        rw [decide_eq_true (show 0 < nValid by omega), decide_eq_true (show 0 < nValid' by omega)]
    rw [hsame]
    omega

theorem queueBlock (h : PeerAccounts s) (hs : s.nodeState nodeid = some state)
    (hl : s.mapBlocksInFlight.lookup hash = none) (pindex : Option Uint256) (pit : Bool) (now : Int)
    : PeerAccounts (s.queueBlock nodeid state hash pindex pit now) := by
  have hc := h.counted nodeid state hs
  unfold PeerState.queueBlock
  dsimp only
  obtain ⟨queued, hqueued⟩ : ∃ q, QueuedBlock.mk hash pindex pindex.isSome pit = q := ⟨_, rfl⟩
  generalize hstate' : ({ state with
    vBlocksInFlight := state.vBlocksInFlight.push_back s.nextNode
      (QueuedBlock.mk hash pindex pindex.isSome pit)
    nBlocksInFlight := state.nBlocksInFlight + 1
    nBlocksInFlightValidHeaders := state.nBlocksInFlightValidHeaders + pindex.isSome.toInt
    nDownloadingSince :=
      if state.nBlocksInFlight + 1 = 1 then now else state.nDownloadingSince } : CNodeState)
    = state'
  have hqhash : queued.hash = hash := by rw [← hqueued]
  have hvalid : state'.nBlocksInFlightValidHeaders =
      state.nBlocksInFlightValidHeaders + pindex.isSome.toInt := by rw [← hstate']
  have hc' : state'.Counted := by
    subst hstate'
    exact hc.push_back (h.fresh nodeid state hs) rfl rfl rfl
  have hpref : state'.fPreferredDownload = state.fPreferredDownload := by rw [← hstate']
  have hprot : state'.m_protect = state.m_protect := by rw [← hstate']
  have hmem : ∀ x, x ∈ state'.vBlocksInFlight ↔
      x ∈ state.vBlocksInFlight ∨ x = (s.nextNode, queued) := by
    intro x
    rw [← hstate', hqueued]
    show x ∈ state.vBlocksInFlight ++ [(s.nextNode, queued)] ↔ _
    rw [mem_append, mem_singleton]
  have hnew : insertNew s.mapBlocksInFlight hash (nodeid, s.nextNode) =
      s.mapBlocksInFlight.insert hash (nodeid, s.nextNode) := by
    rw [insertNew, if_neg (AList.lookup_eq_none.mp hl)]
  rw [hnew]
  refine h.writePeer hs rfl ?_ hc' (Nat.le_succ _) (fun x hx => ?_) ?_ ?_ ?_
  · intro hash' nodeid' it'
    rw [lookup_insert]
    constructor
    · intro hl'
      by_cases hhash : hash' = hash
      · rw [if_pos hhash] at hl'
        cases hl'
        refine ⟨state', queued, ?_, (hmem _).mpr (.inr rfl), hqhash.trans hhash.symm⟩
        rw [nodeState_setNodeState, if_pos rfl]
      · rw [if_neg hhash] at hl'
        obtain ⟨st, q, hst, hmemq, hqh⟩ := (h.linked hash' nodeid' it').mp hl'
        rw [nodeState_setNodeState]
        by_cases hn : nodeid' = nodeid
        · subst hn
          cases hst.symm.trans hs
          exact ⟨state', q, if_pos rfl, (hmem _).mpr (.inl hmemq), hqh⟩
        · exact ⟨st, q, (if_neg hn).trans hst, hmemq, hqh⟩
    · rintro ⟨st, q, hst, hmemq, hqh⟩
      -- an element that was there has a hash that was in the map
      have hold : ∀ st', s.nodeState nodeid' = some st' → (it', q) ∈ st'.vBlocksInFlight →
          (if hash' = hash then some (nodeid, s.nextNode) else s.mapBlocksInFlight.lookup hash') =
            some (nodeid', it') := by
        intro st' hst' hq'
        have hl' := (h.linked hash' nodeid' it').mpr ⟨st', q, hst', hq', hqh⟩
        rw [if_neg ?_]
        · exact hl'
        · rintro rfl
          cases hl'.symm.trans hl
      rcases nodeState_cases hst with ⟨rfl, rfl⟩ | ⟨-, hst'⟩
      · rcases (hmem _).mp hmemq with hq' | heq
        · exact hold state hs hq'
        · cases heq
          rw [if_pos (hqh.symm.trans hqhash)]
      · exact hold st hst' hmemq
  · rcases (hmem x).mp hx with hx' | rfl
    · exact Nat.lt_succ_of_lt (h.fresh nodeid state hs x hx')
    · exact Nat.lt_succ_self _
  · exact hvalid ▸ validated_push hc.validHeaders_nonneg hvalid
  · rw [hpref, Int.sub_add_cancel]
    rfl
  · rw [hprot, Int.sub_add_cancel]
    rfl

theorem markBlockAsReceived (h : PeerAccounts s) (hash : Uint256) (now : Int) :
    ∃ s' b, s.markBlockAsReceived hash now = .ok (s', b) ∧ PeerAccounts s' ∧
      s'.mapBlocksInFlight.lookup hash = none ∧
      ∀ nodeid, (s'.nodeState nodeid).isSome = (s.nodeState nodeid).isSome := by
  unfold PeerState.markBlockAsReceived
  cases hl : s.mapBlocksInFlight.lookup hash with
  | none => exact ⟨s, false, rfl, h, hl, fun _ => rfl⟩
  | some x =>
    obtain ⟨nodeid, it⟩ := x
    obtain ⟨state, queued, hs, hq, hh⟩ := h.queued_of_lookup hl
    dsimp only
    rw [hs]
    dsimp only
    rw [hq]
    refine ⟨_, true, rfl, h.receiveQueued hl hs hq hh now, ?_, ?_⟩
    · show (s.mapBlocksInFlight.erase hash).lookup hash = none
      rw [lookup_erase, if_pos rfl]
    · intro nodeid'
      show ((s.setNodeState nodeid _).nodeState nodeid').isSome = _
      rw [nodeState_setNodeState]
      split
      next hn => rw [hn, hs]; rfl
      next => rfl

theorem queueFor (h : PeerAccounts s) (hash : Uint256) (pindex : Option Uint256) (pit : Bool)
    (now : Int) (hl : s.mapBlocksInFlight.lookup hash = none)
    (hs : (s.nodeState nodeid).isSome = true) :
    ∃ s' r, markBlockAsInFlight.queueFor nodeid hash pindex pit now s = .ok (s', r) ∧
      PeerAccounts s' := by
  obtain ⟨state, hs⟩ := Option.isSome_iff_exists.mp hs
  unfold markBlockAsInFlight.queueFor
  rw [hs]
  exact ⟨_, _, rfl, h.queueBlock hs hl pindex pit now⟩

theorem markBlockAsInFlight (h : PeerAccounts s) (hs : (s.nodeState nodeid).isSome = true)
    (hash : Uint256) (pindex : Option Uint256) (pit : Bool) (now : Int) :
    ∃ s' r, s.markBlockAsInFlight nodeid hash pindex pit now = .ok (s', r) ∧ PeerAccounts s' := by
  obtain ⟨s1, b, hrun, h₁, hl1, hsome⟩ := h.markBlockAsReceived hash now
  obtain ⟨s2, r, hqueue, h2⟩ :=
    h₁.queueFor hash pindex pit now hl1 ((hsome nodeid).trans hs)
  obtain ⟨state, hs⟩ := Option.isSome_iff_exists.mp hs
  have hreceive : (s.markBlockAsReceived hash now >>= fun x =>
      markBlockAsInFlight.queueFor nodeid hash pindex pit now x.1) = .ok (s2, r) := by
    rw [hrun]
    exact hqueue
  unfold PeerState.markBlockAsInFlight
  rw [hs]
  cases hl : s.mapBlocksInFlight.lookup hash with
  | none => exact ⟨s2, r, hreceive, h2⟩
  | some x =>
    dsimp only
    split
    next => exact ⟨s, _, rfl, h⟩
    next => exact ⟨s2, r, hreceive, h2⟩

/-! ## Peers that leave -/

theorem lookup_eraseAll (l : NodeList QueuedBlock)
    (m : AList fun _ : Uint256 => NodeId × ListIterator) (hash : Uint256) :
    (l.foldl (fun m x => m.erase x.2.hash) m).lookup hash =
      if hash ∈ l.map (fun x => x.2.hash) then none else m.lookup hash := by
  induction l generalizing m with
  | nil => rfl
  | cons x l ih =>
    rw [foldl_cons, ih, lookup_erase, map_cons]
    by_cases hx : hash = x.2.hash
    · rw [if_pos hx, if_pos (mem_cons.mpr (Or.inl hx)), ite_self]
    · rw [if_neg hx]
      by_cases hm : hash ∈ l.map fun x => x.2.hash
      · rw [if_pos hm, if_pos (mem_cons_of_mem _ hm)]
      · rw [if_neg hm, if_neg fun hc => (mem_cons.mp hc).elim hx hm]

theorem removeNode (h : PeerAccounts s) (hs : s.nodeState nodeid = some state)
    (nSyncStarted : Int) :
    PeerAccounts { s with
      mapNodeState := s.mapNodeState.erase nodeid
      mapBlocksInFlight := state.vBlocksInFlight.foldl (fun m x => m.erase x.2.hash)
        s.mapBlocksInFlight
      nSyncStarted := nSyncStarted
      nPreferredDownload := s.nPreferredDownload - state.fPreferredDownload.toInt
      nPeersWithValidatedDownloads := s.nPeersWithValidatedDownloads -
        (decide (state.nBlocksInFlightValidHeaders ≠ 0)).toInt
      g_outbound_peers_with_protect_from_disconnect :=
        s.g_outbound_peers_with_protect_from_disconnect - state.m_protect.toInt } := by
  have hc := h.counted nodeid state hs
  -- each counter of peers loses the peer that goes if it counted it
  have hcount : ∀ p : CNodeState → Bool, (count p (s.mapNodeState.erase nodeid) : Int) =
      count p s.mapNodeState - (p state).toInt := by
    intro p
    have he := count_erase (p := p) (show s.mapNodeState.lookup nodeid = some state from hs)
    cases hp : p state with
    | false =>
      rw [hp] at he
      show _ = _ - (0 : Int)
      have he : count p (s.mapNodeState.erase nodeid) = count p s.mapNodeState := he
      omega
    | true =>
      rw [hp] at he
      show _ = _ - (1 : Int)
      have he : count p (s.mapNodeState.erase nodeid) + 1 = count p s.mapNodeState := he
      omega
  have hcases : ∀ nodeid' st, (s.mapNodeState.erase nodeid).lookup nodeid' = some st →
      nodeid' ≠ nodeid ∧ s.nodeState nodeid' = some st := by
    intro nodeid' st hst
    rw [lookup_erase] at hst
    split at hst
    · cases hst
    next hn => exact ⟨hn, hst⟩
  refine ⟨?_, ?_, ?_, ?_, ?_, ?_⟩
  · intro hash nodeid' it
    show AList.lookup hash (state.vBlocksInFlight.foldl (fun m x => m.erase x.2.hash)
      s.mapBlocksInFlight) = some (nodeid', it) ↔ ∃ st q,
        (s.mapNodeState.erase nodeid).lookup nodeid' = some st ∧ _
    rw [lookup_eraseAll]
    constructor
    · intro hl
      split at hl
      · cases hl
      next hout =>
        obtain ⟨st, q, hst, hmem, hqh⟩ := (h.linked hash nodeid' it).mp hl
        refine ⟨st, q, ?_, hmem, hqh⟩
        rw [lookup_erase, if_neg ?_]
        · exact hst
        · rintro rfl
          cases hst.symm.trans hs
          -- its own blocks went with it
          exact hout (List.mem_map.mpr ⟨(it, q), hmem, hqh⟩)
    · rintro ⟨st, q, hst, hmem, hqh⟩
      obtain ⟨hn, hold⟩ := hcases nodeid' st hst
      have hl := (h.linked hash nodeid' it).mpr ⟨st, q, hold, hmem, hqh⟩
      rw [if_neg ?_]
      · exact hl
      -- a hash is in flight from one peer only
      · intro hin
        obtain ⟨y, hy, hyh⟩ := List.mem_map.mp hin
        have hl' := (h.linked hash nodeid y.1).mpr ⟨state, y.2, hs, hy, hyh⟩
        exact hn (congrArg Prod.fst (Option.some.inj (hl.symm.trans hl')))
  · intro nodeid' st hst
    exact h.counted nodeid' st (hcases nodeid' st hst).2
  · intro nodeid' st hst
    exact h.fresh nodeid' st (hcases nodeid' st hst).2
  · refine Eq.trans ?_ (hcount hasValidatedDownloads).symm
    have hpos := hc.validHeaders_nonneg
    have hsame : decide (state.nBlocksInFlightValidHeaders ≠ 0) = state.hasValidatedDownloads := by
      rw [hasValidatedDownloads, decide_eq_decide]
      omega
    rw [← h.validated, hsame]
  · exact (congrArg (· - _) h.preferred).trans (hcount fPreferredDownload).symm
  · exact (congrArg (· - _) h.guarded).trans (hcount m_protect).symm

theorem of_no_peers (h : PeerAccounts s) (hnone : s.mapNodeState.entries.isEmpty = true) :
    s.mapBlocksInFlight.entries.isEmpty = true ∧ s.nPreferredDownload = 0 ∧
      s.nPeersWithValidatedDownloads = 0 ∧
      s.g_outbound_peers_with_protect_from_disconnect = 0 := by
  have hentries : s.mapNodeState.entries = [] := List.isEmpty_iff.mp hnone
  have hcount : ∀ p : CNodeState → Bool, count p s.mapNodeState = 0 := by
    intro p
    rw [Maps.count, hentries, countP_nil]
  refine ⟨?_, ?_, ?_, ?_⟩
  · rw [List.isEmpty_iff, eq_nil_iff_forall_not_mem]
    intro e he
    obtain ⟨state, queued, hs, -⟩ :=
      (h.linked e.1 e.2.1 e.2.2).mp (lookup_eq_some_iff_mem.mpr he)
    have hmem := lookup_eq_some_iff_mem.mp hs
    rw [hentries] at hmem
    cases hmem
  · rw [h.preferred, hcount]; rfl
  · rw [h.validated, hcount]; rfl
  · rw [h.guarded, hcount]; rfl

theorem finalizeNode (h : PeerAccounts s) (hs : (s.nodeState nodeid).isSome = true) :
    ∃ s' b, s.finalizeNode nodeid = .ok (s', b) ∧ PeerAccounts s' := by
  obtain ⟨state, hs⟩ := Option.isSome_iff_exists.mp hs
  have hremove := h.removeNode hs
    (if state.fSyncStarted then s.nSyncStarted - 1 else s.nSyncStarted)
  have hvalidated := hremove.validated
  have hguarded := hremove.guarded
  dsimp only at hvalidated hguarded
  unfold PeerState.finalizeNode
  rw [hs]
  dsimp only
  rw [assert, if_pos (decide_eq_true (hvalidated ▸ Int.natCast_nonneg _)),
    assert, if_pos (decide_eq_true (hguarded ▸ Int.natCast_nonneg _))]
  split
  next hnone =>
    obtain ⟨hmap, hpref, hval, hprot⟩ := hremove.of_no_peers hnone
    refine ⟨_, decide (state.nMisbehavior = 0) && state.fCurrentlyConnected, ?_, hremove⟩
    rw [assert, if_pos hmap, assert, if_pos (decide_eq_true hpref),
      assert, if_pos (decide_eq_true hval), assert,
      if_pos (decide_eq_true hprot)]
    rfl
  next => exact ⟨_, _, rfl, hremove⟩

end PeerAccounts

/-! ## Runs -/

/-- The peer an operation takes for granted has a state. -/
def PeerOp.Known (s : PeerState) (op : PeerOp) : Prop :=
  ∀ nodeid, op.peer = some nodeid → (s.nodeState nodeid).isSome = true

variable {s : PeerState} {op : PeerOp}

theorem PeerAccounts.apply (h : PeerAccounts s) (hop : op.Known s) :
    ∃ s', op.apply s = .ok s' ∧ PeerAccounts s' := by
  cases op with
  | initializeNode node => exact ⟨_, rfl, h.initializeNode node⟩
  | finalizeNode nodeid =>
    obtain ⟨s', b, hrun, h'⟩ := h.finalizeNode (hop nodeid rfl)
    exact ⟨s', by rw [apply, hrun]; rfl, h'⟩
  | updatePreferredDownload node =>
    obtain ⟨state, hs⟩ := Option.isSome_iff_exists.mp (hop node.id rfl)
    obtain ⟨s', hrun⟩ : ∃ s', s.updatePreferredDownload node = .ok s' := by
      rw [PeerState.updatePreferredDownload, hs]
      exact ⟨_, rfl⟩
    exact ⟨s', hrun, h.updatePreferredDownload hrun⟩
  | markBlockAsInFlight nodeid hash pindex pit now =>
    obtain ⟨s', r, hrun, h'⟩ := h.markBlockAsInFlight (hop nodeid rfl) hash pindex pit now
    exact ⟨s', by rw [apply, hrun]; rfl, h'⟩
  | markBlockAsReceived hash now =>
    obtain ⟨s', b, hrun, h', -⟩ := h.markBlockAsReceived hash now
    exact ⟨s', by rw [apply, hrun]; rfl, h'⟩
  | protectPeer node bestKnownWork tipWork =>
    obtain ⟨state, hs⟩ := Option.isSome_iff_exists.mp (hop node.id rfl)
    obtain ⟨s', hrun⟩ : ∃ s', s.protectPeer node bestKnownWork tipWork = .ok s' := by
      rw [PeerState.protectPeer, hs]
      cases bestKnownWork with
      | none => exact ⟨_, rfl⟩
      | some work =>
        dsimp only
        split
        · exact ⟨_, rfl⟩
        · exact ⟨_, rfl⟩
    exact ⟨s', hrun, h.protectPeer hrun⟩

theorem PeerOp.apply_unknown (hop : ¬ op.Known s) : op.apply s = .error .noSuchPeer := by
  have hnone : ∀ nodeid, op.peer = some nodeid → s.nodeState nodeid = none := by
    intro nodeid hpeer
    by_contra hs
    refine hop fun nodeid' hpeer' => ?_
    cases hpeer.symm.trans hpeer'
    exact Option.isSome_iff_ne_none.mpr hs
  cases op with
  | initializeNode node => exact absurd (fun _ h => nomatch h) hop
  | finalizeNode nodeid => rw [PeerOp.apply, PeerState.finalizeNode, hnone nodeid rfl]; rfl
  | updatePreferredDownload node =>
    rw [PeerOp.apply, PeerState.updatePreferredDownload, hnone node.id rfl]
  | markBlockAsInFlight nodeid hash pindex pit now =>
    rw [PeerOp.apply, PeerState.markBlockAsInFlight, hnone nodeid rfl]; rfl
  | markBlockAsReceived hash now => exact absurd (fun _ h => nomatch h) hop
  | protectPeer node bestKnownWork tipWork =>
    rw [PeerOp.apply, PeerState.protectPeer, hnone node.id rfl]

theorem PeerAccounts.run (h : PeerAccounts s) (ops : List PeerOp) :
    (∃ s', run s ops = .ok s' ∧ PeerAccounts s') ∨
      run s ops = .error .noSuchPeer := by
  induction ops generalizing s with
  | nil => exact .inl ⟨s, rfl, h⟩
  | cons op ops ih =>
    rw [run]
    by_cases hop : op.Known s
    · obtain ⟨s', hrun, h'⟩ := h.apply hop
      rw [hrun]
      exact ih h'
    · rw [apply_unknown hop]
      exact .inr rfl

/-- After any run the map and the lists are in bijection and every counter counts;
    from there no operation on peers that are there fails, and no run stops at an
    assertion or at a dangling iterator. -/
theorem PeerOp.downloads_accounted (ops : List PeerOp) :
    match run {} ops with
    | .ok s =>
      s.inFlight.Perm s.queued ∧ s.inFlight.Nodup ∧
      (∀ nodeid state, s.nodeState nodeid = some state →
        state.nBlocksInFlight = state.vBlocksInFlight.length ∧
        state.nBlocksInFlightValidHeaders =
          state.vBlocksInFlight.countP fun x => x.2.fValidatedHeaders) ∧
      s.nPeersWithValidatedDownloads =
        count (fun state => decide (0 < state.nBlocksInFlightValidHeaders)) s.mapNodeState ∧
      s.nPreferredDownload = count fPreferredDownload s.mapNodeState ∧
      ∀ op : PeerOp, op.Known s → ∃ s', op.apply s = .ok s'
    | .error fault => fault = .noSuchPeer := by
  rcases PeerAccounts.empty.run ops with ⟨s, hrun, h⟩ | hrun
  · rw [hrun]
    obtain ⟨hperm, hnodup⟩ := h.inFlight_perm
    refine ⟨hperm, hnodup, fun nodeid state hs => ?_, h.validated, h.preferred, fun op hop => ?_⟩
    · have hc := h.counted nodeid state hs
      exact ⟨hc.blocks, hc.validHeaders⟩
    · obtain ⟨s', hop, -⟩ := h.apply hop
      exact ⟨s', hop⟩
  · rw [hrun]

end Rcoin
