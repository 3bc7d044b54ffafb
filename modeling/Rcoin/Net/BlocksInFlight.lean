/-
  The bookkeeping of block downloads in `net_processing.cpp`: which blocks were
  asked for, from which peer, and the counters over them.  `mapBlocksInFlight`
  and the peers' lists hold each other's elements: the map has a peer and an
  iterator into that peer's list for each block, the list has the hash.  A list
  node keeps its identity until it is erased; following an iterator to a node
  that is gone, and a failed assertion, are faults of their own.
-/
import Rcoin.Primitives
import Rcoin.Lib.Maps

namespace Rcoin

/-! ## Lists with stable iterators -/

/-- The identity of a list node. -/
abbrev ListIterator := Nat

/-- A `std::list`, each element with its node. -/
abbrev NodeList (α : Type*) := List (ListIterator × α)

namespace NodeList

variable {α : Type*}

/-- What an iterator points to. -/
def get? (l : NodeList α) (it : ListIterator) : Option α :=
  (l.find? fun x => x.1 == it).map Prod.snd

def erase (l : NodeList α) (it : ListIterator) : NodeList α := l.eraseP fun x => x.1 == it

def push_back (l : NodeList α) (it : ListIterator) (a : α) : NodeList α := l ++ [(it, a)]

/-- `l.begin() == it`. -/
def isFirst (l : NodeList α) (it : ListIterator) : Bool := (l.map Prod.fst).head? == some it

end NodeList

/-! ## State -/

abbrev NodeId := Int

structure QueuedBlock where
  hash : Uint256
  /-- The index entry, by its hash. -/
  pindex : Option Uint256
  fValidatedHeaders : Bool
  /-- Whether a partially downloaded compact block was allocated. -/
  partialBlock : Bool
  deriving DecidableEq, Repr

/-- The fields of a peer's state that the downloads use. -/
structure CNodeState where
  fCurrentlyConnected : Bool := false
  nMisbehavior : Int := 0
  fSyncStarted : Bool := false
  nStallingSince : Int := 0
  vBlocksInFlight : NodeList QueuedBlock := []
  nDownloadingSince : Int := 0
  nBlocksInFlight : Int := 0
  nBlocksInFlightValidHeaders : Int := 0
  fPreferredDownload : Bool := false
  m_protect : Bool := false
  deriving DecidableEq, Repr

/-- The flags of a connection. -/
structure CNode where
  id : NodeId
  fInbound : Bool
  fWhitelisted : Bool := false
  fOneShot : Bool := false
  fClient : Bool := false
  fFeeler : Bool := false
  m_manual_connection : Bool := false
  fDisconnect : Bool := false
  deriving DecidableEq, Repr

/-- The peers, and the blocks that are asked of them. -/
structure PeerState where
  mapNodeState : AList fun _ : NodeId => CNodeState := ∅
  mapBlocksInFlight : AList fun _ : Uint256 => NodeId × ListIterator := ∅
  nSyncStarted : Int := 0
  nPreferredDownload : Int := 0
  nPeersWithValidatedDownloads : Int := 0
  g_outbound_peers_with_protect_from_disconnect : Int := 0
  /-- Identities for list nodes that were not handed out yet. -/
  nextNode : ListIterator := 0

/-- What can go wrong: the argument of an operation has no state (an assertion
    of most of them, a null pointer in the rest), any other assertion, or an
    iterator to an erased node. -/
inductive PeerFault where
  | noSuchPeer
  | assertionFailed
  | danglingIterator
  deriving DecidableEq, Repr

abbrev PeerResult := Except PeerFault

def MAX_OUTBOUND_PEERS_TO_PROTECT_FROM_DISCONNECT : Int := 4

namespace PeerState

/-- `State(pnode)`. -/
def nodeState (s : PeerState) (pnode : NodeId) : Option CNodeState := s.mapNodeState.lookup pnode

/-- The state with what a `CNodeState` pointer was used to write. -/
def setNodeState (s : PeerState) (pnode : NodeId) (state : CNodeState) : PeerState :=
  { s with mapNodeState := s.mapNodeState.insert pnode state }

def assert (c : Bool) : PeerResult Unit := if c then .ok ⟨⟩ else .error .assertionFailed

/-! ## Operations -/

/-- `emplace_hint` leaves a state that is there as it is. -/
def initializeNode (s : PeerState) (node : CNode) : PeerState :=
  { s with mapNodeState := Maps.insertNew s.mapNodeState node.id {} }

def updatePreferredDownload (s : PeerState) (node : CNode) : PeerResult PeerState :=
  match s.nodeState node.id with
  | none => .error .noSuchPeer
  | some state =>
    let preferred := (!node.fInbound || node.fWhitelisted) && !node.fOneShot && !node.fClient
    .ok { s.setNodeState node.id { state with fPreferredDownload := preferred } with
      nPreferredDownload :=
        s.nPreferredDownload - state.fPreferredDownload.toInt + preferred.toInt }

/-- The part of `MarkBlockAsReceived` for a block that is in flight from `nodeid`
    as `queued`. -/
def receiveQueued (s : PeerState) (hash : Uint256) (nodeid : NodeId) (it : ListIterator)
    (state : CNodeState) (queued : QueuedBlock) (now : Int) : PeerState :=
  let nValid := state.nBlocksInFlightValidHeaders - queued.fValidatedHeaders.toInt
  let state' := { state with
    nBlocksInFlightValidHeaders := nValid
    nDownloadingSince :=
      if state.vBlocksInFlight.isFirst it then max state.nDownloadingSince now
      else state.nDownloadingSince
    vBlocksInFlight := state.vBlocksInFlight.erase it
    nBlocksInFlight := state.nBlocksInFlight - 1
    nStallingSince := 0 }
  { s.setNodeState nodeid state' with
    mapBlocksInFlight := s.mapBlocksInFlight.erase hash
    nPeersWithValidatedDownloads :=
      if nValid = 0 ∧ queued.fValidatedHeaders = true then s.nPeersWithValidatedDownloads - 1
      else s.nPeersWithValidatedDownloads }

/-- The state afterwards, and whether the block was asked for.  `now` is
    `GetTimeMicros()`. -/
def markBlockAsReceived (s : PeerState) (hash : Uint256) (now : Int) :
    PeerResult (PeerState × Bool) :=
  match s.mapBlocksInFlight.lookup hash with
  | none => .ok (s, false)
  | some (nodeid, it) =>
    match s.nodeState nodeid with
    | none => .error .assertionFailed
    | some state =>
      match state.vBlocksInFlight.get? it with
      | none => .error .danglingIterator
      | some queued => .ok (s.receiveQueued hash nodeid it state queued now, true)

/-- The part of `MarkBlockAsInFlight` for a block that is in flight from nobody. -/
def queueBlock (s : PeerState) (nodeid : NodeId) (state : CNodeState) (hash : Uint256)
    (pindex : Option Uint256) (pit : Bool) (now : Int) : PeerState :=
  let it := s.nextNode
  let queued : QueuedBlock :=
    { hash := hash, pindex := pindex, fValidatedHeaders := pindex.isSome, partialBlock := pit }
  let nBlocks := state.nBlocksInFlight + 1
  let nValid := state.nBlocksInFlightValidHeaders + queued.fValidatedHeaders.toInt
  let state' := { state with
    vBlocksInFlight := state.vBlocksInFlight.push_back it queued
    nBlocksInFlight := nBlocks
    nBlocksInFlightValidHeaders := nValid
    nDownloadingSince := if nBlocks = 1 then now else state.nDownloadingSince }
  { s.setNodeState nodeid state' with
    mapBlocksInFlight := Maps.insertNew s.mapBlocksInFlight hash (nodeid, it)
    nPeersWithValidatedDownloads :=
      if nValid = 1 ∧ pindex.isSome = true then s.nPeersWithValidatedDownloads + 1
      else s.nPeersWithValidatedDownloads
    nextNode := it + 1 }

/-- The state afterwards, the result, and `*pit` when the caller passes a `pit`. -/
def markBlockAsInFlight (s : PeerState) (nodeid : NodeId) (hash : Uint256)
    (pindex : Option Uint256) (pit : Bool) (now : Int) :
    PeerResult (PeerState × Bool × Option ListIterator) :=
  match s.nodeState nodeid with
  | none => .error .noSuchPeer
  | some _ =>
    match s.mapBlocksInFlight.lookup hash with
    | some (owner, it) =>
      if owner = nodeid then .ok (s, false, if pit then some it else none)
      else do
        let (s', _) ← s.markBlockAsReceived hash now
        queueFor s'
    | none => do
      let (s', _) ← s.markBlockAsReceived hash now
      queueFor s'
where
  /-- The pointer `state` is still the peer's state after `MarkBlockAsReceived`. -/
  queueFor (s' : PeerState) : PeerResult (PeerState × Bool × Option ListIterator) :=
    match s'.nodeState nodeid with
    | none => .error .noSuchPeer
    | some state =>
      .ok (s'.queueBlock nodeid state hash pindex pit now, true,
        if pit then some s'.nextNode else none)

def finalizeNode (s : PeerState) (nodeid : NodeId) : PeerResult (PeerState × Bool) :=
  match s.nodeState nodeid with
  | none => .error .noSuchPeer
  | some state => do
    let fUpdateConnectionTime := decide (state.nMisbehavior = 0) && state.fCurrentlyConnected
    let nValidated := s.nPeersWithValidatedDownloads -
      (decide (state.nBlocksInFlightValidHeaders ≠ 0)).toInt
    assert (0 ≤ nValidated)
    let nProtected := s.g_outbound_peers_with_protect_from_disconnect - state.m_protect.toInt
    assert (0 ≤ nProtected)
    let s' : PeerState := { s with
      mapNodeState := s.mapNodeState.erase nodeid
      mapBlocksInFlight := state.vBlocksInFlight.foldl (fun m x => m.erase x.2.hash)
        s.mapBlocksInFlight
      nSyncStarted := if state.fSyncStarted then s.nSyncStarted - 1 else s.nSyncStarted
      nPreferredDownload := s.nPreferredDownload - state.fPreferredDownload.toInt
      nPeersWithValidatedDownloads := nValidated
      g_outbound_peers_with_protect_from_disconnect := nProtected }
    -- the consistency check after the last peer is removed
    if s'.mapNodeState.entries.isEmpty then
      assert s'.mapBlocksInFlight.entries.isEmpty
      assert (s'.nPreferredDownload = 0)
      assert (s'.nPeersWithValidatedDownloads = 0)
      assert (s'.g_outbound_peers_with_protect_from_disconnect = 0)
    .ok (s', fUpdateConnectionTime)

def isOutboundDisconnectionCandidate (node : CNode) : Bool :=
  !(node.fInbound || node.m_manual_connection || node.fFeeler || node.fOneShot)

/-- The end of `ProcessHeadersMessage`, the only other place that moves one of the
    counters: `bestKnownWork` is the work of `pindexBestKnownBlock` and `tipWork`
    the work of our tip. -/
def protectPeer (s : PeerState) (node : CNode) (bestKnownWork : Option Uint256)
    (tipWork : Uint256) : PeerResult PeerState :=
  match s.nodeState node.id with
  | none => .error .noSuchPeer
  | some state =>
    match bestKnownWork with
    | none => .ok s
    | some work =>
      if !node.fDisconnect && isOutboundDisconnectionCandidate node &&
          decide (s.g_outbound_peers_with_protect_from_disconnect <
            MAX_OUTBOUND_PEERS_TO_PROTECT_FROM_DISCONNECT) &&
          decide (tipWork ≤ work) && !state.m_protect then
        .ok { s.setNodeState node.id { state with m_protect := true } with
          g_outbound_peers_with_protect_from_disconnect :=
            s.g_outbound_peers_with_protect_from_disconnect + 1 }
      else .ok s

end PeerState

/-! ## Runs -/

/-- One call under `cs_main`. -/
inductive PeerOp where
  | initializeNode (node : CNode)
  | finalizeNode (nodeid : NodeId)
  | updatePreferredDownload (node : CNode)
  | markBlockAsInFlight (nodeid : NodeId) (hash : Uint256) (pindex : Option Uint256) (pit : Bool)
      (now : Int)
  | markBlockAsReceived (hash : Uint256) (now : Int)
  | protectPeer (node : CNode) (bestKnownWork : Option Uint256) (tipWork : Uint256)

namespace PeerOp

def apply (s : PeerState) : PeerOp → PeerResult PeerState
  | initializeNode node => .ok (s.initializeNode node)
  | finalizeNode nodeid => (s.finalizeNode nodeid).map Prod.fst
  | updatePreferredDownload node => s.updatePreferredDownload node
  | markBlockAsInFlight nodeid hash pindex pit now =>
    (s.markBlockAsInFlight nodeid hash pindex pit now).map Prod.fst
  | markBlockAsReceived hash now => (s.markBlockAsReceived hash now).map Prod.fst
  | protectPeer node bestKnownWork tipWork => s.protectPeer node bestKnownWork tipWork

/-- Calls one after the other, the peers' and the blocks' in any order. -/
def run (s : PeerState) : List PeerOp → PeerResult PeerState
  | [] => .ok s
  | op :: ops => (op.apply s).bind fun s' => run s' ops

/-- The peer whose state the call takes for granted. -/
def peer : PeerOp → Option NodeId
  | initializeNode _ => none
  | finalizeNode nodeid => some nodeid
  | updatePreferredDownload node => some node.id
  | markBlockAsInFlight nodeid _ _ _ _ => some nodeid
  | markBlockAsReceived _ _ => none
  | protectPeer node _ _ => some node.id

end PeerOp

end Rcoin
