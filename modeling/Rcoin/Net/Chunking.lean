/-
  The bytes of a peer, however they are cut.  `StreamReader` reads them one at a time:
  what a stream says does not depend on how it came.  A connection that gets the same
  bytes in chunks, and whose complete messages go to the message handler at any time
  in between, follows that reader (src/net.cpp).
-/
import Rcoin.Net.Delivery
import Rcoin.Unserialize

namespace Rcoin

open List OutputSample CNodeRecv CMessageHeader

namespace CMessageHeader

variable {buf : List UInt8}

theorem serialize_unserialize (h : buf.length = 24) : (unserialize buf).serialize = buf := by
  have hsize : leBytes 4 (ofLeBytes ((buf.drop 16).take 4)) = (buf.drop 16).take 4 := by
    have hlen : ((buf.drop 16).take 4).length = 4 := by
      rw [length_take, length_drop]
      omega
    have hback := leBytes_ofLeBytes ((buf.drop 16).take 4)
    rw [hlen] at hback
    exact hback
  have hlast : (buf.drop 20).take 4 = buf.drop 20 :=
    take_of_length_le (by rw [length_drop]; omega)
  have h4 : (buf.drop 4).take 12 ++ buf.drop 16 = buf.drop 4 := by
    have hcut := take_append_drop 12 (buf.drop 4)
    rw [drop_drop] at hcut
    exact hcut
  have h16 : (buf.drop 16).take 4 ++ buf.drop 20 = buf.drop 16 := by
    have hcut := take_append_drop 4 (buf.drop 16)
    rw [drop_drop] at hcut
    exact hcut
  rw [unserialize, serialize, hsize, hlast, append_assoc, append_assoc, h16, h4,
    take_append_drop]

theorem sized_unserialize (h : buf.length = 24) : (unserialize buf).Sized where
  messageStart := by
    rw [unserialize, length_take]
    omega
  command := by
    rw [unserialize, length_take, length_drop]
    omega
  size := by
    have hlt := ofLeBytes_lt_two_pow ((buf.drop 16).take 4)
    have hlen : ((buf.drop 16).take 4).length = 4 := by
      rw [length_take, length_drop]
      omega
    rw [hlen] at hlt
    exact hlt
  checksum := by
    rw [unserialize, length_take, length_drop]
    omega

end CMessageHeader

/-! ## A stream, byte by byte -/

/-- What a stream says: the messages that are whole, the bytes of the next one, and
    where the stream is rejected. -/
structure StreamReader where
  completed : List (CMessageHeader × List UInt8) := []
  pending : List UInt8 := []
  position : Nat := 0
  rejected : Option Nat := none
  deriving DecidableEq, Repr

namespace StreamReader

/-- The header that a message begins with. -/
def headerOf (pending : List UInt8) : CMessageHeader := .unserialize (pending.take 24)

/-- What the bytes of a message come to after the last of them. -/
def settle (r : StreamReader) : StreamReader :=
  if r.pending.length < 24 then r
  else if MAX_PROTOCOL_MESSAGE_LENGTH < (headerOf r.pending).nMessageSize then
    { r with rejected := some r.position }
  else if r.pending.length < 24 + (headerOf r.pending).nMessageSize then r
  else
    { r with
      completed := r.completed ++ [(headerOf r.pending, r.pending.drop 24)]
      pending := [] }

/-- The bytes without what a rejected stream goes on with. -/
def readByte (r : StreamReader) (b : UInt8) : StreamReader :=
  if r.rejected.isSome then r
  else settle { r with pending := r.pending ++ [b], position := r.position + 1 }

def read (r : StreamReader) (bytes : List UInt8) : StreamReader := bytes.foldl readByte r

/-- More bytes have to come. -/
def Incomplete (pending : List UInt8) : Prop :=
  pending.length < 24 ∨ (headerOf pending).nMessageSize ≤ MAX_PROTOCOL_MESSAGE_LENGTH ∧
    pending.length < 24 + (headerOf pending).nMessageSize

variable {pending : List UInt8}

theorem headerOf_append (h : 24 ≤ pending.length) (bytes : List UInt8) :
    headerOf (pending ++ bytes) = headerOf pending := by
  rw [headerOf, take_append_of_le_length h, headerOf]

variable {r : StreamReader}

theorem settle_of_incomplete (h : Incomplete r.pending) : r.settle = r := by
  unfold settle
  rcases h with h | ⟨hmax, hlt⟩
  · rw [if_pos h]
  · rw [if_neg (not_lt.mpr hmax), if_pos hlt, ite_self]

theorem settle_of_length (hmax : (headerOf r.pending).nMessageSize ≤ MAX_PROTOCOL_MESSAGE_LENGTH)
    (h : r.pending.length = 24 + (headerOf r.pending).nMessageSize) :
    r.settle = { r with
      completed := r.completed ++ [(headerOf r.pending, r.pending.drop 24)]
      pending := [] } := by
  unfold settle
  rw [if_neg (by omega), if_neg (not_lt.mpr hmax), if_neg (by omega)]

theorem settle_of_oversized
    (hmax : MAX_PROTOCOL_MESSAGE_LENGTH < (headerOf r.pending).nMessageSize)
    (h : 24 ≤ r.pending.length) : r.settle = { r with rejected := some r.position } := by
  unfold settle
  rw [if_neg (not_lt.mpr h), if_pos hmax]

theorem read_of_rejected (h : r.rejected.isSome = true) (bytes : List UInt8) :
    r.read bytes = r := by
  induction bytes with
  | nil => rfl
  | cons b bytes ih =>
    have hbyte : r.readByte b = r := by rw [readByte, if_pos h]
    rw [read, foldl_cons, hbyte]
    exact ih

theorem read_append (bytes bytes' : List UInt8) :
    r.read (bytes ++ bytes') = (r.read bytes).read bytes' := by
  rw [read, foldl_append]
  rfl

variable {bytes : List UInt8}

theorem read_eq_settle (hr : r.rejected = none) (hne : bytes ≠ [])
    (h : ∀ k < bytes.length, Incomplete (r.pending ++ bytes.take k)) :
    r.read bytes = settle { r with
      pending := r.pending ++ bytes
      position := r.position + bytes.length } := by
  induction bytes generalizing r with
  | nil => exact absurd rfl hne
  | cons b bytes ih =>
    have hbyte : r.readByte b =
        settle { r with pending := r.pending ++ [b], position := r.position + 1 } := by
      rw [readByte, hr]
      exact if_neg Bool.false_ne_true
    rw [read, foldl_cons, hbyte]
    cases bytes with
    | nil => rfl
    | cons c bytes =>
      have hfirst : Incomplete (r.pending ++ [b]) := h 1 (by simp)
      rw [settle_of_incomplete hfirst]
      have hrest := ih (r := { r with pending := r.pending ++ [b], position := r.position + 1 })
        hr (cons_ne_nil c bytes) (by
          intro k hk
          rw [append_assoc]
          exact h (k + 1) (Nat.succ_lt_succ hk))
      rw [read] at hrest
      rw [hrest, append_assoc, length_cons (a := b), add_assoc, add_comm 1]
      rfl

/-- The bytes of the messages that are whole. -/
def wire (r : StreamReader) : List UInt8 := r.completed.flatMap fun m => m.1.serialize ++ m.2

/-- What a reader says of the bytes that came. -/
structure Reads (bytes : List UInt8) (r : StreamReader) : Prop where
  wire_prefix : r.wire ++ r.pending <+: bytes
  whole : r.rejected = none → r.wire ++ r.pending = bytes ∧ Incomplete r.pending
  sizes : ∀ m ∈ r.completed, m.2.length = m.1.nMessageSize

theorem reads_new : Reads [] {} where
  wire_prefix := prefix_refl []
  whole := fun _ => ⟨rfl, .inl (Nat.succ_pos _)⟩
  sizes := fun _ hm => absurd hm not_mem_nil

theorem length_le_of_incomplete {b : UInt8} (h : Incomplete pending)
    (hge : 24 ≤ (pending ++ [b]).length) :
    (pending ++ [b]).length ≤ 24 + (headerOf (pending ++ [b])).nMessageSize := by
  rw [length_append, length_singleton] at hge ⊢
  rcases h with hlt | ⟨-, hlt⟩
  · omega
  · by_cases hshort : pending.length < 24
    · omega
    · rw [headerOf_append (not_lt.mp hshort)]
      omega

theorem serialize_headerOf (h : 24 ≤ pending.length) :
    (headerOf pending).serialize = pending.take 24 :=
  serialize_unserialize (by rw [length_take]; omega)

theorem reads_settle (hwire : r.wire ++ r.pending = bytes)
    (hlen : 24 ≤ r.pending.length → r.pending.length ≤ 24 + (headerOf r.pending).nMessageSize)
    (hsizes : ∀ m ∈ r.completed, m.2.length = m.1.nMessageSize) : Reads bytes r.settle := by
  have hbegins : r.wire ++ r.pending <+: bytes := hwire ▸ prefix_refl _
  by_cases hinc : Incomplete r.pending
  · rw [settle_of_incomplete hinc]
    exact ⟨hbegins, fun _ => ⟨hwire, hinc⟩, hsizes⟩
  · obtain ⟨hfull, hrest⟩ := not_or.mp hinc
    unfold settle
    rw [if_neg hfull]
    by_cases hmax : MAX_PROTOCOL_MESSAGE_LENGTH < (headerOf r.pending).nMessageSize
    · rw [if_pos hmax]
      exact ⟨hbegins, fun hnone => (by cases hnone), hsizes⟩
    · have hall : ¬ r.pending.length < 24 + (headerOf r.pending).nMessageSize :=
        fun hlt => hrest ⟨not_lt.mp hmax, hlt⟩
      have hge := not_lt.mp hfull
      rw [if_neg hmax, if_neg hall]
      -- the message is whole: its bytes are those that were pending
      have hmsg : (headerOf r.pending).serialize ++ r.pending.drop 24 = r.pending := by
        rw [serialize_headerOf hge, take_append_drop]
      have hwire' : wire { r with
          completed := r.completed ++ [(headerOf r.pending, r.pending.drop 24)]
          pending := [] } ++ [] = bytes := by
        rw [append_nil, ← hwire, wire, flatMap_append, flatMap_singleton, hmsg,
          wire]
      refine ⟨hwire' ▸ prefix_refl _, fun _ => ⟨hwire', .inl (Nat.succ_pos _)⟩, ?_⟩
      intro m hm
      rcases mem_append.mp hm with hm | hm
      · exact hsizes m hm
      · rw [mem_singleton.mp hm, length_drop]
        show r.pending.length - 24 = (headerOf r.pending).nMessageSize
        omega

theorem Reads.readByte (h : Reads bytes r) (b : UInt8) : Reads (bytes ++ [b]) (r.readByte b) := by
  cases hr : r.rejected with
  | some pos =>
    have hbyte : r.readByte b = r := by rw [StreamReader.readByte, hr]; rfl
    rw [hbyte]
    refine ⟨h.wire_prefix.trans (prefix_append ..), fun hnone => ?_, h.sizes⟩
    rw [hr] at hnone
    cases hnone
  | none =>
    obtain ⟨hwire, hinc⟩ := h.whole hr
    have hbytes : r.wire ++ (r.pending ++ [b]) = bytes ++ [b] := by
      rw [← append_assoc, hwire]
    rw [StreamReader.readByte, hr, if_neg (by decide)]
    exact reads_settle hbytes (length_le_of_incomplete hinc) h.sizes

theorem Reads.read (h : Reads bytes r) (more : List UInt8) :
    Reads (bytes ++ more) (r.read more) := by
  induction more generalizing r bytes with
  | nil =>
    rw [append_nil]
    exact h
  | cons b more ih =>
    have hrest := ih (h.readByte b)
    rw [append_assoc] at hrest
    exact hrest

end StreamReader

/-! ## A connection that gets chunks -/

/-- `GetMessageHash`; `none` for its assertion. -/
def CNetMessage.getMessageHash (hash : List UInt8 → List UInt8) (msg : CNetMessage) :
    Option (List UInt8) :=
  if msg.complete then some (hash msg.hashed) else none

/-- A connection, the bytes that it handled, and where `ReceiveMsgBytes` returned false. -/
structure Connection where
  node : CNodeRecv
  position : Nat := 0
  rejected : Option Nat := none

namespace Connection

/-- A new connection; the node counts the bytes of each command. -/
def new (sizes : MapMsgCmdSize) : Connection where
  node := { mapRecvBytesPerMsgCmd := sizes }

/-- The loop of `ReceiveMsgBytes`, with what is there when it returns false. A message
    that is rejected stays incomplete: it is kept as it was before its last turn. -/
def receiveLoop (messageStart : List UInt8) (nTimeMicros : Int) (c : Connection)
    (pch : List UInt8) : ReceiveResult Connection :=
  match pch with
  | [] => .ok c
  | b :: bs =>
    match c.node.absorb messageStart (b :: bs) nTimeMicros with
    | .error .noProgress => .error .noProgress
    | .error .disconnected =>
      -- the last byte that `readHeader` copied
      let nHdrPos := (c.node.currentMessage messageStart).2.nHdrPos
      .ok { c with rejected := some (c.position + min (24 - nHdrPos) (b :: bs).length) }
    | .ok (node, handled, _) =>
      if 0 < handled then
        receiveLoop messageStart nTimeMicros
          { c with node := node, position := c.position + handled } ((b :: bs).drop handled)
      else .error .noProgress
termination_by pch.length
decreasing_by
  rw [length_drop, length_cons]
  omega

def receiveMsgBytes (messageStart : List UInt8) (c : Connection) (pch : List UInt8)
    (nTimeMicros : Int) : ReceiveResult Connection :=
  receiveLoop messageStart nTimeMicros
    { c with node := { c.node with
      nLastRecv := nTimeMicros / 1000000
      nRecvBytes := c.node.nRecvBytes + pch.length } } pch

/-- Up to `n` complete messages go from the front of the queue to the message handler. -/
def take (c : Connection) (n : Nat) : Connection :=
  let done := (c.node.vRecvMsg.takeWhile CNetMessage.complete).take n
  { c with node := { c.node with
    vRecvMsg := c.node.vRecvMsg.drop done.length
    vProcessMsg := c.node.vProcessMsg ++ done
    nProcessQueueSize := c.node.nProcessQueueSize +
      (done.map fun msg => msg.vRecv.length + HEADER_SIZE).sum } }

/-- What happens to a connection: bytes come, or messages are taken. -/
inductive Action where
  | receive (pch : List UInt8) (nTimeMicros : Int)
  | take (n : Nat)
  deriving DecidableEq, Repr

/-- One action. The socket of a rejected connection is closed: no bytes come from it. -/
def step (messageStart : List UInt8) (c : Connection) : Action → ReceiveResult Connection
  | .receive pch nTimeMicros =>
    if c.rejected.isSome then .ok c else c.receiveMsgBytes messageStart pch nTimeMicros
  | .take n => .ok (c.take n)

def run (messageStart : List UInt8) : Connection → List Action → ReceiveResult Connection
  | c, [] => .ok c
  | c, action :: actions => do
    let c ← c.step messageStart action
    c.run messageStart actions

/-- The bytes a peer sends in a run. -/
def streamOf : List Action → List UInt8
  | [] => []
  | .receive pch _ :: actions => pch ++ streamOf actions
  | .take _ :: actions => streamOf actions

/-- A message that was received whole. -/
structure Received where
  hdr : CMessageHeader
  payload : List UInt8
  messageHash : Option (List UInt8)
  deriving DecidableEq, Repr

/-- The messages that were received whole, in their order, taken or not. -/
def completed (hash : List UInt8 → List UInt8) (c : Connection) : List Received :=
  (c.node.vProcessMsg ++ c.node.vRecvMsg.filter CNetMessage.complete).map fun msg =>
    ⟨msg.hdr, msg.vRecv, msg.getMessageHash hash⟩

/-! ## The connection follows the reader -/

section Turns

variable {ms : List UInt8} {node : CNodeRecv} {old : List CNetMessage} {msg : CNetMessage}
  {hdr : CMessageHeader} {data done pch : List UInt8}

/-- Complete messages, and behind them the one that is being read, if it has begun. -/
structure Queue (ms : List UInt8) (node : CNodeRecv) (old : List CNetMessage)
    (msg : CNetMessage) : Prop where
  complete : ∀ m ∈ old, m.complete = true
  incomplete : msg.complete = false
  vRecvMsg : node.vRecvMsg = old ∧ msg = .new ms ∨ node.vRecvMsg = old ++ [msg]

theorem Queue.currentMessage (h : Queue ms node old msg) :
    node.currentMessage ms = (old, msg) := by
  unfold CNodeRecv.currentMessage
  rcases h.vRecvMsg with ⟨hrecv, hmsg⟩ | hrecv
  · rw [hrecv, hmsg]
    cases hlast : old.getLast? with
    | none => rw [getLast?_eq_none_iff.mp hlast]
    | some m =>
      dsimp only
      rw [if_pos (h.complete m (mem_of_getLast? hlast))]
  · rw [hrecv, getLast?_concat]
    dsimp only
    rw [if_neg (by rw [h.incomplete]; exact Bool.false_ne_true), dropLast_concat]

theorem Queue.filter_complete (h : Queue ms node old msg) :
    node.vRecvMsg.filter CNetMessage.complete = old := by
  have hold : old.filter CNetMessage.complete = old := filter_eq_self.mpr h.complete
  rcases h.vRecvMsg with ⟨hrecv, -⟩ | hrecv
  · rw [hrecv, hold]
  · rw [hrecv, filter_append, hold, filter_cons_of_neg
      (by rw [h.incomplete]; exact Bool.false_ne_true), filter_nil, append_nil]

theorem Queue.takeWhile_complete (h : Queue ms node old msg) :
    node.vRecvMsg.takeWhile CNetMessage.complete = old := by
  have hold : old.takeWhile CNetMessage.complete = old :=
    takeWhile_eq_self_iff.mpr h.complete
  rcases h.vRecvMsg with ⟨hrecv, -⟩ | hrecv
  · rw [hrecv, hold]
  · rw [hrecv, takeWhile_append_of_pos h.complete, takeWhile_cons_of_neg
      (by rw [h.incomplete]; exact Bool.false_ne_true), append_nil]

variable {msg' : CNetMessage}

theorem absorb_of_read {handled : Nat} (t : Int) (hcurrent : node.currentMessage ms = (old, msg))
    (hread : (if msg.in_data then some (msg.readData pch) else msg.readHeader pch) =
      some (msg', handled))
    (hmax : msg'.in_data = true → msg'.hdr.nMessageSize ≤ MAX_PROTOCOL_MESSAGE_LENGTH) :
    ∃ node', node.absorb ms pch t = .ok (node', handled, msg'.complete) ∧
      node'.vProcessMsg = node.vProcessMsg ∧
      node'.vRecvMsg = old ++ [if msg'.complete then { msg' with nTime := t } else msg'] := by
  have hsmall : (msg'.in_data &&
      decide (msg'.hdr.nMessageSize > MAX_PROTOCOL_MESSAGE_LENGTH)) = false := by
    cases hin : msg'.in_data with
    | false => rfl
    | true => rw [decide_eq_false (Nat.not_lt.mpr (hmax hin)), Bool.and_false]
  unfold absorb
  rw [hcurrent]
  dsimp only
  rw [hread]
  dsimp only
  rw [if_neg (by rw [hsmall]; exact Bool.false_ne_true)]
  cases msg'.complete with
  | true => exact ⟨_, rfl, rfl, rfl⟩
  | false => exact ⟨_, rfl, rfl, rfl⟩

theorem absorb_disconnected (t : Int) (hcurrent : node.currentMessage ms = (old, msg))
    (hread : ∀ msg' handled,
      (if msg.in_data then some (msg.readData pch) else msg.readHeader pch) =
        some (msg', handled) →
      msg'.in_data = true ∧ MAX_PROTOCOL_MESSAGE_LENGTH < msg'.hdr.nMessageSize) :
    node.absorb ms pch t = .error .disconnected := by
  unfold absorb
  rw [hcurrent]
  dsimp only
  cases hgot : (if msg.in_data then some (msg.readData pch) else msg.readHeader pch) with
  | none => rfl
  | some got =>
    obtain ⟨hin, hmax⟩ := hread got.1 got.2 hgot
    dsimp only
    rw [hin, Bool.true_and, if_pos (decide_eq_true hmax)]

theorem absorbed_of_short (h : Absorbed hdr data msg done) (hlt : done.length < 24)
    (hdr' : CMessageHeader) : Absorbed hdr' data msg done := by
  cases h with
  | header hlt hin hpos hbuf hread hrecv hhash hdata =>
    exact .header hlt hin hpos hbuf hread hrecv hhash hdata
  | data hge => omega

theorem whole_of_length (hsized : hdr.Sized) (h : Absorbed hdr data msg done)
    (hhdr : done.take 24 = hdr.serialize) (hlen : done.length = 24 + hdr.nMessageSize) (t : Int) :
    Whole hdr (done.drop 24) { msg with nTime := t } := by
  have habs : Absorbed hdr (done.drop 24) msg (hdr.serialize ++ done.drop 24) := by
    rw [← hhdr, take_append_drop]
    cases h with
    | header hlt => omega
    | data hge hin hhdr hpos hread hlen hmax hhash =>
      exact .data hge hin hhdr hpos hread hlen hmax hhash
  exact whole_of_absorbed hsized (by rw [length_drop]; omega) habs t

open StreamReader in
/-- The connection has what the reader says. -/
structure Follows (ms : List UInt8) (r : StreamReader) (c : Connection)
    (old : List CNetMessage) (msg : CNetMessage) : Prop where
  queue : Queue ms c.node old msg
  rejected : c.rejected = r.rejected
  complete : ∀ m ∈ c.node.vProcessMsg ++ old, m.complete = true ∧ m.hashed = m.vRecv
  completed : (c.node.vProcessMsg ++ old).map (fun m => (m.hdr, m.vRecv)) = r.completed
  position : r.rejected = none → c.position = r.position
  incomplete : r.rejected = none → Incomplete r.pending
  absorbed : r.rejected = none → Absorbed (headerOf r.pending) [] msg r.pending

theorem complete_new (ms : List UInt8) : (CNetMessage.new ms).complete = false := rfl

variable {r : StreamReader} {c : Connection}

theorem follows_new (ms : List UInt8) (sizes : MapMsgCmdSize) :
    Follows ms {} (new sizes) [] (.new ms) where
  queue := ⟨fun _ hm => absurd hm not_mem_nil, complete_new ms, .inl ⟨rfl, rfl⟩⟩
  rejected := rfl
  complete := fun _ hm => absurd hm not_mem_nil
  completed := rfl
  position := fun _ => rfl
  incomplete := fun _ => .inl (Nat.succ_pos _)
  absorbed := fun _ => absorbed_new _ [] ms

theorem Follows.turn (h : Follows ms r c old msg) (hr : r.rejected = none) (hne : bytes ≠ [])
    (hinc : ∀ k < bytes.length, StreamReader.Incomplete (r.pending ++ bytes.take k))
    (hend : (r.pending ++ bytes).length < 24 ∨
      (StreamReader.headerOf (r.pending ++ bytes)).nMessageSize ≤ MAX_PROTOCOL_MESSAGE_LENGTH ∧
        (r.pending ++ bytes).length ≤
          24 + (StreamReader.headerOf (r.pending ++ bytes)).nMessageSize) (t : Int)
    (habs : Absorbed (StreamReader.headerOf (r.pending ++ bytes)) [] msg' (r.pending ++ bytes))
    (hproc : node.vProcessMsg = c.node.vProcessMsg) (hrecv : node.vRecvMsg =
      old ++ [if msg'.complete then { msg' with nTime := t } else msg']) :
    ∃ old' msg'', Follows ms (r.read bytes)
      { c with node := node, position := c.position + bytes.length } old' msg'' := by
  rw [StreamReader.read_eq_settle hr hne hinc]
  generalize hdone : r.pending ++ bytes = done at hend habs
  have hiff := complete_iff_length habs
  cases hcomplete : msg'.complete with
  | true =>
    rw [hcomplete, if_pos rfl] at hrecv
    -- the message is whole: it is stamped, and the next one is new
    have hlen := hiff.mp hcomplete
    have hge : 24 ≤ done.length := by omega
    have hmax : (StreamReader.headerOf done).nMessageSize ≤ MAX_PROTOCOL_MESSAGE_LENGTH := by
      rcases hend with hlt | ⟨hmax, -⟩
      · omega
      · exact hmax
    rw [StreamReader.settle_of_length hmax hlen]
    have hwhole := whole_of_length (sized_unserialize
      (by rw [length_take]; omega)) habs (StreamReader.serialize_headerOf hge).symm hlen t
    refine ⟨old ++ [{ msg' with nTime := t }], .new ms, ?_⟩
    exact {
      queue := by
        refine ⟨fun m hm => ?_, complete_new ms, .inl ⟨hrecv, rfl⟩⟩
        rcases mem_append.mp hm with hm | hm
        · exact h.queue.complete m hm
        · rw [mem_singleton.mp hm]
          exact hwhole.complete
      rejected := h.rejected
      complete := by
        intro m hm
        rw [hproc, ← append_assoc] at hm
        rcases mem_append.mp hm with hm | hm
        · exact h.complete m hm
        · rw [mem_singleton.mp hm]
          exact ⟨hwhole.complete, hwhole.hashed.trans hwhole.vRecv.symm⟩
      completed := by
        rw [hproc, ← append_assoc, map_append, h.completed, map_singleton,
          hwhole.hdr, hwhole.vRecv]
        rfl
      position := fun _ => congrArg (· + bytes.length) (h.position hr)
      incomplete := fun _ => .inl (Nat.succ_pos _)
      absorbed := fun _ => absorbed_new _ [] ms }
  | false =>
    rw [hcomplete, if_neg Bool.false_ne_true] at hrecv
    -- bytes of the header or of the payload are missing
    have hopen : StreamReader.Incomplete done := by
      rcases hend with hlt | ⟨hmax, hle⟩
      · exact .inl hlt
      · refine .inr ⟨hmax, lt_of_le_of_ne hle fun heq => ?_⟩
        rw [hiff.mpr heq] at hcomplete
        cases hcomplete
    rw [StreamReader.settle_of_incomplete hopen]
    refine ⟨old, msg', ?_⟩
    exact {
      queue := ⟨h.queue.complete, hcomplete, .inr hrecv⟩
      rejected := h.rejected
      complete := by
        rw [hproc]
        exact h.complete
      completed := by
        rw [hproc]
        exact h.completed
      position := fun _ => congrArg (· + bytes.length) (h.position hr)
      incomplete := fun _ => hopen
      absorbed := fun _ => habs }

/-- What a turn does: it handles bytes as the reader does, or it returns false where the
    reader rejects the stream. -/
def TurnFollows (ms : List UInt8) (r : StreamReader) (c : Connection) (pch : List UInt8)
    (t : Int) : Prop :=
  (∃ node handled fin old msg, c.node.absorb ms pch t = .ok (node, handled, fin) ∧
    0 < handled ∧ Follows ms (r.read (pch.take handled))
      { c with node := node, position := c.position + handled } old msg) ∨
  c.node.absorb ms pch t = .error .disconnected ∧
    (r.read pch).completed = r.completed ∧ (r.read pch).rejected =
      some (c.position + min (24 - (c.node.currentMessage ms).2.nHdrPos) pch.length)

variable (h : Follows ms r c old msg)

include h

variable (hr : r.rejected = none)

include hr

theorem Follows.turn_short (hne : pch ≠ []) (t : Int) (hshort : (r.pending ++ pch).length < 24) :
    TurnFollows ms r c pch t := by
  have hlen := hshort
  rw [length_append] at hlen
  have hlt : r.pending.length < 24 := by omega
  obtain ⟨msg', hread, habs, hin⟩ := readHeader_short
    (absorbed_of_short (h.absorbed hr) hlt (StreamReader.headerOf (r.pending ++ pch))) hshort
  have hnone : msg.in_data = false := by
    cases h.absorbed hr with
    | header _ hin => exact hin
    | data hge => omega
  have hstart : (if msg.in_data then some (msg.readData pch) else msg.readHeader pch) =
      some (msg', pch.length) := by
    rw [hnone]
    exact hread
  obtain ⟨node, habsorb, hproc, hrecv⟩ := absorb_of_read t h.queue.currentMessage hstart
    (fun htrue => by rw [hin] at htrue; cases htrue)
  obtain ⟨old', msg'', hfollows⟩ := h.turn hr hne (fun k hk => .inl (by
    rw [length_append, length_take]; omega)) (.inl hshort) t habs hproc hrecv
  refine .inl ⟨node, pch.length, _, old', msg'', habsorb, length_pos_iff.mpr hne, ?_⟩
  rw [take_length]
  exact hfollows

theorem Follows.turn_full (t : Int) (hlt : r.pending.length < 24)
    (hfull : 24 ≤ (r.pending ++ pch).length) : TurnFollows ms r c pch t := by
  have hlen := hfull
  rw [length_append] at hlen
  obtain ⟨bytes, hbytes⟩ : ∃ bytes, pch.take (24 - r.pending.length) = bytes := ⟨_, rfl⟩
  have hcount : bytes.length = 24 - r.pending.length := by
    rw [← hbytes, length_take]
    omega
  have hdone : (r.pending ++ bytes).length = 24 := by
    rw [length_append]
    omega
  have hheader : (r.pending ++ pch).take 24 = r.pending ++ bytes := by
    rw [take_append, take_of_length_le (le_of_lt hlt), hbytes]
  have hsized : (StreamReader.headerOf (r.pending ++ bytes)).Sized :=
    sized_unserialize (by rw [length_take]; omega)
  have hser : (StreamReader.headerOf (r.pending ++ bytes)).serialize = r.pending ++ bytes := by
    rw [StreamReader.serialize_headerOf (le_of_eq hdone.symm),
      take_of_length_le (le_of_eq hdone)]
  have hne : bytes ≠ [] := length_pos_iff.mp (by omega)
  have hinc : ∀ k < bytes.length, StreamReader.Incomplete (r.pending ++ bytes.take k) := by
    intro k hk
    refine .inl ?_
    rw [length_append, length_take]
    omega
  have habs := absorbed_of_short (h.absorbed hr) hlt (StreamReader.headerOf (r.pending ++ bytes))
  have hstart : msg.in_data = false ∧ msg.nHdrPos = r.pending.length := by
    cases h.absorbed hr with
    | header _ hin hpos => exact ⟨hin, hpos⟩
    | data hge => omega
  -- a header that is rejected is rejected by the reader, too
  have hreject : MAX_PROTOCOL_MESSAGE_LENGTH <
      (StreamReader.headerOf (r.pending ++ bytes)).nMessageSize →
      (r.read pch).completed = r.completed ∧ (r.read pch).rejected =
        some (c.position + min (24 - (c.node.currentMessage ms).2.nHdrPos) pch.length) := by
    intro hmax
    have hread : r.read pch = { r with
        pending := r.pending ++ bytes
        position := r.position + bytes.length
        rejected := some (r.position + bytes.length) } := by
      rw [← take_append_drop (24 - r.pending.length) pch, StreamReader.read_append, hbytes,
        StreamReader.read_eq_settle hr hne hinc,
        StreamReader.settle_of_oversized hmax (le_of_eq hdone.symm),
        StreamReader.read_of_rejected rfl]
    rw [hread, h.queue.currentMessage, h.position hr, hcount]
    refine ⟨rfl, ?_⟩
    rw [hstart.2, min_eq_left (by omega)]
  rcases readHeader_full hsized habs hlt hfull (hheader.trans hser.symm) with
    ⟨hread, hmax⟩ | ⟨msg', hread, habs', hin, -⟩
  · refine .inr ⟨?_, hreject (lt_of_le_of_lt (by decide) hmax)⟩
    refine absorb_disconnected t h.queue.currentMessage fun msg' handled hgot => ?_
    rw [hstart.1, if_neg Bool.false_ne_true, hread] at hgot
    cases hgot
  · rw [hbytes] at habs'
    have hhdr : msg'.hdr = StreamReader.headerOf (r.pending ++ bytes) := by
      cases habs' with
      | header _ hin' => rw [hin] at hin'; cases hin'
      | data _ _ hhdr => exact hhdr
    by_cases hmax : MAX_PROTOCOL_MESSAGE_LENGTH <
        (StreamReader.headerOf (r.pending ++ bytes)).nMessageSize
    · refine .inr ⟨?_, hreject hmax⟩
      refine absorb_disconnected t h.queue.currentMessage fun msg' handled hgot => ?_
      rw [hstart.1, if_neg Bool.false_ne_true, hread] at hgot
      cases hgot
      exact ⟨hin, by rw [hhdr]; exact hmax⟩
    · obtain ⟨node, habsorb, hproc, hrecv⟩ := absorb_of_read t h.queue.currentMessage
        (by rw [hstart.1]; exact hread) (fun _ => by rw [hhdr]; exact not_lt.mp hmax)
      obtain ⟨old', msg'', hfollows⟩ := h.turn hr hne hinc
        (.inr ⟨not_lt.mp hmax, by omega⟩) t habs' hproc hrecv
      rw [hcount, ← hbytes] at hfollows
      exact .inl ⟨node, _, _, old', msg'', habsorb, by omega, hfollows⟩

theorem Follows.turn_data (hne : pch ≠ []) (t : Int) (hge : 24 ≤ r.pending.length) :
    TurnFollows ms r c pch t := by
  obtain ⟨hmax, hlt⟩ : (StreamReader.headerOf r.pending).nMessageSize ≤
      MAX_PROTOCOL_MESSAGE_LENGTH ∧
      r.pending.length < 24 + (StreamReader.headerOf r.pending).nMessageSize := by
    rcases h.incomplete hr with hlt | hdata
    · omega
    · exact hdata
  obtain ⟨msg', hread, habs, hin⟩ := readData_absorbed pch (h.absorbed hr) hge (by omega)
  generalize hn : min ((StreamReader.headerOf r.pending).nMessageSize + 24 - r.pending.length)
    pch.length = n at hread habs
  have hpos : 0 < pch.length := length_pos_iff.mpr hne
  have hcount : (pch.take n).length = n := by
    rw [length_take]
    omega
  have hheader := StreamReader.headerOf_append hge
  rw [← hheader (pch.take n)] at habs
  have htrue : msg.in_data = true := by
    cases h.absorbed hr with
    | header hlt => omega
    | data _ hin => exact hin
  have hhdr : msg'.hdr = StreamReader.headerOf r.pending := by
    cases habs with
    | header _ hin' => rw [hin] at hin'; cases hin'
    | data _ _ hhdr => rw [hhdr, hheader]
  obtain ⟨node, habsorb, hproc, hrecv⟩ := absorb_of_read t h.queue.currentMessage
    (by rw [htrue, if_pos rfl, hread]) (fun _ => by rw [hhdr]; exact hmax)
  have hinc : ∀ k < (pch.take n).length,
      StreamReader.Incomplete (r.pending ++ (pch.take n).take k) := by
    intro k hk
    refine .inr ?_
    rw [hheader, length_append, length_take]
    exact ⟨hmax, by omega⟩
  obtain ⟨old', msg'', hfollows⟩ := h.turn hr (length_pos_iff.mp (by omega)) hinc
    (.inr (by rw [hheader, length_append]; exact ⟨hmax, by omega⟩)) t habs hproc hrecv
  rw [hcount] at hfollows
  exact .inl ⟨node, n, _, old', msg'', habsorb, by omega, hfollows⟩

theorem Follows.turns (hne : pch ≠ []) (t : Int) : TurnFollows ms r c pch t := by
  by_cases hge : 24 ≤ r.pending.length
  · exact h.turn_data hr hne t hge
  · by_cases hfull : 24 ≤ (r.pending ++ pch).length
    · exact h.turn_full hr t (not_le.mp hge) hfull
    · exact h.turn_short hr hne t (not_le.mp hfull)

theorem Follows.receiveLoop (pch : List UInt8) (t : Int) :
    ∃ c' old' msg', receiveLoop ms t c pch = .ok c' ∧ Follows ms (r.read pch) c' old' msg' := by
  induction hn : pch.length using Nat.strong_induction_on generalizing r c old msg pch with
  | _ n ih =>
    cases pch with
    | nil =>
      rw [Connection.receiveLoop]
      exact ⟨c, old, msg, rfl, h⟩
    | cons b bs =>
      rw [Connection.receiveLoop]
      rcases h.turns hr (cons_ne_nil b bs) t with
        ⟨node, handled, fin, old1, msg1, habsorb, hpos, hfollows⟩ | ⟨habsorb, hsame, hrej⟩
      · rw [habsorb]
        dsimp only
        rw [if_pos hpos]
        have hr1 : (r.read ((b :: bs).take handled)).rejected = none := by
          rw [← hfollows.rejected]
          exact h.rejected.trans hr
        have hshorter : ((b :: bs).drop handled).length < n := by
          rw [length_drop]
          rw [length_cons] at hn ⊢
          omega
        have hrest := ih _ hshorter hfollows hr1 _ rfl
        rw [← StreamReader.read_append, take_append_drop] at hrest
        exact hrest
      · rw [habsorb]
        refine ⟨_, old, msg, rfl, ?_⟩
        have hnone : (r.read (b :: bs)).rejected ≠ none := by
          rw [hrej]
          exact Option.some_ne_none _
        exact {
          queue := h.queue
          rejected := hrej.symm
          complete := h.complete
          completed := h.completed.trans hsame.symm
          position := fun h => absurd h hnone
          incomplete := fun h => absurd h hnone
          absorbed := fun h => absurd h hnone }

omit hr

theorem Follows.take (n : Nat) : Follows ms r (c.take n) (old.drop n) msg := by
  have hdone : (c.node.vRecvMsg.takeWhile CNetMessage.complete).take n = old.take n := by
    rw [h.queue.takeWhile_complete]
  have hall : (c.take n).node.vProcessMsg ++ old.drop n = c.node.vProcessMsg ++ old := by
    show c.node.vProcessMsg ++ (c.node.vRecvMsg.takeWhile CNetMessage.complete).take n ++ _ = _
    rw [hdone, append_assoc, take_append_drop]
  have hrecv : (c.take n).node.vRecvMsg = c.node.vRecvMsg.drop (old.take n).length := by
    show c.node.vRecvMsg.drop
      ((c.node.vRecvMsg.takeWhile CNetMessage.complete).take n).length = _
    rw [hdone]
  have hdrop : old.drop (old.take n).length = old.drop n := by
    rw [length_take, ← drop_eq_drop_min]
  exact {
    queue := by
      refine ⟨fun m hm => h.queue.complete m (mem_of_mem_drop hm), h.queue.incomplete, ?_⟩
      rw [hrecv]
      rcases h.queue.vRecvMsg with ⟨hold, hmsg⟩ | hold
      · rw [hold, hdrop]
        exact .inl ⟨rfl, hmsg⟩
      · rw [hold, drop_append_of_le_length (length_take_le' ..), hdrop]
        exact .inr rfl
    rejected := h.rejected
    complete := by
      rw [hall]
      exact h.complete
    completed := by
      rw [hall]
      exact h.completed
    position := h.position
    incomplete := h.incomplete
    absorbed := h.absorbed }

theorem Follows.step (action : Action) :
    ∃ c' old' msg', c.step ms action = .ok c' ∧
      Follows ms (r.read (streamOf [action])) c' old' msg' := by
  cases action with
  | take n => exact ⟨c.take n, old.drop n, msg, rfl, h.take n⟩
  | receive pch t =>
    have hstream : streamOf [.receive pch t] = pch := append_nil pch
    rw [hstream]
    unfold Connection.step
    dsimp only
    cases hr : r.rejected with
    | some pos =>
      have hsome : r.rejected.isSome = true := by rw [hr]; rfl
      rw [h.rejected, if_pos hsome, StreamReader.read_of_rejected hsome]
      exact ⟨c, old, msg, rfl, h⟩
    | none =>
      have hnode : Follows ms r { c with node := { c.node with
          nLastRecv := t / 1000000
          nRecvBytes := c.node.nRecvBytes + pch.length } } old msg :=
        ⟨⟨h.queue.complete, h.queue.incomplete, h.queue.vRecvMsg⟩, h.rejected, h.complete,
          h.completed, h.position, h.incomplete, h.absorbed⟩
      rw [h.rejected, hr, if_neg (by decide), receiveMsgBytes]
      exact hnode.receiveLoop hr pch t

theorem Follows.run (actions : List Action) :
    ∃ c' old' msg', c.run ms actions = .ok c' ∧
      Follows ms (r.read (streamOf actions)) c' old' msg' := by
  induction actions generalizing r c old msg with
  | nil => exact ⟨c, old, msg, rfl, h⟩
  | cons action actions ih =>
    obtain ⟨c1, old1, msg1, hstep, hfollows⟩ := h.step action
    obtain ⟨c', old', msg', hrun, hfollows'⟩ := ih hfollows
    have hstream : streamOf (action :: actions) = streamOf [action] ++ streamOf actions := by
      cases action with
      | receive pch t => rw [streamOf, streamOf, streamOf, append_nil]
      | take n => rw [streamOf, streamOf, streamOf, nil_append]
    refine ⟨c', old', msg', ?_, ?_⟩
    · rw [Connection.run, hstep]
      exact hrun
    · rw [hstream, StreamReader.read_append]
      exact hfollows'

theorem Follows.completed_eq (hash : List UInt8 → List UInt8) :
    c.completed hash = r.completed.map fun m => ⟨m.1, m.2, some (hash m.2)⟩ := by
  rw [Connection.completed, h.queue.filter_complete, ← h.completed, map_map]
  refine map_congr_left fun m hm => ?_
  obtain ⟨hcomplete, hhashed⟩ := h.complete m hm
  rw [CNetMessage.getMessageHash, if_pos hcomplete, hhashed]
  rfl

omit h

end Turns

/-! ## Two ways to cut a stream -/

/-- Two connections that get the same bytes, however they are cut and whenever the
    messages are taken, received the same messages and reject the stream at the same
    byte. The buffers have the bytes of the messages and no other ones. -/
theorem run_chunking (p : NetParams) (sizes : MapMsgCmdSize) (actions actions' : List Action)
    (h : streamOf actions = streamOf actions') :
    ∃ c c', (new sizes).run p.messageStart actions = .ok c ∧
      (new sizes).run p.messageStart actions' = .ok c' ∧
      c.completed p.hash = c'.completed p.hash ∧ c.rejected = c'.rejected ∧
      (∀ m ∈ c.completed p.hash, m.payload.length = m.hdr.nMessageSize ∧
        m.messageHash = some (p.hash m.payload)) ∧
      (c.completed p.hash).flatMap (fun m => m.hdr.serialize ++ m.payload) <+:
        streamOf actions := by
  obtain ⟨c, old, msg, hrun, hc⟩ := (follows_new p.messageStart sizes).run actions
  obtain ⟨c', old', msg', hrun', hc'⟩ := (follows_new p.messageStart sizes).run actions'
  have hreads := StreamReader.reads_new.read (streamOf actions)
  rw [nil_append] at hreads
  refine ⟨c, c', hrun, hrun', ?_, ?_, ?_, ?_⟩
  · rw [hc.completed_eq, hc'.completed_eq, h]
  · rw [hc.rejected, hc'.rejected, h]
  · intro m hm
    rw [hc.completed_eq] at hm
    obtain ⟨m', hm', rfl⟩ := mem_map.mp hm
    exact ⟨hreads.sizes m' hm', rfl⟩
  · rw [hc.completed_eq, flatMap_map]
    exact (prefix_append ..).trans hreads.wire_prefix

namespace Sample

/-- A message with one byte of data, and a header that says too much. -/
def stream : List UInt8 :=
  [0x52, 0x43, 0x4f, 0x4d] ++ replicate 12 0x70 ++ [1, 0, 0, 0] ++ [0, 0, 0, 0] ++ [7] ++
    [0x52, 0x43, 0x4f, 0x4d] ++ replicate 12 0x70 ++ [0, 0, 0, 1] ++ [0, 0, 0, 0] ++ [9]

example : (StreamReader.read {} stream).rejected = some 49 := by decide +kernel

theorem run_chunking_stream : ∃ c c',
    (new peer.mapRecvBytesPerMsgCmd).run [0x52, 0x43, 0x4f, 0x4d]
      [.receive stream 0] = .ok c ∧
    (new peer.mapRecvBytesPerMsgCmd).run [0x52, 0x43, 0x4f, 0x4d]
      [.receive (stream.take 10) 0, .receive (stream.drop 10) 1, .take 1] = .ok c' ∧
    c.completed (fun _ => digest0) = c'.completed (fun _ => digest0) ∧
    c.rejected = c'.rejected := by
  obtain ⟨c, c', hrun, hrun', hsame, hrejected, -⟩ := run_chunking
    (params digest0 rfl) peer.mapRecvBytesPerMsgCmd
    [.receive stream 0] [.receive (stream.take 10) 0, .receive (stream.drop 10) 1, .take 1]
    (by decide)
  exact ⟨c, c', hrun, hrun', hsame, hrejected⟩

end Sample

end Connection

end Rcoin
