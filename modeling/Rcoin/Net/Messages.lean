/-
  Messages on the wire: the header, `CNetMessage` with what is read of it so far,
  `CNode::ReceiveMsgBytes`, what the socket handler does with a chunk of bytes,
  and the checks of `ProcessMessages` before it looks at the payload
  (src/protocol.cpp, src/net.cpp, src/net_processing.cpp).  The checksum's hash
  is a parameter.
-/
import Rcoin.Serialize
import Rcoin.Lib.Maps

namespace Rcoin

def MAX_PROTOCOL_MESSAGE_LENGTH : Nat := 4 * 1000 * 1000

/-- What a network fixes: its four start bytes, and the hash of the checksums. -/
structure NetParams where
  messageStart : List UInt8
  hash : List UInt8 → List UInt8
  messageStart_length : messageStart.length = 4
  hash_length : ∀ data, (hash data).length = 32

/-! ## The header -/

/-- `CMessageHeader`, with the widths of its fields. -/
structure CMessageHeader where
  pchMessageStart : List UInt8
  pchCommand : List UInt8
  nMessageSize : Nat
  pchChecksum : List UInt8
  deriving DecidableEq, Repr

namespace CMessageHeader

def MESSAGE_START_SIZE : Nat := 4

def COMMAND_SIZE : Nat := 12

def CHECKSUM_SIZE : Nat := 4

def HEADER_SIZE : Nat := 24

/-- The bytes of a command up to the first zero. -/
def cString (s : List UInt8) : List UInt8 := s.takeWhile (· ≠ 0)

/-- `strncpy` into an array of zeros. -/
def strncpy (n : Nat) (s : List UInt8) : List UInt8 :=
  (cString s).take n ++ List.replicate (n - (cString s).length) 0

/-- The header `PushMessage` writes before `data`. -/
def ofMessage (hash : List UInt8 → List UInt8) (messageStart command data : List UInt8) :
    CMessageHeader where
  pchMessageStart := messageStart
  pchCommand := strncpy COMMAND_SIZE command
  nMessageSize := data.length % 2 ^ 32
  pchChecksum := (hash data).take CHECKSUM_SIZE

def serialize (hdr : CMessageHeader) : List UInt8 :=
  hdr.pchMessageStart ++ hdr.pchCommand ++ leBytes 4 hdr.nMessageSize ++ hdr.pchChecksum

/-- `hdrbuf >> hdr`. -/
def unserialize (buf : List UInt8) : CMessageHeader where
  pchMessageStart := buf.take 4
  pchCommand := (buf.drop 4).take 12
  nMessageSize := ofLeBytes ((buf.drop 16).take 4)
  pchChecksum := (buf.drop 20).take 4

def getCommand (hdr : CMessageHeader) : List UInt8 := cString hdr.pchCommand

/-- Printable up to the first zero, and all zeros from there on. -/
def commandValid : List UInt8 → Bool
  | [] => true
  | c :: cs => if c = 0 then cs.all (· = 0) else !(c < 0x20 || 0x7E < c) && commandValid cs

def isValid (hdr : CMessageHeader) (messageStart : List UInt8) : Bool :=
  hdr.pchMessageStart == messageStart && commandValid hdr.pchCommand &&
    !(hdr.nMessageSize > MAX_SIZE : Bool)

end CMessageHeader

/-! ## A message that is being read -/

/-- A message while its bytes arrive. -/
structure CNetMessage where
  /-- What the hasher was given. -/
  hashed : List UInt8 := []
  in_data : Bool := false
  hdrbuf : List UInt8 := List.replicate 24 0
  hdr : CMessageHeader
  nHdrPos : Nat := 0
  vRecv : List UInt8 := []
  nDataPos : Nat := 0
  nTime : Int := 0
  deriving DecidableEq, Repr

/-- `memcpy(&buf[pos], src, src.size())`. -/
def memcpyAt (buf : List UInt8) (pos : Nat) (src : List UInt8) : List UInt8 :=
  buf.take pos ++ src ++ buf.drop (pos + src.length)

/-- `buf.resize(n)`. -/
def resizeBytes (buf : List UInt8) (n : Nat) : List UInt8 :=
  buf.take n ++ List.replicate (n - buf.length) 0

namespace CNetMessage

/-- A new message, with the header its constructor gives it. -/
def new (messageStart : List UInt8) : CNetMessage where
  hdr := {
    pchMessageStart := messageStart
    pchCommand := List.replicate CMessageHeader.COMMAND_SIZE 0
    nMessageSize := 2 ^ 32 - 1
    pchChecksum := List.replicate CMessageHeader.CHECKSUM_SIZE 0 }

def complete (msg : CNetMessage) : Bool := msg.in_data && msg.hdr.nMessageSize == msg.nDataPos

/-- The message and the bytes handled; `none` for the negative result. -/
def readHeader (msg : CNetMessage) (pch : List UInt8) : Option (CNetMessage × Nat) :=
  let nCopy := min (24 - msg.nHdrPos) pch.length
  let msg := { msg with
    hdrbuf := memcpyAt msg.hdrbuf msg.nHdrPos (pch.take nCopy)
    nHdrPos := msg.nHdrPos + nCopy }
  if msg.nHdrPos < 24 then some (msg, nCopy)
  else
    let msg := { msg with hdr := CMessageHeader.unserialize msg.hdrbuf }
    if msg.hdr.nMessageSize > MAX_SIZE then none
    else some ({ msg with in_data := true }, nCopy)

def readData (msg : CNetMessage) (pch : List UInt8) : CNetMessage × Nat :=
  let nCopy := min (msg.hdr.nMessageSize - msg.nDataPos) pch.length
  let vRecv :=
    -- allocate up to 256 KiB ahead, but never more than the total message size
    if msg.vRecv.length < msg.nDataPos + nCopy then
      resizeBytes msg.vRecv (min msg.hdr.nMessageSize (msg.nDataPos + nCopy + 256 * 1024))
    else msg.vRecv
  ({ msg with
    vRecv := memcpyAt vRecv msg.nDataPos (pch.take nCopy)
    hashed := msg.hashed ++ pch.take nCopy
    nDataPos := msg.nDataPos + nCopy }, nCopy)

end CNetMessage

/-! ## A connection -/

/-- `*other*`. -/
def NET_MESSAGE_COMMAND_OTHER : List UInt8 := [0x2a, 0x6f, 0x74, 0x68, 0x65, 0x72, 0x2a]

/-- Received bytes for each command; there is always an entry for the other ones. -/
structure MapMsgCmdSize where
  sizes : AList fun _ : List UInt8 => Nat
  other : NET_MESSAGE_COMMAND_OTHER ∈ sizes

/-- The bytes of one message, under its command if that is a known one. -/
def MapMsgCmdSize.add (m : MapMsgCmdSize) (command : List UInt8) (n : Nat) : MapMsgCmdSize :=
  let key := if command ∈ m.sizes then command else NET_MESSAGE_COMMAND_OTHER
  { sizes := m.sizes.insert key ((m.sizes.lookup key).getD 0 + n)
    other := (AList.mem_insert _).mpr (.inr m.other) }

/-- The fields of a `CNode` that receiving uses. -/
structure CNodeRecv where
  vRecvMsg : List CNetMessage := []
  vProcessMsg : List CNetMessage := []
  nProcessQueueSize : Nat := 0
  nLastRecv : Int := 0
  nRecvBytes : Nat := 0
  mapRecvBytesPerMsgCmd : MapMsgCmdSize

/-- Why a connection goes: `ReceiveMsgBytes` returned false. A loop that handles
    no byte would not end; it is a fault of its own. -/
inductive ReceiveFault where
  | disconnected
  | noProgress
  deriving DecidableEq, Repr

abbrev ReceiveResult := Except ReceiveFault

namespace CNodeRecv

/-- The messages before the one that is being read, and that one. -/
def currentMessage (node : CNodeRecv) (messageStart : List UInt8) :
    List CNetMessage × CNetMessage :=
  match node.vRecvMsg.getLast? with
  | none => ([], .new messageStart)
  | some msg =>
    if msg.complete then (node.vRecvMsg, .new messageStart) else (node.vRecvMsg.dropLast, msg)

/-- One turn of the loop of `ReceiveMsgBytes`: the bytes handled, and whether a
    message got complete. -/
def absorb (node : CNodeRecv) (messageStart pch : List UInt8) (nTimeMicros : Int) :
    ReceiveResult (CNodeRecv × Nat × Bool) :=
  let (before, msg) := node.currentMessage messageStart
  match if msg.in_data then some (msg.readData pch) else msg.readHeader pch with
  | none => .error .disconnected
  | some (msg, handled) =>
    if msg.in_data && decide (msg.hdr.nMessageSize > MAX_PROTOCOL_MESSAGE_LENGTH) then
      .error .disconnected
    else if msg.complete then
      .ok ({ node with
        vRecvMsg := before ++ [{ msg with nTime := nTimeMicros }]
        mapRecvBytesPerMsgCmd := node.mapRecvBytesPerMsgCmd.add msg.hdr.getCommand
          (msg.hdr.nMessageSize + CMessageHeader.HEADER_SIZE) }, handled, true)
    else .ok ({ node with vRecvMsg := before ++ [msg] }, handled, false)

/-- The loop over the bytes, and `complete`. -/
def receiveLoop (messageStart : List UInt8) (nTimeMicros : Int) (node : CNodeRecv)
    (pch : List UInt8) (complete : Bool) : ReceiveResult (CNodeRecv × Bool) :=
  match pch with
  | [] => .ok (node, complete)
  | c :: cs =>
    match node.absorb messageStart (c :: cs) nTimeMicros with
    | .error e => .error e
    | .ok (node, handled, done) =>
      if 0 < handled then
        receiveLoop messageStart nTimeMicros node ((c :: cs).drop handled) (complete || done)
      else .error .noProgress
termination_by pch.length
decreasing_by
  rw [List.length_drop, List.length_cons]
  omega

/-- The state and `complete`; `.error .disconnected` where the function returns
    false. -/
def receiveMsgBytes (node : CNodeRecv) (messageStart pch : List UInt8) (nTimeMicros : Int) :
    ReceiveResult (CNodeRecv × Bool) :=
  receiveLoop messageStart nTimeMicros
    { node with
      nLastRecv := nTimeMicros / 1000000
      nRecvBytes := node.nRecvBytes + pch.length } pch false

/-- What the socket handler does with the bytes of one `recv`: complete messages
    from the front on go to the message handler. -/
def receiveChunk (messageStart : List UInt8) (node : CNodeRecv) (chunk : List UInt8 × Int) :
    ReceiveResult CNodeRecv := do
  let (node, notify) ← node.receiveMsgBytes messageStart chunk.1 chunk.2
  if notify then
    let done := node.vRecvMsg.takeWhile CNetMessage.complete
    .ok { node with
      vRecvMsg := node.vRecvMsg.dropWhile CNetMessage.complete
      vProcessMsg := node.vProcessMsg ++ done
      nProcessQueueSize := node.nProcessQueueSize +
        (done.map fun msg => msg.vRecv.length + CMessageHeader.HEADER_SIZE).sum }
  else .ok node

/-- Chunks, each with its time. -/
def receiveChunks (messageStart : List UInt8) :
    CNodeRecv → List (List UInt8 × Int) → ReceiveResult CNodeRecv
  | node, [] => .ok node
  | node, chunk :: chunks => do
    let node ← node.receiveChunk messageStart chunk
    node.receiveChunks messageStart chunks

end CNodeRecv

/-! ## Sending and dispatching -/

/-- The bytes `PushMessage` queues. -/
def pushMessage (hash : List UInt8 → List UInt8) (messageStart command data : List UInt8) :
    List UInt8 :=
  (CMessageHeader.ofMessage hash messageStart command data).serialize ++ data

/-- What `ProcessMessages` does with a message before it looks at its payload. -/
inductive Dispatch where
  | disconnect
  | dropped
  /-- `ProcessMessage(pfrom, strCommand, vRecv, ..)`. -/
  | process (strCommand vRecv : List UInt8)
  deriving DecidableEq, Repr

def processHeader (hash : List UInt8 → List UInt8) (messageStart : List UInt8)
    (msg : CNetMessage) : Dispatch :=
  if msg.hdr.pchMessageStart ≠ messageStart then .disconnect
  else if !msg.hdr.isValid messageStart then .dropped
  else if (hash msg.hashed).take CMessageHeader.CHECKSUM_SIZE ≠ msg.hdr.pchChecksum then .dropped
  else .process msg.hdr.getCommand msg.vRecv

/-- `"block"`. -/
def BLOCK : List UInt8 := [0x62, 0x6c, 0x6f, 0x63, 0x6b]

end Rcoin
