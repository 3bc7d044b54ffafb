/-
  A message that is read in chunks.  `Absorbed` says what a `CNetMessage` is after
  some of the bytes of a message, whatever the chunks were; a message of at most
  `MAX_PROTOCOL_MESSAGE_LENGTH` bytes is delivered as it was sent, and a longer one
  closes the connection with the last byte of its header.
-/
import Rcoin.Net.Messages

namespace Rcoin

open List CNetMessage

/-! ## Buffers -/

variable {buf : List UInt8}

theorem length_memcpyAt {src : List UInt8} {pos : Nat} (h : pos + src.length ≤ buf.length) :
    (memcpyAt buf pos src).length = buf.length := by
  rw [memcpyAt, length_append, length_append, length_take, length_drop]
  omega

theorem take_memcpyAt (buf src : List UInt8) (pos : Nat) (h : pos ≤ buf.length) :
    (memcpyAt buf pos src).take (pos + src.length) = buf.take pos ++ src := by
  have hlen : (buf.take pos ++ src).length = pos + src.length := by
    rw [length_append, length_take, min_eq_left h]
  rw [memcpyAt, take_append_of_le_length (le_of_eq hlen.symm),
    take_of_length_le (le_of_eq hlen)]

theorem take_resizeBytes {n pos : Nat} (hpos : pos ≤ buf.length) (hn : buf.length ≤ n)
    : (resizeBytes buf n).take pos = buf.take pos := by
  rw [resizeBytes, take_of_length_le hn, take_append_of_le_length hpos]

theorem length_resizeBytes {n : Nat} (hn : buf.length ≤ n) : (resizeBytes buf n).length = n := by
  rw [resizeBytes, take_of_length_le hn, length_append, length_replicate]
  omega

/-! ## The header -/

namespace CMessageHeader

theorem length_strncpy (n : Nat) (s : List UInt8) : (strncpy n s).length = n := by
  rw [strncpy, length_append, length_take, length_replicate]
  omega

/-- The fields have the widths they are read with. -/
structure Sized (hdr : CMessageHeader) : Prop where
  messageStart : hdr.pchMessageStart.length = 4
  command : hdr.pchCommand.length = 12
  size : hdr.nMessageSize < 2 ^ 32
  checksum : hdr.pchChecksum.length = 4

variable {hdr : CMessageHeader}

theorem Sized.length_serialize (h : hdr.Sized) : hdr.serialize.length = 24 := by
  rw [serialize, length_append, length_append, length_append, length_leBytes,
    h.messageStart, h.command, h.checksum]

theorem Sized.unserialize_serialize (h : hdr.Sized) : unserialize hdr.serialize = hdr := by
  have hstart : hdr.serialize.take 4 = hdr.pchMessageStart := by
    rw [serialize, append_assoc, append_assoc]
    exact take_left' h.messageStart
  have hdrop4 : hdr.serialize.drop 4 =
      hdr.pchCommand ++ (leBytes 4 hdr.nMessageSize ++ hdr.pchChecksum) := by
    rw [serialize, append_assoc, append_assoc]
    exact drop_left' h.messageStart
  have hdrop16 : hdr.serialize.drop 16 = leBytes 4 hdr.nMessageSize ++ hdr.pchChecksum := by
    have hsplit : hdr.serialize.drop 16 = (hdr.serialize.drop 4).drop 12 := by
      rw [drop_drop]
    rw [hsplit, hdrop4]
    exact drop_left' h.command
  have hdrop20 : hdr.serialize.drop 20 = hdr.pchChecksum := by
    have hsplit : hdr.serialize.drop 20 = (hdr.serialize.drop 16).drop 4 := by
      rw [drop_drop]
    rw [hsplit, hdrop16]
    exact drop_left' (length_leBytes ..)
  have hcommand : (hdr.serialize.drop 4).take 12 = hdr.pchCommand := by
    rw [hdrop4]
    exact take_left' h.command
  have hsize : ofLeBytes ((hdr.serialize.drop 16).take 4) = hdr.nMessageSize := by
    rw [hdrop16, take_left' (length_leBytes ..)]
    exact ofLeBytes_leBytes h.size
  have hchecksum : (hdr.serialize.drop 20).take 4 = hdr.pchChecksum := by
    rw [hdrop20]
    exact take_of_length_le (le_of_eq h.checksum)
  rw [unserialize, hstart, hcommand, hsize, hchecksum]

theorem sized_ofMessage (p : NetParams) (command data : List UInt8) :
    (ofMessage p.hash p.messageStart command data).Sized where
  messageStart := p.messageStart_length
  command := length_strncpy ..
  size := Nat.mod_lt _ (by decide)
  checksum := by
    show ((p.hash data).take 4).length = 4
    rw [length_take, p.hash_length]
    rfl

end CMessageHeader

open CMessageHeader

/-! ## A message that is being read -/

variable {hdr : CMessageHeader} {data done pch : List UInt8} {msg : CNetMessage}

/-- What a message is after the bytes `done` of a header and its data. -/
inductive Absorbed (hdr : CMessageHeader) (data : List UInt8) : CNetMessage → List UInt8 → Prop
  | header {msg : CNetMessage} {done : List UInt8} (hlt : done.length < 24)
      (hin : msg.in_data = false) (hpos : msg.nHdrPos = done.length)
      (hbuf : msg.hdrbuf.length = 24) (hread : msg.hdrbuf.take done.length = done)
      (hrecv : msg.vRecv = []) (hhash : msg.hashed = []) (hdata : msg.nDataPos = 0) :
      Absorbed hdr data msg done
  | data {msg : CNetMessage} {done : List UInt8} (hge : 24 ≤ done.length)
      (hin : msg.in_data = true) (hhdr : msg.hdr = hdr) (hpos : msg.nDataPos = done.length - 24)
      (hread : msg.vRecv.take msg.nDataPos = done.drop 24)
      (hlen : msg.nDataPos ≤ msg.vRecv.length) (hmax : msg.vRecv.length ≤ hdr.nMessageSize)
      (hhash : msg.hashed = done.drop 24) : Absorbed hdr data msg done

theorem absorbed_new (hdr : CMessageHeader) (data messageStart : List UInt8) :
    Absorbed hdr data (.new messageStart) [] :=
  .header (Nat.succ_pos _) rfl rfl length_replicate rfl rfl rfl rfl

theorem readHeader_short (h : Absorbed hdr data msg done) (hshort : (done ++ pch).length < 24) :
    ∃ msg', msg.readHeader pch = some (msg', pch.length) ∧
      Absorbed hdr data msg' (done ++ pch) ∧ msg'.in_data = false := by
  rw [length_append] at hshort
  cases h with
  | data hge => omega
  | header hlt hin hpos hbuf hread hrecv hhash hdata =>
    have hcopy : min (24 - msg.nHdrPos) pch.length = pch.length := by omega
    have htake : pch.take pch.length = pch := take_length
    unfold readHeader
    dsimp only
    rw [hcopy, htake, if_pos (by omega)]
    refine ⟨_, rfl, ?_, hin⟩
    refine .header (by rw [length_append]; omega) hin ?_ ?_ ?_ hrecv hhash hdata
    · show msg.nHdrPos + pch.length = _
      rw [hpos, length_append]
    · show (memcpyAt msg.hdrbuf msg.nHdrPos pch).length = 24
      rw [length_memcpyAt (by omega)]
      exact hbuf
    · show (memcpyAt msg.hdrbuf msg.nHdrPos pch).take (done ++ pch).length = done ++ pch
      rw [length_append, hpos, take_memcpyAt _ _ _ (by omega), hread]

theorem readHeader_full (hsized : hdr.Sized) (h : Absorbed hdr data msg done)
    (hlt : done.length < 24) (hfull : 24 ≤ (done ++ pch).length)
    (hpre : (done ++ pch).take 24 = hdr.serialize) :
    (msg.readHeader pch = none ∧ MAX_SIZE < hdr.nMessageSize) ∨
      ∃ msg', msg.readHeader pch = some (msg', 24 - done.length) ∧
        Absorbed hdr data msg' (done ++ pch.take (24 - done.length)) ∧ msg'.in_data = true ∧
          hdr.nMessageSize ≤ MAX_SIZE := by
  rw [length_append] at hfull
  cases h with
  | data hge => omega
  | header _ hin hpos hbuf hread hrecv hhash hdata =>
    have hcopy : min (24 - msg.nHdrPos) pch.length = 24 - done.length := by omega
    have hlen : (pch.take (24 - done.length)).length = 24 - done.length := by
      rw [length_take]
      omega
    -- the buffer now holds the whole header and nothing else
    have hbuf' : memcpyAt msg.hdrbuf msg.nHdrPos (pch.take (24 - done.length)) =
        hdr.serialize := by
      have hsum : done.length + (pch.take (24 - done.length)).length = 24 := by omega
      have htake := take_memcpyAt msg.hdrbuf (pch.take (24 - done.length)) done.length
        (by omega)
      have hcat : done ++ pch.take (24 - done.length) = hdr.serialize := by
        rw [← hpre, take_append, take_of_length_le (le_of_lt hlt)]
      have hall : (memcpyAt msg.hdrbuf done.length (pch.take (24 - done.length))).length = 24 := by
        rw [length_memcpyAt (by omega)]
        exact hbuf
      rw [hsum, hread, hcat, take_of_length_le (le_of_eq hall)] at htake
      rw [hpos]
      exact htake
    unfold readHeader
    dsimp only
    rw [hcopy, hbuf', hsized.unserialize_serialize, if_neg (by omega)]
    by_cases hmax : hdr.nMessageSize > MAX_SIZE
    · rw [if_pos hmax]
      exact .inl ⟨rfl, hmax⟩
    · rw [if_neg hmax]
      refine .inr ⟨_, rfl, ?_, rfl, not_lt.mp hmax⟩
      have hdone : (done ++ pch.take (24 - done.length)).length = 24 := by
        rw [length_append, hlen]
        omega
      refine .data (le_of_eq hdone.symm) rfl rfl ?_ ?_ ?_ ?_ ?_
      · show msg.nDataPos = _
        rw [hdata, hdone]
      · show msg.vRecv.take msg.nDataPos = _
        rw [hrecv, hdata, drop_of_length_le (le_of_eq hdone)]
        rfl
      · show msg.nDataPos ≤ msg.vRecv.length
        rw [hdata]
        exact Nat.zero_le _
      · show msg.vRecv.length ≤ _
        rw [hrecv]
        exact Nat.zero_le _
      · show msg.hashed = _
        rw [hhash, drop_of_length_le (le_of_eq hdone)]

variable (pch) in
theorem readData_absorbed (h : Absorbed hdr data msg done) (hge : 24 ≤ done.length)
    (hsize : done.length - 24 ≤ hdr.nMessageSize) :
    ∃ msg', msg.readData pch = (msg', min (hdr.nMessageSize + 24 - done.length) pch.length) ∧
      Absorbed hdr data msg'
        (done ++ pch.take (min (hdr.nMessageSize + 24 - done.length) pch.length)) ∧
      msg'.in_data = true := by
  cases h with
  | header hlt => omega
  | data _ hin hhdr hpos hread hlen hmax hhash =>
    have hcopy : min (msg.hdr.nMessageSize - msg.nDataPos) pch.length =
        min (hdr.nMessageSize + 24 - done.length) pch.length := by
      rw [hhdr, hpos]
      omega
    unfold readData
    rw [hcopy]
    refine ⟨_, rfl, ?_, hin⟩
    generalize hn : min (hdr.nMessageSize + 24 - done.length) pch.length = n
    have hsrc : (pch.take n).length = n := by
      rw [length_take]
      omega
    -- the buffer after the allocation
    obtain ⟨buf, hbuf⟩ : ∃ buf, (if msg.vRecv.length < msg.nDataPos + n then
        resizeBytes msg.vRecv (min msg.hdr.nMessageSize (msg.nDataPos + n + 256 * 1024))
      else msg.vRecv) = buf := ⟨_, rfl⟩
    have hfacts : buf.take msg.nDataPos = done.drop 24 ∧ msg.nDataPos + n ≤ buf.length ∧
        buf.length ≤ hdr.nMessageSize := by
      rw [← hbuf]
      split
      next hgrow =>
        have hle : msg.vRecv.length ≤
            min msg.hdr.nMessageSize (msg.nDataPos + n + 256 * 1024) := by
          omega
        rw [length_resizeBytes hle, take_resizeBytes hlen hle, hhdr]
        exact ⟨hread, by omega, by omega⟩
      next hfits => exact ⟨hread, by omega, hmax⟩
    obtain ⟨htake, hfit, hbmax⟩ := hfacts
    rw [hbuf]
    refine .data ?_ hin hhdr ?_ ?_ ?_ ?_ ?_
    · rw [length_append]
      omega
    · show msg.nDataPos + n = _
      rw [length_append, hsrc, hpos]
      omega
    · show (memcpyAt buf msg.nDataPos (pch.take n)).take (msg.nDataPos + n) = _
      have hcat := take_memcpyAt buf (pch.take n) msg.nDataPos (by omega)
      rw [hsrc] at hcat
      rw [hcat, htake, drop_append_of_le_length hge]
    · show msg.nDataPos + n ≤ (memcpyAt buf msg.nDataPos (pch.take n)).length
      rw [length_memcpyAt (by omega)]
      exact hfit
    · show (memcpyAt buf msg.nDataPos (pch.take n)).length ≤ _
      rw [length_memcpyAt (by omega)]
      exact hbmax
    · show msg.hashed ++ pch.take n = _
      rw [hhash, drop_append_of_le_length hge]

theorem read_absorbed (hsized : hdr.Sized) (hsize : hdr.nMessageSize = data.length)
    (h : Absorbed hdr data msg done) (hpre : done ++ pch <+: hdr.serialize ++ data)
    (hlt : done.length < 24 + data.length) (hne : pch ≠ []) :
    ((if msg.in_data then some (msg.readData pch) else msg.readHeader pch) = none ∧
        MAX_SIZE < data.length ∧ 24 ≤ (done ++ pch).length) ∨
      ∃ msg' handled,
        (if msg.in_data then some (msg.readData pch) else msg.readHeader pch) =
          some (msg', handled) ∧ 0 < handled ∧ handled ≤ pch.length ∧
        Absorbed hdr data msg' (done ++ pch.take handled) := by
  have hpos : 0 < pch.length := length_pos_iff.mpr hne
  cases hin : msg.in_data with
  | true =>
    have hge : 24 ≤ done.length := by
      cases h with
      | header _ hin' => rw [hin] at hin'; cases hin'
      | data hge => exact hge
    obtain ⟨msg', hread, habs, -⟩ := readData_absorbed pch h hge (by omega)
    refine .inr ⟨msg', _, ?_, ?_, min_le_right _ _, habs⟩
    · rw [if_pos rfl, hread]
    · omega
  | false =>
    have hshort : done.length < 24 := by
      cases h with
      | header hlt => exact hlt
      | data _ hin' => rw [hin] at hin'; cases hin'
    by_cases hall : (done ++ pch).length < 24
    · obtain ⟨msg', hread, habs, -⟩ := readHeader_short h hall
      refine .inr ⟨msg', pch.length, hread, hpos, le_refl _, ?_⟩
      rw [take_length]
      exact habs
    · have htake : (done ++ pch).take 24 = hdr.serialize := by
        obtain ⟨rest, hrest⟩ := hpre
        have hcut := congrArg (take 24) hrest
        rw [take_append_of_le_length (not_lt.mp hall),
          take_left' hsized.length_serialize] at hcut
        exact hcut
      have hfull := not_lt.mp hall
      rcases readHeader_full hsized h hshort hfull htake with
        ⟨hread, hmax⟩ | ⟨msg', hread, habs, -, -⟩
      · exact .inl ⟨hread, hsize ▸ hmax, hfull⟩
      · rw [length_append] at hfull
        exact .inr ⟨msg', _, hread, by omega, by omega, habs⟩

/-! ## A connection -/

namespace CNodeRecv

variable {node : CNodeRecv} {ms : List UInt8} {old : List CNetMessage} {nTimeMicros : Int}

/-- The connection is `done` far in a message, behind the messages `old`. -/
def At (ms : List UInt8) (hdr : CMessageHeader) (data : List UInt8) (node : CNodeRecv)
    (old : List CNetMessage) (done : List UInt8) : Prop :=
  ∃ msg, node.currentMessage ms = (old, msg) ∧ Absorbed hdr data msg done

/-- The message was read whole. -/
structure Whole (hdr : CMessageHeader) (data : List UInt8) (msg : CNetMessage) : Prop where
  complete : msg.complete = true
  hdr : msg.hdr = hdr
  vRecv : msg.vRecv = data
  hashed : msg.hashed = data

theorem currentMessage_snoc {msg : CNetMessage} (h : msg.complete = false) :
    ({ node with vRecvMsg := old ++ [msg] } : CNodeRecv).currentMessage ms = (old, msg) := by
  unfold currentMessage
  rw [getLast?_concat]
  dsimp only
  rw [if_neg (by rw [h]; exact Bool.false_ne_true), dropLast_concat]

theorem complete_iff_length (h : Absorbed hdr data msg done) :
    msg.complete = true ↔ done.length = 24 + hdr.nMessageSize := by
  cases h with
  | header hlt hin =>
    rw [complete, hin, Bool.false_and]
    constructor
    · intro h
      cases h
    · intro h
      omega
  | data hge hin hhdr hpos =>
    rw [complete, hin, Bool.true_and, beq_iff_eq, hhdr, hpos]
    omega

theorem complete_iff (hsize : hdr.nMessageSize = data.length) (h : Absorbed hdr data msg done) :
    msg.complete = true ↔ done.length = 24 + data.length := by
  rw [complete_iff_length h, hsize]

theorem whole_of_absorbed (hsized : hdr.Sized) (hsize : hdr.nMessageSize = data.length)
    (h : Absorbed hdr data msg (hdr.serialize ++ data)) (nTime : Int) :
    Whole hdr data { msg with nTime := nTime } := by
  have hlen : (hdr.serialize ++ data).length = 24 + data.length := by
    rw [length_append, hsized.length_serialize]
  have hdrop : (hdr.serialize ++ data).drop 24 = data := drop_left' hsized.length_serialize
  have hcomplete := (complete_iff hsize h).mpr hlen
  cases h with
  | header hlt => omega
  | data hge hin hhdr hpos hread hdlen hmax hhash =>
    refine ⟨hcomplete, hhdr, ?_, ?_⟩
    · show msg.vRecv = data
      rw [hdrop, take_of_length_le (by omega)] at hread
      exact hread
    · show msg.hashed = data
      rw [hhash, hdrop]

variable (nTimeMicros) in
theorem absorb_ok (hsized : hdr.Sized) (hsize : hdr.nMessageSize = data.length)
    (hmax : data.length ≤ MAX_PROTOCOL_MESSAGE_LENGTH) (h : node.At ms hdr data old done)
    (hpre : done ++ pch <+: hdr.serialize ++ data) (hlt : done.length < 24 + data.length)
    (hne : pch ≠ []) :
    ∃ node' handled fin, node.absorb ms pch nTimeMicros = .ok (node', handled, fin) ∧
      0 < handled ∧ node'.vProcessMsg = node.vProcessMsg ∧
      ((fin = false ∧ node'.At ms hdr data old (done ++ pch.take handled) ∧
          (done ++ pch.take handled).length < 24 + data.length) ∨
        fin = true ∧ done ++ pch.take handled = hdr.serialize ++ data ∧
          ∃ msg, node'.vRecvMsg = old ++ [msg] ∧ Whole hdr data msg) := by
  obtain ⟨msg, hcurrent, habs⟩ := h
  have hwire : (hdr.serialize ++ data).length = 24 + data.length := by
    rw [length_append, hsized.length_serialize]
  rcases read_absorbed hsized hsize habs hpre hlt hne with
    ⟨-, hbig, -⟩ | ⟨msg', handled, hread, hpos, hle, habs'⟩
  -- a message within the limit is not refused for its size
  · unfold MAX_PROTOCOL_MESSAGE_LENGTH at hmax
    unfold MAX_SIZE at hbig
    omega
  · have hpre' : done ++ pch.take handled <+: hdr.serialize ++ data :=
      ((prefix_append_right_inj done).mpr ( take_prefix handled pch)).trans hpre
    have hsmall : (msg'.in_data &&
        decide (msg'.hdr.nMessageSize > MAX_PROTOCOL_MESSAGE_LENGTH)) = false := by
      cases habs' with
      | header _ hin => rw [hin, Bool.false_and]
      | data _ _ hhdr =>
        rw [hhdr, hsize, decide_eq_false (by omega), Bool.and_false]
    unfold absorb
    rw [hcurrent]
    dsimp only
    rw [hread]
    dsimp only
    rw [if_neg (by rw [hsmall]; exact Bool.false_ne_true)]
    by_cases hdone : (done ++ pch.take handled).length = 24 + data.length
    · have hcomplete := (complete_iff hsize habs').mpr hdone
      have heq : done ++ pch.take handled = hdr.serialize ++ data :=
        hpre'.eq_of_length (hdone.trans hwire.symm)
      rw [if_pos hcomplete]
      exact ⟨_, handled, true, rfl, hpos, rfl, .inr ⟨rfl, heq, _, rfl,
        whole_of_absorbed hsized hsize (heq ▸ habs') nTimeMicros⟩⟩
    · have hle' := hpre'.length_le
      have hcomplete : msg'.complete = false :=
        Bool.eq_false_iff.mpr fun hc => hdone ((complete_iff hsize habs').mp hc)
      rw [if_neg (by rw [hcomplete]; exact Bool.false_ne_true)]
      exact ⟨_, handled, false, rfl, hpos, rfl, .inl ⟨rfl,
        ⟨msg', currentMessage_snoc hcomplete, habs'⟩, by omega⟩⟩

variable (nTimeMicros) in
theorem absorb_oversized (hsized : hdr.Sized) (hsize : hdr.nMessageSize = data.length)
    (hmax : MAX_PROTOCOL_MESSAGE_LENGTH < data.length) (h : node.At ms hdr data old done)
    (hshort : done.length < 24) (hpre : done ++ pch <+: hdr.serialize ++ data) :
    ((done ++ pch).length < 24 ∧ ∃ node', node.absorb ms pch nTimeMicros =
        .ok (node', pch.length, false) ∧ node'.At ms hdr data old (done ++ pch)) ∨
      24 ≤ (done ++ pch).length ∧ node.absorb ms pch nTimeMicros = .error .disconnected := by
  obtain ⟨msg, hcurrent, habs⟩ := h
  have hin : msg.in_data = false := by
    cases habs with
    | header _ hin => exact hin
    | data hge => omega
  unfold absorb
  rw [hcurrent]
  dsimp only
  rw [hin, if_neg Bool.false_ne_true]
  by_cases hall : (done ++ pch).length < 24
  · obtain ⟨msg', hread, habs', hin'⟩ := readHeader_short habs hall
    have hcomplete : msg'.complete = false := by rw [complete, hin', Bool.false_and]
    rw [hread]
    dsimp only
    rw [hin', Bool.false_and, if_neg Bool.false_ne_true, hcomplete, if_neg Bool.false_ne_true]
    exact .inl ⟨hall, _, rfl, msg', currentMessage_snoc hcomplete, habs'⟩
  · have hfull := not_lt.mp hall
    have htake : (done ++ pch).take 24 = hdr.serialize := by
      obtain ⟨rest, hrest⟩ := hpre
      have hcut := congrArg (take 24) hrest
      rw [take_append_of_le_length hfull, take_left' hsized.length_serialize] at hcut
      exact hcut
    refine .inr ⟨hfull, ?_⟩
    rcases readHeader_full hsized habs hshort hfull htake with
      ⟨hread, -⟩ | ⟨msg', hread, habs', hin', -⟩
    · rw [hread]
    · have hhdr : msg'.hdr = hdr := by
        cases habs' with
        | header _ hin'' => rw [hin'] at hin''; cases hin''
        | data _ _ hhdr => exact hhdr
      rw [hread]
      dsimp only
      rw [hin', hhdr, hsize, Bool.true_and, if_pos (decide_eq_true (by omega))]

variable (nTimeMicros) in
theorem receiveLoop_ok (hsized : hdr.Sized) (hsize : hdr.nMessageSize = data.length)
    (hmax : data.length ≤ MAX_PROTOCOL_MESSAGE_LENGTH) (h : node.At ms hdr data old done)
    (hpre : done ++ pch <+: hdr.serialize ++ data) (hlt : done.length < 24 + data.length) :
    ∃ node' complete, receiveLoop ms nTimeMicros node pch false = .ok (node', complete) ∧
      node'.vProcessMsg = node.vProcessMsg ∧
      ((complete = false ∧ node'.At ms hdr data old (done ++ pch) ∧
          (done ++ pch).length < 24 + data.length) ∨
        complete = true ∧ done ++ pch = hdr.serialize ++ data ∧
          ∃ msg, node'.vRecvMsg = old ++ [msg] ∧ Whole hdr data msg) := by
  induction hn : pch.length using Nat.strong_induction_on generalizing node done pch with
  | _ n ih =>
    cases pch with
    | nil =>
      rw [receiveLoop, append_nil]
      exact ⟨node, false, rfl, rfl, .inl ⟨rfl, h, hlt⟩⟩
    | cons c cs =>
      obtain ⟨node', handled, fin, habsorb, hpos, hsame, hcase⟩ :=
        absorb_ok nTimeMicros hsized hsize hmax h hpre hlt (cons_ne_nil c cs)
      rw [receiveLoop, habsorb]
      dsimp only
      rw [if_pos hpos]
      have hsplit : done ++ (c :: cs).take handled ++ (c :: cs).drop handled =
          done ++ c :: cs := by
        rw [append_assoc, take_append_drop]
      rcases hcase with ⟨rfl, hat, hlt'⟩ | ⟨rfl, hall, hwhole⟩
      · have hshorter : ((c :: cs).drop handled).length < n := by
          rw [length_drop]
          rw [length_cons] at hn ⊢
          omega
        obtain ⟨node'', complete, hloop, hsame', hrest⟩ :=
          ih _ hshorter hat (by rw [hsplit]; exact hpre) hlt' rfl
        rw [hsplit] at hrest
        exact ⟨node'', complete, hloop, hsame'.trans hsame, hrest⟩
      · -- nothing is left of the chunk
        have hnil : (c :: cs).drop handled = [] := by
          have hlen := hpre.length_le
          rw [← hall, ← hsplit, length_append] at hlen
          exact eq_nil_of_length_eq_zero (by omega)
        rw [hnil, append_nil] at hsplit
        rw [hnil, receiveLoop]
        exact ⟨node', true, rfl, hsame, .inr ⟨rfl, hsplit ▸ hall, hwhole⟩⟩

variable (nTimeMicros) in
theorem receiveChunk_ok (hsized : hdr.Sized) (hsize : hdr.nMessageSize = data.length)
    (hmax : data.length ≤ MAX_PROTOCOL_MESSAGE_LENGTH) (h : node.At ms hdr data old done)
    (hold : ∀ msg ∈ old, msg.complete = true)
    (hpre : done ++ pch <+: hdr.serialize ++ data) (hlt : done.length < 24 + data.length) :
    ∃ node', node.receiveChunk ms (pch, nTimeMicros) = .ok node' ∧
      ((node'.At ms hdr data old (done ++ pch) ∧ node'.vProcessMsg = node.vProcessMsg ∧
          (done ++ pch).length < 24 + data.length) ∨
        done ++ pch = hdr.serialize ++ data ∧ node'.vRecvMsg = [] ∧
          ∃ msg, node'.vProcessMsg = node.vProcessMsg ++ (old ++ [msg]) ∧ Whole hdr data msg) := by
  obtain ⟨node1, hnode1⟩ : ∃ node1 : CNodeRecv, { node with
    nLastRecv := nTimeMicros / 1000000
    nRecvBytes := node.nRecvBytes + pch.length } = node1 := ⟨_, rfl⟩
  have h₁ : node1.At ms hdr data old done := by
    rw [← hnode1]
    exact h
  have hproc1 : node1.vProcessMsg = node.vProcessMsg := by rw [← hnode1]
  obtain ⟨node2, complete, hloop, hsame, hcase⟩ :=
    receiveLoop_ok nTimeMicros hsized hsize hmax h₁ hpre hlt
  have hreceive : node.receiveMsgBytes ms pch nTimeMicros = .ok (node2, complete) := by
    rw [receiveMsgBytes, hnode1]
    exact hloop
  unfold receiveChunk
  rw [hreceive]
  rcases hcase with ⟨rfl, hat, hlt'⟩ | ⟨rfl, hall, msg, hrecv, hwhole⟩
  · exact ⟨node2, rfl, .inl ⟨hat, hsame.trans hproc1, hlt'⟩⟩
  · have hevery : ∀ m ∈ node2.vRecvMsg, m.complete = true := by
      rw [hrecv]
      intro m hm
      rcases mem_append.mp hm with hm | hm
      · exact hold m hm
      · rw [mem_singleton.mp hm]
        exact hwhole.complete
    refine ⟨_, rfl, .inr ⟨hall, ?_, msg, ?_, hwhole⟩⟩
    · exact dropWhile_eq_nil_iff.mpr hevery
    · show node2.vProcessMsg ++ node2.vRecvMsg.takeWhile complete = _
      rw [takeWhile_eq_self_iff.mpr hevery, hsame, hproc1, hrecv]

variable (node ms) in
theorem receiveChunks_nil {chunks : List (List UInt8 × Int)}
    (h : (chunks.map Prod.fst).flatten = []) :
    ∃ node', node.receiveChunks ms chunks = .ok node' ∧ node'.vRecvMsg = node.vRecvMsg ∧
      node'.vProcessMsg = node.vProcessMsg := by
  induction chunks generalizing node with
  | nil => exact ⟨node, rfl, rfl, rfl⟩
  | cons chunk chunks ih =>
    obtain ⟨pch, t⟩ := chunk
    rw [map_cons, flatten_cons, append_eq_nil_iff] at h
    obtain ⟨hpch, hrest⟩ := h
    have hpch : pch = [] := hpch
    obtain ⟨node1, hnode1⟩ : ∃ node1 : CNodeRecv, { node with
      nLastRecv := t / 1000000
      nRecvBytes := node.nRecvBytes + pch.length } = node1 := ⟨_, rfl⟩
    have hchunk : node.receiveChunk ms (pch, t) = .ok node1 := by
      have hreceive : node.receiveMsgBytes ms pch t = .ok (node1, false) := by
        rw [receiveMsgBytes, hnode1, hpch, receiveLoop]
      unfold receiveChunk
      rw [hreceive]
      rfl
    obtain ⟨node', hrun, hrecv, hproc⟩ := ih node1 hrest
    refine ⟨node', ?_, ?_, ?_⟩
    · rw [receiveChunks, hchunk]
      exact hrun
    · rw [hrecv, ← hnode1]
    · rw [hproc, ← hnode1]

theorem receiveChunks_ok (hsized : hdr.Sized) (hsize : hdr.nMessageSize = data.length)
    (hmax : data.length ≤ MAX_PROTOCOL_MESSAGE_LENGTH) (hold : ∀ msg ∈ old, msg.complete = true)
    {chunks : List (List UInt8 × Int)} (h : node.At ms hdr data old done)
    (hlt : done.length < 24 + data.length)
    (hall : done ++ (chunks.map Prod.fst).flatten = hdr.serialize ++ data) :
    ∃ node' msg, node.receiveChunks ms chunks = .ok node' ∧ node'.vRecvMsg = [] ∧
      node'.vProcessMsg = node.vProcessMsg ++ (old ++ [msg]) ∧ Whole hdr data msg := by
  induction chunks generalizing node done with
  | nil =>
    have hlen := congrArg List.length hall
    rw [map_nil, flatten_nil, append_nil, length_append,
      hsized.length_serialize] at hlen
    omega
  | cons chunk chunks ih =>
    obtain ⟨pch, t⟩ := chunk
    rw [map_cons, flatten_cons, ← append_assoc] at hall
    obtain ⟨node1, hchunk, hcase⟩ := receiveChunk_ok t hsized hsize hmax h hold
      ⟨_, hall⟩ hlt
    rw [receiveChunks, hchunk]
    rcases hcase with ⟨hat, hproc, hlt'⟩ | ⟨hdone, hrecv, msg, hproc, hwhole⟩
    · obtain ⟨node', msg, hrun, hrecv, hproc', hwhole⟩ := ih hat hlt' hall
      exact ⟨node', msg, hrun, hrecv, hproc ▸ hproc', hwhole⟩
    · have hrest : (chunks.map Prod.fst).flatten = [] := by
        rw [hdone] at hall
        exact append_right_eq_self.mp hall
      obtain ⟨node', hrun, hrecv', hproc'⟩ := receiveChunks_nil node1 ms hrest
      exact ⟨node', msg, hrun, hrecv'.trans hrecv, hproc'.trans hproc, hwhole⟩

variable (nTimeMicros) in
theorem receiveChunk_oversized (hsized : hdr.Sized) (hsize : hdr.nMessageSize = data.length)
    (hmax : MAX_PROTOCOL_MESSAGE_LENGTH < data.length) (h : node.At ms hdr data old done)
    (hshort : done.length < 24) (hpre : done ++ pch <+: hdr.serialize ++ data) :
    ((done ++ pch).length < 24 ∧ ∃ node', node.receiveChunk ms (pch, nTimeMicros) = .ok node' ∧
        node'.At ms hdr data old (done ++ pch)) ∨
      node.receiveChunk ms (pch, nTimeMicros) = .error .disconnected := by
  obtain ⟨node1, hnode1⟩ : ∃ node1 : CNodeRecv, { node with
    nLastRecv := nTimeMicros / 1000000
    nRecvBytes := node.nRecvBytes + pch.length } = node1 := ⟨_, rfl⟩
  have h₁ : node1.At ms hdr data old done := by
    rw [← hnode1]
    exact h
  unfold receiveChunk receiveMsgBytes
  rw [hnode1]
  cases pch with
  | nil =>
    rw [receiveLoop, append_nil]
    exact .inl ⟨hshort, node1, rfl, h₁⟩
  | cons c cs =>
    rcases absorb_oversized nTimeMicros hsized hsize hmax h₁ hshort hpre with
      ⟨hlt, node', habsorb, hat⟩ | ⟨-, habsorb⟩
    · rw [receiveLoop, habsorb]
      dsimp only
      rw [if_pos (show 0 < (c :: cs).length from Nat.succ_pos _), drop_length, receiveLoop]
      exact .inl ⟨hlt, node', rfl, hat⟩
    · rw [receiveLoop, habsorb]
      exact .inr rfl

theorem receiveChunks_oversized (hsized : hdr.Sized) (hsize : hdr.nMessageSize = data.length)
    (hmax : MAX_PROTOCOL_MESSAGE_LENGTH < data.length) {chunks : List (List UInt8 × Int)}
    (h : node.At ms hdr data old done) (hshort : done.length < 24)
    (hall : done ++ (chunks.map Prod.fst).flatten = hdr.serialize ++ data) :
    node.receiveChunks ms chunks = .error .disconnected := by
  induction chunks generalizing node done with
  | nil =>
    have hlen := congrArg List.length hall
    rw [map_nil, flatten_nil, append_nil, length_append,
      hsized.length_serialize] at hlen
    omega
  | cons chunk chunks ih =>
    obtain ⟨pch, t⟩ := chunk
    rw [map_cons, flatten_cons, ← append_assoc] at hall
    rw [receiveChunks]
    rcases receiveChunk_oversized t hsized hsize hmax h hshort ⟨_, hall⟩ with
      ⟨hlt, node', hchunk, hat⟩ | hchunk
    · rw [hchunk]
      exact ih hat hlt hall
    · rw [hchunk]
      rfl

variable (ms) in
theorem at_start (hdr : CMessageHeader) (data : List UInt8)
    (h : ∀ msg ∈ node.vRecvMsg, msg.complete = true) :
    node.At ms hdr data node.vRecvMsg [] := by
  refine ⟨.new ms, ?_, absorbed_new hdr data ms⟩
  unfold currentMessage
  cases hlast : node.vRecvMsg.getLast? with
  | none => rw [getLast?_eq_none_iff.mp hlast]
  | some msg =>
    dsimp only
    rw [if_pos (h msg (mem_of_getLast? hlast))]

end CNodeRecv

open CNodeRecv

/-! ## Blocks -/

/-- The message for a block arrives: the connection stays, the message is handed
    over whole, behind those before it, and passes the checks of its header. -/
def Delivered (p : NetParams) (node : CNodeRecv) (chunks : List (List UInt8 × Int))
    (data : List UInt8) : Prop :=
  ∃ node' msg, node.receiveChunks p.messageStart chunks = .ok node' ∧ node'.vRecvMsg = [] ∧
    node'.vProcessMsg = node.vProcessMsg ++ (node.vRecvMsg ++ [msg]) ∧
    processHeader p.hash p.messageStart msg = .process BLOCK data

variable (p : NetParams) {node : CNodeRecv} {chunks : List (List UInt8 × Int)}

theorem processHeader_whole {msg : CNetMessage} (hlt : data.length ≤ MAX_SIZE)
    (h : Whole (.ofMessage p.hash p.messageStart BLOCK data) data msg) :
    processHeader p.hash p.messageStart msg = .process BLOCK data := by
  have hcommand : commandValid
      (strncpy COMMAND_SIZE BLOCK) = true := by decide
  have hsize : data.length % 2 ^ 32 = data.length :=
    Nat.mod_eq_of_lt (Nat.lt_of_le_of_lt hlt (by decide))
  have hvalid : msg.hdr.isValid p.messageStart = true := by
    rw [h.hdr, isValid]
    show (p.messageStart == p.messageStart && commandValid
        (strncpy COMMAND_SIZE BLOCK) &&
      !(decide (data.length % 2 ^ 32 > MAX_SIZE))) = true
    rw [beq_self_eq_true, Bool.true_and, hcommand, hsize, decide_eq_false (by omega)]
    rfl
  have hstart : msg.hdr.pchMessageStart = p.messageStart := by rw [h.hdr]; rfl
  have hsum : (p.hash msg.hashed).take CHECKSUM_SIZE = msg.hdr.pchChecksum := by
    rw [h.hdr, h.hashed]
    rfl
  have hname : msg.hdr.getCommand = BLOCK := by
    rw [h.hdr]
    show cString (strncpy COMMAND_SIZE BLOCK) = BLOCK
    decide
  rw [processHeader, if_neg (not_not.mpr hstart), hvalid, Bool.not_true,
    if_neg Bool.false_ne_true, if_neg (not_not.mpr hsum), hname, h.vRecv]

theorem delivered_of_le (hle : data.length ≤ MAX_PROTOCOL_MESSAGE_LENGTH)
    (hnode : ∀ msg ∈ node.vRecvMsg, msg.complete = true)
    (hchunks : (chunks.map Prod.fst).flatten = pushMessage p.hash p.messageStart BLOCK data) :
    Delivered p node chunks data := by
  have hsmall : data.length ≤ MAX_SIZE := Nat.le_trans hle (by decide)
  have hsize : (ofMessage p.hash p.messageStart BLOCK data).nMessageSize =
      data.length := Nat.mod_eq_of_lt (Nat.lt_of_le_of_lt hsmall (by decide))
  have hstart := at_start p.messageStart
    (.ofMessage p.hash p.messageStart BLOCK data) data hnode
  obtain ⟨node', msg, hrun, hrecv, hproc, hwhole⟩ := receiveChunks_ok
    (sized_ofMessage p BLOCK data) hsize hle hnode hstart
    (by rw [List.length_nil]; omega) hchunks
  exact ⟨node', msg, hrun, hrecv, hproc, processHeader_whole p hsmall hwhole⟩

theorem not_delivered_of_lt (hlt : MAX_PROTOCOL_MESSAGE_LENGTH < data.length)
    (hmax : data.length < 2 ^ 32) (hnode : ∀ msg ∈ node.vRecvMsg, msg.complete = true)
    (hchunks : (chunks.map Prod.fst).flatten = pushMessage p.hash p.messageStart BLOCK data) :
    ¬ Delivered p node chunks data := by
  rintro ⟨node', msg, hrun, -⟩
  have hstart := at_start p.messageStart
    (.ofMessage p.hash p.messageStart BLOCK data) data hnode
  have herror := receiveChunks_oversized
    (sized_ofMessage p BLOCK data) (Nat.mod_eq_of_lt hmax) hlt hstart
    (Nat.succ_pos _) hchunks
  rw [herror] at hrun
  cases hrun

/-- A block within the size limits of consensus is delivered, however its message
    is cut into chunks, exactly if it is within the limit of a message. -/
theorem CFullBlock.delivered_iff (block : CFullBlock) (hvalid : checkBlockSizes block = true)
    (fAllowWitness : Bool) (hnode : ∀ msg ∈ node.vRecvMsg, msg.complete = true)
    (hchunks : (chunks.map Prod.fst).flatten =
      pushMessage p.hash p.messageStart BLOCK (block.serialize fAllowWitness)) :
    Delivered p node chunks (block.serialize fAllowWitness) ↔
      (block.serialize fAllowWitness).length ≤ MAX_PROTOCOL_MESSAGE_LENGTH := by
  constructor
  · intro hdel
    by_contra hlong
    have hmax := serialize_le_of_checkBlockSizes hvalid fAllowWitness
    exact not_delivered_of_lt p (Nat.not_le.mp hlong) (Nat.lt_of_le_of_lt hmax (by decide)) hnode
      hchunks hdel
  · intro hle
    exact delivered_of_le p hle hnode hchunks

/-! ## Blocks with one long output -/

namespace OutputSample

/-- A coinbase whose output has a script of `n` bytes that no one can spend. -/
def block (n : Nat) : CFullBlock where
  nVersion := 4
  hashPrevBlock := 1
  hashMerkleRoot := 2
  nTime := 0
  nBits := 0
  nNonce := 0
  nSolution := []
  vtx := [{
    hash := 3
    vin := [{ prevout := ⟨0, COutPoint.nullIndex⟩, scriptSig := [1, 1] }]
    vout := [⟨0, replicate n opReturnByte⟩] }]

theorem length_block (n : Nat) (fAllowWitness : Bool) :
    ((block n).serialize fAllowWitness).length = 171 + getSizeOfCompactSize n + n := by
  have hflags : (fAllowWitness && CTransaction.hasWitness {
      hash := 3
      vin := [{ prevout := ⟨0, COutPoint.nullIndex⟩, scriptSig := [1, 1] }]
      vout := [⟨0, List.replicate n opReturnByte⟩] }) = false := by
    cases fAllowWitness <;> rfl
  have h0 : getSizeOfCompactSize 0 = 1 := rfl
  have h1 : getSizeOfCompactSize 1 = 1 := rfl
  have h2 : getSizeOfCompactSize 2 = 1 := rfl
  simp only [CFullBlock.serialize, CFullBlock.serializeHeader, serializeVector, serializeBytes,
    block, CTransaction.serialize, hflags, Bool.false_eq_true, if_false, if_true,
    CTxIn.serialize, CTxOut.serialize, COutPoint.serialize, length_append, length_leBytes,
    length_leBytesInt, length_writeCompactSize, List.length_nil, length_cons, h0, h1, h2,
    flatMap_cons, flatMap_nil, length_replicate]
  omega

theorem checkBlockSizes_block (n : Nat) (h : n ≤ 4000000) : checkBlockSizes (block n) = true := by
  have hsize : getSizeOfCompactSize n ≤ 9 := by
    unfold getSizeOfCompactSize
    split <;> [skip; split <;> [skip; split]] <;> omega
  have hone : (block n).vtx.length = 1 := rfl
  have hvtx : (block n).vtx.isEmpty = false := rfl
  unfold checkBlockSizes getBlockWeight CFullBlock.getSerializeSize
  rw [length_block, length_block, hvtx, hone]
  unfold WITNESS_SCALE_FACTOR MAX_BLOCK_WEIGHT
  rw [decide_eq_false (by omega), decide_eq_false (by omega), decide_eq_false (by omega)]
  rfl

/-- The main network, with the hash of the blocks `block 0` and `block 4000000`. -/
def params (digest : List UInt8) (h : digest.length = 32) : NetParams where
  messageStart := [0x52, 0x43, 0x4f, 0x4d]
  hash := fun _ => digest
  messageStart_length := rfl
  hash_length := fun _ => h

def digest0 : List UInt8 :=
  [167, 171, 187, 95, 155, 197, 224, 208, 175, 238, 28, 45, 167, 210, 206, 8,
    213, 221, 240, 179, 177, 138, 115, 15, 216, 177, 149, 177, 234, 54, 221, 117]

def digest4000000 : List UInt8 :=
  [185, 148, 251, 222, 44, 93, 214, 28, 250, 45, 161, 62, 117, 91, 166, 99,
    202, 13, 188, 32, 168, 166, 181, 101, 29, 65, 156, 125, 96, 243, 54, 91]

/-- A new connection. -/
def peer : CNodeRecv where
  mapRecvBytesPerMsgCmd := ⟨AList.singleton NET_MESSAGE_COMMAND_OTHER 0, by decide⟩

/-- The bytes in two chunks. -/
def inTwo (k : Nat) (bytes : List UInt8) : List (List UInt8 × Int) :=
  [(bytes.take k, 0), (bytes.drop k, 1)]

theorem flatten_inTwo (k : Nat) (bytes : List UInt8) :
    ((inTwo k bytes).map Prod.fst).flatten = bytes := by
  simp [inTwo]

/-- A small block, cut within its header. -/
theorem delivered_small : Delivered (params digest0 rfl) peer
    (inTwo 10 (pushMessage (params digest0 rfl).hash (params digest0 rfl).messageStart BLOCK
      ((block 0).serialize true))) ((block 0).serialize true) :=
  ((block 0).delivered_iff (params digest0 rfl) (checkBlockSizes_block 0 (by decide)) true
    (fun _ h => by cases h) (flatten_inTwo 10 _)).mpr (by rw [length_block]; decide)

/-- A block that consensus accepts and no connection carries. -/
theorem not_always_delivered :
    ¬ ∀ (p : NetParams) (block : CFullBlock) (fAllowWitness : Bool) (node : CNodeRecv)
      (chunks : List (List UInt8 × Int)), checkBlockSizes block = true →
      (∀ msg ∈ node.vRecvMsg, msg.complete = true) →
      (chunks.map Prod.fst).flatten =
        pushMessage p.hash p.messageStart BLOCK (block.serialize fAllowWitness) →
      Delivered p node chunks (block.serialize fAllowWitness) := by
  intro hall
  have hlen := length_block 4000000 true
  have hsize : getSizeOfCompactSize 4000000 = 5 := rfl
  rw [hsize] at hlen
  have hnode : ∀ msg ∈ peer.vRecvMsg, msg.complete = true := fun _ h => by cases h
  have hchunks := flatten_inTwo 65536 (pushMessage (params digest4000000 rfl).hash
    (params digest4000000 rfl).messageStart BLOCK ((block 4000000).serialize true))
  refine not_delivered_of_lt (params digest4000000 rfl) ?_ ?_ hnode hchunks
    (hall _ (block 4000000) true peer _ (checkBlockSizes_block 4000000 (Nat.le_refl _)) hnode
      hchunks)
  · rw [hlen]
    decide
  · rw [hlen]
    decide

end OutputSample

end Rcoin
