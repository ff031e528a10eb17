import GreenboneFeeder.Tcp.Model

/-!
# `tcp_input`

What `net/tcp/tcp_input.c` does with an incoming segment, cut where the source has its labels and
cases: the demultiplexing, the connection that was found, the acknowledgement of outstanding data,
and one definition for each state. `goto drop` is `Tcp.drop` and `goto reset` is `Tcp.reset`.
Whether a connection, a listener, a free connection structure and an application that accepts are
found is given by `Tcp.Lookup`.
-/

namespace GreenboneFeeder.Tcp

variable {σ : Type}

variable (cfg : Config) (app : App σ) (w : Work σ) (flags : Flags)

/-- `goto reset`: resets are not sent in response to resets. -/
def reset : Work σ :=
  if w.dev.tcp.flags.rst then drop w else tcpReset cfg w

/-! ### The options of a SYN -/

/-- The loop over the options, from byte `i` on. Every round passes at least one byte, so
`fuel` rounds are enough for `fuel` bytes. -/
def parseMss (tcpMss : UInt16) (data : ℕ → UInt8) (bound : ℕ) : ℕ → ℕ → Option UInt16
  | 0, _ => none
  | fuel + 1, i =>
    if bound ≤ i then none
    else if data i = 0 then none
    else if data i = 1 then parseMss tcpMss data bound fuel (i + 1)
    else if data i = 2 ∧ data (i + 1) = 4 then
      let tmp16 := (data (i + 2)).toUInt16 <<< 8 ||| (data (i + 3)).toUInt16
      some (if tmp16 > tcpMss then tcpMss else tmp16)
    else if data (i + 1) = 0 then none
    else parseMss tcpMss data bound fuel (i + (data (i + 1)).toNat)

/-- The MSS that the options of the segment ask for. -/
def mssOption (d : Dev) : Option UInt16 :=
  if d.tcp.tcpoffset &&& 0xf0 > 0x50 then
    let bound := ((d.tcp.tcpoffset >>> 4).toNat - 5) * 4
    parseMss cfg.tcpMss d.data bound bound 0
  else none

/-- Takes the MSS of the options over, if there is one. -/
def takeMss : Work σ :=
  w.setConn fun c => { c with mss := (mssOption cfg w.dev).getD c.mss }

/-! ### Acknowledgements -/

/-- The estimation of the round trip time; `m` is a `signed char`. -/
def estimate (c : Conn) : Conn :=
  let m : Int8 := (c.rto - c.timer).toInt8
  let m := m - (c.sa >>> 3).toInt8
  let sa := c.sa + m.toUInt8
  let m := if m < 0 then -m else m
  let m := m - (c.sv >>> 2).toInt8
  let sv := c.sv + m.toUInt8
  { c with sa := sa, sv := sv, rto := (sa >>> 3) + sv }

/-- `unackseq`, the number behind the last byte that was sent. -/
def unackseq (c : Conn) : UInt32 :=
  if cfg.writeBuffers then c.isn + c.sent.toUInt32 else c.sndseq.addsequence c.unacked.toUInt16

/-- What is done to a connection whose outstanding data is acknowledged up to `ackseq`, once
the number of the outstanding bytes is updated. -/
def advance (ackseq : UInt32) (c : Conn) : Conn :=
  let c := { c with sndseq := Seqno.setsequence ackseq }
  let c := if c.nrtx = 0 then estimate c else c
  { c with timer := c.rto }

/-- The check for an acknowledgement of outstanding data. Returns the event flags, or
nothing for `goto reset`. -/
def acknowledge : Option (Work σ × Flags) :=
  if w.dev.tcp.flags.ack ∧ 0 < w.conn.unacked then
    let ackseq := w.dev.tcp.ackno.getsequence
    if ackseq ≤ unackseq cfg w.conn then
      some (w.setConn fun c => advance ackseq
        { c with unacked := cfg.toUnacked (unackseq cfg c - ackseq) }, { ackdata := true })
    else if w.conn.state = .established then none
    else some (w.setConn (advance ackseq), { ackdata := true })
  else some (w, {})

/-! ### The states -/

/-- `case TCP_SYN_RCVD`. -/
def inputSynRcvd : Work σ :=
  if flags.ackdata then
    let w := w.enter .established
    let ackseq := w.dev.tcp.ackno.getsequence
    let w := if cfg.writeBuffers then
        w.setConn fun c => { c with isn := ackseq, sndseq := Seqno.setsequence ackseq, sent := 0 }
      else w
    let w := w.setConn fun c => { c with unacked := 0 }
    let flags : Flags := { connected := true, newdata := decide (0 < w.dev.dLen) }
    -- the sequence number goes past the data before anyone has seen it
    let w := if 0 < w.dev.dLen then
        w.setConn fun c => { c with rcvseq := c.rcvseq.netIncr32 w.dev.dLen }
      else w
    let w := w.setDev fun d => { d with dSndlen := 0 }
    let r := tcpCallback cfg app w flags
    tcpAppsend cfg r.1 r.2.toUint8
  else if w.dev.tcp.flags = { syn := true } then tcpAck cfg w { ack := true, syn := true }
  else drop w

/-- `case TCP_SYN_SENT`. -/
def inputSynSent : Work σ :=
  if flags.ackdata ∧ w.dev.tcp.flags = { syn := true, ack := true } then
    let w := (takeMss cfg w).enter .established
    let ackseq := w.dev.tcp.ackno.getsequence
    let w := w.setConn fun c => { c with rcvseq := w.dev.tcp.seqno.netIncr32 1, unacked := 0 }
    let w := if cfg.writeBuffers then
        w.setConn fun c => { c with isn := ackseq, sndseq := Seqno.setsequence ackseq }
      else w
    let w := w.setDev fun d => { d with dLen := 0, dSndlen := 0 }
    let r := tcpCallback cfg app w { connected := true, newdata := true }
    tcpAppsend cfg r.1 r.2.toUint8
  else
    let w := (tcpCallback cfg app w { abort := true }).1.enter .closed
    reset cfg w

/-- The segment carries urgent data: it is set apart, or skipped. -/
def urgent : Work σ :=
  if w.dev.tcp.flags.urg then
    if cfg.urgData then
      let urglen := if w.dev.tcp.urgp > w.dev.dLen then w.dev.dLen else w.dev.tcp.urgp
      let w := w.setConn fun c => { c with rcvseq := c.rcvseq.netIncr32 urglen }
      w.setDev fun d => { d with
        dUrglen := urglen
        dLen := d.dLen - urglen
        dUrgdata := d.dAppdata
        dAppdata := d.dAppdata + urglen.toNat }
    else
      w.setDev fun d => { d with
        dAppdata := d.dAppdata + d.tcp.urgp.toNat
        dLen := d.dLen - d.tcp.urgp }
  else if cfg.urgData then w.setDev fun d => { d with dUrglen := 0 }
  else w

/-- `case TCP_ESTABLISHED`, a segment with FIN. -/
def inputFin : Work σ :=
  let w := w.setConn fun c => { c with rcvseq := c.rcvseq.netIncr32 (w.dev.dLen + 1) }
  let flags := { flags with close := true, newdata := decide (0 < w.dev.dLen) }
  let w := (tcpCallback cfg app w flags).1
  let w := (w.enter .lastAck).setConn fun c => { c with unacked := 1, nrtx := 0 }
  tcpSend cfg w { fin := true, ack := true } cfg.tcpiplen

/-- `case TCP_ESTABLISHED`, once a FIN and urgent data are out of the way. -/
def inputData : Work σ :=
  let flags := { flags with newdata := decide (0 < w.dev.dLen) && !w.conn.stopped }
  if flags.newdata ∨ flags.ackdata then
    let w := w.setDev fun d => { d with dSndlen := 0 }
    let len := w.dev.dLen
    let r := tcpCallback cfg app w flags
    let w := if r.2.sndack then
        r.1.setConn fun c => { c with rcvseq := c.rcvseq.netIncr32 len }
      else r.1
    tcpAppsend cfg w r.2.toUint8
  else drop w

/-- `case TCP_ESTABLISHED`. -/
def inputEstablished : Work σ :=
  if w.dev.tcp.flags.fin ∧ w.conn.stopped = false then inputFin cfg app w flags
  else inputData cfg app (urgent cfg w) flags

/-- `case TCP_LAST_ACK`. -/
def inputLastAck : Work σ :=
  if flags.ackdata then drop (tcpCallback cfg app (w.enter .closed) { close := true }).1
  else drop w

/-- Data that arrives after the application has closed: it is passed over. -/
def passOver : Work σ :=
  if 0 < w.dev.dLen then w.setConn fun c => { c with rcvseq := c.rcvseq.netIncr32 w.dev.dLen }
  else w

/-- The FIN of the peer is counted, reported and acknowledged. -/
def acceptFin : Work σ :=
  let w := w.setConn fun c => { c with rcvseq := c.rcvseq.netIncr32 1 }
  tcpSend cfg (tcpCallback cfg app w { close := true }).1 { ack := true } cfg.tcpiplen

/-- `case TCP_FIN_WAIT_1`. -/
def inputFinWait1 : Work σ :=
  let w := passOver w
  if w.dev.tcp.flags.fin then
    let w := if flags.ackdata then
        (w.enter .timeWait).setConn fun c => { c with timer := 0, unacked := 0 }
      else w.enter .closing
    acceptFin cfg app w
  else if flags.ackdata then
    drop ((w.enter .finWait2).setConn fun c => { c with unacked := 0 })
  else if 0 < w.dev.dLen then tcpSend cfg w { ack := true } cfg.tcpiplen
  else drop w

/-- `case TCP_FIN_WAIT_2`. -/
def inputFinWait2 : Work σ :=
  let w := passOver w
  if w.dev.tcp.flags.fin then
    acceptFin cfg app ((w.enter .timeWait).setConn fun c => { c with timer := 0 })
  else if 0 < w.dev.dLen then tcpSend cfg w { ack := true } cfg.tcpiplen
  else drop w

/-- `case TCP_CLOSING`. -/
def inputClosing : Work σ :=
  if flags.ackdata then drop ((w.enter .timeWait).setConn fun c => { c with timer := 0 })
  else drop w

/-- The `switch` on the state of the connection. -/
def inputState : Work σ :=
  match w.conn.state with
  | .synRcvd => inputSynRcvd cfg app w flags
  | .synSent => inputSynSent cfg app w flags
  | .established => inputEstablished cfg app w flags
  | .lastAck => inputLastAck cfg app w flags
  | .finWait1 => inputFinWait1 cfg app w flags
  | .finWait2 => inputFinWait2 cfg app w
  | .timeWait => tcpSend cfg w { ack := true } cfg.tcpiplen
  | .closing => inputClosing w flags
  | .closed | .allocated => drop w

/-! ### The function -/

/-- The segment answers the connection's SYN, or repeats the SYN it was opened by: its
sequence number is not the one expected next. -/
def handshake : Bool :=
  w.conn.state = .synSent ∧ w.dev.tcp.flags = { syn := true, ack := true } ∨
    w.conn.state = .synRcvd ∧ w.dev.tcp.flags = { syn := true }

/-- The segment occupies sequence numbers, and they are not those expected next. -/
def outOfOrder : Bool :=
  ¬handshake w ∧ (0 < w.dev.dLen ∨ w.dev.tcp.flags.syn ∨ w.dev.tcp.flags.fin) ∧
    w.dev.tcp.seqno ≠ w.conn.rcvseq

/-- `found:`, the segment belongs to the connection. -/
def found : Work σ :=
  let w := w.setConn fun c => { c with winsize := w.dev.tcp.wnd }
  if w.dev.tcp.flags.rst then
    drop (tcpCallback cfg app (w.enter .closed) { abort := true }).1
  else
    let w := w.setDev fun d => { d with dLen := d.dLen - (d.tcp.len + cfg.iplen) }
    if outOfOrder w then tcpSend cfg w { ack := true } cfg.tcpiplen
    else match acknowledge cfg w with
      | none => reset cfg w
      | some (w, flags) => inputState cfg app w flags

/-- `tcp_alloc_accept`: a new connection for the SYN. -/
def tcpAllocAccept : Conn where
  rcvseq := w.dev.tcp.seqno
  sndseq := Seqno.setsequence w.tcpsequence
  state := .synRcvd
  stopped := false
  sa := 0
  sv := 4
  rto := 3
  timer := 3
  nrtx := 0
  lport := w.dev.tcp.destport
  rport := w.dev.tcp.srcport
  mss := if cfg.tcpMss > 576 then 576 else cfg.tcpMss
  winsize := 0
  unacked := 1
  sent := 0
  isn := 0
  readahead := []

/-- What the segment is for: a connection (`tcp_active`), a listening port with or without a free
connection structure (`tcp_alloc_accept`) and an application that accepts (`tcp_accept_connection`),
or nothing. -/
inductive Lookup where
  | active
  | listener (room accepted : Bool)
  | unknown
  deriving DecidableEq, Repr

/-- **`tcp_input`**, behind `tcp_ipv4_select` or `tcp_ipv6_select`, which points `d_appdata`
behind a TCP header without options. -/
def tcpInput (lookup : Lookup) (w : Work σ) : Work σ :=
  let w := w.setDev fun d => { d with dAppdata := 0 }
  if w.dev.chksum ≠ 0xffff then drop w
  else match lookup with
    | .active =>
      if w.conn.state ≠ .synRcvd ∧ w.dev.tcp.flags = { syn := true } then reset cfg w
      else found cfg app w
    | .listener room accepted =>
      if w.dev.tcp.flags = { syn := true } then
        if room ∧ accepted then
          let w := (w.setConn fun _ => tcpAllocAccept cfg w).record (.entered .synRcvd)
          let w := w.setConn fun c => { c with rcvseq := c.rcvseq.netIncr32 1 }
          tcpAck cfg (takeMss cfg w) { ack := true, syn := true }
        else drop w
      else reset cfg w
    | .unknown => reset cfg w

end GreenboneFeeder.Tcp
