import GreenboneFeeder.Tcp.Seqno

/-!
# A TCP connection, its callbacks and what it sends

The state that `net/tcp` works on when a segment arrives: the packet in the buffer of the driver,
its connection, the I/O buffers that are left, and the application. A callback of the source may do
anything to the connection and to the packet; here it is any function of the state (`Tcp.App`). The
event flags and the header flags are records of truth values. `Tcp.Work` adds a log: the states the
connection was put into, the data that was accepted, and the segments that were sent. Nothing reads
the log.
-/

namespace GreenboneFeeder.Tcp

/-! ### Flags and states -/

/-- The event flags of `net/devif/devif.h` that TCP uses. -/
structure Flags where
  ackdata : Bool := false
  newdata : Bool := false
  sndack : Bool := false
  rexmit : Bool := false
  poll : Bool := false
  backlog : Bool := false
  close : Bool := false
  abort : Bool := false
  connected : Bool := false
  timedout : Bool := false
  deriving DecidableEq, Repr

namespace Flags

/-- `(flags & mask) != 0`. -/
def meets (f g : Flags) : Bool :=
  f.ackdata && g.ackdata || f.newdata && g.newdata || f.sndack && g.sndack ||
    f.rexmit && g.rexmit || f.poll && g.poll || f.backlog && g.backlog ||
    f.close && g.close || f.abort && g.abort || f.connected && g.connected ||
    f.timedout && g.timedout

/-- `TCP_CONN_EVENTS`. -/
def connEvents : Flags := { close := true, abort := true, connected := true, timedout := true }

/-- The flags stored in a `uint8_t`: the two highest bits are lost. -/
def toUint8 (f : Flags) : Flags := { f with connected := false, timedout := false }

end Flags

/-- The flags of the TCP header, `TCP_CTL` being all of them. -/
structure Ctl where
  fin : Bool := false
  syn : Bool := false
  rst : Bool := false
  psh : Bool := false
  ack : Bool := false
  urg : Bool := false
  deriving DecidableEq, Repr

/-- The states of a connection, `tcpstateflags & TCP_STATE_MASK`. -/
inductive State where
  | closed
  | allocated
  | synRcvd
  | synSent
  | established
  | finWait1
  | finWait2
  | closing
  | timeWait
  | lastAck
  deriving DecidableEq, Repr

/-! ### The packet, the connection and the application -/

/-- `struct tcp_hdr_s`; the window and the urgent pointer are two bytes each. -/
structure Hdr where
  srcport : UInt16
  destport : UInt16
  seqno : Seqno
  ackno : Seqno
  tcpoffset : UInt8
  flags : Ctl
  wnd : UInt16
  urgp : UInt16
  deriving DecidableEq, Repr

/-- The size of the TCP header with its options, `(tcpoffset >> 4) << 2`. -/
def Hdr.len (h : Hdr) : UInt16 := ((h.tcpoffset >>> 4) <<< 2).toUInt16

/-- **The packet in the buffer of the driver.** The bytes behind the 20 bytes of the TCP header are
a function of their position; `d_appdata` and `d_urgdata` point to one of them. -/
structure Dev where
  tcp : Hdr
  data : ℕ → UInt8
  /-- what `tcp_chksum` computes for the packet -/
  chksum : UInt16
  dLen : UInt16
  dSndlen : UInt16
  dAppdata : ℕ
  dUrgdata : ℕ
  dUrglen : UInt16

/-- The bytes that a callback is shown, `d_len` bytes from `d_appdata` on. -/
def Dev.shown (d : Dev) : List UInt8 := (List.range d.dLen.toNat).map fun i =>
    d.data (d.dAppdata + i)

/-- **A connection**, `struct tcp_conn_s`. The count of the bytes that are not acknowledged has 16
bits, or 32 with write buffers. -/
structure Conn where
  rcvseq : Seqno
  sndseq : Seqno
  state : State
  /-- the bit `TCP_STOPPED` of `tcpstateflags` -/
  stopped : Bool
  sa : UInt8
  sv : UInt8
  rto : UInt8
  timer : UInt8
  nrtx : UInt8
  lport : UInt16
  rport : UInt16
  mss : UInt16
  winsize : UInt16
  unacked : UInt32
  sent : UInt16
  isn : UInt32
  /-- the chains of I/O buffers queued for reading -/
  readahead : List (List UInt8)

/-- The I/O buffers and queue containers that a throttled allocation may take. -/
structure Pool where
  iobs : ℕ
  qentries : ℕ

/-- What `tcp_input` works on: the packet, the connection, the application, the I/O buffers
and `g_tcpsequence`. -/
structure Ctx (σ : Type) where
  dev : Dev
  conn : Conn
  app : σ
  pool : Pool
  tcpsequence : UInt32

/-- **The application**: the callbacks in `conn->list`, in their order; the events each of them
waits for, unless its handler is `NULL`; what each does; and the connection event handler. -/
structure App (σ : Type) where
  list : Ctx σ → List ℕ
  flags : Ctx σ → ℕ → Option Flags
  event : ℕ → Ctx σ → Flags → Ctx σ × Flags
  connectionEvent : Ctx σ → Flags → Ctx σ

/-- What happened while a segment was handled. -/
inductive Event where
  /-- `tcp_input` or `tcp_appsend` put the connection into a state -/
  | entered (s : State)
  /-- received data was consumed by a callback, or stored for reading -/
  | accepted (bytes : List UInt8)
  /-- a segment of `len` bytes with this header was left in the buffer to be sent -/
  | sent (tcp : Hdr) (len : UInt16)
  deriving DecidableEq, Repr

/-- The state together with the log. -/
structure Work (σ : Type) extends Ctx σ where
  log : List Event := []

/-- The configuration: `CONFIG_NET_TCP_WRITE_BUFFERS`, `CONFIG_NET_TCP_READAHEAD`,
`CONFIG_NET_TCPURGDATA`, the size of the IP header, the largest segment, the receive window, and
`CONFIG_IOB_BUFSIZE`. -/
structure Config where
  writeBuffers : Bool
  readAhead : Bool
  urgData : Bool
  iplen : UInt16
  tcpMss : UInt16
  rcvwndo : UInt16
  iobBufsize : ℕ

/-- `tcpiplen`, the size of the IP header and of a TCP header without options. -/
def Config.tcpiplen (cfg : Config) : UInt16 := cfg.iplen + 20

/-- A number stored in `conn->unacked`. -/
def Config.toUnacked (cfg : Config) (n : UInt32) : UInt32 :=
  if cfg.writeBuffers then n else n.toUInt16.toUInt32

variable {σ : Type} {R : Work σ × Flags → Work σ × Flags → Prop}

namespace Work

/-- Adds to the log. -/
@[simps toCtx log]
def record (e : Event) (w : Work σ) : Work σ := { w with log := w.log ++ [e] }

/-- Changes the connection. -/
@[simps toCtx_dev toCtx_conn toCtx_app toCtx_pool toCtx_tcpsequence log]
def setConn (f : Conn → Conn) (w : Work σ) : Work σ := { w with conn := f w.conn }

/-- Changes the packet. -/
@[simps toCtx_dev toCtx_conn toCtx_app toCtx_pool toCtx_tcpsequence log]
def setDev (f : Dev → Dev) (w : Work σ) : Work σ := { w with dev := f w.dev }

/-- Assigns a state to `tcpstateflags`; the assignment clears `TCP_STOPPED`. -/
def enter (s : State) (w : Work σ) : Work σ :=
  (w.setConn fun c => { c with state := s, stopped := false }).record (.entered s)

end Work

/-! ### Received data -/

/-- The number of I/O buffers in a chain that holds `len` bytes. -/
def chainLength (cfg : Config) (len : ℕ) : ℕ := max 1 ((len + cfg.iobBufsize - 1) / cfg.iobBufsize)

/-- A chain with the data at the end of the read-ahead queue. -/
def Work.store (buffer : List UInt8) (pool : Pool) (w : Work σ) : Work σ :=
  Work.record (.accepted buffer) { w with
    pool := pool
    conn := { w.conn with readahead := w.conn.readahead ++ [buffer] } }

variable (cfg : Config) (app : App σ) (w : Work σ)

/-- `tcp_datahandler`: queues the data for reading. A chain that cannot be completed is freed again.
Returns the number of bytes stored. -/
def tcpDatahandler (buffer : List UInt8) : Work σ × ℕ :=
  if w.pool.iobs < chainLength cfg buffer.length then (w, 0)
  else if w.pool.qentries = 0 then (w, 0)
  else
    (w.store buffer
      { iobs := w.pool.iobs - chainLength cfg buffer.length, qentries := w.pool.qentries - 1 },
      buffer.length)

/-- The packet is done with, `d_len = 0`. -/
def drop : Work σ := w.setDev fun d => { d with dLen := 0 }

/-- `tcp_data_event`: no callback took the data. -/
def tcpDataEvent (flags : Flags) : Work σ × Flags :=
  let ret := { flags with newdata := false, sndack := true }
  if 0 < w.dev.dLen then
    let buffer := w.dev.shown
    let stored := if cfg.readAhead then tcpDatahandler cfg w buffer else (w, 0)
    if stored.2 < buffer.length then (drop stored.1, { ret with sndack := false })
    else (drop stored.1, ret)
  else (drop w, ret)

/-- **The three outcomes of `tcp_data_event`**: there is no data, and it is as good as
acknowledged; the data is lost; the data is stored. -/
theorem tcpDataEvent_cases {cfg : Config} {w : Work σ} {f : Flags} :
    (w.dev.dLen = 0 ∧
      tcpDataEvent cfg w f = (drop w, { f with newdata := false, sndack := true })) ∨
    tcpDataEvent cfg w f = (drop w, { f with newdata := false, sndack := false }) ∨
    ∃ pool, tcpDataEvent cfg w f =
      (drop (w.store w.dev.shown pool), { f with newdata := false, sndack := true }) := by
  rw [tcpDataEvent]
  rcases eq_or_ne w.dev.dLen 0 with h0 | h0
  · simp [h0]
  · have h0 : 0 < w.dev.dLen := UInt16.pos_iff_ne_zero.mpr h0
    have hlen : 0 < w.dev.shown.length := by
      simpa [Dev.shown] using UInt16.lt_iff_toNat_lt.mp h0
    dsimp only
    rw [tcpDatahandler]
    split_ifs with hra hiob hq hlt
    · exact .inr (.inl rfl)
    · exact .inr (.inl rfl)
    · exact absurd hlt (Nat.lt_irrefl _)
    · exact .inr (.inr ⟨_, rfl⟩)
    · exact .inr (.inl rfl)

/-- Calls one callback. A callback that is given new data consumes it by clearing
`TCP_NEWDATA` and setting `TCP_SNDACK`. -/
def callEvent (cb : ℕ) (w : Work σ) (flags : Flags) : Work σ × Flags :=
  let r := app.event cb w.toCtx flags
  let w' : Work σ := { w with toCtx := r.1 }
  if flags.newdata && !r.2.newdata && r.2.sndack then (w'.record (.accepted w.dev.shown), r.2)
  else (w', r.2)

/-- `devif_callback_execute`. -/
def devifCallbackExecute (app : App σ) : List ℕ → Work σ → Flags → Work σ × Flags
  | [], w, flags => (w, flags)
  | cb :: next, w, flags =>
    if flags = {} then (w, flags)
    else if (app.flags w.toCtx cb).any flags.meets then
      let r := callEvent app cb w flags
      devifCallbackExecute app next r.1 r.2
    else devifCallbackExecute app next w flags

/-- Calls the handler of connection events. -/
def callConnectionEvent (flags : Flags) : Work σ :=
  { w with toCtx := app.connectionEvent w.toCtx flags }

/-- `tcp_callback`. -/
def tcpCallback (flags : Flags) : Work σ × Flags :=
  let r := devifCallbackExecute app (app.list w.toCtx) w flags
  let r := if r.2.newdata then tcpDataEvent cfg r.1 r.2 else r
  if r.2.meets Flags.connEvents then (callConnectionEvent app r.1 r.2, r.2) else r

/-- **A rule for callbacks**: a relation between the state and the flags before and after
that every handler and `tcp_data_event` keep, and that can be chained, is kept by
`devif_callback_execute` … -/
theorem devifCallbackExecute_rel {app : App σ} (refl : ∀ x, R x x)
    (trans : ∀ {x y z}, R x y → R y z → R x z) (event : ∀ cb w f, R (w, f) (callEvent app cb w f)) :
    ∀ (l : List ℕ) (w : Work σ) (f : Flags), R (w, f) (devifCallbackExecute app l w f)
  | [], w, f => refl (w, f)
  | cb :: next, w, f => by
    rw [devifCallbackExecute]
    split
    · exact refl (w, f)
    split
    · exact trans (event cb w f) (devifCallbackExecute_rel refl trans event next _ _)
    · exact devifCallbackExecute_rel refl trans event next w f

theorem tcpCallback_rel {cfg : Config} {app : App σ} (refl : ∀ x, R x x)
    (trans : ∀ {x y z}, R x y → R y z → R x z) (event : ∀ cb w f, R (w, f) (callEvent app cb w f))
    (dataEvent : ∀ w f, f.newdata = true → R (w, f) (tcpDataEvent cfg w f))
    (connectionEvent : ∀ w f, R (w, f) (callConnectionEvent app w f, f)) (w : Work σ)
    (f : Flags) : R (w, f) (tcpCallback cfg app w f) := by
  rw [tcpCallback]
  have h1 := devifCallbackExecute_rel refl trans event (app.list w.toCtx) w f
  generalize devifCallbackExecute app (app.list w.toCtx) w f = r at h1 ⊢
  have h2 : R (w, f) (if r.2.newdata then tcpDataEvent cfg r.1 r.2 else r) := by
    split
    · exact trans h1 (dataEvent r.1 r.2 ‹_›)
    · exact h1
  generalize (if r.2.newdata then tcpDataEvent cfg r.1 r.2 else r) = r' at h2 ⊢
  split
  · exact trans h2 (connectionEvent r'.1 r'.2)
  · exact h2

/-! ### Sending -/

/-- The fields of the header that `tcp_sendcommon` and `tcp_sendcomplete` fill in. -/
def tcpSendcommon : Work σ :=
  let w := w.setDev fun d => { d with tcp := { d.tcp with
    ackno := w.conn.rcvseq
    seqno := w.conn.sndseq
    srcport := w.conn.lport
    destport := w.conn.rport
    wnd := if w.conn.stopped then 0 else cfg.rcvwndo
    urgp := 0 } }
  w.record (.sent w.dev.tcp w.dev.dLen)

/-- `tcp_send`. -/
def tcpSend (flags : Ctl) (len : UInt16) : Work σ :=
  tcpSendcommon cfg (w.setDev fun d => { d with
    tcp := { d.tcp with flags := flags, tcpoffset := 0x50 }, dLen := len })

/-- `tcp_ack`: sends a SYN or a SYNACK, with the MSS option. -/
def tcpAck (ack : Ctl) : Work σ :=
  tcpSendcommon cfg (w.setDev fun d => { d with
    tcp := { d.tcp with flags := ack, tcpoffset := 0x60 }, dLen := cfg.tcpiplen + 4 })

/-- `tcp_reset`: turns the segment in the buffer into a reset of its sender. -/
def tcpReset : Work σ :=
  let w := w.setDev fun d => { d with
    tcp := { d.tcp with
      flags := { rst := true, ack := true }
      tcpoffset := 0x50
      seqno := d.tcp.ackno
      ackno := d.tcp.seqno.netIncr32 1
      srcport := d.tcp.destport
      destport := d.tcp.srcport
      urgp := 0 }
    dLen := cfg.tcpiplen }
  w.record (.sent w.dev.tcp w.dev.dLen)

/-- `tcp_rexmit`. -/
def tcpRexmit (result : Flags) : Work σ :=
  if 0 < w.dev.dSndlen ∧ (cfg.writeBuffers ∨ 0 < w.conn.unacked) then
    tcpSend cfg w { ack := true, psh := true } (w.dev.dSndlen + cfg.tcpiplen)
  else if result.sndack then tcpSend cfg w { ack := true } cfg.tcpiplen
  else w.setDev fun d => { d with dLen := 0 }

/-- `tcp_appsend`. -/
def tcpAppsend (result : Flags) : Work σ :=
  if result.abort then
    let w := (w.setDev fun d => { d with dSndlen := 0 }).enter .closed
    tcpSend cfg w { rst := true, ack := true } cfg.tcpiplen
  else if result.close then
    let w := (w.enter .finWait1).setConn fun c => { c with unacked := 1, nrtx := 0 }
    let w := w.setDev fun d => { d with dSndlen := 0 }
    tcpSend cfg w { fin := true, ack := true } cfg.tcpiplen
  else if cfg.writeBuffers then tcpRexmit cfg w result
  else
    let w :=
      if 0 < w.dev.dSndlen then
        w.setConn fun c => { c with
          unacked := cfg.toUnacked (c.unacked + w.dev.dSndlen.toUInt32) }
      else w
    tcpRexmit cfg (w.setConn fun c => { c with nrtx := 0 }) result

end GreenboneFeeder.Tcp
