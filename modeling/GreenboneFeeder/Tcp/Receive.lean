import GreenboneFeeder.Tcp.Transitions
import GreenboneFeeder.Lib.Run

/-!
# What is acknowledged was accepted

What `rcvseq` has passed is acknowledged and will not be sent again. In the established state
`tcp_input` moves it on only after a callback has consumed the data or `tcp_datahandler` has stored
it. When the handshake completes and when a FIN arrives it moves it on first; in `FIN_WAIT_1` and
`FIN_WAIT_2` it shows the data to nobody; and it shows the bytes behind a TCP header without
options, whatever the size of the header.
-/

namespace GreenboneFeeder.Tcp

open List

variable {σ : Type} {cfg : Config} {app : App σ} {c : Ctx σ} {w : Work σ}

/-! ### What a callback may do -/

/-- **What the network layer asks of a callback**: it leaves `rcvseq` alone, only clears
`TCP_NEWDATA`, sets `TCP_SNDACK` only when it takes new data, and when it leaves new data it leaves
the packet and takes no I/O buffer. -/
structure App.Lawful (app : App σ) : Prop where
  rcvseq : ∀ cb c f, (app.event cb c f).1.conn.rcvseq = c.conn.rcvseq
  newdata : ∀ cb c f, (app.event cb c f).2.newdata = true → f.newdata = true
  sndack : ∀ cb c f, (app.event cb c f).2.sndack = true →
    f.sndack = true ∨ f.newdata = true ∧ (app.event cb c f).2.newdata = false
  shown : ∀ cb c f, (app.event cb c f).2.newdata = true →
    (app.event cb c f).1.dev.shown = c.dev.shown
  iobs : ∀ cb c f, (app.event cb c f).2.newdata = true →
    c.pool.iobs ≤ (app.event cb c f).1.pool.iobs
  qentries : ∀ cb c f, (app.event cb c f).2.newdata = true →
    c.pool.qentries ≤ (app.event cb c f).1.pool.qentries
  event_rcvseq : ∀ c f, (app.connectionEvent c f).conn.rcvseq = c.conn.rcvseq
  event_dev : ∀ c f, (app.connectionEvent c f).dev = c.dev
  event_pool : ∀ c f, (app.connectionEvent c f).pool = c.pool

/-- No callback discards new data: one that takes it asks for its acknowledgement. -/
def App.Keeps (app : App σ) : Prop :=
  ∀ cb c f, f.newdata = true → (app.event cb c f).2.newdata = false →
    (app.event cb c f).2.sndack = true

/-- The data was consumed by a callback or stored. -/
def Work.Accepts (w : Work σ) (b : List UInt8) : Prop := Event.accepted b ∈ w.log

/-- There are I/O buffers for the data. -/
structure Room (cfg : Config) (pool : Pool) (len : ℕ) : Prop where
  readAhead : cfg.readAhead = true
  iobs : chainLength cfg len ≤ pool.iobs
  qentries : 0 < pool.qentries

/-- **What a lawful application does to new data.** -/
structure Received (cfg : Config) (app : App σ) (x y : Work σ × Flags) : Prop where
  rcvseq : y.1.conn.rcvseq = x.1.conn.rcvseq
  log : ∀ e ∈ x.1.log, e ∈ y.1.log
  left : y.2.newdata = true → x.2.newdata = true ∧ y.1.dev.shown = x.1.dev.shown
  sndack : y.2.sndack = true → x.2.sndack = true ∨
    x.2.newdata = true ∧ (x.1.dev.shown = [] ∨ y.1.Accepts x.1.dev.shown)
  kept : app.Keeps → x.2.newdata = true → Room cfg x.1.pool x.1.dev.shown.length →
    (y.2.newdata = true ∧ Room cfg y.1.pool y.1.dev.shown.length) ∨
      x.1.dev.shown = [] ∨ y.1.Accepts x.1.dev.shown

namespace Received

theorem refl (x : Work σ × Flags) : Received cfg app x x where
  rcvseq := rfl
  log _ := id
  left h := ⟨h, rfl⟩
  sndack := .inl
  kept _ h hr := .inl ⟨h, hr⟩

theorem trans {x y z : Work σ × Flags} (h : Received cfg app x y) (h' : Received cfg app y z) :
    Received cfg app x z where
  rcvseq := h'.rcvseq.trans h.rcvseq
  log e he := h'.log e (h.log e he)
  left hz := by
    obtain ⟨hy, hsh⟩ := h'.left hz
    obtain ⟨hx, hsh'⟩ := h.left hy
    exact ⟨hx, hsh.trans hsh'⟩
  sndack hz := by
    rcases h'.sndack hz with hy | ⟨hy, hacc⟩
    · rcases h.sndack hy with hx | ⟨hx, hacc⟩
      · exact .inl hx
      · exact .inr ⟨hx, hacc.imp_right (h'.log _)⟩
    · obtain ⟨hx, hsh⟩ := h.left hy
      exact .inr ⟨hx, hsh ▸ hacc⟩
  kept hk hx hr := by
    rcases h.kept hk hx hr with ⟨hy, hr'⟩ | h0 | hacc
    · have hsh := (h.left hy).2
      exact hsh ▸ h'.kept hk hy hr'
    · exact .inr (.inl h0)
    · exact .inr (.inr (h'.log _ hacc))

end Received

theorem room_store (h : Room cfg w.pool w.dev.shown.length) (f : Flags) :
    w.dev.shown = [] ∨ ∃ pool, tcpDataEvent cfg w f =
      (drop (w.store w.dev.shown pool), { f with newdata := false, sndack := true }) := by
  rcases eq_or_ne w.dev.dLen 0 with h0 | h0
  · exact Or.inl (by simp [Dev.shown, h0])
  · have hq : w.pool.qentries ≠ 0 := Nat.pos_iff_ne_zero.mp h.qentries
    refine Or.inr ⟨{ iobs := w.pool.iobs - chainLength cfg w.dev.shown.length
                     qentries := w.pool.qentries - 1 }, ?_⟩
    rw [tcpDataEvent, if_pos (UInt16.pos_iff_ne_zero.mpr h0)]
    simp only [h.readAhead, if_true]
    rw [tcpDatahandler, if_neg (Nat.not_lt.mpr h.iobs), if_neg hq]
    simp only [Nat.lt_irrefl, if_false]

/-- **A lawful application is called.** -/
theorem App.Lawful.callback (h : app.Lawful) (cfg : Config) (w : Work σ) (f : Flags) :
    Received cfg app (w, f) (tcpCallback cfg app w f) := by
  refine tcpCallback_rel Received.refl Received.trans ?_ ?_ ?_ w f
  · intro cb w f
    -- the log has the data exactly if the callback has cleared the one flag and set the other
    have hrec : f.newdata = true → (app.event cb w.toCtx f).2.newdata = false →
        (app.event cb w.toCtx f).2.sndack = true →
        (callEvent app cb w f).1.Accepts w.dev.shown := by
      intro h1 h2 h3
      simp [callEvent, h1, h2, h3, Work.Accepts]
    have hctx : (callEvent app cb w f).1.toCtx = (app.event cb w.toCtx f).1 := by
      rw [callEvent]
      split <;> rfl
    have hflags : (callEvent app cb w f).2 = (app.event cb w.toCtx f).2 := by
      rw [callEvent]
      split <;> rfl
    constructor
    · rw [hctx]
      exact h.rcvseq cb w.toCtx f
    · intro e he
      rw [callEvent]
      split
      · exact mem_append_left _ he
      · exact he
    · rw [hctx, hflags]
      exact fun hn => ⟨h.newdata cb w.toCtx f hn, h.shown cb w.toCtx f hn⟩
    · rw [hflags]
      intro hs
      rcases h.sndack cb w.toCtx f hs with hf | ⟨hn, hn'⟩
      · exact .inl hf
      · exact .inr ⟨hn, .inr (hrec hn hn' hs)⟩
    · intro hk hn hr
      rw [hflags, hctx]
      rcases hn' : (app.event cb w.toCtx f).2.newdata with _ | _
      · exact .inr (.inr (hrec hn hn' (hk cb w.toCtx f hn hn')))
      · refine .inl
          ⟨rfl, hr.readAhead, ?_, Nat.lt_of_lt_of_le hr.qentries (h.qentries cb w.toCtx f hn')⟩
        rw [h.shown cb w.toCtx f hn']
        exact Nat.le_trans hr.iobs (h.iobs cb w.toCtx f hn')
  · intro w f hn
    constructor
    · rcases tcpDataEvent_cases with ⟨-, h⟩ | h | ⟨pool, h⟩ <;> rw [h] <;> rfl
    · rcases tcpDataEvent_cases with ⟨-, h⟩ | h | ⟨pool, h⟩ <;> rw [h]
      · exact fun _ => id
      · exact fun _ => id
      · exact fun e he => mem_append_left _ he
    · rcases tcpDataEvent_cases with ⟨-, h⟩ | h | ⟨pool, h⟩ <;> rw [h] <;>
        exact fun hf => absurd hf Bool.false_ne_true
    · rcases tcpDataEvent_cases with ⟨h0, h⟩ | h | ⟨pool, h⟩ <;> rw [h]
      · exact fun _ => .inr ⟨hn, .inl (by simp [Dev.shown, h0])⟩
      · exact fun hf => absurd hf Bool.false_ne_true
      · exact fun _ => .inr ⟨hn, .inr (mem_append_right _ (mem_singleton_self _))⟩
    · rintro - - hr
      rcases room_store hr f with h0 | ⟨pool, h⟩
      · exact .inr (.inl h0)
      · rw [h]
        exact .inr (.inr (mem_append_right _ (mem_singleton_self _)))
  · intro w f
    have hdev : (callConnectionEvent app w f).dev = w.dev := h.event_dev w.toCtx f
    have hpool : (callConnectionEvent app w f).pool = w.pool := h.event_pool w.toCtx f
    refine ⟨h.event_rcvseq w.toCtx f, fun _ => id, fun hn => ⟨hn, by rw [hdev]⟩, .inl, ?_⟩
    exact fun _ hn hr => .inl ⟨hn, by rwa [hdev, hpool]⟩

theorem tcpCallback_newdata (w : Work σ) (f : Flags) :
    (tcpCallback cfg app w f).2.newdata = false := by
  have h2 : ∀ r : Work σ × Flags,
      (if r.2.newdata then tcpDataEvent cfg r.1 r.2 else r).2.newdata = false := by
    intro r
    split
    · rcases tcpDataEvent_cases with ⟨-, h⟩ | h | ⟨pool, h⟩ <;> rw [h]
    · exact Bool.not_eq_true _ ▸ ‹_›
  rw [tcpCallback]
  have h := h2 (devifCallbackExecute app (app.list w.toCtx) w f)
  generalize (if (devifCallbackExecute app (app.list w.toCtx) w f).2.newdata = true then
    tcpDataEvent cfg _ _ else devifCallbackExecute app (app.list w.toCtx) w f) = r at h ⊢
  split <;> exact h

/-- With a lawful application that keeps the data, and room for it, the data is accepted. -/
theorem App.Lawful.accepts (h : app.Lawful) (hk : app.Keeps) {f : Flags}
    (hn : f.newdata = true) (hr : Room cfg w.pool w.dev.shown.length)
    (hne : w.dev.shown ≠ []) : (tcpCallback cfg app w f).1.Accepts w.dev.shown := by
  rcases (h.callback cfg w f).kept hk hn hr with ⟨hn', -⟩ | h0 | hacc
  · exact absurd hn' (by simp [tcpCallback_newdata])
  · exact absurd h0 hne
  · exact hacc

/-! ### What each state does to the sequence number -/

theorem shown_ne_nil {d : Dev} (h : 0 < d.dLen) : d.shown ≠ [] := by
  simp only [Dev.shown, ne_eq, map_eq_nil_iff, range_eq_nil]
  exact Nat.pos_iff_ne_zero.mp h

theorem tcpAppsend_rcvseq (w : Work σ) (f : Flags) :
    (tcpAppsend cfg w f).conn.rcvseq = w.conn.rcvseq := by
  have hrex : ∀ w : Work σ, (tcpRexmit cfg w f).conn = w.conn := by
    intro w
    rw [tcpRexmit]
    split
    · rfl
    split <;> rfl
  rw [tcpAppsend]
  split
  · rfl
  split
  · rfl
  split
  · rw [hrex]
  · rw [hrex]
    split <;> rfl

theorem accepts_tcpSend {b : List UInt8} (h : w.Accepts b) {f : Ctl}
    {len : UInt16} : (tcpSend cfg w f len).Accepts b :=
  mem_append_left _ h

theorem accepts_tcpAppsend {b : List UInt8} (h : w.Accepts b) (f : Flags) :
    (tcpAppsend cfg w f).Accepts b := by
  have hrex : ∀ w : Work σ, w.Accepts b → (tcpRexmit cfg w f).Accepts b := by
    intro w h
    rw [tcpRexmit]
    split
    · exact accepts_tcpSend h
    split
    · exact accepts_tcpSend h
    · exact h
  rw [tcpAppsend]
  split
  · exact accepts_tcpSend (mem_append_left _ h)
  split
  · exact accepts_tcpSend (mem_append_left _ h)
  split
  · exact hrex _ h
  · refine hrex _ ?_
    split <;> exact h

/-- The sequence number is where it was, or what the packet showed was accepted. -/
def Work.Keeps (w w' : Work σ) : Prop :=
  w'.conn.rcvseq = w.conn.rcvseq ∨ w'.Accepts w.dev.shown

section States

variable {w : Work σ} {f : Flags} (h : app.Lawful) (hlen : 0 < w.dev.dLen)

include h hlen

theorem accepts_of_shown (hk : app.Keeps) (hr : Room cfg w.pool w.dev.shown.length)
    {w' : Work σ} {f' : Flags} (hshown : w'.dev.shown = w.dev.shown) (hpool : w'.pool = w.pool)
    (hn : f'.newdata = true) : (tcpCallback cfg app w' f').1.Accepts w.dev.shown := by
  rw [← hshown] at hr ⊢
  rw [← hpool] at hr
  exact h.accepts hk hn hr (hshown ▸ shown_ne_nil hlen)

theorem keeps_inputSynRcvd (hk : app.Keeps) (hr : Room cfg w.pool w.dev.shown.length) :
    w.Keeps (inputSynRcvd cfg app w f) := by
  rw [inputSynRcvd]
  split
  · right
    refine accepts_tcpAppsend (accepts_of_shown h hlen hk hr ?_ ?_ ?_) _
    · split <;> split <;> rfl
    · split <;> split <;> rfl
    · split <;> exact decide_eq_true hlen
  · left
    split <;> rfl

theorem keeps_inputFin (hk : app.Keeps) (hr : Room cfg w.pool w.dev.shown.length) :
    w.Keeps (inputFin cfg app w f) := by
  right
  refine accepts_tcpSend (mem_append_left _ ?_)
  exact accepts_of_shown h hlen hk hr rfl rfl (decide_eq_true hlen)

theorem keeps_inputData (hs : f.sndack = false) : w.Keeps (inputData cfg app w f) := by
  rw [inputData]
  dsimp only
  split
  · have hrcv := h.callback cfg (w.setDev fun d => { d with dSndlen := 0 })
      { f with newdata := decide (0 < w.dev.dLen) && !w.conn.stopped }
    split
    · -- the acknowledgement was asked for, so the data was accepted
      rename_i hack
      right
      refine accepts_tcpAppsend ?_ _
      rcases hrcv.sndack hack with hf | ⟨-, h0 | hacc⟩
      · exact absurd (hs.symm.trans hf) Bool.false_ne_true
      · exact absurd h0 (shown_ne_nil hlen)
      · exact hacc
    · left
      rw [tcpAppsend_rcvseq]
      exact hrcv.rcvseq
  · exact .inl rfl

end States

theorem netIncr32_zero (s : Seqno) : s.netIncr32 0 = s := by
  rw [← Seqno.getsequence_inj]
  simp

theorem urgent_of_urgp_eq_zero (cfg : Config)
    (hu : w.dev.tcp.flags.urg = true → w.dev.tcp.urgp = 0) :
    (urgent cfg w).conn = w.conn ∧ (urgent cfg w).dev.shown = w.dev.shown ∧
      (urgent cfg w).dev.dLen = w.dev.dLen := by
  rw [urgent]
  split
  · rename_i hurg
    have h0 := hu hurg
    split
    · simp [h0, netIncr32_zero, Dev.shown]
    · simp [h0, Dev.shown]
  split <;> exact ⟨rfl, rfl, rfl⟩

theorem keeps_inputEstablished {f : Flags} (h : app.Lawful) (hlen : 0 < w.dev.dLen)
    (hs : f.sndack = false) (hu : w.dev.tcp.flags.urg = true → w.dev.tcp.urgp = 0)
    (hfin : w.Closes → app.Keeps ∧ Room cfg w.pool w.dev.shown.length) :
    w.Keeps (inputEstablished cfg app w f) := by
  rw [inputEstablished]
  split
  · rename_i hcl
    obtain ⟨hk, hr⟩ := hfin hcl
    exact keeps_inputFin h hlen hk hr
  · obtain ⟨hconn, hshown, hdlen⟩ := urgent_of_urgp_eq_zero cfg hu
    have hkeep : (urgent cfg w).Keeps (inputData cfg app (urgent cfg w) f) :=
      keeps_inputData h (hdlen ▸ hlen) hs
    rw [Work.Keeps, hconn, hshown] at hkeep
    exact hkeep

/-- In `SYN_SENT` the sequence number is taken from the SYNACK, and not past its data. -/
theorem rcvseq_inputSynSent (h : app.Lawful) (w : Work σ) (f : Flags) :
    (inputSynSent cfg app w f).conn.rcvseq = w.conn.rcvseq ∨
      (inputSynSent cfg app w f).conn.rcvseq = w.dev.tcp.seqno.netIncr32 1 := by
  rw [inputSynSent]
  split
  · right
    rw [tcpAppsend_rcvseq, (h.callback cfg _ _).rcvseq]
    split <;> rfl
  · left
    rw [reset_conn]
    exact (h.callback cfg w _).rcvseq

theorem rcvseq_inputLastAck (h : app.Lawful) (w : Work σ) (f : Flags) :
    (inputLastAck cfg app w f).conn.rcvseq = w.conn.rcvseq := by
  rw [inputLastAck]
  split
  · exact (h.callback cfg (w.enter .closed) _).rcvseq
  · rfl

theorem rcvseq_inputClosing (w : Work σ) (f : Flags) :
    (inputClosing w f).conn.rcvseq = w.conn.rcvseq := by
  rw [inputClosing]
  split <;> rfl

/-! ### The segment -/

/-- The bytes behind the header of the segment and its options. -/
def Ctx.payload (cfg : Config) (c : Ctx σ) : List UInt8 :=
  (range (cfg.payloadLen c.dev).toNat).map fun i => c.dev.data (c.dev.tcp.len.toNat - 20 + i)

/-- The sequence number of the first byte of the payload: the one expected next, and in
`SYN_SENT` the one behind the SYN. -/
def Ctx.firstSeq (c : Ctx σ) : UInt32 :=
  if c.conn.state = .synSent then c.dev.tcp.seqno.getsequence + 1 else c.conn.rcvseq.getsequence

/-- The sequence number of the connection has been moved past the payload. -/
def Ctx.Acknowledges (cfg : Config) (app : App σ) (c : Ctx σ) : Prop :=
  (receive cfg app c).conn.rcvseq ≠ c.conn.rcvseq ∧
    (c.payload cfg).length ≤
      ((receive cfg app c).conn.rcvseq.getsequence - c.firstSeq).toNat

/-- **No data is acknowledged that was not accepted.** -/
def Ctx.Sound (cfg : Config) (app : App σ) (c : Ctx σ) : Prop :=
  c.payload cfg ≠ [] → c.Acknowledges cfg app → (receive cfg app c).Accepts (c.payload cfg)

/-- The segment gets as far as the switch on the state of the connection, unless it
acknowledges what was never sent. -/
structure Ctx.TakenUp (cfg : Config) (c : Ctx σ) : Prop where
  chksum : c.dev.chksum = 0xffff
  notStray : c.conn.state = .synRcvd ∨ c.dev.tcp.flags ≠ { syn := true }
  rst : c.dev.tcp.flags.rst = false
  inOrder : outOfOrder (arrive cfg { toCtx := c }) = false

/-- **What a segment with data must be like**: no options, no urgent data, the application has not
closed, and when it completes the handshake or carries FIN, the data will be kept. -/
structure Ctx.Careful (cfg : Config) (app : App σ) (c : Ctx σ) : Prop where
  options : c.dev.tcp.len = 20
  urgent : c.dev.tcp.flags.urg = true → c.dev.tcp.urgp = 0
  finWait1 : c.conn.state ≠ .finWait1
  finWait2 : c.conn.state ≠ .finWait2
  early : c.conn.state = .synRcvd ∨ c.conn.state = .established ∧ c.Closes →
    app.Keeps ∧ Room cfg c.pool (c.payload cfg).length

theorem rcvseq_of_not_takenUp (h : app.Lawful) (hc : ¬c.TakenUp cfg) :
    (receive cfg app c).conn.rcvseq = c.conn.rcvseq := by
  rw [receive]
  by_cases hchk : c.dev.chksum = 0xffff
  swap
  · rw [tcpInput]
    simp [hchk]
  by_cases hsyn : c.conn.state = .synRcvd ∨ c.dev.tcp.flags ≠ { syn := true }
  swap
  · obtain ⟨hst, hflags⟩ := not_or.mp hsyn
    rw [tcpInput]
    simp [hchk, hst, not_not.mp hflags]
  rcases hrst : c.dev.tcp.flags.rst with _ | _
  · rw [tcpInput_active _ hchk hsyn hrst, if_pos]
    · rfl
    · exact Bool.of_not_eq_false fun hord => hc ⟨hchk, hsyn, hrst, hord⟩
  · have hstray : ¬(c.conn.state ≠ .synRcvd ∧ c.dev.tcp.flags = { syn := true }) := by
      rintro ⟨h1, h2⟩
      exact hsyn.elim h1 fun h => h h2
    rw [tcpInput]
    simp only [Work.setDev_toCtx_dev, Work.setDev_toCtx_conn, hchk, ne_eq, not_true_eq_false,
      if_false, hstray]
    rw [found]
    simp only [Work.setConn_toCtx_dev, Work.setDev_toCtx_dev, hrst, if_true]
    exact (h.callback cfg _ _).rcvseq

theorem acknowledge_frame {w' : Work σ} {f : Flags} (h : acknowledge cfg w = some (w', f)) :
    w'.dev = w.dev ∧ w'.pool = w.pool ∧ w'.conn.rcvseq = w.conn.rcvseq ∧
      w'.conn.state = w.conn.state ∧ w'.conn.stopped = w.conn.stopped ∧ f.sndack = false := by
  rw [acknowledge] at h
  split at h
  · dsimp only at h
    split at h
    · cases h
      exact ⟨rfl, rfl, by simp, by simp, by simp, rfl⟩
    split at h
    · cases h
    · cases h
      exact ⟨rfl, rfl, by simp, by simp, by simp, rfl⟩
  · cases h
    exact ⟨rfl, rfl, rfl, rfl, rfl, rfl⟩

theorem shown_arrive (cfg : Config) (h : c.dev.tcp.len = 20) :
    (arrive cfg { toCtx := c }).dev.shown = c.payload cfg := by
  simp only [Dev.shown, arrive, Work.setDev_toCtx_dev, Work.setConn_toCtx_dev, Ctx.payload, h,
    Config.payloadLen]
  simp

/-- **Segment by segment**: a lawful application, and a segment that is careful with its data
if it gets that far. -/
theorem Ctx.sound_of_careful (h : app.Lawful)
    (hc : c.TakenUp cfg → c.payload cfg ≠ [] → c.Careful cfg app) : c.Sound cfg app := by
  rintro hne ⟨hmoved, hpast⟩
  have ht : c.TakenUp cfg := by
    by_contra ht
    exact hmoved (rcvseq_of_not_takenUp h ht)
  have hcare := hc ht hne
  have hshown := shown_arrive cfg hcare.options
  have hreceive : receive cfg app c = _ :=
    tcpInput_active { toCtx := c } ht.chksum ht.notStray ht.rst
  rw [if_neg (by simp [ht.inOrder])] at hreceive
  rcases hack : acknowledge cfg (arrive cfg { toCtx := c }) with _ | ⟨w, f⟩
  · rw [hack] at hreceive
    rw [hreceive, reset_conn] at hmoved
    exact absurd rfl hmoved
  obtain ⟨hdev, hpool, hrcv, hstate, hstop, hsnd⟩ := acknowledge_frame hack
  rw [hack] at hreceive
  have hreceive : receive cfg app c = inputState cfg app w f := hreceive
  -- the state, the data and the buffers are those of the connection when the segment came
  have hwrcv : w.conn.rcvseq = c.conn.rcvseq := hrcv
  have hwstate : w.conn.state = c.conn.state := hstate
  have hwshown : w.dev.shown = c.payload cfg := by rw [hdev, hshown]
  have hwpool : w.pool = c.pool := hpool
  have hwlen : 0 < w.dev.dLen := by
    rw [UInt16.pos_iff_ne_zero]
    intro h0
    rw [← hwshown] at hne
    exact hne (by simp [Dev.shown, h0])
  have hkeep : w.Keeps (inputState cfg app w f) → (receive cfg app c).Accepts (c.payload cfg) := by
    rintro (hk | hk)
    · exact absurd ((congrArg (·.conn.rcvseq) hreceive).trans (hk.trans hwrcv)) hmoved
    · rw [hreceive, ← hwshown]
      exact hk
  have hroom : c.conn.state = .synRcvd ∨ c.conn.state = .established ∧ c.Closes →
      app.Keeps ∧ Room cfg w.pool w.dev.shown.length := by
    rw [hwpool, hwshown]
    exact hcare.early
  apply hkeep
  rw [inputState]
  rcases hst : w.conn.state with _ | _ | _ | _ | _ | _ | _ | _ | _ | _ <;> dsimp only <;>
    rw [hwstate] at hst
  case synRcvd =>
    obtain ⟨hk, hr⟩ := hroom (.inl hst)
    exact keeps_inputSynRcvd h hwlen hk hr
  case established =>
    refine keeps_inputEstablished h hwlen hsnd (by rw [hdev]; exact hcare.urgent) fun hcl => ?_
    rw [Ctx.Closes, hdev, hstop] at hcl
    exact hroom (.inr ⟨hst, hcl⟩)
  case synSent =>
    -- the number that is taken over is that of the first byte of the payload
    exfalso
    rw [hreceive, inputState, hwstate, hst] at hmoved hpast
    rcases rcvseq_inputSynSent h w f with hr | hr
    · exact hmoved (hr.trans hwrcv)
    · have hseq : w.dev.tcp.seqno = c.dev.tcp.seqno := by rw [hdev]; rfl
      rw [hr, hseq, Ctx.firstSeq, if_pos hst] at hpast
      have hz : (c.payload cfg).length ≤ 0 := by simpa using hpast
      exact hne (eq_nil_of_length_eq_zero (Nat.le_zero.mp hz))
  case finWait1 => exact absurd hst hcare.finWait1
  case finWait2 => exact absurd hst hcare.finWait2
  case lastAck => exact .inl (rcvseq_inputLastAck h w f)
  case closing => exact .inl (rcvseq_inputClosing w f)
  case timeWait => exact .inl rfl
  case closed => exact .inl rfl
  case allocated => exact .inl rfl

/-! ### Sequences of segments -/

/-- What happens to a connection: a segment arrives for it, or anything else changes the
state, the application or a timer for one. -/
inductive Arrival (σ : Type) where
  | segment (d : Dev)
  | other (c : Ctx σ)

/-- The segment in the buffer of the driver. -/
def Ctx.withDev (c : Ctx σ) (d : Dev) : Ctx σ := { c with dev := d }

def Ctx.step (cfg : Config) (app : App σ) (c : Ctx σ) : Arrival σ → Option (Ctx σ)
  | .segment d => some (receive cfg app (c.withDev d)).toCtx
  | .other c' => some c'

/-- What arrives acknowledges nothing that was not accepted. -/
def Arrival.Sound (cfg : Config) (app : App σ) (c : Ctx σ) : Arrival σ → Prop
  | .segment d => (c.withDev d).Sound cfg app
  | .other _ => True

/-- What arrives is careful with its data, if it gets that far. -/
def Arrival.Careful (cfg : Config) (app : App σ) (c : Ctx σ) : Arrival σ → Prop
  | .segment d => (c.withDev d).TakenUp cfg → (c.withDev d).payload cfg ≠ [] →
      (c.withDev d).Careful cfg app
  | .other _ => True

theorem App.idle_lawful : App.idle.Lawful where
  rcvseq _ _ _ := rfl
  newdata _ _ _ := id
  sndack _ _ _ := .inl
  shown _ _ _ _ := rfl
  iobs _ _ _ _ := Nat.le_refl _
  qentries _ _ _ _ := Nat.le_refl _
  event_rcvseq _ _ := rfl
  event_dev _ _ := rfl
  event_pool _ _ := rfl

instance (cfg : Config) (app : App σ) (c : Ctx σ) : Decidable (c.Acknowledges cfg app) :=
  inferInstanceAs (Decidable (_ ∧ _))

instance (w : Work σ) (b : List UInt8) : Decidable (w.Accepts b) :=
  inferInstanceAs (Decidable (_ ∈ _))

instance (cfg : Config) (app : App σ) (c : Ctx σ) : Decidable (c.Sound cfg app) :=
  inferInstanceAs (Decidable (_ → _ → _))

/-- A connection in a state gets ten bytes, in order. -/
def Ctx.tenBytes (st : State) (flags : Ctl) (iobs : ℕ) : Ctx Unit :=
  Ctx.sample (Conn.sample st 1000 1) (Dev.sample flags 1001 10) iobs

end GreenboneFeeder.Tcp
