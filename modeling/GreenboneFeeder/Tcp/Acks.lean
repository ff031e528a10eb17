import GreenboneFeeder.Tcp.Input

/-!
# What an acknowledgement does

`tcp_input` compares the acknowledgement number with the number behind the last byte sent
as two unsigned 32-bit numbers, and then takes it over as the new send sequence number.

The comparison is wrong where the numbers run over `2 ^ 32`, and in the callback the application may
change the connection. So the state behind the segment is computed for an application that leaves
the connection alone (`Tcp.App.Quiet`), and when it is the right one is said by an equivalence
(`Tcp.acknowledgement_iff`).
-/

namespace GreenboneFeeder.Tcp

variable {σ : Type} {cfg : Config} {app : App σ} {w : Work σ}

/-! ### What the parts leave alone -/

@[simp] theorem drop_conn (w : Work σ) : (drop w).conn = w.conn := rfl
@[simp] theorem enter_conn (s : State) (w : Work σ) :
    (w.enter s).conn = { w.conn with state := s, stopped := false } := rfl
@[simp] theorem enter_log (s : State) (w : Work σ) :
    (w.enter s).log = w.log ++ [.entered s] := rfl

@[simp] theorem tcpSend_conn (w : Work σ) (f : Ctl) (len : UInt16) :
    (tcpSend cfg w f len).conn = w.conn := rfl

@[simp] theorem reset_conn (w : Work σ) : (reset cfg w).conn = w.conn := by
  rw [reset]
  split <;> rfl

/-- A segment with RST was sent. -/
def Work.Resets (w : Work σ) : Prop := ∃ h len, Event.sent h len ∈ w.log ∧ h.flags.rst = true

@[simp] theorem resets_setConn (f : Conn → Conn) (w : Work σ) :
    (w.setConn f).Resets ↔ w.Resets := .rfl
@[simp] theorem resets_setDev (f : Dev → Dev) (w : Work σ) :
    (w.setDev f).Resets ↔ w.Resets := .rfl

@[simp] theorem resets_enter (s : State) (w : Work σ) : (w.enter s).Resets ↔ w.Resets := by
  simp [Work.Resets]

theorem resets_record_accepted (b : List UInt8) (w : Work σ) :
    (w.record (.accepted b)).Resets ↔ w.Resets := by
  simp [Work.Resets]

@[simp] theorem resets_tcpSend (w : Work σ) (f : Ctl) (len : UInt16) :
    (tcpSend cfg w f len).Resets ↔ w.Resets ∨ f.rst = true := by
  obtain ⟨h, hf, hlog⟩ : ∃ h : Hdr, h.flags = f ∧
      (tcpSend cfg w f len).log = w.log ++ [.sent h len] := ⟨_, rfl, rfl⟩
  simp only [Work.Resets, hlog, List.mem_append, List.mem_singleton]
  constructor
  · rintro ⟨h', len', hm | hm, hr⟩
    · exact .inl ⟨h', len', hm, hr⟩
    · cases hm
      exact .inr (hf ▸ hr)
  · rintro (⟨h', len', hm, hr⟩ | hr)
    · exact ⟨h', len', .inl hm, hr⟩
    · exact ⟨h, len, .inr rfl, hf ▸ hr⟩

/-! ### An application that only listens -/

/-- **A quiet application**: its callbacks neither touch the connection nor ask to send, to
close or to abort. -/
structure App.Quiet (app : App σ) : Prop where
  conn : ∀ cb c f, (app.event cb c f).1.conn = c.conn
  sndlen : ∀ cb c f, (app.event cb c f).1.dev.dSndlen = c.dev.dSndlen
  close : ∀ cb c f, (app.event cb c f).2.close = true → f.close = true
  abort : ∀ cb c f, (app.event cb c f).2.abort = true → f.abort = true
  event_conn : ∀ c f, (app.connectionEvent c f).conn = c.conn
  event_sndlen : ∀ c f, (app.connectionEvent c f).dev.dSndlen = c.dev.dSndlen

/-- What a quiet application leaves of the connection, the packet and the flags. -/
structure Undisturbed (x y : Work σ × Flags) : Prop where
  conn : ∃ q, y.1.conn = { x.1.conn with readahead := q }
  sndlen : y.1.dev.dSndlen = x.1.dev.dSndlen
  close : y.2.close = true → x.2.close = true
  abort : y.2.abort = true → x.2.abort = true
  resets : y.1.Resets ↔ x.1.Resets

namespace Undisturbed

theorem refl (x : Work σ × Flags) : Undisturbed x x :=
  ⟨⟨_, rfl⟩, rfl, id, id, .rfl⟩

theorem trans {x y z : Work σ × Flags} (h : Undisturbed x y) (h' : Undisturbed y z) :
    Undisturbed x z where
  conn := by
    obtain ⟨q, hq⟩ := h.conn
    obtain ⟨q', hq'⟩ := h'.conn
    exact ⟨q', by rw [hq', hq]⟩
  sndlen := h'.sndlen.trans h.sndlen
  close hc := h.close (h'.close hc)
  abort hc := h.abort (h'.abort hc)
  resets := h'.resets.trans h.resets

theorem tcpDataEvent (w : Work σ) (f : Flags) :
    Undisturbed (w, f) (tcpDataEvent cfg w f) := by
  rcases tcpDataEvent_cases with ⟨-, h⟩ | h | ⟨pool, h⟩ <;> rw [h]
  · exact ⟨⟨_, rfl⟩, rfl, id, id, .rfl⟩
  · exact ⟨⟨_, rfl⟩, rfl, id, id, .rfl⟩
  · exact ⟨⟨_, rfl⟩, rfl, id, id, resets_record_accepted _ _⟩

end Undisturbed

/-- **A quiet application is called without effect on the connection.** -/
theorem App.Quiet.callback (hq : app.Quiet) (cfg : Config) (w : Work σ) (f : Flags) :
    Undisturbed (w, f) (tcpCallback cfg app w f) := by
  refine tcpCallback_rel Undisturbed.refl Undisturbed.trans ?_
    (fun w f _ => Undisturbed.tcpDataEvent w f) ?_ w f
  · intro cb w f
    have hclose := hq.close cb w.toCtx f
    have habort := hq.abort cb w.toCtx f
    rw [callEvent]
    split
    · exact ⟨⟨_, hq.conn cb w.toCtx f⟩, hq.sndlen cb w.toCtx f, hclose, habort,
        resets_record_accepted _ _⟩
    · exact ⟨⟨_, hq.conn cb w.toCtx f⟩, hq.sndlen cb w.toCtx f, hclose, habort, .rfl⟩
  · intro w f
    exact ⟨⟨_, hq.event_conn w.toCtx f⟩, hq.event_sndlen w.toCtx f, id, id, .rfl⟩

/-! ### An established connection and a quiet application -/

/-- Without data of the application to send, and unless it closes, `tcp_appsend` leaves the
connection alone. -/
theorem tcpAppsend_quiet (hwb : cfg.writeBuffers = false) {f : Flags}
    (hs : w.dev.dSndlen = 0) (hc : f.close = false) (ha : f.abort = false) :
    (tcpAppsend cfg w f).conn = { w.conn with nrtx := 0 } ∧
      ((tcpAppsend cfg w f).Resets ↔ w.Resets) := by
  rw [tcpAppsend]
  simp only [hc, ha, hwb, hs, Bool.false_eq_true, if_false, UInt16.lt_irrefl]
  rw [tcpRexmit]
  split
  · exact ⟨rfl, by simp⟩
  split
  · exact ⟨rfl, by simp⟩
  · exact ⟨rfl, by simp⟩

/-- The segment makes an established connection close. -/
def Ctx.Closes (c : Ctx σ) : Prop := c.dev.tcp.flags.fin = true ∧ c.conn.stopped = false

theorem inputFin_quiet (hq : app.Quiet) (w : Work σ) (f : Flags) :
    (inputFin cfg app w f).conn.sndseq = w.conn.sndseq ∧
      (inputFin cfg app w f).conn.unacked = 1 ∧ ((inputFin cfg app w f).Resets ↔ w.Resets) := by
  have h := hq.callback cfg
    (w.setConn fun c => { c with rcvseq := c.rcvseq.netIncr32 (w.dev.dLen + 1) })
    { f with close := true, newdata := decide (0 < w.dev.dLen) }
  obtain ⟨q, hconn⟩ := h.conn
  rw [inputFin]
  refine ⟨?_, rfl, ?_⟩
  · simp [hconn]
  · simpa using h.resets

theorem urgent_conn (cfg : Config) (w : Work σ) :
    (urgent cfg w).conn.sndseq = w.conn.sndseq ∧ (urgent cfg w).conn.unacked = w.conn.unacked ∧
      ((urgent cfg w).Resets ↔ w.Resets) := by
  rw [urgent]
  split
  · split <;> exact ⟨rfl, rfl, .rfl⟩
  split <;> exact ⟨rfl, rfl, .rfl⟩

theorem inputData_quiet (hwb : cfg.writeBuffers = false) (hq : app.Quiet)
    {f : Flags} (hc : f.close = false) (ha : f.abort = false) :
    (inputData cfg app w f).conn.sndseq = w.conn.sndseq ∧
      (inputData cfg app w f).conn.unacked = w.conn.unacked ∧
      ((inputData cfg app w f).Resets ↔ w.Resets) := by
  rw [inputData]
  dsimp only
  split
  · have h := hq.callback cfg (w.setDev fun d => { d with dSndlen := 0 })
      { f with newdata := decide (0 < w.dev.dLen) && !w.conn.stopped }
    generalize tcpCallback cfg app (w.setDev fun d => { d with dSndlen := 0 })
      { f with newdata := decide (0 < w.dev.dLen) && !w.conn.stopped } = r at h ⊢
    obtain ⟨q, hconn⟩ := h.conn
    have hs : r.1.dev.dSndlen = 0 := h.sndlen
    have hclose : r.2.toUint8.close = false := by
      rw [← Bool.not_eq_true]
      intro hcl
      exact Bool.false_ne_true (hc.symm.trans (h.close hcl))
    have habort : r.2.toUint8.abort = false := by
      rw [← Bool.not_eq_true]
      intro hab
      exact Bool.false_ne_true (ha.symm.trans (h.abort hab))
    have hres : r.1.Resets ↔ w.Resets := h.resets
    split
    · obtain ⟨hsend, hsr⟩ := tcpAppsend_quiet hwb
        (w := r.1.setConn fun c => { c with rcvseq := c.rcvseq.netIncr32 w.dev.dLen })
        hs hclose habort
      refine ⟨?_, ?_, hsr.trans hres⟩ <;> simp [hsend, hconn]
    · obtain ⟨hsend, hsr⟩ := tcpAppsend_quiet hwb hs hclose habort
      refine ⟨?_, ?_, hsr.trans hres⟩ <;> simp [hsend, hconn]
  · exact ⟨rfl, rfl, .rfl⟩

open Classical in
/-- **An established connection with a quiet application** keeps its send sequence number and its
outstanding bytes, unless it closes, and is not reset. -/
theorem inputEstablished_quiet (hwb : cfg.writeBuffers = false) (hq : app.Quiet) (w : Work σ)
    {f : Flags} (hc : f.close = false) (ha : f.abort = false) :
    (inputEstablished cfg app w f).conn.sndseq = w.conn.sndseq ∧
      (inputEstablished cfg app w f).conn.unacked
        = (if w.Closes then 1 else w.conn.unacked) ∧
      ((inputEstablished cfg app w f).Resets ↔ w.Resets) := by
  rw [inputEstablished]
  split
  · rename_i hcl
    rw [if_pos (show w.Closes from hcl)]
    exact inputFin_quiet hq w f
  · rename_i hcl
    rw [if_neg (show ¬w.Closes from hcl)]
    obtain ⟨hs, hu, hr⟩ := inputData_quiet hwb hq hc ha
    obtain ⟨hs', hu', hr'⟩ := urgent_conn cfg w
    exact ⟨hs.trans hs', hu.trans hu', hr.trans hr'⟩

/-! ### A segment that belongs to the connection -/

/-- The size of the payload of the segment in the buffer. -/
def Config.payloadLen (cfg : Config) (d : Dev) : UInt16 := d.dLen - (d.tcp.len + cfg.iplen)

/-- The state when a segment without RST was matched with its connection: the window size is
taken over, and `d_len` is the size of the payload. -/
def arrive (cfg : Config) (w : Work σ) : Work σ :=
  ((w.setDev fun d => { d with dAppdata := 0 }).setConn fun c =>
    { c with winsize := w.dev.tcp.wnd }).setDev fun d => { d with dLen := cfg.payloadLen d }

/-- **What `tcp_input` does with a segment of a connection**, as long as it carries no RST
and is not a stray SYN. -/
theorem tcpInput_active (w : Work σ) (hchk : w.dev.chksum = 0xffff)
    (hsyn : w.conn.state = .synRcvd ∨ w.dev.tcp.flags ≠ { syn := true })
    (hrst : w.dev.tcp.flags.rst = false) :
    tcpInput cfg app .active w =
      if outOfOrder (arrive cfg w) then tcpSend cfg (arrive cfg w) { ack := true } cfg.tcpiplen
      else match acknowledge cfg (arrive cfg w) with
        | none => reset cfg (arrive cfg w)
        | some (w, flags) => inputState cfg app w flags := by
  have hstray : ¬(w.conn.state ≠ .synRcvd ∧ w.dev.tcp.flags = { syn := true }) := by
    rintro ⟨h1, h2⟩
    exact hsyn.elim h1 fun h => h h2
  rw [tcpInput]
  simp only [Work.setDev_toCtx_dev, Work.setDev_toCtx_conn, hchk, ne_eq, not_true_eq_false,
    if_false, hstray]
  rw [found]
  simp only [Work.setConn_toCtx_dev, Work.setDev_toCtx_dev, hrst, Bool.false_eq_true, if_false]
  rfl

/-- **A segment that a connection takes up for its acknowledgement number**: it is undamaged,
carries ACK and no RST, and is in order. -/
structure AckSegment (cfg : Config) (c : Ctx σ) : Prop where
  chksum : c.dev.chksum = 0xffff
  ack : c.dev.tcp.flags.ack = true
  rst : c.dev.tcp.flags.rst = false
  inOrder : c.dev.tcp.seqno = c.conn.rcvseq ∨
    cfg.payloadLen c.dev = 0 ∧ c.dev.tcp.flags.syn = false ∧ c.dev.tcp.flags.fin = false

theorem AckSegment.not_outOfOrder (h : AckSegment cfg w.toCtx) :
    outOfOrder (arrive cfg w) = false := by
  rw [← Bool.not_eq_true, outOfOrder, decide_eq_true_iff]
  rintro ⟨-, hlen, hseq⟩
  rcases h.inOrder with hio | ⟨h0, hsyn, hfin⟩
  · exact hseq hio
  · simp only [arrive, Work.setDev_toCtx_dev, Work.setConn_toCtx_dev] at hlen
    rcases hlen with hlen | hlen | hlen
    · rw [Config.payloadLen] at h0
      simp [Config.payloadLen, h0] at hlen
    · exact Bool.false_ne_true (hsyn.symm.trans hlen)
    · exact Bool.false_ne_true (hfin.symm.trans hlen)

theorem AckSegment.tcpInput_eq (h : AckSegment cfg w.toCtx) :
    tcpInput cfg app .active w =
      match acknowledge cfg (arrive cfg w) with
        | none => reset cfg (arrive cfg w)
        | some (w, flags) => inputState cfg app w flags := by
  rw [tcpInput_active w h.chksum (.inr fun hs => ?_) h.rst]
  · simp [h.not_outOfOrder]
  · have := h.ack
    rw [hs] at this
    exact Bool.false_ne_true this

/-! ### The arithmetic -/

@[simp] theorem advance_sndseq (n : UInt32) (c : Conn) :
    (advance n c).sndseq = Seqno.setsequence n := by
  rw [advance]
  split <;> rfl

@[simp] theorem advance_unacked (n : UInt32) (c : Conn) : (advance n c).unacked = c.unacked := by
  rw [advance]
  split <;> rfl

@[simp] theorem advance_state (n : UInt32) (c : Conn) : (advance n c).state = c.state := by
  rw [advance]
  split <;> rfl

@[simp] theorem advance_stopped (n : UInt32) (c : Conn) : (advance n c).stopped = c.stopped := by
  rw [advance]
  split <;> rfl

@[simp] theorem advance_rcvseq (n : UInt32) (c : Conn) : (advance n c).rcvseq = c.rcvseq := by
  rw [advance]
  split <;> rfl

/-- `tcp_input` on a segment of the connection, with an empty log. -/
def receive (cfg : Config) (app : App σ) (c : Ctx σ) : Work σ :=
  tcpInput cfg app .active { toCtx := c }

/-- The connection was left with this send sequence number and this number of outstanding
bytes, and was not reset. -/
def Work.Acknowledged (w : Work σ) (seq : UInt32) (unacked : UInt16) : Prop :=
  w.conn.sndseq.getsequence = seq ∧ w.conn.unacked = unacked.toUInt32 ∧ ¬w.Resets

/-- **An established connection with outstanding bytes gets an acknowledgement.** -/
structure AckArrives (cfg : Config) (c : Ctx σ) (S : UInt32) (U : UInt16) : Prop
    extends AckSegment cfg c where
  writeBuffers : cfg.writeBuffers = false
  state : c.conn.state = .established
  sndseq : c.conn.sndseq.getsequence = S
  unacked : c.conn.unacked = U.toUInt32
  pos : 0 < U

namespace AckArrives

variable {c : Ctx σ} {S : UInt32} {U : UInt16}

variable (h : AckArrives cfg c S U)

include h

theorem unackseq_eq :
    unackseq cfg (arrive cfg { toCtx := c }).conn = S + U.toUInt32 := by
  simp [unackseq, h.writeBuffers, arrive, Seqno.addsequence, h.sndseq, h.unacked]

theorem outstanding :
    (arrive cfg { toCtx := c }).dev.tcp.flags.ack = true ∧
      0 < (arrive cfg { toCtx := c }).conn.unacked := by
  refine ⟨h.ack, ?_⟩
  show 0 < c.conn.unacked
  rw [h.unacked, UInt32.lt_iff_toNat_lt]
  simpa using UInt16.lt_iff_toNat_lt.mp h.pos

open Classical in
/-- An acknowledgement number that is not above the number behind the last byte sent is
taken over. -/
theorem receive_of_le (hq : app.Quiet) (hle : c.dev.tcp.ackno.getsequence ≤ S + U.toUInt32) :
    (receive cfg app c).conn.sndseq.getsequence = c.dev.tcp.ackno.getsequence ∧
      (receive cfg app c).conn.unacked = (if c.Closes then 1
        else (S + U.toUInt32 - c.dev.tcp.ackno.getsequence).toUInt16.toUInt32) ∧
      ¬(receive cfg app c).Resets := by
  have hle' : (arrive cfg { toCtx := c }).dev.tcp.ackno.getsequence
      ≤ unackseq cfg (arrive cfg { toCtx := c }).conn := by
    rwa [h.unackseq_eq]
  rw [receive, AckSegment.tcpInput_eq h.toAckSegment, acknowledge,
    if_pos h.outstanding, if_pos hle']
  dsimp only
  generalize hw : (arrive cfg { toCtx := c }).setConn _ = w
  have hconn : w.conn = advance c.dev.tcp.ackno.getsequence
      { (arrive cfg { toCtx := c }).conn with
        unacked := cfg.toUnacked (S + U.toUInt32 - c.dev.tcp.ackno.getsequence) } := by
    rw [← hw, ← h.unackseq_eq]
    rfl
  have hstate : w.conn.state = .established := by
    rw [hconn, advance_state]
    exact h.state
  have hcloses : w.Closes ↔ c.Closes := by
    rw [Ctx.Closes, hconn, advance_stopped, ← hw]
    rfl
  have hlog : ¬w.Resets := by
    rw [← hw]
    rintro ⟨h, len, hm, -⟩
    exact List.not_mem_nil hm
  obtain ⟨hs, hu, hr⟩ := inputEstablished_quiet h.writeBuffers hq w
    (f := { ackdata := true }) rfl rfl
  rw [inputState, hstate]
  refine ⟨?_, ?_, fun hres => hlog (hr.mp hres)⟩
  · rw [hs, hconn, advance_sndseq, Seqno.getsequence_setsequence]
  · rw [hu, hconn, advance_unacked]
    simp only [hcloses, Config.toUnacked, h.writeBuffers, Bool.false_eq_true, if_false]

theorem receive_of_lt (app : App σ)
    (hlt : ¬c.dev.tcp.ackno.getsequence ≤ S + U.toUInt32) : (receive cfg app c).Resets := by
  have hle' : ¬(arrive cfg { toCtx := c }).dev.tcp.ackno.getsequence
      ≤ unackseq cfg (arrive cfg { toCtx := c }).conn := by
    rwa [h.unackseq_eq]
  have hstate : (arrive cfg { toCtx := c }).conn.state = .established := h.state
  have hrst : (arrive cfg { toCtx := c }).dev.tcp.flags.rst = false := h.rst
  rw [receive, AckSegment.tcpInput_eq h.toAckSegment, acknowledge,
    if_pos h.outstanding, if_neg hle', if_pos hstate]
  rw [reset, hrst]
  exact ⟨_, _, List.mem_append_right _ (List.mem_singleton_self _), rfl⟩

omit h

/-- The comparison, for an acknowledged number among the outstanding bytes, goes wrong when the
outstanding bytes run over `2 ^ 32` and the acknowledged number does not. -/
theorem add_le_add_iff (S : UInt32) {k : UInt16} (hk : k ≤ U) :
    S + k.toUInt32 ≤ S + U.toUInt32 ↔
      S.toNat + U.toNat < 2 ^ 32 ∨ 2 ^ 32 ≤ S.toNat + k.toNat := by
  have hS := S.toNat_lt
  have hU := U.toNat_lt
  have hk := UInt16.le_iff_toNat_le.mp hk
  rw [UInt32.le_iff_toNat_le]
  simp only [UInt32.toNat_add, UInt16.toNat_toUInt32]
  omega

theorem add_sub_add (S : UInt32) {k : UInt16} (hk : k ≤ U) :
    (S + U.toUInt32 - (S + k.toUInt32)).toUInt16 = U - k := by
  have hU := U.toNat_lt
  have hk := UInt16.le_iff_toNat_le.mp hk
  rw [← UInt16.toNat_inj]
  simp only [UInt32.toNat_toUInt16, UInt32.toNat_sub, UInt32.toNat_add, UInt16.toNat_toUInt32,
    UInt16.toNat_sub]
  omega

end AckArrives

/-- **Acknowledgement arithmetic.** An established connection with send sequence number `S` and `U`
outstanding bytes, whose application is quiet, gets an acknowledgement of the first `k` of them. It
is left with `S + k` and `U - k`, and without a reset, exactly if the outstanding bytes do not run
over `2 ^ 32` behind the acknowledged number, and the segment does not close the connection, which
makes the own FIN the only outstanding byte. An acknowledgement of bytes that were acknowledged
before never leaves the connection as it is. -/
theorem acknowledgement_iff {c : Ctx σ} {S : UInt32} {U : UInt16} (h : AckArrives cfg c S U)
    (hq : app.Quiet) :
    (∀ k : UInt16, k ≤ U → c.dev.tcp.ackno.getsequence = S + k.toUInt32 →
      ((receive cfg app c).Acknowledged (S + k.toUInt32) (U - k) ↔
        (S.toNat + U.toNat < 2 ^ 32 ∨ 2 ^ 32 ≤ S.toNat + k.toNat) ∧
          (c.Closes → U - k = 1))) ∧
    ∀ k : UInt32, 0 < k → k < 0x80000000 → c.dev.tcp.ackno.getsequence = S - k →
      ¬(receive cfg app c).Acknowledged S U := by
  constructor
  · intro k hk hack
    rw [← AckArrives.add_le_add_iff S hk]
    by_cases hle : S + k.toUInt32 ≤ S + U.toUInt32
    · obtain ⟨hs, hu, hr⟩ := h.receive_of_le hq (hack ▸ hle)
      rw [hack, AckArrives.add_sub_add S hk] at hu
      rw [Work.Acknowledged, hs, hu, hack]
      simp only [hle, hr, not_false_iff, true_and, and_true]
      split
      · rename_i hcl
        rw [← UInt32.toNat_inj, ← UInt16.toNat_inj]
        simp only [hcl, true_imp_iff, UInt16.toNat_toUInt32, UInt32.toNat_one, UInt16.toNat_one]
        exact eq_comm
      · rename_i hcl
        simp [hcl]
    · have hres := h.receive_of_lt app (hack ▸ hle)
      constructor
      · rintro ⟨-, -, hnr⟩
        exact absurd hres hnr
      · rintro ⟨hle', -⟩
        exact absurd hle' hle
  · rintro k hk hk' hack ⟨hs, -, hnr⟩
    by_cases hle : S - k ≤ S + U.toUInt32
    · -- the sequence number moves back
      obtain ⟨hs', -, -⟩ := h.receive_of_le hq (hack ▸ hle)
      rw [hs', hack, ← UInt32.toNat_inj, UInt32.toNat_sub] at hs
      have hk := UInt32.lt_iff_toNat_lt.mp hk
      have hkb := k.toNat_lt
      omega
    · exact hnr (h.receive_of_lt app (hack ▸ hle))

/-! ### Instances -/

/-- The application that has no callbacks. -/
def App.idle : App Unit where
  list _ := []
  flags _ _ := none
  event _ c f := (c, f)
  connectionEvent c _ := c

theorem App.idle_quiet : App.idle.Quiet where
  conn _ _ _ := rfl
  sndlen _ _ _ := rfl
  close _ _ _ := id
  abort _ _ _ := id
  event_conn _ _ := rfl
  event_sndlen _ _ := rfl

/-- An IPv4 configuration with read-ahead buffers and nothing else. -/
def Config.plain : Config where
  writeBuffers := false
  readAhead := true
  urgData := false
  iplen := 20
  tcpMss := 1460
  rcvwndo := 1500
  iobBufsize := 196

/-- A connection in a state, with its send sequence number and number of outstanding bytes. -/
def Conn.sample (state : State) (sndseq : UInt32) (unacked : UInt32) : Conn where
  rcvseq := Seqno.setsequence 7000
  sndseq := Seqno.setsequence sndseq
  state := state
  stopped := false
  sa := 0
  sv := 4
  rto := 3
  timer := 3
  nrtx := 0
  lport := 80
  rport := 4000
  mss := 1460
  winsize := 1500
  unacked := unacked
  sent := 0
  isn := 0
  readahead := []

/-- The segment the connection expects next, with an acknowledgement number and a payload. -/
def Dev.sample (flags : Ctl) (ackno : UInt32) (payload : UInt16) : Dev where
  tcp := {
    srcport := 4000
    destport := 80
    seqno := Seqno.setsequence 7000
    ackno := Seqno.setsequence ackno
    tcpoffset := 0x50
    flags := flags
    wnd := 1500
    urgp := 0 }
  data := fun i => UInt8.ofNat i
  chksum := 0xffff
  dLen := 40 + payload
  dSndlen := 0
  dAppdata := 0
  dUrgdata := 0
  dUrglen := 0

/-- The two together, with buffers left or without. -/
def Ctx.sample (conn : Conn) (dev : Dev) (iobs : ℕ) : Ctx Unit where
  dev := dev
  conn := conn
  app := ()
  pool := { iobs := iobs, qentries := iobs }
  tcpsequence := 0

/-- An established connection gets a pure acknowledgement. -/
def Ctx.acked (S : UInt32) (U : UInt16) (ackno : UInt32) : Ctx Unit :=
  Ctx.sample (Conn.sample .established S U.toUInt32) (Dev.sample { ack := true } ackno 0) 8

theorem ackArrives_acked {S : UInt32} {U : UInt16} (hU : 0 < U) {ackno : UInt32} :
    AckArrives Config.plain (Ctx.acked S U ackno) S U where
  chksum := rfl
  ack := rfl
  rst := rfl
  inOrder := .inl rfl
  writeBuffers := rfl
  state := rfl
  sndseq := Seqno.getsequence_setsequence
  unacked := rfl
  pos := hU

theorem acknowledgement_iff_forty :
    AckArrives Config.plain (Ctx.acked 1000 100 1040) 1000 100 ∧
      (receive Config.plain App.idle (Ctx.acked 1000 100 1040)).Acknowledged 1040 60 :=
  have h := ackArrives_acked (by decide)
  ⟨h, ((acknowledgement_iff h App.idle_quiet).1 40 (by decide)
    Seqno.getsequence_setsequence).mpr ⟨.inl (by decide), fun hc => absurd hc.1 (by decide)⟩⟩

/-- **Two ordinary acknowledgements that go wrong.** `0x200` bytes from `0xffffff00` on are
outstanding, and the peer acknowledges none of them: the connection is reset. And a delayed
acknowledgement moves the sequence number back. -/
theorem acknowledgement_wraps :
    (AckArrives Config.plain (Ctx.acked 0xffffff00 0x200 0xffffff00) 0xffffff00 0x200 ∧
      (Ctx.acked 0xffffff00 0x200 0xffffff00).dev.tcp.ackno.getsequence
        = 0xffffff00 + (0 : UInt16).toUInt32 ∧
      (receive Config.plain App.idle (Ctx.acked 0xffffff00 0x200 0xffffff00)).Resets) ∧
    AckArrives Config.plain (Ctx.acked 1000 100 990) 1000 100 ∧
      (Ctx.acked 1000 100 990).dev.tcp.ackno.getsequence = 1000 - 10 ∧
      (receive Config.plain App.idle (Ctx.acked 1000 100 990)).conn.sndseq.getsequence = 990 := by
  refine ⟨⟨ackArrives_acked (by decide), Seqno.getsequence_setsequence, ?_⟩,
    ackArrives_acked (by decide), Seqno.getsequence_setsequence, ?_⟩
  · exact (ackArrives_acked (by decide)).receive_of_lt App.idle (by decide)
  · exact ((ackArrives_acked (by decide)).receive_of_le App.idle_quiet (by decide)).1

end GreenboneFeeder.Tcp
