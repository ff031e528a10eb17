import GreenboneFeeder.Lib.Run
import GreenboneFeeder.Tcp.Transitions

/-!
# Timeouts of a connection

The retransmission timeout is estimated in numbers of 8 bits. They do not wrap as long as no round
trip takes more than 31 half seconds (`Tcp.estimator_exact`). `tcp_timer` retransmits a segment when
the timeout has passed and gives up after a number of retransmissions, except where it waits for a
callback to say so that is never called (`Tcp.gives_up_iff`).
-/

namespace GreenboneFeeder.Tcp

/-! ### The estimator -/

/-- The variables of the estimator, as integers. -/
structure Estimate where
  sa : ℤ
  sv : ℤ
  rto : ℤ
  deriving DecidableEq, Repr

/-- The estimation for a round trip time. -/
def Estimate.update (e : Estimate) (m : ℤ) : Estimate :=
  let sa := e.sa + (m - e.sa / 8)
  let sv := e.sv + ((m - e.sa / 8).natAbs - e.sv / 4)
  ⟨sa, sv, sa / 8 + sv⟩

/-- **A measurement**: the acknowledgement comes when `timer` half seconds of the timeout are left.
The estimation is done by the code and with integers. -/
def measure (x : Conn × Estimate) (timer : UInt8) : Option (Conn × Estimate) :=
  if timer ≤ x.1.rto then
    some (estimate { x.1 with timer := timer }, x.2.update (x.2.rto - timer.toNat))
  else none

/-- The code has the values of the estimator, and they are small. -/
structure Estimated (x : Conn × Estimate) : Prop where
  sa : (x.1.sa.toNat : ℤ) = x.2.sa
  sv : (x.1.sv.toNat : ℤ) = x.2.sv
  rto : (x.1.rto.toNat : ℤ) = x.2.rto
  sv_pos : 1 ≤ x.2.sv
  sv_le : x.2.sv ≤ 127
  rto_pos : 1 ≤ x.2.rto

theorem bmod_of_lt {n : ℤ} (hle : -128 ≤ n) (hlt : n < 128) : n.bmod (2 ^ 8) = n :=
  Int.bmod_eq_of_le (by omega) (by omega)

theorem toInt_toInt8 {n : UInt8} (h : n.toNat < 128) : n.toInt8.toInt = n.toNat :=
  (BitVec.toInt_eq_toNat_bmod _).trans (bmod_of_lt (by omega) (by exact_mod_cast h))

theorem toNat_toUInt8 (m : Int8) : (m.toUInt8.toNat : ℤ) = m.toInt % 256 := by
  have hlt := m.toUInt8.toNat_lt
  rw [show m.toInt = (m.toUInt8.toNat : ℤ).bmod 256 from BitVec.toInt_eq_toNat_bmod _]
  exact (Int.emod_eq_of_lt (by omega) (by omega)).symm.trans (Int.bmod_emod ..).symm

theorem toNat_shiftRight_three (n : UInt8) : (n >>> 3).toNat = n.toNat / 8 := by
  rw [UInt8.toNat_shiftRight, Nat.shiftRight_eq_div_pow]
  rfl

theorem toNat_shiftRight_two (n : UInt8) : (n >>> 2).toNat = n.toNat / 4 := by
  rw [UInt8.toNat_shiftRight, Nat.shiftRight_eq_div_pow]
  rfl

theorem Estimated.measure {x y : Conn × Estimate} {timer : UInt8} (h : Estimated x)
    (hm : x.1.rto.toNat - timer.toNat ≤ 31) (hs : measure x timer = some y) : Estimated y := by
  obtain ⟨c, e⟩ := x
  obtain ⟨hsa, hsv, hrto, hpos, hle, -⟩ := h
  obtain ⟨htimer, hs⟩ := Option.ite_none_right_eq_some.mp hs
  cases hs
  dsimp only at *
  have hsalt := c.sa.toNat_lt
  have hdiff := UInt8.toNat_sub_of_le _ _ htimer
  rw [UInt8.le_iff_toNat_le] at htimer
  have hsa8 := toNat_shiftRight_three c.sa
  have hsv4 := toNat_shiftRight_two c.sv
  -- `m` before and after the average is taken off, and its absolute value
  obtain ⟨m, hmdef⟩ : ∃ m, m = (c.rto - timer).toInt8 - (c.sa >>> 3).toInt8 := ⟨_, rfl⟩
  have hm1 : m.toInt = e.rto - timer.toNat - e.sa / 8 := by
    rw [hmdef, Int8.toInt_sub, toInt_toInt8 (by omega), toInt_toInt8 (by omega),
      bmod_of_lt (by omega) (by omega)]
    omega
  obtain ⟨a, hadef⟩ : ∃ a, a = if m < 0 then -m else m := ⟨_, rfl⟩
  have ha1 : a.toInt = (e.rto - timer.toNat - e.sa / 8).natAbs := by
    rw [hadef, ← hm1]
    split <;> rename_i hneg <;> rw [Int8.lt_iff_toInt_lt, Int8.toInt_zero] at hneg
    · rw [Int8.toInt_neg, bmod_of_lt (by omega) (by omega)]
      omega
    · omega
  have hd : (a - (c.sv >>> 2).toInt8).toInt = a.toInt - e.sv / 4 := by
    rw [Int8.toInt_sub, toInt_toInt8 (by omega), bmod_of_lt (by omega) (by omega)]
    omega
  have hsa' : ((c.sa + m.toUInt8).toNat : ℤ) = e.sa + (e.rto - timer.toNat - e.sa / 8) := by
    have := toNat_toUInt8 m
    rw [UInt8.toNat_add]
    omega
  have hsv' : ((c.sv + (a - (c.sv >>> 2).toInt8).toUInt8).toNat : ℤ) =
      e.sv + ((e.rto - timer.toNat - e.sa / 8).natAbs - e.sv / 4) := by
    have := toNat_toUInt8 (a - (c.sv >>> 2).toInt8)
    rw [UInt8.toNat_add]
    omega
  have hrto' := toNat_shiftRight_three (c.sa + m.toUInt8)
  subst hadef hmdef
  refine ⟨hsa', hsv', ?_, ?_, ?_, ?_⟩ <;> dsimp only [Estimate.update, estimate]
  · rw [UInt8.toNat_add]
    omega
  all_goals omega

/-- **The estimator does not wrap** as long as no round trip takes more than 31 half seconds: from
the values of a new connection on, the code has the values that the estimation has with integers,
and the timeout is at least one. -/
theorem estimator_exact (c₀ : Conn) (hsa : c₀.sa = 0) (hsv : c₀.sv = 4 ∨ c₀.sv = 16)
    (hrto : c₀.rto = 3) (timers : List UInt8) (x : Conn × Estimate)
    (hshort : Run.AllSteps measure (fun x t => x.1.rto.toNat - t.toNat ≤ 31)
      (c₀, ⟨0, c₀.sv.toNat, 3⟩) timers)
    (hrun : Run.run measure (c₀, ⟨0, c₀.sv.toNat, 3⟩) timers = some x) :
    (x.1.sa.toNat : ℤ) = x.2.sa ∧ (x.1.sv.toNat : ℤ) = x.2.sv ∧
      (x.1.rto.toNat : ℤ) = x.2.rto ∧ 1 ≤ x.1.rto.toNat := by
  have h₀ : Estimated (c₀, ⟨0, c₀.sv.toNat, 3⟩) := by
    rcases hsv with hsv | hsv <;> constructor <;> simp [hsa, hsv, hrto]
  have h := Run.invariant_of_allSteps (fun _ _ _ h hm hs => Estimated.measure h hm hs) timers h₀
    hshort hrun
  have hpos := h.rto_pos
  rw [← h.rto] at hpos
  exact ⟨h.sa, h.sv, h.rto, by omega⟩

theorem estimator_exact_three :
    ∃ x, Run.run measure (Conn.sample .synRcvd 0 1, ⟨0, 4, 3⟩) [1, 2, 0] = some x ∧
      (x.1.rto.toNat : ℤ) = x.2.rto :=
  Run.exists_eq_some (P := fun _ => True) (by decide) fun x hs _ =>
    (estimator_exact (Conn.sample .synRcvd 0 1) rfl (.inl rfl) rfl [1, 2, 0] x (by decide) hs).2.2.1

/-- **Slow round trips**: each acknowledgement comes when the timeout is just over. -/
theorem estimator_wraps :
    ∃ x, Run.run measure (Conn.sample .synRcvd 0 1, ⟨0, 4, 3⟩) (List.replicate 8 0) = some x ∧
      (x.1.rto.toNat : ℤ) ≠ x.2.rto :=
  Run.exists_eq_some (by decide) fun _ _ h => h

/-! ### Retransmissions -/

variable {σ : Type}

variable (cfg : Config) (app : App σ) (expired : σ → ℕ) (w : Work σ)

/-- The condition to give up: `conn->expired`, which the callback of the write buffers counts, or
the number of the retransmissions. -/
def givesUp : Prop :=
  (if cfg.writeBuffers then 0 < expired w.app else w.conn.nrtx = 8) ∨
    (w.conn.state = .synSent ∨ w.conn.state = .synRcvd) ∧ w.conn.stopped = false ∧ w.conn.nrtx = 5

instance (cfg : Config) (expired : σ → ℕ) (w : Work σ) : Decidable (givesUp cfg expired w) := by
  unfold givesUp
  infer_instance

/-- The retransmission, once the timeout has passed. -/
def retransmit : Work σ :=
  let state := w.conn.state
  let w := w.setConn fun c =>
    { c with timer := 3 <<< (if 4 < c.nrtx then 4 else c.nrtx), nrtx := c.nrtx + 1 }
  match state with
  | .synRcvd => tcpAck cfg w { ack := true, syn := true }
  | .synSent => tcpAck cfg w { syn := true }
  | .established =>
    let r := tcpCallback cfg app w { rexmit := true }
    tcpRexmit cfg r.1 r.2.toUint8
  | .finWait1 | .closing | .lastAck => tcpSend cfg w { fin := true, ack := true } cfg.tcpiplen
  | _ => drop w

/-- `tcp_timer`, for a connection with outstanding data. -/
def outstanding (hsec : ℕ) : Work σ :=
  if hsec < w.conn.timer.toNat then
    drop (w.setConn fun c => { c with timer := c.timer - UInt8.ofNat hsec })
  else if givesUp cfg expired w then
    let w := (w.setConn fun c => { c with timer := 0 }).enter .closed
    let w := (tcpCallback cfg app w { timedout := true }).1
    tcpSend cfg w { rst := true, ack := true } cfg.tcpiplen
  else retransmit cfg app w

/-- **`tcp_timer`**, `hsec` half seconds after the last call. -/
def tcpTimer (hsec : ℕ) : Work σ :=
  let w := w.setDev fun d => { d with dAppdata := 0, dLen := 0, dSndlen := 0 }
  let w := { w with tcpsequence := w.tcpsequence + 1 }
  if (w.conn.state = .timeWait ∨ w.conn.state = .finWait2) ∧ w.conn.stopped = false then
    let w := w.setConn fun c => { c with timer := c.timer + UInt8.ofNat hsec }
    if 120 ≤ w.conn.timer then drop (tcpCallback cfg app (w.enter .closed) { timedout := true }).1
    else drop w
  else if w.conn.state = .closed ∧ w.conn.stopped = false then drop w
  else if 0 < w.conn.unacked then outstanding cfg app expired w hsec
  else if w.conn.state = .established then
    let r := tcpCallback cfg app w { poll := true }
    tcpAppsend cfg r.1 r.2.toUint8
  else drop w

/-- The segments that were sent, but for resets. -/
def Work.segments : ℕ :=
  w.log.countP fun e => match e with
    | .sent tcp _ => !tcp.flags.rst
    | _ => false

/-- The states in which `tcp_timer` retransmits by itself. -/
def State.Repeats (s : State) : Prop :=
  s = .synSent ∨ s = .synRcvd ∨ s = .finWait1 ∨ s = .closing ∨ s = .lastAck

/-- `TCP_MAXSYNRTX` or `TCP_MAXRTX`. -/
def State.maxRtx (s : State) : ℕ := if s = .synSent ∨ s = .synRcvd then 5 else 8

/-- **A connection that waits**, after `n` retransmissions. -/
structure Waits (w₀ w : Work σ) (n : ℕ) : Prop where
  state : w.conn.state = w₀.conn.state
  stopped : w.conn.stopped = false
  unacked : 0 < w.conn.unacked
  app : w.app = w₀.app
  nrtx : w.conn.nrtx = UInt8.ofNat n
  segments : w.segments = n
  running : ¬w.Enters .closed

section Waits

variable {cfg : Config} {app : App σ} {expired : σ → ℕ} {w₀ w : Work σ} {n : ℕ}

theorem Waits.retransmit (h : Waits w₀ w n) (hrep : w₀.conn.state.Repeats) :
    Waits w₀ (retransmit cfg app w) (n + 1) := by
  have hnrtx : w.conn.nrtx + 1 = UInt8.ofNat (n + 1) := by
    rw [h.nrtx, UInt8.ofNat_add]
    rfl
  have hsend : ∀ (tcp : Hdr) (len : UInt16), tcp.flags.rst = false →
      (w.record (.sent tcp len)).segments = n + 1 := by
    intro tcp len hrst
    rw [← h.segments]
    simp [Work.segments, hrst]
  rw [← h.state] at hrep
  rcases hrep with hs | hs | hs | hs | hs <;> rw [Tcp.retransmit, hs] <;>
    exact ⟨h.state, h.stopped, h.unacked, h.app, hnrtx, hsend _ _ rfl, by simpa using h.running⟩

/-- **One call of `tcp_timer`** gives up, lets time pass, or retransmits. -/
theorem Waits.tcpTimer (cfg : Config) (app : App σ) (expired : σ → ℕ) (h : Waits w₀ w n)
    (hrep : w₀.conn.state.Repeats) (hsec : ℕ) :
    (tcpTimer cfg app expired w hsec).Enters .closed ∧ givesUp cfg expired w ∨
      Waits w₀ (tcpTimer cfg app expired w hsec) n ∧ hsec < w.conn.timer.toNat ∨
      Waits w₀ (tcpTimer cfg app expired w hsec) (n + 1) ∧ ¬givesUp cfg expired w := by
  have hopen : ∀ s, s = .timeWait ∨ s = .finWait2 ∨ s = .closed → w.conn.state ≠ s := by
    rw [h.state]
    rintro _ (rfl | rfl | rfl) heq <;> simp [State.Repeats, heq] at hrep
  obtain ⟨w', hw', hwait, hgive, htimer⟩ : ∃ w', Tcp.tcpTimer cfg app expired w hsec =
      outstanding cfg app expired w' hsec ∧ Waits w₀ w' n ∧
      (givesUp cfg expired w' ↔ givesUp cfg expired w) ∧ w'.conn.timer = w.conn.timer := by
    refine ⟨{ w.setDev fun d => { d with dAppdata := 0, dLen := 0, dSndlen := 0 } with
      tcpsequence := w.tcpsequence + 1 }, ?_, { h with }, .rfl, rfl⟩
    exact (if_neg fun hc => hc.1.elim (hopen _ (by simp)) (hopen _ (by simp))).trans
      ((if_neg fun hc => hopen _ (by simp) hc.1).trans (if_pos h.unacked))
  rw [hw', outstanding, htimer, ← hgive]
  split_ifs with hlt hgive
  · exact .inr (.inl ⟨{ hwait with }, hlt⟩)
  · exact .inl ⟨by simp, hgive⟩
  · exact .inr (.inr ⟨hwait.retransmit hrep, hgive⟩)

theorem Waits.givesUp_iff (h : Waits w₀ w n) (hexpired : expired w₀.app = 0) :
    givesUp cfg expired w ↔ cfg.writeBuffers = false ∧ UInt8.ofNat n = 8 ∨
      (w₀.conn.state = .synSent ∨ w₀.conn.state = .synRcvd) ∧ UInt8.ofNat n = 5 := by
  rw [givesUp, h.state, h.stopped, h.app, h.nrtx, hexpired]
  cases cfg.writeBuffers <;> simp

/-- Where the retransmissions are counted, they stay below the bound. -/
theorem Waits.bounded {hsec : ℕ} (hw : Waits w₀ w n) (hrep : w₀.conn.state.Repeats)
    (hexpired : expired w₀.app = 0)
    (hcond : cfg.writeBuffers = false ∨ w₀.conn.state = .synSent ∨ w₀.conn.state = .synRcvd)
    (hn : n ≤ w₀.conn.state.maxRtx)
    (hopen : ¬(Tcp.tcpTimer cfg app expired w hsec).Enters .closed) :
    ∃ m ≤ w₀.conn.state.maxRtx, Waits w₀ (Tcp.tcpTimer cfg app expired w hsec) m := by
  rcases hw.tcpTimer cfg app expired hrep hsec with hc | hc | hc
  · exact absurd hc.1 hopen
  · exact ⟨n, hn, hc.1⟩
  · refine ⟨n + 1, Nat.lt_of_le_of_ne hn ?_, hc.1⟩
    rintro rfl
    refine hc.2 ((hw.givesUp_iff hexpired).mpr ?_)
    rw [State.maxRtx]
    split_ifs with hsyn
    · exact .inr ⟨hsyn, rfl⟩
    · exact .inl ⟨hcond.resolve_right hsyn, rfl⟩

end Waits

/-- A call of `tcp_timer` as a step. -/
def timerStep (hsec : ℕ) :
    Option (Work σ) :=
  some (tcpTimer cfg app expired w hsec)

/-- Where they are not counted, every call after the timeout retransmits. -/
theorem Waits.unbounded {cfg : Config} {app : App σ} {expired : σ → ℕ} {w₀ : Work σ}
    (hrep : w₀.conn.state.Repeats) (hexpired : expired w₀.app = 0)
    (hwb : ¬cfg.writeBuffers = false)
    (hsyn : ¬(w₀.conn.state = .synSent ∨ w₀.conn.state = .synRcvd))
    (m : ℕ) : ∀ {n : ℕ} {w : Work σ}, Waits w₀ w n →
      ∃ w', Run.AllSteps (timerStep cfg app expired)
        (fun w hsec => 1 ≤ hsec ∧ ¬(Tcp.tcpTimer cfg app expired w hsec).Enters .closed) w
          (List.replicate m 255) ∧
        Run.run (timerStep cfg app expired) w (List.replicate m 255) = some w' ∧
        Waits w₀ w' (n + m) := by
  induction m with
  | zero => exact fun hw => ⟨_, trivial, rfl, hw⟩
  | succ m ih =>
    intro n w hw
    rcases hw.tcpTimer cfg app expired hrep 255 with hc | hc | hc
    · rw [hw.givesUp_iff hexpired] at hc
      exact absurd hc.2 (by simp [hwb, hsyn])
    · have := w.conn.timer.toNat_lt
      omega
    · obtain ⟨w', hall, hr, hw'⟩ := ih hc.1
      refine ⟨w', (Run.allSteps_cons_of_some rfl).mpr ⟨⟨by decide, hc.1.running⟩, hall⟩, ?_, ?_⟩
      · exact Run.run_cons_eq_some.mpr ⟨_, rfl, hr⟩
      · rwa [Nat.add_right_comm] at hw'

/-- **TCP gives up after a bounded number of retransmissions** exactly if it counts them itself:
without write buffers, or while the handshake goes on. The calls are those before the one that
closes the connection. -/
theorem gives_up_iff (cfg : Config) (app : App σ) (expired : σ → ℕ) (w₀ : Work σ)
    (hrep : w₀.conn.state.Repeats) (hstopped : w₀.conn.stopped = false)
    (hunacked : 0 < w₀.conn.unacked) (hnrtx : w₀.conn.nrtx = 0) (hexpired : expired w₀.app = 0)
    (hlog : w₀.log = []) :
    (∀ hsecs w, Run.AllSteps (timerStep cfg app expired)
        (fun w hsec => 1 ≤ hsec ∧ ¬(tcpTimer cfg app expired w hsec).Enters .closed) w₀ hsecs →
      Run.run (timerStep cfg app expired) w₀ hsecs = some w →
      w.segments ≤ w₀.conn.state.maxRtx ∧ w.conn.nrtx.toNat = w.segments) ↔
    cfg.writeBuffers = false ∨ w₀.conn.state = .synSent ∨ w₀.conn.state = .synRcvd := by
  have h₀ : Waits w₀ w₀ 0 := ⟨rfl, hstopped, hunacked, rfl, hnrtx, by rw [Work.segments, hlog]; rfl,
    by rw [Work.Enters, hlog]; exact List.not_mem_nil⟩
  constructor
  · intro h
    by_contra hcond
    obtain ⟨hwb, hsyn⟩ := not_or.mp hcond
    obtain ⟨w', hall, hr, hw'⟩ := Waits.unbounded hrep hexpired hwb hsyn 9 h₀
    have hle := (h _ _ hall hr).1
    rw [hw'.segments, State.maxRtx, if_neg hsyn] at hle
    omega
  · intro hcond hsecs w hall hr
    have hmax : w₀.conn.state.maxRtx ≤ 8 := by
      rw [State.maxRtx]
      split <;> decide
    obtain ⟨n, hn, hw⟩ := Run.invariant_of_allSteps
      (P := fun w => ∃ n ≤ w₀.conn.state.maxRtx, Waits w₀ w n)
      (fun _ _ _ hP hc hs => by
        obtain ⟨_, hn, hw⟩ := hP
        exact Option.some.inj hs ▸ hw.bounded hrep hexpired hcond hn hc.2)
      hsecs ⟨0, Nat.zero_le _, h₀⟩ hall hr
    rw [hw.segments, hw.nrtx]
    exact ⟨hn, Nat.mod_eq_of_lt (by omega)⟩

/-- A connection in a state with one outstanding byte. -/
def Work.sample (state : State) : Work Unit where
  toCtx := Ctx.sample (Conn.sample state 1000 1) (Dev.sample {} 0 0) 8

instance (w : Work σ) (s : State) : Decidable (w.Enters s) :=
  inferInstanceAs (Decidable (_ ∈ w.log))

theorem gives_up_iff_plain :
    ∃ w, Run.run (timerStep Config.plain App.idle fun _ => 0) (Work.sample .lastAck) [255, 1, 255] =
      some w ∧ w.segments ≤ 8 :=
  ⟨_, rfl, ((gives_up_iff Config.plain App.idle (fun _ => 0) (Work.sample .lastAck)
    (by simp [State.Repeats, Work.sample, Ctx.sample, Conn.sample]) rfl (by decide) rfl rfl rfl).mpr
    (.inl rfl) [255, 1, 255] _ (by decide) rfl).1⟩

/-- **A connection that never gives up**: with write buffers, `conn->expired` is counted by a
callback that is not called in these states. -/
theorem never_gives_up :
    ∃ w, Run.run (timerStep { Config.plain with writeBuffers := true } App.idle fun _ => 0)
        (Work.sample .finWait1) (List.replicate 9 255) = some w ∧
      w.segments = 9 ∧ w.conn.state = .finWait1 :=
  ⟨_, rfl, by decide⟩

end GreenboneFeeder.Tcp
