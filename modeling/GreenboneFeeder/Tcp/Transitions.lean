import GreenboneFeeder.Tcp.Acks

/-!
# What a state change needs

Some changes of state presuppose that the peer has acknowledged our SYN or our FIN. They are made
when `TCP_ACKDATA` is set, and outside the established state that flag is set for every segment with
ACK, as long as something is outstanding: the acknowledgement number is not looked at
(`Tcp.Ctx.performs_iff`).
-/

namespace GreenboneFeeder.Tcp

variable {σ : Type} {cfg : Config} {app : App σ}

/-! ### The states that are entered -/

/-- The connection was put into the state. -/
def Work.Enters (w : Work σ) (s : State) : Prop := Event.entered s ∈ w.log

variable {w : Work σ} {s : State}

@[simp] theorem enters_setConn (f : Conn → Conn) : (w.setConn f).Enters s ↔ w.Enters s := .rfl
@[simp] theorem enters_setDev (f : Dev → Dev) : (w.setDev f).Enters s ↔ w.Enters s := .rfl
@[simp] theorem enters_drop : (drop w).Enters s ↔ w.Enters s := .rfl

@[simp] theorem enters_enter (t : State) : (w.enter t).Enters s ↔ w.Enters s ∨ s = t := by
  simp [Work.Enters]

theorem enters_record {e : Event} (he : ∀ t, e ≠ .entered t) :
    (w.record e).Enters s ↔ w.Enters s := by
  simp only [Work.Enters, Work.record_log, List.mem_append, List.mem_singleton]
  exact or_iff_left fun h => he s h.symm

@[simp] theorem enters_tcpSend (f : Ctl) (len : UInt16) :
    (tcpSend cfg w f len).Enters s ↔ w.Enters s :=
  enters_record fun _ => Event.noConfusion

@[simp] theorem enters_tcpAck (f : Ctl) : (tcpAck cfg w f).Enters s ↔ w.Enters s :=
  enters_record fun _ => Event.noConfusion

@[simp] theorem enters_tcpReset : (tcpReset cfg w).Enters s ↔ w.Enters s :=
  enters_record fun _ => Event.noConfusion

@[simp] theorem enters_reset : (reset cfg w).Enters s ↔ w.Enters s := by
  rw [reset]
  split
  · exact .rfl
  · exact enters_tcpReset

@[simp] theorem enters_takeMss : (takeMss cfg w).Enters s ↔ w.Enters s := .rfl

@[simp] theorem enters_passOver : (passOver w).Enters s ↔ w.Enters s := by
  rw [passOver]
  split <;> exact .rfl

/-- No callback moves the connection along: only `tcp_input` and `tcp_appsend` do. -/
@[simp] theorem enters_tcpCallback (f : Flags) :
    (tcpCallback cfg app w f).1.Enters s ↔ w.Enters s := by
  refine tcpCallback_rel (R := fun x y => y.1.Enters s ↔ x.1.Enters s) (fun _ => .rfl)
    (fun h h' => h'.trans h) ?_ ?_ (fun _ _ => .rfl) w f
  · intro cb w f
    rw [callEvent]
    split
    · exact enters_record fun _ => Event.noConfusion
    · exact .rfl
  · intro w f _
    rcases tcpDataEvent_cases with ⟨-, h⟩ | h | ⟨pool, h⟩ <;> rw [h]
    · exact .rfl
    · exact .rfl
    · exact enters_record fun _ => Event.noConfusion

@[simp] theorem enters_tcpRexmit (f : Flags) : (tcpRexmit cfg w f).Enters s ↔ w.Enters s := by
  rw [tcpRexmit]
  split
  · exact enters_tcpSend _ _
  split
  · exact enters_tcpSend _ _
  · exact .rfl

/-- The answer of the application closes or aborts the connection, or leaves its state. -/
theorem enters_tcpAppsend (f : Flags) :
    (tcpAppsend cfg w f).Enters s ↔
      w.Enters s ∨ f.abort = true ∧ s = .closed ∨
        f.abort = false ∧ f.close = true ∧ s = .finWait1 := by
  rw [tcpAppsend]
  split
  · simp_all
  split
  · simp_all
  split
  · simp_all
  · split <;> simp_all

@[simp] theorem enters_acceptFin : (acceptFin cfg app w).Enters s ↔ w.Enters s := by
  simp [acceptFin]

/-! ### Transitions that need an acknowledgement -/

/-- **The changes of state that presuppose an acknowledgement of our SYN or FIN.** -/
inductive Presupposes : State → State → Prop where
  | synRcvd : Presupposes .synRcvd .established
  | synSent : Presupposes .synSent .established
  | finWait1 : Presupposes .finWait1 .finWait2
  | finWait1Fin : Presupposes .finWait1 .timeWait
  | closing : Presupposes .closing .timeWait
  | lastAck : Presupposes .lastAck .closed

/-- The states that wait for the acknowledgement. -/
def State.Waits (s : State) : Prop := ∃ t, Presupposes s t

theorem State.Waits.ne_established (h : s.Waits) : s ≠ .established := by
  rintro rfl
  obtain ⟨t, ht⟩ := h
  cases ht

/-- A transition that presupposes an acknowledgement is among those made. -/
def Work.Advances (from_ : State) (w : Work σ) : Prop := ∃ t, Presupposes from_ t ∧ w.Enters t

/-- Outside the established state, ACK and something outstanding are all it takes for
`TCP_ACKDATA`. -/
theorem acknowledge_of_ne_established (cfg : Config) (h : w.conn.state ≠ .established) :
    ∃ w' : Work σ, acknowledge cfg w =
        some (w', { ackdata := decide (w.dev.tcp.flags.ack = true ∧ 0 < w.conn.unacked) }) ∧
      w'.conn.state = w.conn.state ∧ w'.dev = w.dev ∧ w'.log = w.log := by
  rw [acknowledge]
  split
  · rename_i hack
    rw [decide_eq_true hack]
    dsimp only
    split
    · exact ⟨_, rfl, by simp, rfl, rfl⟩
    · exact ⟨_, rfl, by simp, rfl, rfl⟩
  · rename_i hack
    exact ⟨w, by rw [decide_eq_false hack], rfl, rfl, rfl⟩

theorem advances_iff {st t : State} (h : ∀ t', Presupposes st t' ↔ t' = t) :
    w.Advances st ↔ w.Enters t := by
  simp [Work.Advances, h]

theorem advances_synRcvd : w.Advances .synRcvd ↔ w.Enters .established :=
  advances_iff fun _ => ⟨fun h => by cases h; rfl, by rintro rfl; exact .synRcvd⟩

theorem advances_synSent : w.Advances .synSent ↔ w.Enters .established :=
  advances_iff fun _ => ⟨fun h => by cases h; rfl, by rintro rfl; exact .synSent⟩

theorem advances_closing : w.Advances .closing ↔ w.Enters .timeWait :=
  advances_iff fun _ => ⟨fun h => by cases h; rfl, by rintro rfl; exact .closing⟩

theorem advances_lastAck : w.Advances .lastAck ↔ w.Enters .closed :=
  advances_iff fun _ => ⟨fun h => by cases h; rfl, by rintro rfl; exact .lastAck⟩

theorem advances_finWait1 :
    w.Advances .finWait1 ↔ w.Enters .finWait2 ∨ w.Enters .timeWait := by
  constructor
  · rintro ⟨t, ht, h⟩
    cases ht
    · exact .inl h
    · exact .inr h
  · rintro (h | h)
    · exact ⟨_, .finWait1, h⟩
    · exact ⟨_, .finWait1Fin, h⟩

section States

variable (hno : ∀ s, ¬w.Enters s) (f : Flags)

include hno

theorem enters_inputSynRcvd :
    (inputSynRcvd cfg app w f).Enters .established ↔ f.ackdata = true := by
  rw [inputSynRcvd]
  split
  · rename_i hf
    refine iff_of_true ((enters_tcpAppsend _).mpr (.inl ?_)) hf
    split <;> split <;> simp
  · rename_i hf
    refine iff_of_false ?_ hf
    split
    · simpa using hno _
    · simpa using hno _

theorem enters_inputSynSent :
    (inputSynSent cfg app w f).Enters .established ↔
      f.ackdata = true ∧ w.dev.tcp.flags = { syn := true, ack := true } := by
  rw [inputSynSent]
  split
  · rename_i hf
    refine iff_of_true ((enters_tcpAppsend _).mpr (.inl ?_)) hf
    split <;> simp
  · rename_i hf
    refine iff_of_false ?_ hf
    simpa using hno _

theorem enters_inputLastAck :
    (inputLastAck cfg app w f).Enters .closed ↔ f.ackdata = true := by
  rw [inputLastAck]
  split
  · rename_i hf
    exact iff_of_true (by simp) hf
  · rename_i hf
    exact iff_of_false (by simpa using hno _) hf

theorem enters_inputClosing :
    (inputClosing w f).Enters .timeWait ↔ f.ackdata = true := by
  rw [inputClosing]
  split
  · rename_i hf
    exact iff_of_true (by simp) hf
  · rename_i hf
    exact iff_of_false (by simpa using hno _) hf

theorem enters_inputFinWait1 :
    (inputFinWait1 cfg app w f).Enters .finWait2 ∨ (inputFinWait1 cfg app w f).Enters .timeWait ↔
      f.ackdata = true := by
  rw [inputFinWait1]
  split
  · split
    · rename_i hf
      exact iff_of_true (.inr (by simp)) hf
    · rename_i hf
      exact iff_of_false (by simpa using ⟨hno _, hno _⟩) hf
  split
  · rename_i hf
    exact iff_of_true (.inl (by simp)) hf
  · rename_i hf
    refine iff_of_false ?_ hf
    split <;> simpa using ⟨hno _, hno _⟩

/-- **The switch on the state advances the connection exactly on `TCP_ACKDATA`**, and in
`SYN_SENT` only for a SYNACK. -/
theorem advances_inputState (hw : w.conn.state.Waits) :
    (inputState cfg app w f).Advances w.conn.state ↔
      f.ackdata = true ∧
        (w.conn.state = .synSent → w.dev.tcp.flags = { syn := true, ack := true }) := by
  obtain ⟨t, ht⟩ := hw
  rw [inputState]
  -- one case for every transition, two of them from `FIN_WAIT_1`
  generalize w.conn.state = st at ht
  cases ht with
  | synRcvd => simp [advances_synRcvd, enters_inputSynRcvd hno]
  | synSent => simp [advances_synSent, enters_inputSynSent hno]
  | finWait1 | finWait1Fin => simp [advances_finWait1, enters_inputFinWait1 hno]
  | closing => simp [advances_closing, enters_inputClosing hno]
  | lastAck => simp [advances_lastAck, enters_inputLastAck hno]

end States

/-! ### The segment -/

/-- **The segment passes** every check of `tcp_input`: the checksum, the order, ACK while something
is outstanding, and in `SYN_SENT` that it is a SYNACK. -/
structure Ctx.Passes (cfg : Config) (c : Ctx σ) : Prop where
  chksum : c.dev.chksum = 0xffff
  inOrder : outOfOrder (arrive cfg { toCtx := c }) = false
  ack : c.dev.tcp.flags.ack = true
  outstanding : 0 < c.conn.unacked
  synack : c.conn.state = .synSent → c.dev.tcp.flags = { syn := true, ack := true }

/-- `tcp_input` makes a transition that presupposes an acknowledgement. -/
def Ctx.Performs (cfg : Config) (app : App σ) (c : Ctx σ) : Prop :=
  (receive cfg app c).Advances c.conn.state

/-- **The transition is made exactly if the segment passes**: its acknowledgement number is
not among the things that are checked. -/
theorem Ctx.performs_iff {c : Ctx σ} (hw : c.conn.state.Waits)
    (hrst : c.dev.tcp.flags.rst = false) : c.Performs cfg app ↔ c.Passes cfg := by
  have hno : ∀ {w : Work σ}, w.log = [] → ∀ s, ¬w.Enters s := by
    intro w hlog s
    rw [Work.Enters, hlog]
    exact List.not_mem_nil
  have hnone : ∀ {w : Work σ}, (∀ s, ¬w.Enters s) → ∀ st, ¬w.Advances st := by
    rintro w hw st ⟨t, -, ht⟩
    exact hw t ht
  rw [Performs, receive]
  by_cases hchk : c.dev.chksum = 0xffff
  swap
  · -- a damaged segment is dropped
    refine iff_of_false (hnone (fun s => ?_) _) fun h => hchk h.chksum
    rw [tcpInput]
    simpa [hchk] using hno rfl s
  by_cases hsyn : c.conn.state = .synRcvd ∨ c.dev.tcp.flags ≠ { syn := true }
  swap
  · -- a stray SYN is answered by a reset
    obtain ⟨hst, hflags⟩ := not_or.mp hsyn
    have hflags := not_not.mp hflags
    refine iff_of_false (hnone (fun s => ?_) _) fun h => ?_
    · rw [tcpInput]
      simpa [hchk, hst, hflags] using hno rfl s
    · have hack := h.ack
      rw [hflags] at hack
      exact Bool.false_ne_true hack
  rw [tcpInput_active _ hchk hsyn hrst]
  by_cases hord : outOfOrder (arrive cfg { toCtx := c }) = true
  · rw [if_pos hord]
    refine iff_of_false (hnone (fun s => ?_) _) fun h => ?_
    · simpa using hno rfl s
    · exact Bool.false_ne_true (h.inOrder.symm.trans hord)
  rw [if_neg hord]
  have hst : (arrive cfg { toCtx := c }).conn.state = c.conn.state := rfl
  obtain ⟨w', hack, hst', hdev, hlog⟩ :=
    acknowledge_of_ne_established cfg (w := arrive cfg { toCtx := c })
      (hst ▸ hw.ne_established)
  rw [hack]
  rw [hst] at hst'
  rw [← hst', advances_inputState (hno (hlog.trans rfl)) _ (hst' ▸ hw), hst', hdev,
    decide_eq_true_iff]
  constructor
  · rintro ⟨⟨h1, h2⟩, h3⟩
    exact ⟨hchk, Bool.not_eq_true _ ▸ hord, h1, h2, h3⟩
  · intro h
    exact ⟨⟨h.ack, h.outstanding⟩, h.synack⟩

/-- The segment acknowledges our outstanding SYN or FIN. -/
def Ctx.Genuine (c : Ctx σ) : Prop :=
  c.dev.tcp.flags.ack = true ∧
    c.dev.tcp.ackno.getsequence = c.conn.sndseq.getsequence + 1

/-- **A transition is made only on a genuine acknowledgement exactly if every segment that passes
the other checks is genuine**: a connection that waits for it advances on any acknowledgement
number. -/
theorem performs_genuine_iff {c : Ctx σ} (hw : c.conn.state.Waits)
    (hrst : c.dev.tcp.flags.rst = false) :
    (c.Performs cfg app → c.Genuine) ↔
      ¬c.Passes cfg ∨ c.dev.tcp.ackno.getsequence = c.conn.sndseq.getsequence + 1 := by
  rw [Ctx.performs_iff hw hrst]
  constructor
  · intro h
    by_cases hp : c.Passes cfg
    · exact .inr (h hp).2
    · exact .inl hp
  · rintro (h | h) hp
    · exact absurd hp h
    · exact ⟨hp.ack, h⟩

/-- A connection that has sent its SYN or FIN with number 1000 gets an acknowledgement, or a
SYNACK when it waits for one. -/
def Ctx.answered (st : State) (ackno : UInt32) : Ctx Unit :=
  Ctx.sample (Conn.sample st 1000 1)
    (Dev.sample { ack := true, syn := decide (st = .synSent) } ackno 0) 8

theorem passes_answered {st : State} (h : st.Waits) (ackno : UInt32) :
    (Ctx.answered st ackno).Passes Config.plain where
  chksum := rfl
  inOrder := by
    rw [← Bool.not_eq_true, outOfOrder, decide_eq_true_iff]
    rintro ⟨-, -, hseq⟩
    exact hseq rfl
  ack := rfl
  outstanding := by show (0 : UInt32) < 1; decide
  synack := by
    obtain ⟨t, ht⟩ := h
    cases ht <;> intro h <;> first | rfl | exact State.noConfusion h

theorem performs_genuine_iff_handshake :
    (Ctx.answered .synRcvd 1001).Performs Config.plain App.idle ∧
      (Ctx.answered .synRcvd 1001).Genuine :=
  have hw : State.Waits .synRcvd := ⟨_, .synRcvd⟩
  have hp : (Ctx.answered .synRcvd 1001).Performs Config.plain App.idle :=
    (Ctx.performs_iff hw rfl).mpr (passes_answered hw 1001)
  ⟨hp, (performs_genuine_iff hw rfl).mpr (.inr rfl) hp⟩

/-- **Any number will do**: the handshake is completed, and a connection closed, for an
acknowledgement number far from the connection's own. -/
theorem performs_not_genuine :
    ((Ctx.answered .synRcvd 0x80000000).Performs Config.plain App.idle ∧
      ¬(Ctx.answered .synRcvd 0x80000000).Genuine) ∧
    (Ctx.answered .lastAck 0x80000000).Performs Config.plain App.idle ∧
      ¬(Ctx.answered .lastAck 0x80000000).Genuine := by
  have hno : ∀ st, ¬(Ctx.answered st 0x80000000).Genuine := by
    intro st hg
    have hnum : (Seqno.setsequence 0x80000000).getsequence
        = (Seqno.setsequence 1000).getsequence + 1 := hg.2
    exact absurd hnum (by decide)
  have hyes : ∀ st, st.Waits → (Ctx.answered st 0x80000000).Performs Config.plain App.idle :=
    fun st hw => (Ctx.performs_iff hw rfl).mpr (passes_answered hw _)
  exact ⟨⟨hyes _ ⟨_, .synRcvd⟩, hno _⟩, hyes _ ⟨_, .lastAck⟩, hno _⟩

end GreenboneFeeder.Tcp
