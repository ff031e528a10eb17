import GreenboneFeeder.Mqueue.Structs

/-!
# Message queues are priority queues

In every interleaving, the history of each queue is that of a priority queue: a receive takes the
first message of the highest priority, as it was sent, and returns it (`Mqueue.priority_queues`).
The counter `nmsgs` is an `int16_t` that an interrupt handler increments whatever `maxmsgs` is, so
it is the length of the list only up to 32767 (`Mqueue.nmsgs_wraps`).
-/

namespace GreenboneFeeder.Mqueue

open List Option Sys Run Store

open PrioQueue (outstanding received sent Legal)

variable {maxBytes : ℕ} {τ κ : Type} {s : Sys 4 Unit Unit}

/-- The structures in the hands of the running task. -/
def Pass.hands : Pass maxBytes κ → List ℕ
  | .dosend a _ => [a]
  | .doreceive _ a => [a]
  | _ => []

namespace Sys

variable [DecidableEq κ] {s s' : Sys maxBytes τ κ} {q : κ}

/-- The structures in someone's hands. -/
def hands (s : Sys maxBytes τ κ) : List ℕ :=
  match s.running with
  | none => []
  | some (_, p) => p.hands

/-- What the running task has taken from a queue and not yet returned. -/
def taken (s : Sys maxBytes τ κ) (q : κ) : List Entry :=
  match s.running with
  | some (_, .doreceive q' a) => if q' = q then [(s.store.msgs a).entry] else []
  | _ => []

theorem taken_eq_nil (h : s.hands = []) (q : κ) : s.taken q = [] := by
  unfold hands at h
  unfold taken
  split
  · rename_i heq
    rw [heq] at h
    cases h
  · rfl

/-- **The structures and the queues are in order**, and what was taken from a queue is what the
receives have returned, up to the message in the hands of a receiver. -/
structure Queued (s : Sys maxBytes τ κ) : Prop where
  store : s.store.Ok s.hands
  received : ∀ q, received (s.store.ops q) = s.store.returned q ++ s.taken q

namespace Queued

variable (h : s.Queued)

include h

theorem congr (hstore : s'.store = s.store) (hrun : s'.running = s.running) :
    s'.Queued := by
  have hhands : s'.hands = s.hands := by rw [hands, hands, hrun]
  have htaken : s'.taken = s.taken := by
    funext q
    rw [taken, taken, hrun, hstore]
  refine ⟨?_, fun q => ?_⟩
  · rw [hhands, hstore]
    exact h.store
  · rw [htaken, hstore]
    exact h.received q

theorem quiet (hs : s.hands = []) (hs' : s'.hands = [])
    (hstore : s'.store.Ok []) (hops : ∀ q, PrioQueue.received (s'.store.ops q) =
      PrioQueue.received (s.store.ops q))
    (hreturned : s'.store.returned = s.store.returned) : s'.Queued := by
  refine ⟨hs'.symm ▸ hstore, fun q => ?_⟩
  rw [hops, h.received, taken_eq_nil hs, taken_eq_nil hs', hreturned]

/-- A step that does not touch the messages, between two points at which nothing is held. -/
theorem control (hs : s.hands = []) (hs' : s'.hands = [])
    (hstore : s'.store = s.store) : s'.Queued := by
  refine h.quiet hs hs' ?_ (fun q => by rw [hstore]) (by rw [hstore])
  rw [hstore, ← hs]
  exact h.store

theorem insert {a : ℕ} {σ : Store maxBytes τ κ} (hok : σ.Ok (a :: s.hands))
    (hf : s.store.Frame σ) (o : Outgoing maxBytes κ) :
    Queued { s with store := σ.insert a o } := by
  refine ⟨hok.insert o, fun q => ?_⟩
  have hops : PrioQueue.received ((σ.insert a o).ops q) =
      PrioQueue.received (s.store.ops q) := by
    rcases eq_or_ne q o.msgq with rfl | hq
    · rw [ops_insert, PrioQueue.received_append, hf.ops]
      exact append_nil _
    · rw [ops_insert_of_ne hq, hf.ops]
  -- the structure that is held is not the one that is filled
  have htaken : taken { s with store := σ.insert a o } q = s.taken q := by
    unfold taken
    dsimp only
    split
    · rename_i t q' b hrun
      have hb : b ∈ s.hands := by simp [hands, hrun, Pass.hands]
      have hne : b ≠ a := by
        rintro rfl
        exact (nodup_cons.mp (hok.owned.apart.nodup .hand)).1 hb
      rw [msgs_insert_of_ne o hne, hf.entry b ((h.store.owned.mem_structs b).mpr ⟨.hand, hb⟩)]
    · rfl
  rw [hops, htaken, h.received q]
  exact congrArg (· ++ s.taken q) (congrFun hf.returned.symm q)

theorem notify (q : κ) : (s.notify q).Queued := by
  unfold Sys.notify
  split
  · exact h
  · refine ⟨h.store.setNotification none, fun q' => ?_⟩
    exact h.received q'

theorem wakeReceiver [DecidableEq τ] (hs : s.wakeReceiver q = some s') :
    s'.Queued := by
  unfold Sys.wakeReceiver at hs
  split at hs
  · obtain ⟨w, -, rfl⟩ := map_eq_some_iff.mp hs
    exact h.congr rfl rfl
  · exact some.inj hs ▸ h

omit h

variable [DecidableEq τ] {t : τ}

section

variable (h : s.Queued)

include h

variable (hs : s.hands = [])

include hs

theorem waitsend (o : Outgoing maxBytes κ) :
    (s.waitsend t o).Queued := by
  unfold Sys.waitsend
  split
  · exact h.control hs rfl rfl
  · exact h.control hs rfl rfl

theorem mqSend (mqdes : Option (Mqdes κ))
    (msg : Option (List UInt8)) (prio : ℤ) : (s.mqSend t mqdes msg prio).Queued := by
  unfold Sys.mqSend
  split
  · exact h.control hs rfl rfl
  split
  · exact h.control hs rfl rfl
  split
  · exact h.control hs rfl rfl
  · exact h.waitsend hs _

/-- **A receiver takes a message**, or blocks, or gives up. -/
theorem waitreceive (nonblock : Bool) :
    (s.waitreceive t q nonblock).Queued := by
  unfold Sys.waitreceive
  split
  · rename_i a σ hrem
    have hok := h.store
    rw [hs] at hok
    refine ⟨hok.remfirst hrem, fun q' => ?_⟩
    have hbefore := h.received q'
    rw [taken_eq_nil hs, append_nil] at hbefore
    obtain ⟨l, -, rfl⟩ := exists_of_remfirst hrem
    rcases eq_or_ne q' q with rfl | hq
    · simp only [enter, taken, Function.update_self, PrioQueue.received_append, hbefore, if_true]
      rfl
    · simp only [enter, taken, Function.update_of_ne hq, hbefore, if_neg hq.symm, append_nil]
  · split
    · exact h.control hs rfl rfl
    · exact h.control hs rfl rfl

theorem mqReceive (mqdes : Option (Mqdes κ)) (buffer : Bool)
    (msglen : ℕ) : (s.mqReceive t mqdes buffer msglen).Queued := by
  unfold Sys.mqReceive
  split
  · exact h.control hs rfl rfl
  · exact h.waitreceive hs _

theorem resume {nonblock : Bool} (hr : s.resume t nonblock = some s') : s'.Queued := by
  unfold Sys.resume at hr
  split at hr
  · cases hr
  · split at hr
    · cases hr
      exact h.waitsend hs _
    · cases hr
      exact h.control hs rfl rfl
  · split at hr
    · cases hr
      exact h.waitreceive hs _
    · cases hr
      exact h.control hs rfl rfl
  · cases hr
    exact h.control hs rfl rfl

omit hs

theorem mallocBlocks (hm : s.mallocBlocks = some s') : s'.Queued := by
  unfold Sys.mallocBlocks at hm
  split at hm
  · rename_i t o hrun hfree
    cases hm
    exact h.control (by rw [hands, hrun]; rfl) rfl rfl
  · cases hm

omit [DecidableEq τ] in
/-- **A structure is allocated** for the message of a task that holds none. -/
theorem allocated (hs : s.hands = []) {a : ℕ} {σ : Store maxBytes τ κ} {o : Outgoing maxBytes κ}
    (halloc : s.store.Ok [] → σ.Ok [a] ∧ s.store.Frame σ) :
    ({ s with store := σ }.goto t (.dosend a o)).Queued := by
  obtain ⟨hok, hf⟩ := halloc (hs ▸ h.store)
  refine ⟨hok, fun q => ?_⟩
  have hbefore := h.received q
  rw [taken_eq_nil hs] at hbefore
  exact (congrArg PrioQueue.received (congrFun hf.ops q)).trans
    (hbefore.trans (congrArg (· ++ []) (congrFun hf.returned.symm q)))

/-- **Every step of a call** keeps the messages in order. -/
theorem next {malloc : Option ℕ} (hn : s.next malloc = some s') : s'.Queued := by
  unfold Sys.next at hn
  split at hn
  · cases hn
  · rename_i t o hrun
    obtain ⟨⟨a, σ⟩, halloc, rfl⟩ := map_eq_some_iff.mp hn
    exact h.allocated (by rw [hands, hrun]; rfl) fun hok => hok.mqMsgalloc halloc
  · rename_i t o hrun
    obtain ⟨⟨a, σ⟩, halloc, rfl⟩ := map_eq_some_iff.mp hn
    exact h.allocated (by rw [hands, hrun]; rfl) fun hok => hok.malloced halloc
  · -- the message is inserted
    rename_i t a o hrun
    have hs : s.hands = [a] := by rw [hands, hrun]; rfl
    cases hn
    have hok := h.store
    rw [hs] at hok
    refine ⟨hok.insert o, fun q => ?_⟩
    have hbefore := h.received q
    have hnone : s.taken q = [] := by rw [taken, hrun]
    rw [hnone] at hbefore
    refine Eq.trans ?_ hbefore
    rcases eq_or_ne q o.msgq with rfl | hq
    · change PrioQueue.received ((s.store.insert a o).ops o.msgq) = _
      rw [ops_insert, PrioQueue.received_append]
      exact append_nil _
    · exact congrArg PrioQueue.received (ops_insert_of_ne hq)
  · rename_i t q hrun
    cases hn
    refine (h.notify q).control ?_ rfl rfl
    rw [hands, running_notify, hrun]
    rfl
  · rename_i t q hrun
    obtain ⟨s₁, hwake, rfl⟩ := map_eq_some_iff.mp hn
    refine (h.wakeReceiver hwake).control ?_ rfl rfl
    rw [hands, running_wakeReceiver hwake, hrun]
    rfl
  · -- the message is copied, and its structure freed
    rename_i t q a hrun
    have hs : s.hands = [a] := by rw [hands, hrun]; rfl
    cases hn
    have hok := h.store
    rw [hs] at hok
    obtain ⟨hok', -, hops, hreturned⟩ := hok.deliver
    refine ⟨hok', fun q' => ?_⟩
    have hbefore := h.received q'
    change PrioQueue.received ((s.store.deliver q a).ops q') =
      (s.store.deliver q a).returned q' ++ []
    rw [hops, hreturned, append_nil, hbefore, taken, hrun]
    rcases eq_or_ne q' q with rfl | hq
    · simp only [Function.update_self, if_true]
    · simp only [Function.update_of_ne hq, if_neg hq.symm, append_nil]
  · rename_i t q e hrun
    have hs : s.hands = [] := by rw [hands, hrun]; rfl
    split at hn
    · cases hn
      exact h.control hs rfl rfl
    · cases hn
      exact h.control hs rfl rfl
  · rename_i t q e hrun
    have hs : s.hands = [] := by rw [hands, hrun]; rfl
    obtain ⟨w, -, rfl⟩ := map_eq_some_iff.mp hn
    exact h.control hs rfl rfl

/-- **A message sent by an interrupt handler**, whatever the running task does. -/
theorem irqSend {mqdes : Option (Mqdes κ)} {msg : Option (List UInt8)} {prio : ℤ}
    (hs : s.irqSend mqdes msg prio = some s') : s'.Queued := by
  unfold Sys.irqSend at hs
  split at hs
  · exact some.inj hs ▸ h
  split at hs
  · exact some.inj hs ▸ h
  · rename_i o _ _ a σ halloc
    obtain ⟨hok, hf⟩ := h.store.mqMsgallocIrq halloc
    exact ((h.insert hok hf o).notify o.msgq).wakeReceiver hs

/-- **Every event keeps the messages in order.** -/
theorem step (e : Event τ κ) (hs : s.step e = some s') : s'.Queued := by
  have hidle : s.running = none → s.hands = [] := fun hrun => by rw [hands, hrun]
  cases e with
  | send t mqdes msg prio =>
    simp only [Sys.step] at hs
    split at hs
    · rename_i hrun _
      exact some.inj hs ▸ h.mqSend (hidle hrun) mqdes msg prio
    · cases hs
  | receive t mqdes buffer msglen =>
    simp only [Sys.step] at hs
    split at hs
    · rename_i hrun _
      exact some.inj hs ▸ h.mqReceive (hidle hrun) mqdes buffer msglen
    · cases hs
  | resume t nonblock =>
    simp only [Sys.step] at hs
    split at hs
    · rename_i hrun _
      exact h.resume (hidle hrun) hs
    · cases hs
  | next malloc => exact h.next hs
  | mallocBlocks => exact h.mallocBlocks hs
  | irqSend mqdes msg prio => exact h.irqSend hs
  | signal t | timeout c t =>
    obtain ⟨w, -, rfl⟩ := map_eq_some_iff.mp hs
    exact h.congr rfl rfl
  | mqNotify q n =>
    simp only [Sys.step] at hs
    split at hs
    · cases hs
      exact ⟨h.store.setNotification n, h.received⟩
    · cases hs
  | delete t =>
    simp only [Sys.step] at hs
    split at hs
    · obtain ⟨w, -, rfl⟩ := map_eq_some_iff.mp hs
      exact h.congr rfl rfl
    · cases hs

end

end Queued

end Sys

/-! ### Runs -/

theorem mqMsgqalloc_empty {attr : Option MqAttr} {m : Msgq maxBytes τ}
    (h : mqMsgqalloc maxBytes τ attr = some m) : m.msglist = [] ∧ m.nmsgs = 0 := by
  cases attr with
  | none =>
    cases h
    exact ⟨rfl, rfl⟩
  | some attr =>
    rw [mqMsgqalloc] at h
    split at h
    · cases h
      exact ⟨rfl, rfl⟩
    · cases h

section Runs

variable {queues : κ → Msgq maxBytes τ}

theorem Store.owned_init (hqueues : ∀ q, (queues q).msglist = []) {mem : ℕ → Msg}
    {prealloc : ℕ} {schedPriority : τ → ℕ} :
    (init mem prealloc queues schedPriority).store.Owned [] := by
  have hfree : ∀ {a}, a ∈ range prealloc → a < prealloc := mem_range.mp
  have hirq : ∀ {a}, a ∈ range' prealloc numInterruptMsgs ↔
      prealloc ≤ a ∧ a < prealloc + numInterruptMsgs := mem_range'_1
  refine ⟨⟨?_, ?_⟩, fun a => ?_, nodup_range, fun a ha => if_pos (hfree ha), fun a ha => ?_⟩
  · rintro (_ | _ | q | _)
    · exact nodup_range
    · exact nodup_range'
    · exact hqueues q ▸ nodup_nil
    · exact nodup_nil
  · -- the two blocks do not overlap, and there is nothing elsewhere
    rintro (_ | _ | q | _) (_ | _ | q' | _) a ha ha'
    · rfl
    · exact absurd (hfree ha) (Nat.not_lt.mpr (hirq.mp ha').1)
    · exact absurd (hqueues q' ▸ ha' : a ∈ []) not_mem_nil
    · exact absurd ha' not_mem_nil
    · exact absurd (hfree ha') (Nat.not_lt.mpr (hirq.mp ha).1)
    · rfl
    · exact absurd (hqueues q' ▸ ha' : a ∈ []) not_mem_nil
    · exact absurd ha' not_mem_nil
    all_goals first
      | exact absurd (hqueues q ▸ ha : a ∈ []) not_mem_nil
      | exact absurd ha not_mem_nil
  · constructor
    · intro ha
      have ha := mem_range.mp ha
      rcases Nat.lt_or_ge a prealloc with hlt | hge
      · exact ⟨.free, mem_range.mpr hlt⟩
      · exact ⟨.freeirq, hirq.mpr ⟨hge, ha⟩⟩
    · rintro ⟨_ | _ | q | _, ha⟩
      · exact mem_range.mpr (Nat.lt_add_right _ (hfree ha))
      · exact mem_range.mpr (hirq.mp ha).2
      · exact absurd (hqueues q ▸ ha : a ∈ []) not_mem_nil
      · exact absurd ha not_mem_nil
  · exact if_neg (Nat.not_lt.mpr (hirq.mp ha).1)

variable [DecidableEq κ]

theorem Sys.queued_init (hqueues : ∀ q, ∃ attr, mqMsgqalloc maxBytes τ attr = some (queues q))
    (mem : ℕ → Msg) (prealloc : ℕ) (schedPriority : τ → ℕ) :
    (init mem prealloc queues schedPriority).Queued := by
  have hempty : ∀ q, (queues q).msglist = [] ∧ (queues q).nmsgs = 0 := by
    intro q
    obtain ⟨attr, h⟩ := hqueues q
    exact mqMsgqalloc_empty h
  refine ⟨⟨owned_init (fun q => (hempty q).1), ?_, ?_, ?_⟩, ?_⟩
  · intro q
    simp [init, (hempty q).1]
  · intro q
    exact PrioQueue.legal_nil
  · intro q
    simp [init, (hempty q).1, (hempty q).2, int16]
  · intro q
    rfl

/-- **Message queues are priority queues.** After any interleaving, every receive took, of the
messages sent and not yet received, the first one of the highest priority; what was sent is what was
received and what the list holds, sorted; and what was received, priority, length and bytes, is what
the receives have returned, up to the one in the hands of a receiver. The counter `nmsgs` is the
length of the list exactly if the list holds at most 32767 messages. -/
theorem priority_queues [DecidableEq τ]
    (hqueues : ∀ q, ∃ attr, mqMsgqalloc maxBytes τ attr = some (queues q)) (mem : ℕ → Msg)
    (prealloc : ℕ) (schedPriority : τ → ℕ) (es : List (Event τ κ)) {s : Sys maxBytes τ κ}
    (hr : run step (init mem prealloc queues schedPriority) es = some s) (q : κ) :
    ((∀ pre e post, s.store.ops q = pre ++ .receive e :: post →
        PrioQueue.First Entry.prio (outstanding pre) e) ∧
      (sent (s.store.ops q)).Perm (received (s.store.ops q) ++ outstanding (s.store.ops q)) ∧
      (s.store.queues q).msglist.map (fun a => (s.store.msgs a).entry) =
        PrioList.insertAll Entry.prio (outstanding (s.store.ops q)) [] ∧
      received (s.store.ops q) = s.store.returned q ++ s.taken q) ∧
    ((s.store.queues q).nmsgs = (s.store.queues q).msglist.length ↔
      (s.store.queues q).msglist.length ≤ 32767) := by
  have h : s.Queued := invariant (fun _ e _ h hs => Sys.Queued.step h e hs) es
    (queued_init hqueues mem prealloc schedPriority) hr
  have hlegal := h.store.ordered.legal q
  refine ⟨⟨hlegal, hlegal.sent_perm, h.store.ordered.contents q, h.received q⟩, ?_⟩
  have hn := h.store.ordered.nmsgs q
  constructor
  · rw [int16] at hn
    omega
  · rw [hn, int16]
    omega

end Runs

/-- A queue of messages of at most four bytes. -/
def emptyQueue (τ : Type) (maxmsgs : ℤ) : Msgq 4 τ :=
  { maxmsgs := maxmsgs, maxmsgsize := 4, size_le := by decide, size_lt := by decide }

/-- The descriptor of a queue opened for reading and writing. -/
def readWrite : Mqdes Unit := ⟨(), true, true, false⟩

/-- A receiver waits; a message of priority 1 wakes it, and an interrupt handler sends one of
priority 5 before it runs. The receiver gets that one, and then the other. -/
def twoMessages : List (Event Bool Unit) :=
  [.receive true (some readWrite) true 4,
    .send false (some readWrite) (some [10]) 1, .next none, .next none,
    .irqSend (some readWrite) (some [20, 21]) 5, .next none, .next none,
    .resume true false, .next none, .next none,
    .receive true (some readWrite) true 4, .next none, .next none]

theorem priority_queues_twoMessages :
    ∃ s, run step (init (fun _ => ⟨.dyn, 0, 0, []⟩) 1 (fun _ => emptyQueue Bool 3)
        fun _ => 100) twoMessages = some s ∧
      s.store.returned () = [⟨5, 2, [20, 21]⟩, ⟨1, 1, [10]⟩] ∧
      received (s.store.ops ()) = s.store.returned () ++ s.taken () ∧
      (s.store.queues ()).nmsgs = (s.store.queues ()).msglist.length := by
  refine exists_eq_some (P := fun s => s.store.returned () = [⟨5, 2, [20, 21]⟩, ⟨1, 1, [10]⟩] ∧
    (s.store.queues ()).msglist.length ≤ 32767) (by decide) fun s hs ⟨hret, hlen⟩ => ?_
  obtain ⟨⟨-, -, -, hreceived⟩, hn⟩ := priority_queues (fun _ => ⟨some ⟨3, 4⟩, rfl⟩) _ 1 _ _ hs ()
  exact ⟨hret, hreceived, hn.mpr hlen⟩

/-! ### A queue that is too long -/

/-- A task sends an empty message, in a structure from the heap. -/
def sendOne (n : ℕ) : List (Event Unit Unit) :=
  [.send () (some readWrite) (some []) 0, .next (some (n + numInterruptMsgs)), .next none,
    .next none, .next none]

/-- A task sends messages one after another. -/
def sends : ℕ → List (Event Unit Unit)
  | 0 => []
  | n + 1 => sends n ++ sendOne n

/-- The queue holds `n` messages, and no one waits. -/
structure Filled (n : ℕ) (s : Sys 4 Unit Unit) : Prop where
  running : s.running = none
  call : s.call () = .idle
  msgfree : s.store.msgfree = []
  msgfreeirq : s.store.msgfreeirq ≠ []
  structs : ∀ a ∈ s.store.structs, a < n + numInterruptMsgs
  maxmsgs : (s.store.queues ()).maxmsgs = 32767
  nmsgs : (s.store.queues ()).nmsgs = n
  length : (s.store.queues ()).msglist.length = n
  nwait : s.waits.nwait .notempty () = 0
  notification : (s.store.queues ()).notification = none

theorem filled_init (mem : ℕ → Msg) :
    Filled 0 (init mem 0 (fun _ => emptyQueue Unit 32767) fun _ => 100) where
  running := rfl
  call := rfl
  msgfree := rfl
  msgfreeirq := by rintro ⟨⟩
  structs a ha := mem_range.mp ha
  maxmsgs := rfl
  nmsgs := rfl
  length := rfl
  nwait := rfl
  notification := rfl

theorem exists_mqVerifysend (σ : Store 4 Unit Unit) :
    ∃ o, σ.mqVerifysend (some readWrite) (some []) 0 = .ok o := by
  simp [mqVerifysend, readWrite, mqPrioMax]

theorem Sys.notify_of_none (h : (s.store.queues ()).notification = none) : s.notify () = s := by
  rw [notify, h]

theorem Sys.wakeReceiver_of_none (h : s.waits.nwait .notempty () = 0) :
    s.wakeReceiver () = some s := by
  rw [wakeReceiver, h, if_neg (by decide)]

theorem Filled.insert {n a : ℕ} {σ : Store 4 Unit Unit} (h : Filled n s)
    (hqueues : σ.queues = s.store.queues) (o : Outgoing 4 Unit) :
    ((σ.insert a o).queues ()).maxmsgs = 32767 ∧
      ((σ.insert a o).queues ()).nmsgs = int16 (n + 1) ∧
      ((σ.insert a o).queues ()).msglist.length = n + 1 ∧
      ((σ.insert a o).queues ()).notification = none := by
  have hlen : ((σ.insert a o).queues ()).msglist.length = (σ.queues ()).msglist.length + 1 :=
    perm_insert.length_eq
  have hnmsgs : ((σ.insert a o).queues ()).nmsgs = int16 ((σ.queues ()).nmsgs + 1) :=
    nmsgs_insert o
  rw [hqueues] at hlen hnmsgs
  refine ⟨?_, ?_, ?_, ?_⟩
  · simpa [Store.insert, hqueues] using h.maxmsgs
  · rw [hnmsgs, h.nmsgs]
  · rw [hlen, h.length]
  · simpa [Store.insert, hqueues] using h.notification

theorem Filled.sendOne {n : ℕ} (h : Filled n s) (hn : n < 32767) :
    ∃ s', run step s (sendOne n) = some s' ∧ Filled (n + 1) s' := by
  obtain ⟨o, ho⟩ := exists_mqVerifysend s.store
  have hfree : n + numInterruptMsgs ∉ s.store.structs :=
    fun hc => absurd (h.structs _ hc) (Nat.lt_irrefl _)
  have hroom : (s.store.queues o.msgq).nmsgs < (s.store.queues o.msgq).maxmsgs := by
    rw [h.nmsgs, h.maxmsgs]
    omega
  obtain ⟨σ, halloc, hqueues, hstructs, hmsgfree, hmsgfreeirq⟩ :
      ∃ σ, s.store.mqMsgalloc (some (n + numInterruptMsgs)) = some (n + numInterruptMsgs, σ) ∧
        σ.queues = s.store.queues ∧ σ.structs = (n + numInterruptMsgs) :: s.store.structs ∧
        σ.msgfree = [] ∧ σ.msgfreeirq = s.store.msgfreeirq := by
    unfold mqMsgalloc malloced
    rw [h.msgfree]
    dsimp only
    rw [if_neg hfree]
    exact ⟨_, rfl, rfl, rfl, rfl, rfl⟩
  obtain ⟨hmax, hnmsgs, hlen, hnone⟩ := h.insert hqueues o
  have hcall : Function.update s.call () .idle = s.call := by
    rw [← h.call, Function.update_eq_self]
  -- the five steps of the call
  have h₁ : s.step (.send () (some readWrite) (some []) 0) = some (s.goto () (.alloc o)) := by
    simp only [step, h.running, h.call, mqSend, ho, if_pos hroom, enter, goto, hcall]
  have h₂ : (s.goto () (.alloc o)).step (.next (some (n + numInterruptMsgs))) =
      some ({ s with store := σ }.goto () (.dosend (n + numInterruptMsgs) o)) := by
    simp only [step, Sys.next, goto, halloc, map_some]
  have h₃ : ({ s with store := σ }.goto () (.dosend (n + numInterruptMsgs) o)).step (.next none) =
      some ({ s with store := σ.insert (n + numInterruptMsgs) o }.goto () (.notify ())) := rfl
  have h₄ : ({ s with store := σ.insert (n + numInterruptMsgs) o }.goto () (.notify ())).step
      (.next none) =
      some ({ s with store := σ.insert (n + numInterruptMsgs) o }.goto () (.wakeReceiver ())) := by
    have hnotify := notify_of_none
      (s := { s with store := σ.insert (n + numInterruptMsgs) o }.goto () (.notify ())) hnone
    simp only [step, Sys.next, goto] at hnotify ⊢
    rw [hnotify]
  have h₅ : ({ s with store := σ.insert (n + numInterruptMsgs) o }.goto () (.wakeReceiver ())).step
      (.next none) =
      some ({ s with store := σ.insert (n + numInterruptMsgs) o }.returns () .sent) := by
    have hwake := wakeReceiver_of_none
      (s := { s with store := σ.insert (n + numInterruptMsgs) o }.goto () (.wakeReceiver ()))
      h.nwait
    simp only [step, Sys.next, goto] at hwake ⊢
    rw [hwake]
    rfl
  refine ⟨{ s with store := σ.insert (n + numInterruptMsgs) o }.returns () .sent, ?_,
    ⟨rfl, rfl, hmsgfree, ?_, ?_, hmax, ?_, hlen, h.nwait, hnone⟩⟩
  · rw [Mqueue.sendOne, run_cons_eq_some]
    refine ⟨_, h₁, run_cons_eq_some.mpr ⟨_, h₂, run_cons_eq_some.mpr ⟨_, h₃, ?_⟩⟩⟩
    exact run_cons_eq_some.mpr ⟨_, h₄, run_cons_eq_some.mpr ⟨_, h₅, rfl⟩⟩
  · exact hmsgfreeirq ▸ h.msgfreeirq
  · intro a ha
    rcases mem_cons.mp (hstructs ▸ ha) with rfl | ha
    · omega
    · have := h.structs a ha
      omega
  · refine hnmsgs.trans ?_
    rw [int16]
    omega

theorem filled_sends {mem : ℕ → Msg} {n : ℕ} (hn : n ≤ 32767) :
    ∃ s, run step (init mem 0 (fun _ => emptyQueue Unit 32767) fun _ => 100)
        (sends n) = some s ∧ Filled n s := by
  induction n with
  | zero => exact ⟨_, rfl, filled_init mem⟩
  | succ n ih =>
    obtain ⟨s, hs, hfilled⟩ := ih (by omega)
    obtain ⟨s', hs', hfilled'⟩ := hfilled.sendOne (by omega)
    refine ⟨s', ?_, hfilled'⟩
    rw [sends, run_append, hs]
    exact hs'

/-- **The counter wraps.** A task fills a queue of 32767 messages; an interrupt handler sends one
more, and `nmsgs` is -32768. -/
theorem nmsgs_wraps :
    ∃ s, run step (init (fun _ => ⟨.dyn, 0, 0, []⟩) 0
        (fun _ => emptyQueue Unit 32767) fun _ => 100)
        (sends 32767 ++ [.irqSend (some readWrite) (some []) 0]) = some s ∧
      (s.store.queues ()).msglist.length = 32768 ∧ (s.store.queues ()).nmsgs = -32768 := by
  obtain ⟨s, hs, h⟩ := filled_sends (Nat.le_refl 32767)
  obtain ⟨o, ho⟩ := exists_mqVerifysend s.store
  obtain ⟨a, l, hl⟩ := exists_cons_of_ne_nil h.msgfreeirq
  obtain ⟨σ, halloc, hqueues⟩ :
      ∃ σ, s.store.mqMsgallocIrq = some (a, σ) ∧ σ.queues = s.store.queues := by
    rw [mqMsgallocIrq, h.msgfree, hl]
    exact ⟨_, rfl, rfl⟩
  obtain ⟨-, hnmsgs, hlen, hnone⟩ := h.insert hqueues o
  have hstep : s.step (.irqSend (some readWrite) (some []) 0) =
      some { s with store := σ.insert a o } := by
    simp only [step, irqSend, ho, halloc]
    exact (congrArg (wakeReceiver ()) (notify_of_none hnone)).trans (wakeReceiver_of_none h.nwait)
  have hwrap : int16 ((32767 : ℕ) + 1) = -32768 := by decide
  refine ⟨{ s with store := σ.insert a o }, ?_, hlen, hnmsgs.trans hwrap⟩
  rw [run_append, hs]
  exact run_cons_eq_some.mpr ⟨_, hstep, rfl⟩

end GreenboneFeeder.Mqueue
