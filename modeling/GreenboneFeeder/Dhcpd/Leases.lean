import GreenboneFeeder.Dhcpd.Model
import GreenboneFeeder.Lib.Run

/-!
# One address for one client

An address that was given to a client should not be given to another one before the time stored for
it. The test `dhcpd_leaseexpired` is the wrong way round: it takes a lease for expired, and clears
it, as long as it has *not* expired (`Dhcpd.address_given_twice`). A client that is not in the table
does no harm as long as it does not ask for the address of a live lease, and finds a free one before
it comes upon one (`Dhcpd.Spares`); then no address is given to two clients
(`Dhcpd.address_exclusive`).
-/

namespace GreenboneFeeder.Dhcpd

open Function

open Words

variable (cfg : Config) {msg : Msg} {leases : Leases} {reply : Reply} {held : ℕ → Mac → Option ℕ}
  {expiry : ℕ} {mac : Mac}

/-! ### The server and what the clients hold -/

/-- A message that is processed. The hardware address of a client is not zero. -/
structure Event where
  /-- The time, `dhcpd_time()`. -/
  now : ℕ
  /-- The answer can be sent. -/
  sent : Bool
  msg : Msg
  chaddr_ne_zero : msg.chaddr ≠ 0

/-- The lease table, the time of the last message, and the addresses that the clients have been
given, each with the time at which it expires. -/
structure World where
  leases : Leases := fun _ => {}
  now : ℕ := 0
  held : ℕ → Mac → Option ℕ := fun _ _ => none

/-- The address that an answer gives to the client. -/
def Reply.ipaddr : Reply → Option ℕ
  | .offer ipaddr _ => some ipaddr
  | .ack ipaddr _ => some ipaddr
  | _ => none

/-- What the clients hold after a message: who declines or releases holds nothing, and an address
that is given is held up to the time in the table. That time is a new one also if the client has the
address already and an offer of it cannot be sent. -/
def heldAfter (held : ℕ → Mac → Option ℕ) (msg : Msg) (leases : Leases) (reply : Reply) :
    ℕ → Mac → Option ℕ := fun a mac =>
  match msg.msgtype with
  | .decline | .release => if mac = msg.chaddr then none else held a mac
  | _ =>
    if mac = msg.chaddr ∧ (reply.ipaddr = some a ∨
        held a mac ≠ none ∧ (findbymac cfg mac leases).map (leaseipaddr cfg) = some a) then
      some (leases (a - cfg.startip)).expiry
    else held a mac

/-- **One message**; the clock does not go back. -/
def step (w : World) (e : Event) : Option World :=
  if w.now ≤ e.now ∧ e.now < 2 ^ 32 then
    let (leases, reply) := process cfg e.now e.sent e.msg w.leases
    some { leases := leases, now := e.now, held := heldAfter cfg w.held e.msg leases reply }
  else none

/-- **The address is given to one client**: no other client holds the address of the answer and
could still use it. -/
def Exclusive (w : World) (e : Event) : Prop :=
  ∀ ipaddr ∈ (process cfg e.now e.sent e.msg w.leases).2.ipaddr, ∀ mac ≠ e.msg.chaddr,
    ∀ expiry ∈ w.held ipaddr mac, expiry ≤ e.now

/-- The lease of a client that has not expired. -/
def Live (now : ℕ) (lease : Lease) : Prop := lease.mac ≠ 0 ∧ now < lease.expiry

instance (now : ℕ) (lease : Lease) : Decidable (Live now lease) :=
  inferInstanceAs (Decidable (_ ∧ _))

/-- The address can be allocated: its last byte is neither 0 nor 255. -/
def Usable (ipaddr : ℕ) : Prop := ¬(ipaddr % 256 = 0 ∨ ipaddr % 256 = 255)

/-- **A message of a client that is not in the table spares the entry `i`**: it does not ask for its
address. Moreover, a DISCOVER asks for an address that is free, or there is one to allocate before
that of the entry. -/
def Spares (msg : Msg) (leases : Leases) (i : ℕ) : Prop :=
  (msg.msgtype = .discover → msg.optreqip ≠ cfg.startip + i ∧
    ((∃ j < cfg.maxleases, msg.optreqip = cfg.startip + j ∧ (leases j).allocated = false) ∨
      ∃ j < i, Usable (cfg.startip + j) ∧ (leases j).allocated = false)) ∧
  (msg.msgtype = .request → ¬(msg.optserverip = 0 ∧ msg.optreqip = cfg.startip + i))

instance (ipaddr : ℕ) : Decidable (Usable ipaddr) := inferInstanceAs (Decidable (¬_))

instance (msg : Msg) (leases : Leases) (i : ℕ) : Decidable (Spares cfg msg leases i) :=
  inferInstanceAs (Decidable (_ ∧ _))

/-- **The condition**: a client that is not in the table spares the live leases. -/
def Safe (w : World) (e : Event) : Prop :=
  findbymac cfg e.msg.chaddr w.leases = none → ∀ i < cfg.maxleases, Live e.now (w.leases i) →
    Spares cfg e.msg w.leases i

instance (w : World) (e : Event) : Decidable (Safe cfg w e) :=
  inferInstanceAs (Decidable (_ → _))

/-! ### What a message does to the table -/

/-- **The effects of a message** on the table, with the answer. -/
inductive Effect (now : ℕ) (msg : Msg) (leases : Leases) : Leases → Reply → Prop
  /-- The entry `i` is set for the client, who has that entry or is not in the table, and its
  address is given to the client unless the offer cannot be sent. -/
  | grant (i expiry : ℕ) (reply : Reply) (hi : i < cfg.maxleases)
      (hreply : ∀ ipaddr ∈ reply.ipaddr, ipaddr = cfg.startip + i)
      (htype : msg.msgtype = .discover ∨ msg.msgtype = .request)
      (hentry : findbymac cfg msg.chaddr leases = some i ∨
        findbymac cfg msg.chaddr leases = none ∧ msg.msgtype = .discover ∧
          (chooseIpaddr cfg now msg leases).2 = cfg.startip + i) :
      Effect now msg leases
        (update leases i { mac := msg.chaddr, allocated := true, expiry := expiry }) reply
  /-- The entry `i` is cleared, since its address was asked for. -/
  | erase (i : ℕ) (reply : Reply) (hi : i < cfg.maxleases) (hreply : reply.ipaddr = none)
      (hentry : findbymac cfg msg.chaddr leases = none) (htype : msg.msgtype = .request)
      (hserverip : msg.optserverip = 0) (hreqip : msg.optreqip = cfg.startip + i) :
      Effect now msg leases (update leases i {}) reply
  /-- The client gives its entry back: it has no client then. -/
  | giveUp (i : ℕ) (lease : Lease) (hi : i < cfg.maxleases)
      (hentry : findbymac cfg msg.chaddr leases = some i) (hlease : lease.mac = 0)
      (htype : msg.msgtype = .decline ∨ msg.msgtype = .release) :
      Effect now msg leases (update leases i lease) .silent
  /-- A client that is not in the table has nothing to give back. -/
  | nothing (hentry : findbymac cfg msg.chaddr leases = none)
      (htype : msg.msgtype = .decline ∨ msg.msgtype = .release) :
      Effect now msg leases leases .silent
  /-- The table is not changed, and no address is given. -/
  | refuse (reply : Reply) (hreply : reply.ipaddr = none)
      (htype : msg.msgtype = .discover ∨ msg.msgtype = .request) :
      Effect now msg leases leases reply

section Effects

variable {cfg} {now : ℕ} {msg : Msg} {leases : Leases} {i : ℕ}

theorem lt_of_findbymac (h : findbymac cfg mac leases = some i) :
    i < cfg.maxleases ∧ (leases i).mac = mac := by
  exact ⟨List.mem_range.mp (List.mem_of_find?_eq_some h), by simpa using List.find?_some h⟩

theorem mac_ne_of_findbymac (h : findbymac cfg mac leases = none)
    (hi : i < cfg.maxleases) : (leases i).mac ≠ mac := by
  simpa using List.find?_eq_none.mp h i (List.mem_range.mpr hi)

theorem lt_of_range {ipaddr : ℕ} (h : cfg.startip ≤ ipaddr ∧ ipaddr ≤ endip cfg) :
    ipaddr - cfg.startip < cfg.maxleases ∧ ipaddr = cfg.startip + (ipaddr - cfg.startip) := by
  have hpos := cfg.startip_pos
  have hend : ipaddr ≤ cfg.startip + cfg.maxleases - 1 := h.2
  omega

theorem lt_of_findbyipaddr {ipaddr : ℕ} (h : findbyipaddr cfg ipaddr leases = some i) :
    i < cfg.maxleases ∧ ipaddr = cfg.startip + i := by
  rw [findbyipaddr] at h
  split_ifs at h with hrange
  cases h
  exact lt_of_range hrange

theorem setlease_eq {t : ℕ} (hi : i < cfg.maxleases) :
    setlease cfg now mac (cfg.startip + i) t leases =
      some (update leases i
        { mac := mac, allocated := true, expiry := uint32 (now + t) }) := by
  have hlt := cfg.maxleases_lt
  have hndx : int32 (((cfg.startip + i : ℕ) : ℤ) - cfg.startip) = i := by
    rw [show ((cfg.startip + i : ℕ) : ℤ) - cfg.startip = (i : ℕ) by omega]
    exact int32_natCast (by omega)
  rw [setlease, hndx, if_pos (by omega), Int.toNat_natCast]

/-- Whether an address is free: if it is not, the table is not changed, and if it is, at most its
entry is. -/
theorem freeOrExpired_cases {cfg : Config} {now ipaddr : ℕ} :
    freeOrExpired cfg now ipaddr leases = (leases, false) ∨
      ∃ leases', freeOrExpired cfg now ipaddr leases = (leases', true) ∧
        ∀ j ≠ ipaddr - cfg.startip, leases' j = leases j := by
  unfold freeOrExpired findbyipaddr leaseexpired
  split_ifs with hrange hallocated
  · dsimp only
    split_ifs with hexpiry
    · exact .inl (by rw [update_eq_self])
    · exact .inr ⟨_, rfl, fun j hj => update_of_ne hj ..⟩
  · exact .inr ⟨leases, rfl, fun _ _ => rfl⟩
  · exact .inr ⟨leases, rfl, fun _ _ => rfl⟩

/-- What is chosen for a client: nothing, or the address of an entry, and only that entry
changes. -/
def Chosen (cfg : Config) (leases : Leases) (res : Leases × ℕ) : Prop :=
  res = (leases, 0) ∨
    ∃ i < cfg.maxleases, res.2 = cfg.startip + i ∧ ∀ j ≠ i, res.1 j = leases j

theorem allocLoop_chosen (ipaddrs : List ℕ)
    (h : ∀ ipaddr ∈ ipaddrs, ∃ i < cfg.maxleases, ipaddr = cfg.startip + i) :
    Chosen cfg leases (allocLoop cfg now ipaddrs leases) := by
  induction ipaddrs with
  | nil => exact .inl rfl
  | cons ipaddr ipaddrs ih =>
    have ih := ih fun ipaddr hmem => h ipaddr (List.mem_cons_of_mem _ hmem)
    obtain ⟨i, hi, rfl⟩ := h ipaddr List.mem_cons_self
    rw [allocLoop]
    split_ifs with hskip
    · exact ih
    rcases freeOrExpired_cases with
      hfree | ⟨leases', hfree, hsame⟩
    · rw [hfree]
      exact ih
    · rw [hfree]
      rw [Nat.add_sub_cancel_left] at hsame ⊢
      refine .inr ⟨i, hi, rfl, fun j hj => ?_⟩
      exact (update_of_ne hj ..).trans (hsame j hj)

theorem chooseIpaddr_chosen {cfg : Config} :
    Chosen cfg leases (chooseIpaddr cfg now msg leases) := by
  have halloc : Chosen cfg leases (allocipaddr cfg now leases) := by
    refine allocLoop_chosen _ fun ipaddr hmem => ?_
    obtain ⟨i, hi, rfl⟩ := List.mem_map.mp hmem
    exact ⟨i, List.mem_range.mp hi, rfl⟩
  unfold chooseIpaddr verifyreqip
  split_ifs with hrange
  · obtain ⟨hlt, hip⟩ := lt_of_range hrange
    rcases freeOrExpired_cases with hfree | ⟨leases', hfree, hsame⟩
    · rw [hfree]
      exact halloc
    · rw [hfree]
      exact .inr ⟨_, hlt, hip, hsame⟩
  · exact halloc

theorem update_eq_of_chosen {leases' : Leases} (hsame : ∀ j ≠ i, leases' j = leases j)
    {lease : Lease} :
    update leases' i lease = update leases i lease := by
  funext j
  by_cases hj : j = i
  · rw [hj, update_self, update_self]
  · rw [update_of_ne hj, update_of_ne hj, hsame j hj]

/-- A free address is allocated, or one before it. -/
theorem allocLoop_le (ipaddrs : List ℕ) (hsorted : ipaddrs.Pairwise (· < ·)) {ipaddr : ℕ}
    (hmem : ipaddr ∈ ipaddrs) (husable : Usable ipaddr)
    (hfree : findbyipaddr cfg ipaddr leases = none) :
    (allocLoop cfg now ipaddrs leases).2 ≤ ipaddr := by
  induction ipaddrs with
  | nil => exact absurd hmem List.not_mem_nil
  | cons first ipaddrs ih =>
    obtain ⟨hlt, hsorted⟩ := List.pairwise_cons.mp hsorted
    rw [allocLoop]
    rcases List.mem_cons.mp hmem with rfl | hmem
    · rw [if_neg husable, freeOrExpired, hfree]
    · split_ifs with hskip
      · exact ih hsorted hmem
      · rcases freeOrExpired_cases with hnot | ⟨leases', htaken, -⟩
        · rw [hnot]
          exact ih hsorted hmem
        · rw [htaken]
          exact Nat.le_of_lt (hlt ipaddr hmem)

theorem findbyipaddr_of_free (hfree : (leases i).allocated = false) :
    findbyipaddr cfg (cfg.startip + i) leases = none := by
  rw [findbyipaddr, Nat.add_sub_cancel_left, hfree, if_neg Bool.false_ne_true, ite_self]

/-- **The address of an entry that is spared is not chosen.** -/
theorem Spares.chooseIpaddr_ne (h : Spares cfg msg leases i) (hi : i < cfg.maxleases)
    (hmsg : msg.msgtype = .discover) :
    (chooseIpaddr cfg now msg leases).2 ≠ cfg.startip + i := by
  obtain ⟨hne, hfree⟩ := h.1 hmsg
  have halloc : (∃ j < i, Usable (cfg.startip + j) ∧ (leases j).allocated = false) →
      (allocipaddr cfg now leases).2 ≠ cfg.startip + i := by
    rintro ⟨j, hji, husable, hfree⟩
    have hsorted : ((List.range cfg.maxleases).map (cfg.startip + ·)).Pairwise (· < ·) :=
      List.pairwise_lt_range.map _ fun _ _ hlt => Nat.add_lt_add_left hlt _
    have hle : (allocipaddr cfg now leases).2 ≤ cfg.startip + j :=
      allocLoop_le _ hsorted (List.mem_map_of_mem (List.mem_range.mpr (hji.trans hi))) husable
        (findbyipaddr_of_free hfree)
    omega
  unfold chooseIpaddr verifyreqip
  rcases hfree with ⟨j, hj, hip, hfree⟩ | hfree
  · have hrange : cfg.startip ≤ msg.optreqip ∧ msg.optreqip ≤ endip cfg := by
      unfold endip
      omega
    rw [if_pos hrange, freeOrExpired, hip, findbyipaddr_of_free hfree, ← hip]
    exact hne
  · split_ifs with hrange
    · rcases freeOrExpired_cases with hnot | ⟨leases', htaken, -⟩
      · rw [hnot]
        exact halloc hfree
      · rw [htaken]
        exact hne
    · exact halloc hfree

theorem discover_effect {sent : Bool} (hmsg : msg.msgtype = .discover) :
    Effect cfg now msg leases (discover cfg now sent msg leases).1
      (discover cfg now sent msg leases).2 := by
  have hpos := cfg.startip_pos
  have hoffer : ∀ (i t : ℕ), ∀ ipaddr ∈ (if sent then Reply.offer (cfg.startip + i) t
      else .silent).ipaddr, ipaddr = cfg.startip + i := by
    rintro i t ipaddr hip
    cases sent with
    | true => exact (Option.some.inj hip).symm
    | false => cases hip
  rw [discover, selectIpaddr]
  cases hentry : findbymac cfg msg.chaddr leases with
  | some i =>
    have hi := (lt_of_findbymac hentry).1
    dsimp only
    rw [leaseipaddr, Nat.add_comm i, if_neg (by omega), setlease_eq hi,
      update_eq_of_chosen fun j hj => update_of_ne hj ..]
    exact .grant i _ _ hi (hoffer i _) (.inl hmsg) (.inl hentry)
  | none =>
    dsimp only
    rcases chooseIpaddr_chosen with hnone | ⟨i, hi, hip, hsame⟩
    · rw [hnone]
      exact .refuse _ rfl (.inl hmsg)
    · rw [hip, if_neg (by omega), setlease_eq hi, update_eq_of_chosen hsame]
      exact .grant i _ _ hi (hoffer i _) (.inl hmsg) (.inr ⟨hentry, hmsg, hip⟩)

theorem request_effect {sent : Bool} (hmsg : msg.msgtype = .request) :
    Effect cfg now msg leases (request cfg now sent msg leases).1
      (request cfg now sent msg leases).2 := by
  rw [request]
  cases hentry : findbymac cfg msg.chaddr leases with
  | some i =>
    have hi := (lt_of_findbymac hentry).1
    dsimp only
    split_ifs
    · rw [sendack]
      cases sent with
      | true =>
        rw [leaseipaddr, Nat.add_comm i, setlease_eq hi]
        exact .grant i _ _ hi (fun _ hip => (Option.some.inj hip).symm) (.inr hmsg) (.inl hentry)
      | false => exact .refuse _ rfl (.inr hmsg)
    · exact .refuse _ rfl (.inr hmsg)
  | none =>
    by_cases hreq : msg.optreqip ≠ 0 ∧ msg.optserverip = 0
    · rw [if_pos hreq]
      cases hfind : findbyipaddr cfg msg.optreqip leases with
      | some i =>
        obtain ⟨hi, hip⟩ := lt_of_findbyipaddr hfind
        dsimp only
        rw [leaseexpired]
        by_cases hexpiry : (leases i).expiry < now
        · rw [if_pos hexpiry, update_eq_self]
          exact .refuse _ rfl (.inr hmsg)
        · rw [if_neg hexpiry]
          exact .erase i _ hi rfl hentry hmsg hreq.2 hip
      | none =>
        split_ifs <;> exact .refuse _ rfl (.inr hmsg)
    · rw [if_neg hreq]
      exact .refuse _ rfl (.inr hmsg)

/-- **Every message has one of the effects.** -/
theorem process_effect {sent : Bool} :
    Effect cfg now msg leases (process cfg now sent msg leases).1
      (process cfg now sent msg leases).2 := by
  rw [process]
  cases hmsg : msg.msgtype with
  | discover => exact discover_effect hmsg
  | request => exact request_effect hmsg
  | decline =>
    rw [decline]
    cases hentry : findbymac cfg msg.chaddr leases with
    | some i => exact .giveUp i _ (lt_of_findbymac hentry).1 hentry rfl (.inl hmsg)
    | none => exact .nothing hentry (.inl hmsg)
  | release =>
    rw [release]
    cases hentry : findbymac cfg msg.chaddr leases with
    | some i => exact .giveUp i _ (lt_of_findbymac hentry).1 hentry rfl (.inr hmsg)
    | none => exact .nothing hentry (.inr hmsg)

end Effects

/-! ### The table and what the clients hold -/

/-- **The table knows what the clients hold**: an address that can still be used is in the table,
and no client has two entries. -/
structure Known (w : World) : Prop where
  entry_of_held : ∀ a mac expiry, w.held a mac = some expiry → w.now < expiry →
    ∃ i < cfg.maxleases, a = cfg.startip + i ∧ (w.leases i).mac = mac ∧ (w.leases i).expiry = expiry
  unique : ∀ i < cfg.maxleases, ∀ j < cfg.maxleases, (w.leases i).mac ≠ 0 →
    (w.leases i).mac = (w.leases j).mac → i = j
  held_zero : ∀ a, w.held a 0 = none

section Known

variable {cfg} {w w' : World} {e : Event} {i : ℕ}

theorem heldAfter_of_type (htype : msg.msgtype = .discover ∨ msg.msgtype = .request) :
    heldAfter cfg held msg leases reply = fun a mac =>
      if mac = msg.chaddr ∧ (reply.ipaddr = some a ∨
          held a mac ≠ none ∧ (findbymac cfg mac leases).map (leaseipaddr cfg) = some a) then
        some (leases (a - cfg.startip)).expiry
      else held a mac := by
  unfold heldAfter
  rcases htype with htype | htype <;> rw [htype]

theorem heldAfter_of_giveUp (htype : msg.msgtype = .decline ∨ msg.msgtype = .release) :
    heldAfter cfg held msg leases reply =
      fun a mac => if mac = msg.chaddr then none else held a mac := by
  unfold heldAfter
  rcases htype with htype | htype <;> rw [htype]

theorem known_initial : Known cfg {} where
  entry_of_held := fun _ _ _ h => absurd h (by simp)
  unique := fun _ _ _ _ h => absurd rfl h
  held_zero := fun _ => rfl

section

variable (h : Known cfg w)

include h

theorem Known.ne_zero {a : ℕ} (hheld : w.held a mac = some expiry) : mac ≠ 0 := by
  rintro rfl
  rw [h.held_zero] at hheld
  exact absurd hheld (by simp)

theorem Known.later {now : ℕ} (hle : w.now ≤ now) :
    Known cfg { w with now := now } :=
  ⟨fun a mac expiry hheld hlt => h.entry_of_held a mac expiry hheld (by
    have : now < expiry := hlt
    omega), h.unique, h.held_zero⟩

theorem Known.eq_of_mac (hmac : mac ≠ 0) (hentry : findbymac cfg mac w.leases = some i) {j : ℕ}
    (hj : j < cfg.maxleases) (hjmac : (w.leases j).mac = mac) : j = i := by
  obtain ⟨hi, himac⟩ := lt_of_findbymac hentry
  exact (h.unique i hi j hj (by rw [himac]; exact hmac) (himac.trans hjmac.symm)).symm

/-- **A message that gives nothing back.** The addresses it gives are in the new table, and so are
those that were held, up to a new time for the client. -/
theorem Known.given (hmac : msg.chaddr ≠ 0)
    (htype : msg.msgtype = .discover ∨ msg.msgtype = .request)
    (hgiven : ∀ a ∈ reply.ipaddr, ∃ i < cfg.maxleases, a = cfg.startip + i ∧
      (leases i).mac = msg.chaddr)
    (hkept : ∀ a mac expiry, w.held a mac = some expiry → w.now < expiry →
      (mac = msg.chaddr → (findbymac cfg mac leases).map (leaseipaddr cfg) ≠ some a) →
      ∃ i < cfg.maxleases, a = cfg.startip + i ∧ (leases i).mac = mac ∧ (leases i).expiry = expiry)
    (hunique : ∀ i < cfg.maxleases, ∀ j < cfg.maxleases, (leases i).mac ≠ 0 →
      (leases i).mac = (leases j).mac → i = j) :
    Known cfg { w with leases := leases, held := heldAfter cfg w.held msg leases reply } := by
  rw [heldAfter_of_type htype]
  refine ⟨fun a mac expiry hheld hlt => ?_, hunique, fun a => ?_⟩
  · dsimp only at hheld hlt
    split_ifs at hheld with hnew
    · obtain ⟨rfl, hnew⟩ := hnew
      obtain ⟨i, hi, rfl, himac⟩ : ∃ i < cfg.maxleases, a = cfg.startip + i ∧
          (leases i).mac = msg.chaddr := by
        rcases hnew with hgive | ⟨-, hfind⟩
        · exact hgiven a hgive
        · obtain ⟨i, hi, rfl⟩ := Option.map_eq_some_iff.mp hfind
          exact ⟨i, (lt_of_findbymac hi).1, Nat.add_comm .., (lt_of_findbymac hi).2⟩
      rw [Nat.add_sub_cancel_left] at hheld
      exact ⟨i, hi, rfl, himac, Option.some.inj hheld⟩
    · refine hkept a mac expiry hheld hlt fun hown hfind => hnew ⟨hown, .inr ⟨?_, hfind⟩⟩
      rw [hheld]
      exact Option.some_ne_none expiry
  · exact (if_neg fun hc => hmac hc.1.symm).trans (h.held_zero a)

theorem Known.refuse (hmac : msg.chaddr ≠ 0)
    (htype : msg.msgtype = .discover ∨ msg.msgtype = .request) (hreply : reply.ipaddr = none) :
    Known cfg { w with held := heldAfter cfg w.held msg w.leases reply } :=
  h.given hmac htype (by simp [hreply])
    (fun a mac expiry hheld hlt _ => h.entry_of_held a mac expiry hheld hlt) h.unique

/-- **An entry is set for the client**, which is the client's own, or is not live. -/
theorem Known.grant (hmac : msg.chaddr ≠ 0)
    (htype : msg.msgtype = .discover ∨ msg.msgtype = .request) (hi : i < cfg.maxleases)
    (hreply : ∀ ipaddr ∈ reply.ipaddr, ipaddr = cfg.startip + i)
    (hentry : findbymac cfg msg.chaddr w.leases = some i ∨
      findbymac cfg msg.chaddr w.leases = none ∧ ¬Live w.now (w.leases i))
    (hleases : leases =
      update w.leases i { mac := msg.chaddr, allocated := true, expiry := expiry }) :
    Known cfg { w with leases := leases, held := heldAfter cfg w.held msg leases reply } := by
  -- no other entry is one of the client
  have hother : ∀ j < cfg.maxleases, j ≠ i → (w.leases j).mac ≠ msg.chaddr := by
    intro j hj hne hjmac
    rcases hentry with hentry | ⟨hentry, -⟩
    · exact hne (h.eq_of_mac hmac hentry hj hjmac)
    · exact mac_ne_of_findbymac hentry hj hjmac
  have hself : leases i = { mac := msg.chaddr, allocated := true, expiry := expiry } := by
    rw [hleases, update_self]
  have hne : ∀ j ≠ i, leases j = w.leases j := fun j hji => by rw [hleases, update_of_ne hji]
  have hfind : findbymac cfg msg.chaddr leases = some i := by
    cases hfind : findbymac cfg msg.chaddr leases with
    | none => exact absurd (by rw [hself]) (mac_ne_of_findbymac hfind hi)
    | some j =>
      obtain ⟨hj, hjmac⟩ := lt_of_findbymac hfind
      by_contra hji
      have hji : j ≠ i := fun hc => hji (congrArg some hc)
      exact hother j hj hji (hne j hji ▸ hjmac)
  refine h.given hmac htype (fun a ha => ⟨i, hi, hreply a ha, by rw [hself]⟩)
    (fun a mac expiry' hheld hlt hnot => ?_) fun j hj k hk hjmac hjk => ?_
  · obtain ⟨j, hj, rfl, hjmac, hjexp⟩ := h.entry_of_held a mac expiry' hheld hlt
    have hji : j ≠ i := by
      rintro rfl
      by_cases hown : mac = msg.chaddr
      · refine hnot hown ?_
        rw [hown, hfind, Option.map_some, leaseipaddr, Nat.add_comm]
      · -- the entry of another client that can still use the address is live
        rcases hentry with hentry | ⟨-, hlive⟩
        · exact hown (hjmac.symm.trans (lt_of_findbymac hentry).2)
        · refine hlive ⟨?_, by rw [hjexp]; exact hlt⟩
          rw [hjmac]
          exact h.ne_zero hheld
    exact ⟨j, hj, rfl, by rwa [hne j hji], by rwa [hne j hji]⟩
  · by_cases hji : j = i
    · by_cases hki : k = i
      · rw [hji, hki]
      · rw [hji, hself, hne k hki] at hjk
        exact absurd hjk.symm (hother k hk hki)
    · by_cases hki : k = i
      · rw [hki, hself, hne j hji] at hjk
        exact absurd hjk (hother j hj hji)
      · rw [hne j hji] at hjmac hjk
        rw [hne k hki] at hjk
        exact h.unique j hj k hk hjmac hjk

/-- **An entry is left without a client**, and nobody can use its address any more; the clients may
hold less than before. -/
theorem Known.vacate {lease : Lease} (hlease : lease.mac = 0)
    (hsub : ∀ a mac expiry, held a mac = some expiry → w.held a mac = some expiry)
    (hgone : ∀ mac expiry, held (cfg.startip + i) mac = some expiry → expiry ≤ w.now) :
    Known cfg { w with leases := update w.leases i lease, held := held } := by
  have hne : ∀ j, (update w.leases i lease j).mac ≠ 0 → j ≠ i := by
    rintro j hjmac rfl
    rw [update_self] at hjmac
    exact hjmac hlease
  refine ⟨fun a mac expiry hheld hlt => ?_, fun j hj k hk hjmac hjk => ?_, fun a => ?_⟩
  · obtain ⟨j, hj, rfl, hentry⟩ := h.entry_of_held a mac expiry (hsub a mac expiry hheld) hlt
    have hji : j ≠ i := by
      rintro rfl
      exact Nat.not_lt.mpr (hgone mac expiry hheld) hlt
    refine ⟨j, hj, rfl, ?_⟩
    dsimp only
    rw [update_of_ne hji]
    exact hentry
  · have hji := hne j hjmac
    have hki := hne k (hjk ▸ hjmac)
    dsimp only at hjmac hjk
    rw [update_of_ne hji] at hjmac
    rw [update_of_ne hji, update_of_ne hki] at hjk
    exact h.unique j hj k hk hjmac hjk
  · rw [Option.eq_none_iff_forall_ne_some]
    intro expiry hheld
    exact h.ne_zero (hsub a 0 expiry hheld) rfl

theorem Known.mac_of_held
    (hheld : w.held (cfg.startip + i) mac = some expiry) (hlt : w.now < expiry) :
    (w.leases i).mac = mac ∧ (w.leases i).expiry = expiry := by
  obtain ⟨j, -, hij, hentry⟩ := h.entry_of_held _ mac expiry hheld hlt
  obtain rfl : i = j := Nat.add_left_cancel hij
  exact hentry

theorem Known.le_of_not_live (hlive : ¬Live w.now (w.leases i))
    (hheld : w.held (cfg.startip + i) mac = some expiry) : expiry ≤ w.now := by
  by_contra hlt
  obtain ⟨hmac, hexpiry⟩ := h.mac_of_held hheld (Nat.lt_of_not_le hlt)
  refine hlive ⟨?_, by rw [hexpiry]; exact Nat.lt_of_not_le hlt⟩
  rw [hmac]
  exact h.ne_zero hheld

theorem Known.giveUp {lease : Lease}
    (hentry : findbymac cfg mac w.leases = some i) (hlease : lease.mac = 0) :
    Known cfg
      { w with
        leases := update w.leases i lease
        held := fun a mac' => if mac' = mac then none else w.held a mac' } := by
  refine h.vacate hlease (fun a mac' expiry hheld => ?_) fun mac' expiry hheld => ?_
  · split_ifs at hheld
    exact hheld
  · split_ifs at hheld with hne
    by_contra hlt
    obtain ⟨hmac', -⟩ := h.mac_of_held hheld (Nat.lt_of_not_le hlt)
    exact hne (hmac'.symm.trans (lt_of_findbymac hentry).2)

theorem Known.giveUp_of_none :
    Known cfg { w with held := fun a mac' => if mac' = mac then none else w.held a mac' } := by
  refine ⟨fun a mac' expiry hheld hlt => ?_, h.unique, fun a => ?_⟩
  · dsimp only at hheld
    split_ifs at hheld
    exact h.entry_of_held a mac' expiry hheld hlt
  · dsimp only
    split_ifs
    · rfl
    · exact h.held_zero a

end

/-! ### One message -/

/-- **One message** that meets the condition gives the address to one client, and the table knows
what the clients hold then. -/
theorem Known.effect (h : Known cfg w)
    (hmac : msg.chaddr ≠ 0) (heffect : Effect cfg w.now msg w.leases leases reply)
    (hsafe : findbymac cfg msg.chaddr w.leases = none → ∀ i < cfg.maxleases,
      Live w.now (w.leases i) → Spares cfg msg w.leases i) :
    Known cfg { w with leases := leases, held := heldAfter cfg w.held msg leases reply } ∧
      ∀ ipaddr ∈ reply.ipaddr, ∀ mac ≠ msg.chaddr, ∀ expiry ∈ w.held ipaddr mac,
        expiry ≤ w.now := by
  cases heffect with
  | grant i expiry reply hi hreply htype hentry =>
    have hentry' : findbymac cfg msg.chaddr w.leases = some i ∨
        findbymac cfg msg.chaddr w.leases = none ∧ ¬Live w.now (w.leases i) := by
      refine hentry.imp id fun hnone => ⟨hnone.1, fun hlive => ?_⟩
      exact (hsafe hnone.1 i hi hlive).chooseIpaddr_ne hi hnone.2.1 hnone.2.2
    constructor
    · exact h.grant hmac htype hi hreply hentry' rfl
    · rintro ipaddr hip mac hne expiry' hheld
      obtain rfl := hreply ipaddr hip
      rcases hentry' with hown | ⟨-, hlive⟩
      · by_contra hlt
        obtain ⟨hmac', -⟩ := h.mac_of_held hheld (Nat.lt_of_not_le hlt)
        exact hne (hmac'.symm.trans (lt_of_findbymac hown).2)
      · exact h.le_of_not_live hlive hheld
  | erase i reply hi hreply hentry htype hserverip hreqip =>
    have hlive : ¬Live w.now (w.leases i) := fun hlive =>
      (hsafe hentry i hi hlive).2 htype ⟨hserverip, hreqip⟩
    have hvacate : Known cfg { w with leases := update w.leases i {} } :=
      h.vacate rfl (fun _ _ _ hheld => hheld) fun mac expiry hheld => h.le_of_not_live hlive hheld
    exact ⟨hvacate.refuse hmac (.inr htype) hreply, fun ipaddr hip => by simp [hreply] at hip⟩
  | giveUp i lease hi hentry hlease htype =>
    rw [heldAfter_of_giveUp htype]
    exact ⟨h.giveUp hentry hlease, fun ipaddr hip => absurd hip (by simp [Reply.ipaddr])⟩
  | nothing hentry htype =>
    rw [heldAfter_of_giveUp htype]
    exact ⟨h.giveUp_of_none, fun ipaddr hip => absurd hip (by simp [Reply.ipaddr])⟩
  | refuse reply hreply htype =>
    exact ⟨h.refuse hmac htype hreply, fun ipaddr hip => by simp [hreply] at hip⟩

theorem Known.step (h : Known cfg w) (hsafe : Safe cfg w e)
    (hs : step cfg w e = some w') : Known cfg w' := by
  rw [Dhcpd.step] at hs
  split_ifs at hs with hnow
  cases hs
  exact ((h.later hnow.1).effect e.chaddr_ne_zero process_effect hsafe).1

theorem Known.exclusive (h : Known cfg w) (hnow : w.now ≤ e.now)
    (hsafe : Safe cfg w e) : Exclusive cfg w e :=
  ((h.later hnow).effect e.chaddr_ne_zero process_effect hsafe).2

end Known

/-! ### Runs -/

/-- **An address is given to one client as long as the live leases are spared** by the clients that
are not in the table: what is offered or acknowledged is held by no other client that could still
use it. -/
theorem address_exclusive (events : List Event)
    (hsafe : Run.AllSteps (step cfg) (Safe cfg) {} events) :
    Run.AllSteps (step cfg) (fun w e => w.now ≤ e.now → Exclusive cfg w e) {} events :=
  Run.AllSteps.of_invariant (fun _ _ _ hknown hsafe hs => hknown.step hsafe hs)
    (fun _ e hknown hsafe hnow => hknown.exclusive (e := e) hnow hsafe) events known_initial hsafe

/-- The configuration as it is without options, for a server at 10.0.0.1. -/
def defaultConfig : Config where
  startip := 0x0a000002
  maxleases := 16
  leasetime := 864000
  minleasetime := 86400
  maxleasetime := 2592000
  offertime := 3600
  declinetime := 3600
  serverip := 0x0a000001
  startip_pos := by decide
  endip_lt := by decide
  maxleases_lt := by decide

/-- One client gets an address, and another one asks for the next. -/
theorem address_exclusive_two :
    let events : List Event :=
      [⟨0, true, { msgtype := .discover, chaddr := 1 }, by decide⟩,
        ⟨1, true, { msgtype := .request, chaddr := 1, optreqip := 0x0a000002 }, by decide⟩,
        ⟨2, true, { msgtype := .discover, chaddr := 2, optreqip := 0x0a000003 }, by decide⟩]
    Run.AllSteps (step defaultConfig) (fun w e => w.now ≤ e.now → Exclusive defaultConfig w e) {}
      events :=
  address_exclusive defaultConfig _ (by decide)

/-- **Two clients are given the same address**: the second one sends its DISCOVER a second after the
first one, whose offer expires in an hour. -/
theorem address_given_twice :
    let first : Event := ⟨0, true, { msgtype := .discover, chaddr := 1 }, by decide⟩
    let second : Event := ⟨1, true, { msgtype := .discover, chaddr := 2 }, by decide⟩
    (process defaultConfig first.now first.sent first.msg ({} : World).leases).2 =
        .offer 0x0a000002 864000 ∧
      ∃ w, step defaultConfig {} first = some w ∧ w.held 0x0a000002 1 = some 3600 ∧
        (process defaultConfig second.now second.sent second.msg w.leases).2 =
          .offer 0x0a000002 864000 := by
  refine ⟨by decide, _, rfl, ?_, ?_⟩ <;> decide

end GreenboneFeeder.Dhcpd
