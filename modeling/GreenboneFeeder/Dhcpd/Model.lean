import GreenboneFeeder.Lib.Words
import Mathlib.Data.BitVec

/-!
# The DHCP server

The lease table of `netutils/dhcpd`, with lease times, and what the four messages of the clients do
to it. There is one entry for each address. Addresses and times are numbers of 32 bits in host
order, and sums of times wrap. A message comes with the options that `dhcpd_parseoptions` has found,
the time at which it is processed, and whether the answer can be sent.
-/

namespace GreenboneFeeder.Dhcpd

open Words Function

/-- A hardware address, of six bytes. -/
abbrev Mac := BitVec 48

/-- The configuration. -/
structure Config where
  /-- `CONFIG_NETUTILS_DHCPD_STARTIP` -/
  startip : ℕ
  /-- `CONFIG_NETUTILS_DHCPD_MAXLEASES` -/
  maxleases : ℕ
  /-- `CONFIG_NETUTILS_DHCPD_LEASETIME` -/
  leasetime : ℕ
  /-- `CONFIG_NETUTILS_DHCPD_MINLEASETIME` -/
  minleasetime : ℕ
  /-- `CONFIG_NETUTILS_DHCPD_MAXLEASETIME` -/
  maxleasetime : ℕ
  /-- `CONFIG_NETUTILS_DHCPD_OFFERTIME` -/
  offertime : ℕ
  /-- `CONFIG_NETUTILS_DHCPD_DECLINETIME` -/
  declinetime : ℕ
  /-- The address of the server, `ds_serverip`. -/
  serverip : ℕ
  startip_pos : 0 < startip
  /-- The addresses are numbers of 32 bits. -/
  endip_lt : startip + maxleases < 2 ^ 32
  /-- The size of the table is an `int`. -/
  maxleases_lt : maxleases < 2 ^ 31

/-- `struct lease_s`. -/
structure Lease where
  mac : Mac := 0
  allocated : Bool := false
  expiry : ℕ := 0
  deriving DecidableEq, Repr

/-- The lease table, `ds_leases`. -/
abbrev Leases := ℕ → Lease

/-- The message types that are understood. -/
inductive MsgType where
  | discover
  | request
  | decline
  | release
  deriving DecidableEq, Repr

/-- A message of a client. -/
structure Msg where
  msgtype : MsgType
  /-- The first six bytes of `chaddr`. -/
  chaddr : Mac
  ciaddr : ℕ := 0
  /-- `ds_optreqip`, zero if the option is missing. -/
  optreqip : ℕ := 0
  /-- `ds_optserverip`, zero if the option is missing. -/
  optserverip : ℕ := 0
  /-- `ds_optleasetime`, zero if the option is missing. -/
  optleasetime : ℕ := 0
  deriving DecidableEq, Repr

/-- What the server answers. -/
inductive Reply where
  | offer (ipaddr leasetime : ℕ)
  | ack (ipaddr leasetime : ℕ)
  | nak
  | silent
  deriving DecidableEq, Repr

variable (cfg : Config)

/-- `CONFIG_NETUTILS_DHCP_OPTION_ENDIP`. -/
def endip : ℕ := cfg.startip + cfg.maxleases - 1

/-! ### The lease table -/

variable (now : ℕ) (msg : Msg) (ipaddr : ℕ) (leases : Leases)

/-- **`dhcpd_leaseexpired`**: the lease then, and the result. -/
def leaseexpired (lease : Lease) : Lease × Bool :=
  if lease.expiry < now then (lease, false) else ({}, true)

/-- **`dhcpd_setlease`**: nothing if the address is not in the table. -/
def setlease (mac : Mac) (ipaddr expiry : ℕ) (leases : Leases) : Option Leases :=
  let ndx := int32 ((ipaddr : ℤ) - cfg.startip)
  if 0 ≤ ndx ∧ ndx < cfg.maxleases then
    some (update leases ndx.toNat
      { mac := mac, allocated := true, expiry := uint32 (now + expiry) })
  else none

/-- `dhcp_leaseipaddr`. -/
def leaseipaddr (ndx : ℕ) : ℕ := ndx + cfg.startip

/-- **`dhcpd_findbymac`.** -/
def findbymac (mac : Mac) (leases : Leases) : Option ℕ :=
  (List.range cfg.maxleases).find? fun i => (leases i).mac = mac

/-- **`dhcpd_findbyipaddr`.** -/
def findbyipaddr : Option ℕ :=
  if cfg.startip ≤ ipaddr ∧ ipaddr ≤ endip cfg then
    if (leases (ipaddr - cfg.startip)).allocated then some (ipaddr - cfg.startip) else none
  else none

/-- `!lease || dhcpd_leaseexpired(lease)`, for the lease of an address. -/
def freeOrExpired (now ipaddr : ℕ) (leases : Leases) : Leases × Bool :=
  match findbyipaddr cfg ipaddr leases with
  | none => (leases, true)
  | some ndx =>
    let (lease, expired) := leaseexpired now (leases ndx)
    (update leases ndx lease, expired)

/-- The loop of `dhcpd_allocipaddr` over the addresses. -/
def allocLoop (now : ℕ) : List ℕ → Leases → Leases × ℕ
  | [], leases => (leases, 0)
  | ipaddr :: ipaddrs, leases =>
    if ipaddr % 256 = 0 ∨ ipaddr % 256 = 255 then allocLoop now ipaddrs leases
    else
      match freeOrExpired cfg now ipaddr leases with
      | (leases, true) =>
        (update leases (ipaddr - cfg.startip)
          { mac := 0, allocated := true, expiry := uint32 (now + cfg.offertime) }, ipaddr)
      | (leases, false) => allocLoop now ipaddrs leases

/-- **`dhcpd_allocipaddr`**: zero if there is no address. -/
def allocipaddr : Leases × ℕ :=
  allocLoop cfg now ((List.range cfg.maxleases).map fun i => cfg.startip + i) leases

/-- **`dhcpd_verifyreqip`.** -/
def verifyreqip (now optreqip : ℕ) (leases : Leases) : Leases × Bool :=
  if cfg.startip ≤ optreqip ∧ optreqip ≤ endip cfg then freeOrExpired cfg now optreqip leases
  else (leases, false)

/-- **`dhcpd_verifyreqleasetime`**, with the lease time that is kept if the client has not asked for
one. -/
def verifyreqleasetime (optleasetime leasetime : ℕ) : ℕ :=
  if optleasetime ≠ 0 then
    if cfg.maxleasetime < optleasetime then cfg.maxleasetime
    else if optleasetime < cfg.minleasetime then cfg.minleasetime
    else optleasetime
  else leasetime

/-! ### The messages -/

/-- The address that `dhcpd_discover` chooses, for a client that is not in the table. -/
def chooseIpaddr : Leases × ℕ :=
  match verifyreqip cfg now msg.optreqip leases with
  | (leases, true) => (leases, msg.optreqip)
  | (leases, false) => allocipaddr cfg now leases

/-- The first half of `dhcpd_discover`: the table, the address and the lease time. -/
def selectIpaddr : Leases × ℕ × ℕ :=
  match findbymac cfg msg.chaddr leases with
  | some ndx =>
    let (lease, expired) := leaseexpired now (leases ndx)
    let leasetime :=
      if expired then cfg.leasetime
      else max (uint32 ((lease.expiry : ℤ) - now)) cfg.minleasetime
    (update leases ndx lease, leaseipaddr cfg ndx, leasetime)
  | none =>
    let (leases, ipaddr) := chooseIpaddr cfg now msg leases
    (leases, ipaddr, cfg.leasetime)

/-- **`dhcpd_discover`**: the address is reserved also if the offer cannot be sent. -/
def discover (sent : Bool) (msg : Msg) (leases : Leases) : Leases × Reply :=
  let (leases, ipaddr, leasetime) := selectIpaddr cfg now msg leases
  if ipaddr = 0 then (leases, .silent)
  else
    match setlease cfg now msg.chaddr ipaddr cfg.offertime leases with
    | none => (leases, .silent)
    | some leases =>
      (leases, if sent then .offer ipaddr (verifyreqleasetime cfg msg.optleasetime leasetime)
        else .silent)

/-- **`dhcpd_sendack`**: there is no lease if the answer cannot be sent. -/
def sendack (sent : Bool) (msg : Msg) (ipaddr : ℕ) (leases : Leases) : Leases × Reply :=
  let leasetime := verifyreqleasetime cfg msg.optleasetime cfg.leasetime
  if sent then
    ((setlease cfg now msg.chaddr ipaddr leasetime leases).getD leases, .ack ipaddr leasetime)
  else (leases, .silent)

/-- The test of a request of a client that has an entry: whether it is acknowledged. -/
def consistent : Bool :=
  if msg.optserverip ≠ 0 then
    msg.optserverip = cfg.serverip ∧ (msg.optreqip ≠ 0 ∨ msg.optreqip = ipaddr)
  else if msg.optreqip ≠ 0 then ipaddr = msg.optreqip
  else ipaddr = msg.ciaddr

/-- **`dhcpd_request`.** -/
def request (sent : Bool) (msg : Msg) (leases : Leases) : Leases × Reply :=
  match findbymac cfg msg.chaddr leases with
  | some ndx =>
    if consistent cfg msg (leaseipaddr cfg ndx) then
      sendack cfg now sent msg (leaseipaddr cfg ndx) leases
    else (leases, .nak)
  | none =>
    if msg.optreqip ≠ 0 ∧ msg.optserverip = 0 then
      match findbyipaddr cfg msg.optreqip leases with
      | some ndx =>
        let (lease, expired) := leaseexpired now (leases ndx)
        (update leases ndx lease, if expired then .silent else .nak)
      | none =>
        if msg.optreqip < cfg.startip ∨ endip cfg < msg.optreqip then (leases, .nak)
        else (leases, .silent)
    else (leases, .silent)

/-- **`dhcpd_decline`.** -/
def decline : Leases :=
  match findbymac cfg msg.chaddr leases with
  | some ndx =>
    update leases ndx
      { leases ndx with mac := 0, expiry := uint32 (now + cfg.declinetime) }
  | none => leases

/-- **`dhcpd_release`.** -/
def release : Leases :=
  match findbymac cfg msg.chaddr leases with
  | some ndx => update leases ndx {}
  | none => leases

/-- **One message**, as `dhcpd_run` processes it. -/
def process (sent : Bool) (msg : Msg) (leases : Leases) : Leases × Reply :=
  match msg.msgtype with
  | .discover => discover cfg now sent msg leases
  | .request => request cfg now sent msg leases
  | .decline => (decline cfg now msg leases, .silent)
  | .release => (release cfg msg leases, .silent)

end GreenboneFeeder.Dhcpd
