import GreenboneFeeder.Lib.Bytes
import GreenboneFeeder.Lib.EndAround
import Mathlib.Algebra.Group.Nat.Even

/-!
# Internet checksums

The checksums of `net/utils/net_chksum.c`, over the packet in the buffer of the driver, and
`tcp_ipv4_sendcomplete` of `net/tcp/tcp_send.c`, which fills them in. The buffer is a memory of
bytes; a `uint16_t` is stored in the byte order of the host.

The loop adds the carry after every word. That this makes the one's complement sum is
`Net.toNat_chksum`, and that the receiver gets `0xffff` is `Net.chksums_of_sendcomplete`.
-/

namespace GreenboneFeeder.Net

open List Bytes EndAround

/-! ### The sum -/

/-- One round of the loop: `sum += t; if (sum < t) sum++;`. -/
def addCarry (sum t : UInt16) : UInt16 :=
  let sum := sum + t
  if sum < t then sum + 1 else sum

/-- `chksum`, over the bytes from `dataptr` on. -/
def chksum (sum : UInt16) : List UInt8 → UInt16
  | [] => sum
  | [b] => addCarry sum (b.toUInt16 <<< 8)
  | a :: b :: rest => chksum (addCarry sum ((a.toUInt16 <<< 8) + b.toUInt16)) rest

/-- The big-endian words of a string of bytes, a last odd byte being padded with zero. -/
def words : List UInt8 → List ℕ
  | [] => []
  | [b] => [b.toNat * 0x100]
  | a :: b :: rest => (a.toNat * 0x100 + b.toNat) :: words rest

/-! ### The packet -/

/-- The part of `struct net_driver_s` that the checksums use: the buffer, the length of the
packet, the size of the link layer header and the largest packet. -/
structure Driver where
  dBuf : Bytes
  dLen : UInt16
  llHdrlen : ℕ
  mtu : UInt16

variable (bigEndian : Bool) (dev : Driver)

/-- `HTONS`. -/
def htons (v : UInt16) : UInt16 :=
  if bigEndian then v else (v &&& 0xff) <<< 8 ||| (v >>> 8 &&& 0xff)

/-- A `uint16_t` is stored in the byte order of the host. -/
def store16 (m : Bytes) (a : ℕ) (v : UInt16) : Bytes :=
  if bigEndian then (m.write a (v >>> 8).toUInt8).write (a + 1) v.toUInt8
  else (m.write a v.toUInt8).write (a + 1) (v >>> 8).toUInt8

/-- What a checksum function returns for a sum. -/
def finish (sum : UInt16) : UInt16 :=
  if sum = 0 then 0xffff else htons bigEndian sum

namespace Driver

/-- The address of a byte of the IPv4 header, `IPv4BUF`. -/
def ip (i : ℕ) : ℕ := dev.llHdrlen + i

/-- The address of a byte behind the IPv4 header, `TCPIPv4BUF`. -/
def tcp (i : ℕ) : ℕ := dev.llHdrlen + 20 + i

/-- The payload length that the IPv4 header claims. -/
def upperlen : UInt16 :=
  ((dev.dBuf (dev.ip 2)).toUInt16 <<< 8) + (dev.dBuf (dev.ip 3)).toUInt16 - 20

/-- `ipv4_upperlayer_chksum`. -/
def ipv4UpperlayerChksum (proto : UInt8) : UInt16 :=
  if dev.upperlen > dev.mtu then 0
  else
    let sum := dev.upperlen + proto.toUInt16
    let sum := chksum sum (dev.dBuf.slice (dev.ip 12) 8)
    finish bigEndian (chksum sum (dev.dBuf.slice (dev.tcp 0) dev.upperlen.toNat))

/-- `tcp_ipv4_chksum`. -/
def tcpIpv4Chksum : UInt16 :=
  dev.ipv4UpperlayerChksum bigEndian 6

/-- `ipv4_chksum`. -/
def ipv4Chksum : UInt16 :=
  finish bigEndian (chksum 0 (dev.dBuf.slice (dev.ip 0) 20))

/-- Writes a byte of the buffer. -/
def put (a : ℕ) (c : UInt8) : Driver := { dev with dBuf := dev.dBuf.write a c }

/-- Stores a `uint16_t` in the buffer. -/
def put16 (a : ℕ) (v : UInt16) : Driver :=
  { dev with dBuf := store16 bigEndian dev.dBuf a v }

/-- The fields that the TCP checksum needs: `proto`, `ttl`, `len`, `urgp`, and no checksum. -/
def prepareTcp : Driver :=
  let dev := dev.put (dev.ip 9) 6
  let dev := dev.put (dev.ip 8) 64
  let dev := dev.put (dev.ip 2) (dev.dLen >>> 8).toUInt8
  let dev := dev.put (dev.ip 3) (dev.dLen &&& 0xff).toUInt8
  let dev := dev.put (dev.tcp 18) 0
  let dev := dev.put (dev.tcp 19) 0
  dev.put16 bigEndian (dev.tcp 16) 0

/-- The rest of the IPv4 header: `vhl`, `tos`, `ipoffset`, `ipid`, and no checksum. -/
def prepareIpv4 (ipid : UInt16) (dev : Driver) : Driver :=
  let dev := dev.put (dev.ip 0) 0x45
  let dev := dev.put (dev.ip 1) 0
  let dev := dev.put (dev.ip 6) 0
  let dev := dev.put (dev.ip 7) 0
  let dev := dev.put (dev.ip 4) (ipid >>> 8).toUInt8
  let dev := dev.put (dev.ip 5) (ipid &&& 0xff).toUInt8
  dev.put16 bigEndian (dev.ip 10) 0

/-- The TCP checksum is filled in. -/
def stampTcp : Driver :=
  dev.put16 bigEndian (dev.tcp 16) (~~~dev.tcpIpv4Chksum bigEndian)

/-- The checksum of the IPv4 header is filled in. -/
def stampIpv4 : Driver :=
  dev.put16 bigEndian (dev.ip 10) (~~~dev.ipv4Chksum bigEndian)

/-- **`tcp_ipv4_sendcomplete`**; `ipid` is `g_ipid`, which is counted up. -/
def tcpIpv4Sendcomplete (ipid : UInt16) (dev : Driver) : Driver × UInt16 :=
  let dev := (dev.prepareTcp bigEndian).stampTcp bigEndian
  ((dev.prepareIpv4 bigEndian (ipid + 1)).stampIpv4 bigEndian, ipid + 1)

end Driver

/-! ### The loop makes the one's complement sum -/

theorem toNat_shift_byte (b : UInt8) : (b.toUInt16 <<< 8).toNat = b.toNat * 0x100 := by
  have hb := b.toNat_lt
  simp only [UInt16.toNat_shiftLeft, UInt8.toNat_toUInt16, UInt16.reduceToNat, Nat.reduceMod,
    Nat.shiftLeft_eq]
  omega

theorem toNat_word (a b : UInt8) :
    ((a.toUInt16 <<< 8) + b.toUInt16).toNat = a.toNat * 0x100 + b.toNat := by
  have ha := a.toNat_lt
  have hb := b.toNat_lt
  rw [UInt16.toNat_add, toNat_shift_byte, UInt8.toNat_toUInt16]
  omega

theorem toNat_addCarry (s t : UInt16) :
    (addCarry s t).toNat = add 0xffff s.toNat t.toNat := by
  have hs := s.toNat_lt
  have ht := t.toNat_lt
  simp only [addCarry, add, UInt16.lt_iff_toNat_lt]
  split <;> split <;> simp only [UInt16.toNat_add, UInt16.toNat_one] at * <;> omega

/-- **`chksum` is the one's complement sum of the big-endian words.** -/
theorem toNat_chksum :
    ∀ (s : UInt16) (l : List UInt8),
      (chksum s l).toNat = (words l).foldl (add 0xffff) s.toNat
  | s, [] => rfl
  | s, [b] => by
    rw [chksum, toNat_addCarry, toNat_shift_byte]
    rfl
  | s, a :: b :: rest => by
    rw [chksum, words, foldl_cons, toNat_chksum _ rest, toNat_addCarry, toNat_word]

theorem words_append : ∀ {l : List UInt8} (l' : List UInt8), Even l.length →
    words (l ++ l') = words l ++ words l'
  | [], _, _ => rfl
  | [_], _, h => absurd h (by simp)
  | a :: b :: rest, l', h => by
    have hrest : Even rest.length := by
      simpa [Nat.even_add_one] using h
    rw [cons_append, cons_append, words, words, words_append l' hrest, cons_append]

/-- **A sum can be continued** behind an even number of bytes. -/
theorem chksum_append (s : UInt16) {l : List UInt8} (l' : List UInt8) (h : Even l.length) :
    chksum (chksum s l) l' = chksum s (l ++ l') := by
  rw [← UInt16.toNat_inj, toNat_chksum, toNat_chksum, toNat_chksum, words_append l' h, foldl_append]

/-! ### The checksum makes the sum come out -/

theorem words_le : ∀ {l : List UInt8} {x : ℕ}, x ∈ words l → x ≤ 0xffff
  | [], _, h => absurd h not_mem_nil
  | [b], x, h => by
    have hb := b.toNat_lt
    obtain rfl := mem_singleton.mp h
    omega
  | a :: b :: rest, x, h => by
    have ha := a.toNat_lt
    have hb := b.toNat_lt
    rcases mem_cons.mp h with rfl | h
    · omega
    · exact words_le h

theorem toNat_chksum_eq_residue (s : UInt16) (l : List UInt8) :
    (chksum s l).toNat = residue 0xffff (s.toNat + (words l).sum) := by
  have hs := s.toNat_lt
  rw [toNat_chksum, foldl_add (by decide) (by omega) fun x hx => words_le hx]

theorem finish_of_toNat {bigEndian : Bool} {s : UInt16} (h : s.toNat = 0 ∨ s.toNat = 0xffff) :
    finish bigEndian s = 0xffff := by
  rcases h with h | h
  · have hs : s = 0 := UInt16.toNat_inj.mp h
    rw [hs]
    rfl
  · have hs : s = 0xffff := UInt16.toNat_inj.mp h
    rw [hs]
    cases bigEndian <;> decide

/-- **The complement of the sum, put in the place of a zero word, completes the sum.** -/
theorem finish_chksum_complement {bigEndian : Bool} {s : UInt16} {pre : List UInt8}
    {post : List UInt8} (hpre : Even pre.length) {hi lo : UInt8}
    (hfield : hi.toNat * 0x100 + lo.toNat
      = 0xffff - (finish true (chksum s (pre ++ [0, 0] ++ post))).toNat) :
    finish bigEndian (chksum s (pre ++ [hi, lo] ++ post)) = 0xffff := by
  have hsum : ∀ x y : UInt8, (words (pre ++ [x, y] ++ post)).sum
      = (words pre).sum + (words post).sum + (x.toNat * 0x100 + y.toNat) := by
    intro x y
    rw [append_assoc, words_append _ hpre, cons_append, cons_append,
      nil_append, words, sum_append, sum_cons]
    omega
  generalize hT : s.toNat + ((words pre).sum + (words post).sum) = T at *
  have hzero : (chksum s (pre ++ [0, 0] ++ post)).toNat = residue 0xffff T := by
    rw [toNat_chksum_eq_residue, hsum, ← hT]
    rfl
  have hfull : (chksum s (pre ++ [hi, lo] ++ post)).toNat
      = residue 0xffff (T + (hi.toNat * 0x100 + lo.toNat)) := by
    rw [toNat_chksum_eq_residue, hsum, ← hT, Nat.add_assoc s.toNat]
  refine finish_of_toNat ?_
  rw [hfull, hfield]
  by_cases h0 : chksum s (pre ++ [0, 0] ++ post) = 0
  · -- nothing but zeros: the checksum is zero as well
    left
    rw [h0] at hzero ⊢
    have hT0 : T = 0 := residue_eq_zero_iff.mp hzero.symm
    rw [hT0]
    rfl
  · right
    rw [finish, if_neg h0]
    show residue 0xffff (T + (0xffff - (chksum s (pre ++ [0, 0] ++ post)).toNat)) = _
    rw [hzero]
    exact residue_add_complement (by decide)

/-! ### Storing the checksum -/

theorem store16_of_ne {bigEndian : Bool} {m : Bytes} {a x : ℕ} {v : UInt16} (h : x ≠ a)
    (h' : x ≠ a + 1) : store16 bigEndian m a v x = m x := by
  rw [store16]
  split <;> rw [write_of_ne h', write_of_ne h]

theorem toNat_high (v : UInt16) : (v >>> 8).toUInt8.toNat = v.toNat / 0x100 := by
  have hv := v.toNat_lt
  simp only [UInt16.toNat_toUInt8, UInt16.toNat_shiftRight, UInt16.reduceToNat, Nat.reduceMod,
    Nat.shiftRight_eq_div_pow]
  omega

theorem toNat_htons_false (v : UInt16) :
    (htons false v).toNat = v.toNat % 0x100 * 0x100 + v.toNat / 0x100 := by
  have hv := v.toNat_lt
  have hand : ∀ n : ℕ, n &&& 255 = n % 256 := fun n => Nat.and_two_pow_sub_one_eq_mod n 8
  have hlow : (v.toNat % 256) <<< 8 % 65536 = (v.toNat % 256) <<< 8 :=
    Nat.mod_eq_of_lt (by omega)
  have hhigh : v.toNat / 256 % 256 = v.toNat / 256 := Nat.mod_eq_of_lt (by omega)
  have hval : (htons false v).toNat = (v.toNat % 256) <<< 8 ||| v.toNat / 256 := by
    simp [htons, hand, hlow, hhigh, Nat.shiftRight_eq_div_pow]
  rw [hval, ← Nat.shiftLeft_add_eq_or_of_lt (by omega), Nat.shiftLeft_eq]

/-- **In either byte order the field holds the complement of the sum**, most significant
byte first. -/
theorem store16_complement (bigEndian : Bool) (m : Bytes) (a : ℕ) (s : UInt16) :
    (store16 bigEndian m a (~~~finish bigEndian s) a).toNat * 0x100
      + (store16 bigEndian m a (~~~finish bigEndian s) (a + 1)).toNat
      = 0xffff - (finish true s).toNat := by
  have hs := s.toNat_lt
  have hnot : ∀ v : UInt16, (~~~v).toNat = 0xffff - v.toNat := fun v => by simp
  have hlow : ∀ v : UInt16, v.toUInt8.toNat = v.toNat % 0x100 := fun v => UInt16.toNat_toUInt8 v
  rw [store16]
  cases bigEndian with
  | true =>
    rw [if_pos rfl, write_self, write_of_ne (by omega), write_self, toNat_high, hlow, hnot]
    omega
  | false =>
    rw [if_neg Bool.false_ne_true, write_self, write_of_ne (by omega),
      write_self, toNat_high, hlow, hnot, finish, finish]
    split
    · rfl
    · rw [toNat_htons_false]
      show _ = 0xffff - s.toNat
      omega

/-- **A checksum field that was zero is filled in**: the sum over the bytes around it comes
out. -/
theorem finish_chksum_store16 (bigEndian : Bool) (s : UInt16) (m : Bytes) (a : ℕ) {f n : ℕ}
    (hf : Even f) (hn : f + 2 ≤ n) (h0 : m (a + f) = 0) (h1 : m (a + f + 1) = 0) :
    finish bigEndian (chksum s
      ((store16 bigEndian m (a + f)
        (~~~finish bigEndian (chksum s (m.slice a n)))).slice a n)) = 0xffff := by
  obtain ⟨r, rfl⟩ := Nat.exists_eq_add_of_le hn
  have hslice : ∀ m' : Bytes, m'.slice a (f + 2 + r)
      = m'.slice a f ++ [m' (a + f), m' (a + f + 1)] ++ m'.slice (a + f + 2) r := by
    intro m'
    rw [slice_add, slice_add]
    rfl
  have hzero : m.slice a (f + 2 + r) = m.slice a f ++ [0, 0] ++ m.slice (a + f + 2) r := by
    rw [hslice, h0, h1]
  have hfield := store16_complement bigEndian m (a + f) (chksum s (m.slice a (f + 2 + r)))
  rw [hzero] at hfield
  rw [hslice, hzero]
  -- outside the field nothing has changed
  rw [slice_congr fun x _ hx => store16_of_ne (by omega) (by omega),
    slice_congr fun x hx _ => store16_of_ne (by omega) (by omega)]
  exact finish_chksum_complement (by simpa using hf) hfield

/-! ### The packet that was sent -/

namespace Driver

variable {bigEndian : Bool} {dev dev' : Driver}

/-- **Nothing is changed that the TCP checksum depends on**: the length in the IPv4 header, the
addresses, and what follows. -/
structure KeepsTcp (dev dev' : Driver) : Prop where
  llHdrlen : dev'.llHdrlen = dev.llHdrlen
  mtu : dev'.mtu = dev.mtu
  len0 : dev'.dBuf (dev.ip 2) = dev.dBuf (dev.ip 2)
  len1 : dev'.dBuf (dev.ip 3) = dev.dBuf (dev.ip 3)
  behind : ∀ x, dev.ip 12 ≤ x → dev'.dBuf x = dev.dBuf x

theorem upperlen_congr (hll : dev'.llHdrlen = dev.llHdrlen)
    (h2 : dev'.dBuf (dev.ip 2) = dev.dBuf (dev.ip 2))
    (h3 : dev'.dBuf (dev.ip 3) = dev.dBuf (dev.ip 3)) : dev'.upperlen = dev.upperlen := by
  rw [upperlen, ip, ip, hll]
  exact congrArg₂ (fun a b : UInt8 => (a.toUInt16 <<< 8) + b.toUInt16 - 20) h2 h3

theorem KeepsTcp.tcpIpv4Chksum_eq (h : KeepsTcp dev dev') :
    dev'.tcpIpv4Chksum bigEndian = dev.tcpIpv4Chksum bigEndian := by
  have hupper := upperlen_congr h.llHdrlen h.len0 h.len1
  have haddr : dev'.dBuf.slice (dev'.ip 12) 8 = dev.dBuf.slice (dev.ip 12) 8 := by
    rw [ip, h.llHdrlen]
    exact slice_congr fun x hx _ => h.behind x hx
  have hseg : dev'.dBuf.slice (dev'.tcp 0) dev.upperlen.toNat
      = dev.dBuf.slice (dev.tcp 0) dev.upperlen.toNat := by
    rw [tcp, h.llHdrlen]
    refine slice_congr fun x hx _ => h.behind x ?_
    rw [ip]
    omega
  rw [tcpIpv4Chksum, tcpIpv4Chksum, ipv4UpperlayerChksum, ipv4UpperlayerChksum, hupper, h.mtu,
    haddr, hseg]

/-- **The header checksum is right once it is filled in.** -/
theorem ipv4Chksum_stampIpv4 (h10 : dev.dBuf (dev.ip 10) = 0) (h11 : dev.dBuf (dev.ip 11) = 0) :
    (dev.stampIpv4 bigEndian).ipv4Chksum bigEndian = 0xffff :=
  finish_chksum_store16 bigEndian 0 dev.dBuf (dev.ip 0) (by decide : Even 10)
    (by decide : 10 + 2 ≤ 20) h10 h11

/-- **The TCP checksum is right once it is filled in.** -/
theorem tcpIpv4Chksum_stampTcp (hmtu : dev.upperlen ≤ dev.mtu) (hlen : 18 ≤ dev.upperlen.toNat)
    (h16 : dev.dBuf (dev.tcp 16) = 0) (h17 : dev.dBuf (dev.tcp 17) = 0) :
    (dev.stampTcp bigEndian).tcpIpv4Chksum bigEndian = 0xffff := by
  have hmtu : ¬dev.upperlen > dev.mtu := UInt16.not_lt.mpr hmtu
  -- the length and the addresses lie in front of the field
  have hold : ∀ x, x < dev.tcp 16 → (dev.stampTcp bigEndian).dBuf x = dev.dBuf x := by
    intro x hx
    exact store16_of_ne (by omega) (by omega)
  have hlt : ∀ i, i < 36 → dev.ip i < dev.tcp 16 := by
    intro i hi
    rw [ip, tcp]
    omega
  have hupper : (dev.stampTcp bigEndian).upperlen = dev.upperlen :=
    upperlen_congr rfl (hold _ (hlt 2 (by decide))) (hold _ (hlt 3 (by decide)))
  have haddr :
      (dev.stampTcp bigEndian).dBuf.slice (dev.ip 12) 8 = dev.dBuf.slice (dev.ip 12) 8 := by
    refine slice_congr fun x _ hx => hold x ?_
    rw [ip] at hx
    rw [tcp]
    omega
  have hfield := finish_chksum_store16 bigEndian
    (chksum (dev.upperlen + (6 : UInt8).toUInt16) (dev.dBuf.slice (dev.ip 12) 8))
    dev.dBuf (dev.tcp 0) (by decide : Even 16) hlen h16 h17
  have hold' : dev.tcpIpv4Chksum bigEndian = finish bigEndian (chksum
      (chksum (dev.upperlen + (6 : UInt8).toUInt16) (dev.dBuf.slice (dev.ip 12) 8))
      (dev.dBuf.slice (dev.tcp 0) dev.upperlen.toNat)) := by
    rw [tcpIpv4Chksum, ipv4UpperlayerChksum, if_neg hmtu]
  rw [← hold'] at hfield
  have hmtu' : ¬(dev.stampTcp bigEndian).upperlen > (dev.stampTcp bigEndian).mtu := by
    rw [hupper]
    exact hmtu
  rw [tcpIpv4Chksum, ipv4UpperlayerChksum, if_neg hmtu', hupper]
  show finish bigEndian (chksum (chksum _ ((dev.stampTcp bigEndian).dBuf.slice (dev.ip 12) 8))
    _) = _
  rw [haddr]
  exact hfield

/-! ### The fields around the checksums -/

@[simp] theorem put_llHdrlen (a : ℕ) (c : UInt8) : (dev.put a c).llHdrlen = dev.llHdrlen := rfl
@[simp] theorem put_dLen (a : ℕ) (c : UInt8) : (dev.put a c).dLen = dev.dLen := rfl

theorem put_of_ne {a x : ℕ} {c : UInt8} (h : x ≠ a) : (dev.put a c).dBuf x = dev.dBuf x :=
  write_of_ne h

theorem put_self {a : ℕ} {c : UInt8} : (dev.put a c).dBuf a = c := write_self

theorem put16_of_ne {a x : ℕ} {v : UInt16} (h : x ≠ a) (h' : x ≠ a + 1) :
    (dev.put16 bigEndian a v).dBuf x = dev.dBuf x :=
  store16_of_ne h h'

theorem put16_zero {a : ℕ} :
    (dev.put16 bigEndian a 0).dBuf a = 0 ∧ (dev.put16 bigEndian a 0).dBuf (a + 1) = 0 := by
  have h : a ≠ a + 1 := by omega
  rw [put16, store16]
  dsimp only
  split
  · exact ⟨by rw [write_of_ne h, write_self]; rfl, write_self⟩
  · exact ⟨by rw [write_of_ne h, write_self]; rfl, write_self⟩

theorem upperlen_prepareTcp : (dev.prepareTcp bigEndian).upperlen = dev.dLen - 20 := by
  have hlow : (dev.dLen &&& 0xff).toUInt8.toNat = dev.dLen.toNat % 0x100 := by
    have hand : ∀ n : ℕ, n &&& 255 = n % 256 := fun n => Nat.and_two_pow_sub_one_eq_mod n 8
    simp [hand]
  have h2 : (dev.prepareTcp bigEndian).dBuf (dev.ip 2) = (dev.dLen >>> 8).toUInt8 := by
    rw [prepareTcp, put16_of_ne, put_of_ne, put_of_ne, put_of_ne]
    · exact put_self
    all_goals
      simp only [ip, tcp, put_llHdrlen]
      omega
  have h3 : (dev.prepareTcp bigEndian).dBuf (dev.ip 3) = (dev.dLen &&& 0xff).toUInt8 := by
    rw [prepareTcp, put16_of_ne, put_of_ne, put_of_ne]
    · exact put_self
    all_goals
      simp only [ip, tcp, put_llHdrlen]
      omega
  have hword : ((dev.dLen >>> 8).toUInt8.toUInt16 <<< 8) + (dev.dLen &&& 0xff).toUInt8.toUInt16
      = dev.dLen := by
    rw [← UInt16.toNat_inj, toNat_word, toNat_high]
    omega
  show ((dev.prepareTcp bigEndian).dBuf (dev.ip 2)).toUInt16 <<< 8
    + ((dev.prepareTcp bigEndian).dBuf (dev.ip 3)).toUInt16 - 20 = _
  rw [h2, h3, hword]

theorem keepsTcp_prepareIpv4 {ipid : UInt16} : KeepsTcp dev (dev.prepareIpv4 bigEndian ipid) := by
  have hframe : ∀ x, x = dev.ip 2 ∨ x = dev.ip 3 ∨ dev.ip 12 ≤ x →
      (dev.prepareIpv4 bigEndian ipid).dBuf x = dev.dBuf x := by
    intro x hx
    simp only [ip] at hx
    rw [prepareIpv4, put16_of_ne, put_of_ne, put_of_ne, put_of_ne, put_of_ne, put_of_ne, put_of_ne]
    all_goals
      simp only [ip, put_llHdrlen]
      omega
  exact ⟨rfl, rfl, hframe _ (.inl rfl), hframe _ (.inr (.inl rfl)),
    fun x hx => hframe x (.inr (.inr hx))⟩

theorem keepsTcp_stampIpv4 : KeepsTcp dev (dev.stampIpv4 bigEndian) := by
  have hframe : ∀ x, x ≠ dev.ip 10 → x ≠ dev.ip 10 + 1 →
      (dev.stampIpv4 bigEndian).dBuf x = dev.dBuf x :=
    fun x h h' => store16_of_ne h h'
  refine ⟨rfl, rfl, hframe _ ?_ ?_, hframe _ ?_ ?_, fun x hx => hframe x ?_ ?_⟩ <;>
    simp only [ip] at * <;> omega

end Driver

/-- **Checksums made by the sender are accepted by the receiver.** A packet with both headers that
fits the buffer gets its checksums from `tcp_ipv4_sendcomplete`; the sums over the IPv4 header and
over the pseudo-header and the segment are then both `0xffff`, in either byte order. And `chksum` is
the one's complement sum of the big-endian words, which can be continued behind an even number of
bytes. -/
theorem chksums_of_sendcomplete (bigEndian : Bool) (ipid : UInt16) (dev : Driver)
    (hhdr : 40 ≤ dev.dLen.toNat) (hfits : dev.llHdrlen + dev.dLen.toNat ≤ dev.mtu.toNat) :
    ((dev.tcpIpv4Sendcomplete bigEndian ipid).1.ipv4Chksum bigEndian = 0xffff ∧
      (dev.tcpIpv4Sendcomplete bigEndian ipid).1.tcpIpv4Chksum bigEndian = 0xffff) ∧
    (∀ (s : UInt16) (l : List UInt8),
      (chksum s l).toNat = (words l).foldl (add 0xffff) s.toNat) ∧
    ∀ (s : UInt16) (l l' : List UInt8), Even l.length →
      chksum (chksum s l) l' = chksum s (l ++ l') := by
  refine ⟨⟨?_, ?_⟩, toNat_chksum, fun s l l' h => chksum_append s l' h⟩
  · obtain ⟨h10, h11⟩ := Driver.put16_zero
    exact Driver.ipv4Chksum_stampIpv4 h10 h11
  · have hsent : ((dev.prepareTcp bigEndian).stampTcp bigEndian).tcpIpv4Chksum bigEndian
        = 0xffff := by
      have hlen : (dev.prepareTcp bigEndian).upperlen.toNat = dev.dLen.toNat - 20 := by
        have hlt := dev.dLen.toNat_lt
        rw [Driver.upperlen_prepareTcp, UInt16.toNat_sub]
        simp only [UInt16.reduceToNat]
        omega
      obtain ⟨h16, h17⟩ := Driver.put16_zero
      refine Driver.tcpIpv4Chksum_stampTcp ?_ (by omega) h16 h17
      rw [UInt16.le_iff_toNat_le]
      show _ ≤ dev.mtu.toNat
      omega
    rw [Driver.tcpIpv4Sendcomplete, Driver.keepsTcp_stampIpv4.tcpIpv4Chksum_eq,
      Driver.keepsTcp_prepareIpv4.tcpIpv4Chksum_eq]
    exact hsent

/-- A packet with one byte of data behind an Ethernet header. -/
def Driver.sample : Driver where
  dBuf i := UInt8.ofNat (3 * i)
  dLen := 41
  llHdrlen := 14
  mtu := 1500

theorem chksums_of_sendcomplete_odd :
    Driver.sample.dLen.toNat = 41 ∧
      (Driver.sample.tcpIpv4Sendcomplete false 7).1.ipv4Chksum false = 0xffff ∧
      (Driver.sample.tcpIpv4Sendcomplete false 7).1.tcpIpv4Chksum false = 0xffff :=
  ⟨rfl, (chksums_of_sendcomplete false 7 Driver.sample (by decide) (by decide)).1⟩

end GreenboneFeeder.Net
