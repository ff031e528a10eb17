import GreenboneFeeder.Gran.Model

/-!
# Granule allocations do not overlap

The table and the ranges handed out agree (`Gran.Sound`) as long as the address an allocation
returns is that of the granules its search found free. It is when the search shifts the window by 32
bits in every entry it passes over (`Gran.passesWhole`). An entry may be left sooner, when only ones
are left in the window, and later, when the last shift is a long one; an allocation made behind such
an entry may lie on another one (`Gran.allocation_overlaps`).

No shift jumps over a granule that is free (`Gran.Follows.le_of_free`). So the search finds the
first entry in which there is room, and it passes whole entries if those before it are full or have
their last granule free (`Gran.Clear`, `Gran.passesWhole_of_clear`). Marking and freeing alone are
exact (`Gran.granMarkAllocated_exact`).
-/

namespace GreenboneFeeder.Gran

open Bitmap

variable {p : Heap} {beyond mask a size : BitVec 32} {n i j k granidx entries : ℕ} {s t : Scan}

/-! ### Addresses of granules -/

/-- The address of a granule. -/
def Heap.addrOf (p : Heap) (i : ℕ) : BitVec 32 := p.heapstart + (BitVec.ofNat 32 i <<< p.log2gran)

theorem addrOf_zero : p.addrOf 0 = p.heapstart := by
  simp [Heap.addrOf]

theorem addrOf_add : p.addrOf (i + j) = p.addrOf i + (BitVec.ofNat 32 j <<< p.log2gran) := by
  rw [Heap.addrOf, Heap.addrOf, BitVec.ofNat_add, BitVec.shiftLeft_add_distrib, BitVec.add_assoc]

theorem offset_lt (hi : i < p.ngranules) : p.heapstart.toNat + i * 2 ^ p.log2gran < 2 ^ 32 := by
  have hlt : i * 2 ^ p.log2gran < p.ngranules * 2 ^ p.log2gran :=
    Nat.mul_lt_mul_of_pos_right hi (Nat.two_pow_pos _)
  have := p.fits
  omega

theorem toNat_offset (hi : i < p.ngranules) :
    (BitVec.ofNat 32 i <<< p.log2gran).toNat = i * 2 ^ p.log2gran := by
  have hlt := offset_lt hi
  have hle : i ≤ i * 2 ^ p.log2gran := Nat.le_mul_of_pos_right i (Nat.two_pow_pos _)
  rw [BitVec.toNat_shiftLeft, BitVec.toNat_ofNat, Nat.mod_eq_of_lt (a := i) (by omega),
    Nat.shiftLeft_eq, Nat.mod_eq_of_lt (by omega)]

theorem toNat_addrOf (hi : i < p.ngranules) :
    (p.addrOf i).toNat = p.heapstart.toNat + i * 2 ^ p.log2gran := by
  rw [Heap.addrOf, BitVec.toNat_add, toNat_offset hi, Nat.mod_eq_of_lt (offset_lt hi)]

theorem granno_addrOf (hi : i < p.ngranules) : p.granno (p.addrOf i) = i := by
  rw [Heap.granno, Heap.addrOf, BitVec.add_comm, BitVec.add_sub_cancel, BitVec.toNat_ushiftRight,
    toNat_offset hi, Nat.shiftRight_eq_div_pow, Nat.mul_div_cancel _ (Nat.two_pow_pos _)]

/-! ### The table after a call -/

/-- The heap with another table. -/
def Heap.withGat (p : Heap) (gat : ℕ → BitVec 32) : Heap := { p with gat }

theorem granMarkAllocated_eq :
    granMarkAllocated p a n = p.withGat (onInterval (· ||| ·) (p.granno a) n p.gat) := by
  rw [granMarkAllocated, onInterval]
  split <;> rfl

theorem granCommonFree_eq :
    granCommonFree p a size =
      p.withGat (onInterval (fun x m => x &&& ~~~m) (p.granno a) (p.granules size) p.gat) := by
  rw [granCommonFree, onInterval]
  split <;> rfl

theorem granules_of_toNat (hsize : size.toNat = n * 2 ^ p.log2gran) : p.granules size = n := by
  have hpos := Nat.two_pow_pos p.log2gran
  have hpow : 2 ^ p.log2gran < 2 ^ 32 := Nat.pow_lt_pow_right (by decide) p.log2gran_lt
  -- a multiple of the granule size below 2 ^ 32 leaves room for one more granule
  have hroom : (n + 1) * 2 ^ p.log2gran ≤ 2 ^ 32 := by
    have hlt := hsize ▸ size.isLt
    have hsplit : 2 ^ (32 - p.log2gran) * 2 ^ p.log2gran = 2 ^ 32 := by
      rw [← Nat.pow_add, Nat.sub_add_cancel (Nat.le_of_lt p.log2gran_lt)]
    rw [← hsplit] at hlt ⊢
    exact Nat.mul_le_mul_right _ (Nat.lt_of_mul_lt_mul_right hlt)
  rw [Nat.add_mul, Nat.one_mul] at hroom
  have hmask : (((1 <<< p.log2gran : ℕ) : BitVec 32) - 1).toNat = 2 ^ p.log2gran - 1 := by
    rw [Nat.one_shiftLeft, BitVec.natCast_eq_ofNat, BitVec.toNat_sub, BitVec.toNat_ofNat,
      Nat.mod_eq_of_lt hpow]
    change (2 ^ 32 - 1 + _) % 2 ^ 32 = _
    omega
  rw [Heap.granules, BitVec.toNat_ushiftRight, BitVec.toNat_add, hmask, hsize,
    Nat.mod_eq_of_lt (by omega), Nat.shiftRight_eq_div_pow, Nat.add_comm,
    Nat.add_mul_div_right _ _ hpos, Nat.div_eq_of_lt (by omega), Nat.zero_add]

/-- **Marking is exact, and freeing takes it back**: the bits of the range are set and no others,
and freeing the range at its address and with its size restores the heap. -/
theorem granMarkAllocated_exact (p : Heap) (g n : ℕ) (size : BitVec 32) (hn : 1 ≤ n) (hn' : n ≤ 32)
    (hin : g + n ≤ p.ngranules) (hfree : ∀ i, g ≤ i → i < g + n → bit p.gat i = false)
    (hsize : size.toNat = n * 2 ^ p.log2gran) :
    (∀ i, bit (granMarkAllocated p (p.addrOf g) n).gat i =
        (bit p.gat i || decide (g ≤ i ∧ i < g + n))) ∧
      granCommonFree (granMarkAllocated p (p.addrOf g) n) (p.addrOf g) size = p := by
  have hg : p.granno (p.addrOf g) = g := granno_addrOf (by omega)
  rw [granCommonFree_eq, granMarkAllocated_eq, hg]
  refine ⟨fun i => bit_mark hn', ?_⟩
  change p.withGat (onInterval _ (p.granno _) (p.granules _) (onInterval _ g n p.gat)) = p
  rw [hg, granules_of_toNat hsize]
  refine congrArg p.withGat (ext_bit fun i => ?_)
  rw [bit_clear hn', bit_mark hn']
  by_cases hi : g ≤ i ∧ i < g + n
  · simp [hi, hfree i hi.1 hi.2]
  · simp [hi]

/-! ### The search inside an entry -/

theorem shiftOf_some (h : shiftOf mask a = some k) : 1 ≤ k ∧ k ≤ 16 := by
  unfold shiftOf at h
  split_ifs at h <;> obtain rfl := Option.some.inj h <;> decide

theorem shiftOf_none (h : shiftOf mask a = none) : a &&& mask = 0#32 := by
  unfold shiftOf at h
  split_ifs at h
  assumption

/-- A shift by more than one bit is one over granules that are allocated. -/
theorem shiftOf_ones (h : shiftOf mask a = some k) (hj : j < k) (hfree : a.getLsbD j = false) :
    k = 1 ∧ a &&& mask ≠ 0#32 := by
  have hones : ∀ n ≤ 32, a &&& low n = low n → k = n → False := by
    rintro n hn hlow rfl
    rw [(and_low_eq_low_iff hn).mp hlow j hj] at hfree
    cases hfree
  unfold shiftOf at h
  split_ifs at h with h16 h8 h4 h2 hmask <;> obtain rfl := Option.some.inj h
  · exact (hones 16 (by decide) h16 rfl).elim
  · exact (hones 8 (by decide) h8 rfl).elim
  · exact (hones 4 (by decide) h4 rfl).elim
  · exact (hones 2 (by decide) h2 rfl).elim
  · exact ⟨rfl, hmask⟩

/-- The variables of the search agree: the address has moved as far as the window, which shows
the two words it began with. -/
structure Follows (p : Heap) (a curr next : BitVec 32) (s : Scan) : Prop where
  alloc : s.alloc = a + (BitVec.ofNat 32 s.bitidx <<< p.log2gran)
  window : Window (pair curr next) s.bitidx s.curr s.next

theorem Follows.advance {curr next : BitVec 32} (h : Follows p a curr next s) (hk : k ≤ 16) :
    Follows p a curr next (s.advance p.log2gran k) where
  alloc := by
    rw [Scan.advance, h.alloc, BitVec.ofNat_add, BitVec.shiftLeft_add_distrib, BitVec.add_assoc]
  window := h.window.shift (by omega)

section Free

variable {curr next : BitVec 32} {b : ℕ} (h : Follows p a curr next s) (hle : s.bitidx ≤ b)
  (hb : b < 32) (hfree : pair curr next b = false)

include h hle hb hfree

/-- The window shows a granule that is free until it has passed it. -/
theorem Follows.getLsbD_free : s.curr.getLsbD (b - s.bitidx) = false := by
  rw [h.window.curr _ (by omega), Nat.add_sub_cancel' hle, hfree]

theorem Follows.ne_allOnes : s.curr ≠ BitVec.allOnes 32 := by
  intro hones
  have hbit := h.getLsbD_free hle hb hfree
  rw [hones, BitVec.getLsbD_allOnes, decide_eq_false_iff_not] at hbit
  omega

/-- **No shift jumps over a granule that is free**: the search comes to it, and goes on by one. -/
theorem Follows.le_of_free (hk : shiftOf mask s.curr = some k) :
    s.bitidx + k ≤ b ∨ b = s.bitidx ∧ k = 1 ∧ s.curr &&& mask ≠ 0#32 := by
  by_contra hover
  obtain ⟨hlt, hone⟩ := not_or.mp hover
  obtain ⟨rfl, hmask⟩ := shiftOf_ones hk (by omega) (h.getLsbD_free hle hb hfree)
  exact hone ⟨by omega, rfl, hmask⟩

end Free

/-- **The search stops where there is room**, at the latest. -/
theorem searchEntry_of_room {curr next : BitVec 32} {b : ℕ} (hn : 1 ≤ n) (hn' : n ≤ 32)
    (hb : b < 32) (hin : granidx + b + n ≤ p.ngranules)
    (hroom : ∀ j < n, pair curr next (b + j) = false) : ∀ (rounds : ℕ) {s : Scan},
      Follows p a curr next s → s.bitidx ≤ b → 32 ≤ rounds + s.bitidx →
      (searchEntry p n granidx (low n) rounds s).2 = true
  | 0, s, _, hle, hrounds => by omega
  | rounds + 1, s, h, hle, hrounds => by
    have hfree : pair curr next b = false := hroom 0 hn
    rw [searchEntry, if_pos ⟨by omega, by omega⟩, if_neg (h.ne_allOnes hle hb hfree)]
    split
    · rfl
    · next k hk =>
      obtain ⟨hpos, hk16⟩ := shiftOf_some hk
      have hnext : s.bitidx + k ≤ b := by
        refine (h.le_of_free hle hb hfree hk).resolve_right fun ⟨heq, _, hmask⟩ => hmask ?_
        refine (and_low_eq_zero_iff hn').mpr fun j hj => ?_
        rw [h.window.curr j (by omega), ← heq, hroom j hj]
      have hrounds' : 32 ≤ rounds + (s.bitidx + k) := by omega
      exact searchEntry_of_room hn hn' hb hin hroom rounds (h.advance hk16) hnext hrounds'

/-- **An entry whose last granule is free is passed whole**, if the heap goes on behind it. -/
theorem searchEntry_of_last {curr next : BitVec 32} (hin : granidx + 32 + n ≤ p.ngranules)
    (hfree : pair curr next 31 = false) : ∀ (rounds : ℕ) {s : Scan}, Follows p a curr next s →
      s.bitidx ≤ 32 → 32 ≤ rounds + s.bitidx →
      searchEntry p n granidx mask rounds s = (t, false) → t.bitidx = 32
  | 0, s, _, hle, hrounds, hs => by
    cases hs
    omega
  | rounds + 1, s, h, hle, hrounds, hs => by
    rw [searchEntry] at hs
    by_cases hlast : s.bitidx = 32
    · rw [if_neg (by omega)] at hs
      cases hs
      exact hlast
    · have hle' : s.bitidx ≤ 31 := by omega
      rw [if_pos ⟨by omega, by omega⟩, if_neg (h.ne_allOnes hle' (by decide) hfree)] at hs
      split at hs
      · cases hs
      · next k hk =>
        obtain ⟨hpos, hk16⟩ := shiftOf_some hk
        have hnext := h.le_of_free hle' (by decide) hfree hk
        refine searchEntry_of_last hin hfree rounds (h.advance hk16) ?_ ?_ hs
        · change s.bitidx + k ≤ 32
          omega
        · change 32 ≤ rounds + (s.bitidx + k)
          omega

/-- **The search keeps its variables in agreement**, and where it finds a place, the granules
are there and free. -/
theorem searchEntry_follows {curr next : BitVec 32} {b : Bool} : ∀ (rounds : ℕ) {s : Scan},
    Follows p a curr next s → searchEntry p n granidx mask rounds s = (t, b) →
      Follows p a curr next t ∧ (b = true →
        t.bitidx < 32 ∧ granidx + t.bitidx + n ≤ p.ngranules ∧ t.curr &&& mask = 0#32)
  | 0, s, h, hs => by
    cases hs
    exact ⟨h, by simp⟩
  | rounds + 1, s, h, hs => by
    unfold searchEntry at hs
    split at hs
    · rename_i hin
      split at hs
      · cases hs
        exact ⟨h, by simp⟩
      · split at hs
        · rename_i hnone
          cases hs
          exact ⟨h, fun _ => ⟨hin.1, hin.2, shiftOf_none hnone⟩⟩
        · rename_i hsome
          exact searchEntry_follows rounds (h.advance (shiftOf_some hsome).2) hs
    · cases hs
      exact ⟨h, by simp⟩

theorem pair_eq_bit (hg : granidx % 32 = 0) (hk : k < 64) (hin : granidx + k < p.ngranules) :
    pair (p.gat (granidx / 32)) (p.wordAfter beyond (granidx / 32)) k =
      bit p.gat (granidx + k) := by
  unfold pair bit
  split
  · rw [show (granidx + k) / 32 = granidx / 32 by omega, show (granidx + k) % 32 = k by omega]
  · rw [show (granidx + k) / 32 = granidx / 32 + 1 by omega,
      show (granidx + k) % 32 = k - 32 by omega, Heap.wordAfter,
      if_pos (by unfold sizeofGat; omega)]

/-- There is room for `n` granules from the granule `i` on. -/
def Room (p : Heap) (n i : ℕ) : Prop :=
  i + n ≤ p.ngranules ∧ ∀ j < n, bit p.gat (i + j) = false

instance : Decidable (Room p n i) := inferInstanceAs (Decidable (_ ∧ _))

theorem follows_init (p : Heap) (a : BitVec 32) (curr next : BitVec 32) :
    Follows p a curr next { alloc := a, curr := curr, next := next, bitidx := 0 } :=
  ⟨by simp, window_pair _ _⟩

/-- **A search of an entry** leaves the address as far from the entry as the window was shifted,
and finds only granules that are free. -/
theorem searchAt_spec {b : Bool} (hg : granidx % 32 = 0) (hn : n ≤ 32)
    (hs : p.searchAt beyond n granidx a = (t, b)) :
    t.alloc = a + (BitVec.ofNat 32 t.bitidx <<< p.log2gran) ∧
      (b = true → Room p n (granidx + t.bitidx)) := by
  obtain ⟨hfol, hfound⟩ := searchEntry_follows 32 (follows_init ..) hs
  refine ⟨hfol.alloc, fun hb => ?_⟩
  obtain ⟨hlt, hle, hzero⟩ := hfound hb
  refine ⟨hle, fun j hj => ?_⟩
  have hlow := (and_low_eq_zero_iff hn).mp hzero j hj
  rw [hfol.window.curr j (by omega), pair_eq_bit hg (by omega) (by omega)] at hlow
  rwa [Nat.add_assoc]

/-! ### The search over the table -/

/-- Every entry the search passes over, the last one apart, is left with the window shifted by
32 bits exactly. -/
def passesWhole (p : Heap) (beyond : BitVec 32) (n : ℕ) : ℕ → ℕ → BitVec 32 → Bool
  | 0, _, _ => true
  | entries + 1, granidx, alloc =>
    if granidx + 32 < p.ngranules then
      if p.gat (granidx / 32) = BitVec.allOnes 32 then
        passesWhole p beyond n entries (granidx + 32) (alloc + (32#32 <<< p.log2gran))
      else
        match p.searchAt beyond n granidx alloc with
        | (_, true) => true
        | (s, false) =>
          decide (s.bitidx = 32) && passesWhole p beyond n entries (granidx + 32) s.alloc
    else true

theorem searchTable_of_le (h : p.ngranules ≤ granidx) :
    searchTable p beyond n entries granidx a = none := by
  cases entries with
  | zero => rfl
  | succ entries => rw [searchTable, if_neg (Nat.not_lt.mpr h)]

/-- **What a search over the table finds is free**, when it passes whole entries. -/
theorem searchTable_spec (hn : n ≤ 32) : ∀ (entries : ℕ) {granidx : ℕ}, granidx % 32 = 0 →
    passesWhole p beyond n entries granidx (p.addrOf granidx) = true →
      searchTable p beyond n entries granidx (p.addrOf granidx) = some a →
        ∃ i, a = p.addrOf i ∧ Room p n i
  | 0, _, _, _, hs => by cases hs
  | entries + 1, granidx, hg, hw, hs => by
    unfold searchTable at hs
    unfold passesWhole at hw
    have hg' : (granidx + 32) % 32 = 0 := by omega
    obtain ⟨-, hs⟩ := Option.ite_none_right_eq_some.mp hs
    split at hs
    · -- a full entry is passed over at once
      split at hw
      · rw [← addrOf_add] at hs hw
        exact searchTable_spec hn entries hg' hw hs
      · rw [searchTable_of_le (by omega)] at hs
        cases hs
    · rcases hat : p.searchAt beyond n granidx (p.addrOf granidx) with ⟨t, b⟩
      obtain ⟨halloc, hfound⟩ := searchAt_spec hg hn hat
      rw [← addrOf_add] at halloc
      rw [hat] at hs hw
      cases b with
      | true => exact ⟨_, Option.some.inj hs ▸ halloc, hfound rfl⟩
      | false =>
        split at hw
        · obtain ⟨h32, hw⟩ := Bool.and_eq_true_iff.mp hw
          rw [halloc, of_decide_eq_true h32] at hw
          change searchTable p beyond n entries (granidx + 32) t.alloc = some a at hs
          rw [halloc, of_decide_eq_true h32] at hs
          exact searchTable_spec hn entries hg' hw hs
        · change searchTable p beyond n entries (granidx + 32) t.alloc = some a at hs
          rw [searchTable_of_le (by omega)] at hs
          cases hs

/-- What a search finds is room, at an entry that it has come to. -/
theorem room_of_searchTable (hn : n ≤ 32) : ∀ (entries : ℕ) {granidx : ℕ} {b : BitVec 32},
    granidx % 32 = 0 → searchTable p beyond n entries granidx b = some a →
      ∃ i, granidx ≤ i ∧ Room p n i
  | 0, _, _, _, hs => by cases hs
  | entries + 1, granidx, b, hg, hs => by
    have hrest : ∀ {b}, searchTable p beyond n entries (granidx + 32) b = some a →
        ∃ i, granidx ≤ i ∧ Room p n i := by
      intro b hs
      obtain ⟨i, hi, hroom⟩ := room_of_searchTable hn entries (by omega) hs
      exact ⟨i, by omega, hroom⟩
    unfold searchTable at hs
    obtain ⟨-, hs⟩ := Option.ite_none_right_eq_some.mp hs
    split at hs
    · exact hrest hs
    · rcases hat : p.searchAt beyond n granidx b with ⟨t, found⟩
      rw [hat] at hs
      cases found with
      | true => exact ⟨_, Nat.le_add_right .., (searchAt_spec hg hn hat).2 rfl⟩
      | false => exact hrest hs

/-- **Nothing is in the way of the room**: every entry in front of the first one in which there is
room for `n` granules is full, or its last granule is free. -/
def Clear (p : Heap) (n : ℕ) : Prop :=
  ∀ e < sizeofGat p.ngranules, (∀ i < 32 * e + 32, ¬Room p n i) →
    (∃ i < p.ngranules, 32 * e + 32 ≤ i ∧ Room p n i) →
    p.gat e = BitVec.allOnes 32 ∨ bit p.gat (32 * e + 31) = false

instance : Decidable (Clear p n) := inferInstanceAs (Decidable (∀ _ < _, _))

/-- In a full entry there is no room. -/
theorem not_room_of_full {granidx i : ℕ} (hn : 1 ≤ n) (hg : granidx % 32 = 0)
    (hfull : p.gat (granidx / 32) = BitVec.allOnes 32) (hle : granidx ≤ i)
    (hi : i < granidx + 32) : ¬Room p n i := by
  intro hroom
  have hbit := hroom.2 0 hn
  rw [Nat.add_zero, bit, show i / 32 = granidx / 32 by omega, hfull, BitVec.getLsbD_allOnes,
    decide_eq_false_iff_not] at hbit
  omega

/-- In an entry that was searched in vain there is no room. -/
theorem not_room_of_searchAt {granidx i : ℕ} {b : BitVec 32} {t : Scan} (hn : 1 ≤ n) (hn' : n ≤ 32)
    (hg : granidx % 32 = 0) (hat : p.searchAt beyond n granidx b = (t, false)) (hle : granidx ≤ i)
    (hi : i < granidx + 32) : ¬Room p n i := by
  intro hroom
  have hin := hroom.1
  have hpair : ∀ j < n, pair (p.gat (granidx / 32)) (p.wordAfter beyond (granidx / 32))
      (i - granidx + j) = false := by
    intro j hj
    rw [pair_eq_bit hg (by omega) (by omega), ← hroom.2 j hj]
    congr 1
    omega
  have hin' : granidx + (i - granidx) + n ≤ p.ngranules := by omega
  have hfound := searchEntry_of_room hn hn' (by omega) hin' hpair 32 (follows_init p b ..)
    (Nat.zero_le _) (Nat.le_refl _)
  rw [Heap.searchAt] at hat
  rw [show low n = BitVec.allOnes 32 >>> (32 - n) from rfl, hat] at hfound
  cases hfound

/-- **A search with nothing in its way passes whole entries.** -/
theorem passesWhole_of_clear (hn : 1 ≤ n) (hn' : n ≤ 32) (hclear : Clear p n) :
    ∀ (entries : ℕ) {granidx : ℕ} {b : BitVec 32}, granidx % 32 = 0 →
      (∀ i < granidx, ¬Room p n i) → searchTable p beyond n entries granidx b = some a →
      passesWhole p beyond n entries granidx b = true
  | 0, _, _, _, _, _ => rfl
  | entries + 1, granidx, b, hg, hnone, hs => by
    unfold searchTable at hs
    unfold passesWhole
    obtain ⟨hlt, hs⟩ := Option.ite_none_right_eq_some.mp hs
    have hg' : (granidx + 32) % 32 = 0 := by omega
    split
    swap
    · rfl
    next hbehind =>
    split at hs
    · next hfull =>
      rw [if_pos hfull]
      refine passesWhole_of_clear hn hn' hclear entries hg' (fun i hi hroom => ?_) hs
      by_cases hbefore : i < granidx
      · exact hnone i hbefore hroom
      · exact not_room_of_full hn hg hfull (by omega) hi hroom
    · next hfull =>
      rw [if_neg hfull]
      rcases hat : p.searchAt beyond n granidx b with ⟨t, found⟩
      rw [hat] at hs
      cases found with
      | true => rfl
      | false =>
        have hnone' : ∀ i < granidx + 32, ¬Room p n i := by
          intro i hi hroom
          by_cases hbefore : i < granidx
          · exact hnone i hbefore hroom
          · exact not_room_of_searchAt hn hn' hg hat (by omega) hi hroom
        -- there is room behind this entry, so its last granule is free
        obtain ⟨i, hi, hroom⟩ := room_of_searchTable hn' entries hg' hs
        have hin := hroom.1
        have he : 32 * (granidx / 32) = granidx := by omega
        have hlast : bit p.gat (granidx + 31) = false := by
          have := hclear (granidx / 32) (by unfold sizeofGat; omega) (by rwa [he])
            ⟨i, by omega, by rwa [he], hroom⟩
          rw [he] at this
          exact this.resolve_left hfull
        have hpass : t.bitidx = 32 := by
          refine searchEntry_of_last (by omega) ?_ 32 (follows_init ..) (Nat.zero_le _)
            (Nat.le_refl _) hat
          rw [pair_eq_bit hg (by decide) (by omega), hlast]
        simp only [hpass, decide_true, Bool.true_and]
        exact passesWhole_of_clear hn hn' hclear entries hg' hnone' hs

/-! ### The invariant -/

/-- A granule belongs to a range. -/
def Covers (p : Heap) (r : Range) (i : ℕ) : Prop :=
  p.granno r.addr ≤ i ∧ i < p.granno r.addr + p.granules r.size

/-- A range lies on granules of the heap. -/
def Placed (p : Heap) (r : Range) : Prop :=
  p.granules r.size ≤ 32 ∧ ∃ i, r.addr = p.addrOf i ∧ i + p.granules r.size ≤ p.ngranules ∧
    1 ≤ p.granules r.size

theorem covers_addrOf (hi : i < p.ngranules) :
    Covers p ⟨p.addrOf i, size⟩ k ↔ i ≤ k ∧ k < i + p.granules size := by
  rw [Covers, granno_addrOf hi]

/-- Two ranges have no granule in common. -/
def Apart (p : Heap) (r r' : Range) : Prop := ∀ i, Covers p r i → ¬Covers p r' i

/-- **The table agrees with the ranges handed out**: they lie inside the heap, have no granule in
common, and the marked granules are theirs. -/
structure Sound (s : Sys) : Prop where
  placed : ∀ r ∈ s.live, Placed s.priv r
  apart : s.live.Pairwise (Apart s.priv)
  marked : ∀ i, bit s.priv.gat i = true ↔ ∃ r ∈ s.live, Covers s.priv r i

/-- The search of an allocation passes over whole entries. -/
def PassesWhole (s : Sys) : Event → Prop
  | .alloc size beyond =>
    passesWhole s.priv beyond (s.priv.granules size) (sizeofGat s.priv.ngranules) 0
      s.priv.heapstart = true
  | .free _ => True

instance (s : Sys) : ∀ e, Decidable (PassesWhole s e)
  | .alloc .. => inferInstanceAs (Decidable (_ = true))
  | .free _ => inferInstanceAs (Decidable True)

variable {s s' : Sys} {r : Range} {e : Event}

theorem Sound.alloc (h : Sound s) (hn : 1 ≤ s.priv.granules size) (hn' : s.priv.granules size ≤ 32)
    (hi : i + s.priv.granules size ≤ s.priv.ngranules)
    (hfree : ∀ j < s.priv.granules size, bit s.priv.gat (i + j) = false) :
    Sound { priv := granMarkAllocated s.priv (s.priv.addrOf i) (s.priv.granules size),
            live := ⟨s.priv.addrOf i, size⟩ :: s.live } := by
  have hlt : i < s.priv.ngranules := by omega
  rw [granMarkAllocated_eq, granno_addrOf hlt]
  refine ⟨?_, ?_, fun k => ?_⟩
  · intro r hr
    rcases List.mem_cons.mp hr with rfl | hr
    · exact ⟨hn', i, rfl, hi, hn⟩
    · exact h.placed r hr
  · refine List.pairwise_cons.mpr ⟨fun r hr k hk hk' => ?_, h.apart⟩
    -- a granule of another range is marked, so it was not found free
    have hmark := (h.marked k).mpr ⟨r, hr, hk'⟩
    have hin := (covers_addrOf hlt).mp hk
    rw [← Nat.add_sub_cancel' hin.1, hfree _ (by omega)] at hmark
    cases hmark
  · change bit (onInterval _ i _ s.priv.gat) k = true ↔ _
    rw [bit_mark hn', Bool.or_eq_true, h.marked, decide_eq_true_iff]
    simp only [List.mem_cons, exists_eq_or_imp]
    rw [or_comm]
    exact or_congr (covers_addrOf hlt).symm .rfl

theorem Sound.free (h : Sound s) (hr : r ∈ s.live) :
    Sound { priv := granCommonFree s.priv r.addr r.size, live := s.live.erase r } := by
  rw [granCommonFree_eq]
  have hperm := List.perm_cons_erase hr
  have hsymm : ∀ {x y : Range}, Apart s.priv x y → Apart s.priv y x :=
    fun hxy k hy hx => hxy k hx hy
  have hapart := List.pairwise_cons.mp ((hperm.pairwise_iff hsymm).mp h.apart)
  refine ⟨fun x hx => h.placed x (List.mem_of_mem_erase hx), hapart.2, fun k => ?_⟩
  change bit (onInterval _ (s.priv.granno r.addr) _ s.priv.gat) k = true ↔ _
  rw [bit_clear (h.placed r hr).1, Bool.and_eq_true, h.marked, Bool.not_eq_true',
    decide_eq_false_iff_not]
  constructor
  · rintro ⟨⟨x, hx, hk⟩, hnot⟩
    refine ⟨x, ?_, hk⟩
    rcases List.mem_cons.mp (hperm.mem_iff.mp hx) with rfl | hx
    · exact absurd hk hnot
    · exact hx
  · rintro ⟨x, hx, hk⟩
    exact ⟨⟨x, List.mem_of_mem_erase hx, hk⟩, fun hk' => hapart.1 x hx k hk' hk⟩

/-- **What an allocation returns**: the address of granules that are free, when its search
passes over whole entries. -/
theorem granCommonAlloc_spec {q : Heap} (hn : p.granules size ≤ 32)
    (hw : passesWhole p beyond (p.granules size) (sizeofGat p.ngranules) 0 p.heapstart = true)
    (h : granCommonAlloc p beyond size = some (a, q)) :
    ∃ i, a = p.addrOf i ∧ i + p.granules size ≤ p.ngranules ∧
      (∀ j < p.granules size, bit p.gat (i + j) = false) ∧
      q = granMarkAllocated p a (p.granules size) := by
  unfold granCommonAlloc at h
  split at h
  · cases h
  · obtain ⟨a', ha, heq⟩ := Option.map_eq_some_iff.mp h
    cases heq
    rw [← addrOf_zero] at ha hw
    obtain ⟨i, hi, hin, hfree⟩ := searchTable_spec hn _ rfl hw ha
    exact ⟨i, hi, hin, hfree, rfl⟩

/-- **One call** keeps the table in agreement with the ranges, when its search passes over whole
entries. -/
theorem Sound.step (h : Sound s) (hc : PassesWhole s e) (hs : step s e = some s') : Sound s' := by
  cases e with
  | alloc size beyond =>
    obtain ⟨hn, hs⟩ := Option.ite_none_right_eq_some.mp hs
    split at hs
    · rename_i addr q halloc
      cases hs
      obtain ⟨i, rfl, hi, hfree, rfl⟩ := granCommonAlloc_spec hn.2 hc halloc
      exact h.alloc hn.1 hn.2 hi hfree
    · cases hs
      exact h
  | free r =>
    obtain ⟨hr, hs⟩ := Option.ite_none_right_eq_some.mp hs
    cases hs
    exact h.free hr

/-- Nothing is in the way of the room an allocation is to find. -/
def ClearFor (s : Sys) : Event → Prop
  | .alloc size _ => Clear s.priv (s.priv.granules size)
  | .free _ => True

instance (s : Sys) : ∀ e, Decidable (ClearFor s e)
  | .alloc .. => inferInstanceAs (Decidable (Clear _ _))
  | .free _ => inferInstanceAs (Decidable True)

/-- Such an allocation passes whole entries, or fails. -/
theorem ClearFor.passesWhole (hc : ClearFor s e) (hs : step s e = some s') :
    PassesWhole s e ∨ s' = s := by
  cases e with
  | free r => exact .inl trivial
  | alloc size beyond =>
    obtain ⟨hn, hs⟩ := Option.ite_none_right_eq_some.mp hs
    split at hs
    · rename_i addr q halloc
      unfold granCommonAlloc at halloc
      split at halloc
      · cases halloc
      · obtain ⟨a, ha, -⟩ := Option.map_eq_some_iff.mp halloc
        exact .inl (passesWhole_of_clear hn.1 hn.2 hc _ rfl (fun i hi => by omega) ha)
    · exact .inr (Option.some.inj hs).symm

/-! ### Runs -/

/-- The bytes of a range: from its address to the end of its last granule. -/
def Range.stop (p : Heap) (r : Range) : ℕ := r.addr.toNat + p.granules r.size * 2 ^ p.log2gran

/-- A range is aligned to granules and lies inside the heap. -/
def Inside (p : Heap) (r : Range) : Prop :=
  2 ^ p.log2gran ∣ r.addr.toNat - p.heapstart.toNat ∧ p.heapstart.toNat ≤ r.addr.toNat ∧
    r.stop p ≤ p.heapstart.toNat + p.ngranules * 2 ^ p.log2gran

/-- Two ranges have no byte in common. -/
def Disjoint (p : Heap) (r r' : Range) : Prop :=
  r.stop p ≤ r'.addr.toNat ∨ r'.stop p ≤ r.addr.toNat

instance (p : Heap) (r r' : Range) : Decidable (Disjoint p r r') :=
  inferInstanceAs (Decidable (_ ∨ _))

theorem Placed.inside (h : Placed p r) : Inside p r := by
  obtain ⟨-, i, hi, hle, hn⟩ := h
  have haddr := toNat_addrOf (p := p) (i := i) (by omega)
  rw [← hi] at haddr
  refine ⟨⟨i, ?_⟩, by omega, ?_⟩
  · rw [haddr, Nat.add_sub_cancel_left, Nat.mul_comm]
  · rw [Range.stop, haddr, Nat.add_assoc, ← Nat.add_mul]
    exact Nat.add_le_add_left (Nat.mul_le_mul_right _ hle) _

theorem Placed.disjoint {r' : Range} (h : Placed p r) (h' : Placed p r') (ha : Apart p r r') :
    Disjoint p r r' := by
  obtain ⟨-, i, hi, hle, hn⟩ := h
  obtain ⟨-, i', hi', hle', hn'⟩ := h'
  have hcovers : ∀ k, i ≤ k ∧ k < i + p.granules r.size →
      ¬(i' ≤ k ∧ k < i' + p.granules r'.size) := by
    intro k
    have hk := ha k
    rwa [Covers, Covers, hi, hi', granno_addrOf (by omega), granno_addrOf (by omega)] at hk
  rw [Disjoint, Range.stop, Range.stop, hi, hi', toNat_addrOf (by omega), toNat_addrOf (by omega)]
  simp only [Nat.add_assoc, ← Nat.add_mul]
  rcases Nat.lt_or_ge i i' with hlt | hge
  · have := hcovers i'
    exact .inl (Nat.add_le_add_left (Nat.mul_le_mul_right _ (by omega)) _)
  · have := hcovers i
    exact .inr (Nat.add_le_add_left (Nat.mul_le_mul_right _ (by omega)) _)

/-- A run of calls from a heap with nothing allocated. -/
def Sys.init (p : Heap) : Sys where
  priv := p.withGat fun _ => 0#32
  live := []

theorem sound_init : Sound (Sys.init p) where
  placed r hr := absurd hr List.not_mem_nil
  apart := List.Pairwise.nil
  marked i := by simp [Sys.init, Heap.withGat, bit]

theorem Sound.disjoint (h : Sound s) :
    (∀ r ∈ s.live, Inside s.priv r) ∧ s.live.Pairwise (Disjoint s.priv) :=
  ⟨fun r hr => (h.placed r hr).inside,
    h.apart.imp_of_mem fun hr hr' ha => (h.placed _ hr).disjoint (h.placed _ hr') ha⟩

/-- **Allocations are aligned, inside the heap and pairwise disjoint**, after every run in which
nothing is in the way of an allocation. -/
theorem allocations_disjoint (p : Heap) (es : List Event) (s : Sys)
    (hc : Run.AllSteps step ClearFor (Sys.init p) es)
    (hr : Run.run step (Sys.init p) es = some s) :
    (∀ r ∈ s.live, Inside s.priv r) ∧ s.live.Pairwise (Disjoint s.priv) := by
  have h : Sound s := by
    refine Run.invariant_of_allSteps (fun s e s' h hc hs => ?_) es sound_init hc hr
    rcases hc.passesWhole hs with hpass | rfl
    · exact h.step hpass hs
    · exact h
  exact h.disjoint

/-- **The table marks what is allocated and nothing else**, after every run whose searches pass
over whole entries. -/
theorem marked_iff_covered {p : Heap} {es : List Event} {s : Sys}
    (hc : Run.AllSteps step PassesWhole (Sys.init p) es)
    (hr : Run.run step (Sys.init p) es = some s) (i : ℕ) :
    bit s.priv.gat i = true ↔ ∃ r ∈ s.live, Covers s.priv r i :=
  (Run.invariant_of_allSteps (fun _ _ _ h hc hs => Sound.step h hc hs) es sound_init hc hr).marked i

/-- A heap of 96 granules of 16 bytes. -/
def threeEntries : Heap :=
  emptyHeap 4 96 0x1000#32 (by decide) (by decide) (by decide) (by decide)

/-- Four granules across the border of two entries. -/
theorem granMarkAllocated_exact_threeEntries :
    granCommonFree (granMarkAllocated threeEntries (threeEntries.addrOf 30) 4)
        (threeEntries.addrOf 30) 0x40#32 = threeEntries :=
  (granMarkAllocated_exact threeEntries 30 4 0x40#32 (by decide) (by decide) (by decide)
    (fun _ _ _ => BitVec.getLsbD_zero) rfl).2

/-- A full entry is passed over, freed and used again. -/
theorem allocations_disjoint_threeEntries :
    ∃ s, Run.run step (Sys.init threeEntries)
        [.alloc 0x200#32 0#32, .alloc 0x10#32 0#32, .free ⟨0x1000#32, 0x200#32⟩,
          .alloc 0x1f0#32 0#32] = some s ∧
      s.live = [⟨0x1000#32, 0x1f0#32⟩, ⟨0x1200#32, 0x10#32⟩] ∧
      (∀ r ∈ s.live, Inside s.priv r) ∧ s.live.Pairwise (Disjoint s.priv) :=
  Run.exists_eq_some (by decide) fun s hs hlive =>
    ⟨hlive, allocations_disjoint threeEntries _ s (by decide +kernel) hs⟩

/-- Granules of all three entries, of which those across the border of the first two are freed:
the other two ranges keep their marks, and there is no other. -/
theorem marked_iff_covered_freed :
    ∃ s, Run.run step (Sys.init threeEntries)
        [.alloc 0x1e0#32 0#32, .alloc 0x40#32 0#32, .alloc 0x1f0#32 0#32,
          .free ⟨0x11e0#32, 0x40#32⟩] = some s ∧
      ∀ i, bit s.priv.gat i = true ↔ i < 30 ∨ 34 ≤ i ∧ i < 65 := by
  refine Run.exists_eq_some
    (P := fun s => s.live = [⟨0x1220#32, 0x1f0#32⟩, ⟨0x1000#32, 0x1e0#32⟩] ∧
      s.priv.granno 0x1220#32 = 34 ∧ s.priv.granno 0x1000#32 = 0 ∧
      s.priv.granules 0x1f0#32 = 31 ∧ s.priv.granules 0x1e0#32 = 30) (by decide)
    fun s hs ⟨hlive, hsecond, hfirst, hlarge, hsmall⟩ i => ?_
  rw [marked_iff_covered (by decide) hs i, hlive]
  simp only [List.mem_cons, List.not_mem_nil, or_false, exists_eq_or_imp, exists_eq_left, Covers,
    hsecond, hfirst, hlarge, hsmall]
  omega

/-- **An allocation on top of another one**: the first granule is free between full entries, so the
search leaves the first entry after one bit, and returns granule 64 as granule 33. -/
theorem allocation_overlaps :
    ∃ s, Run.run step (Sys.init threeEntries)
        [.alloc 0x10#32 0#32, .alloc 0x1f0#32 0#32, .alloc 0x200#32 0#32,
          .free ⟨0x1000#32, 0x10#32⟩, .alloc 0x20#32 0#32] = some s ∧
      ⟨0x1210#32, 0x20#32⟩ ∈ s.live ∧ ⟨0x1200#32, 0x200#32⟩ ∈ s.live ∧
      ¬s.live.Pairwise (Disjoint s.priv) :=
  Run.exists_eq_some (by decide) fun _ _ h => h

end GreenboneFeeder.Gran
