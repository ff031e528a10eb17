import GreenboneFeeder.Iob.Chains
import Mathlib.Algebra.Order.Ring.Nat

/-!
# What each operation does to its chain

`iob_trimhead`, `iob_trimtail` and `iob_contig` put buffers of a chain in front of the free list
(`IobChain.HandsBack`), and `iob_copyin` puts free buffers behind the last one of the chain. Every
loop is an induction over the buffers that are left.

`iob_copyin` and `iob_contig` rely on the length of the packet and on the data being inside of the
buffers (`IobChain.WellFormed`); without, they would run over the end of the chain or of a buffer.
-/

namespace GreenboneFeeder.IobChain

open List Option Nat

open CString Words Singly

variable {cfg : Config} {p p' p'' : Pool} {fl fl' c c' pre post rest : List ℕ} {i j q head : ℕ}
  {fuel : ℕ}

/-- **Buffers of the chain are handed back**, in front of the free list. One that stays in the chain
keeps some of its data, but for the last one of a chain that is emptied by an operation that keeps
it. -/
structure HandsBack (keeps : Prop) (cfg : Config) (p : Pool) (fl c : List ℕ) (p' : Pool)
    (fl' c' : List ℕ) : Prop extends Acts cfg p fl c p' fl' c' where
  freed : ∃ freed, fl' = freed ++ fl
  kept : ∀ j ∈ c', 0 < (p.iobs j).len → 0 < (p'.iobs j).len ∨ keeps ∧ c' = [j]

variable {keeps : Prop}

/-- The buffers that are handed back and those that stay are the ones of the chain. -/
theorem HandsBack.exists_perm (h : HandsBack keeps cfg p fl c p' fl' c') :
    ∃ freed, (freed ++ c').Perm c := by
  obtain ⟨freed, rfl⟩ := h.freed
  refine ⟨freed, ?_⟩
  have hperm := h.perm
  rw [append_assoc] at hperm
  have hswap : (fl ++ (freed ++ c')).Perm (freed ++ (fl ++ c')) := by
    rw [← append_assoc, ← append_assoc]
    exact perm_append_comm.append_right c'
  exact (perm_append_left_iff fl).mp (hswap.trans hperm)

theorem HandsBack.mem (h : HandsBack keeps cfg p fl c p' fl' c') (hj : j ∈ c') : j ∈ c := by
  obtain ⟨freed, hperm⟩ := h.exists_perm
  exact hperm.mem_iff.mp (mem_append_right freed hj)

theorem Acts.handsBack (h : Acts cfg p fl c p' fl c)
    (hkept : ∀ j ∈ c, 0 < (p.iobs j).len → 0 < (p'.iobs j).len) :
    HandsBack keeps cfg p fl c p' fl c :=
  ⟨h, ⟨[], rfl⟩, fun j hj hlen => .inl (hkept j hj hlen)⟩

theorem Acts.trans_handsBack (h : Acts cfg p fl c p' fl' c') (hfreed : ∃ freed, fl' = freed ++ fl)
    (hkept : ∀ j ∈ c', 0 < (p.iobs j).len → 0 < (p'.iobs j).len) {fl'' c'' : List ℕ}
    (h' : HandsBack keeps cfg p' fl' c' p'' fl'' c'') :
    HandsBack keeps cfg p fl c p'' fl'' c'' := by
  refine ⟨h.trans h'.toActs, ?_, fun j hj hlen => h'.kept j hj (hkept j (h'.mem hj) hlen)⟩
  obtain ⟨first, rfl⟩ := hfreed
  obtain ⟨freed, rfl⟩ := h'.freed
  exact ⟨freed ++ first, (append_assoc ..).symm⟩

/-! ### Freeing the first buffer -/

theorem iobFree_spec (h : Owns cfg p fl (i :: rest)) :
    HandsBack False cfg p fl (i :: rest) (iobFree cfg p i).1 (i :: fl) rest ∧
      (iobFree cfg p i).2 = rest.head? := by
  obtain ⟨hacts, hnext⟩ := h.free_head
  refine ⟨⟨hacts, ⟨[i], rfl⟩, fun j _ hpos => .inl ?_⟩, hnext⟩
  rwa [iobFree_same.len]

/-! ### Trimming at the head -/

section Trimhead

/-- **The loop of `iob_trimhead`.** It ends because a buffer is freed in every round but the
last. -/
theorem trimheadLoop_spec (h : Owns cfg p fl (i :: rest)) (hfuel : rest.length < fuel)
    (trimlen pktlen : ℕ) :
    ∃ p' i' rest' fl' pktlen', trimheadLoop cfg fuel i trimlen pktlen p = some (p', i', pktlen') ∧
      HandsBack True cfg p fl (i :: rest) p' fl' (i' :: rest') := by
  induction fuel generalizing p fl i rest trimlen pktlen with
  | zero => exact absurd hfuel (not_lt_zero _)
  | succ fuel ih =>
    have hi : i ∈ fl ++ i :: rest := by simp
    have hflink : (p.iobs i).flink = rest.head? := (h.chain.of_append []).1
    rw [trimheadLoop]
    by_cases htrim : 0 < trimlen
    · rw [if_pos htrim]
      by_cases hlen : (p.iobs i).len ≤ trimlen
      · rw [if_pos hlen]
        cases rest with
        | nil =>
          -- The last buffer stays, without data.
          rw [hflink]
          refine ⟨_, _, [], fl, _, rfl, ⟨h.set hi hflink.symm (h.data i hi), ⟨[], rfl⟩,
            fun j hj _ => .inr ⟨trivial, ?_⟩⟩⟩
          rw [mem_singleton.mp hj]
        | cons n rest =>
          rw [hflink]
          obtain ⟨hfree, -⟩ := h.free_head
          obtain ⟨p', i', rest', fl', pktlen', hloop, hback⟩ :=
            ih hfree.owns (lt_of_succ_lt_succ hfuel) (trimlen - (p.iobs i).len)
              (uint16 ((pktlen : ℤ) - (p.iobs i).len))
          refine ⟨p', i', rest', fl', pktlen', hloop, ?_⟩
          refine hfree.trans_handsBack ⟨[i], rfl⟩ (fun j _ hj => ?_) hback
          rwa [iobFree_same.len]
      · rw [if_neg hlen]
        refine ⟨_, _, rest, fl, _, rfl, Acts.handsBack (h.set hi ?_ ?_) fun j _ hj => ?_⟩
        · rfl
        · exact h.data i hi
        · by_cases hji : j = i
          · subst hji
            rw [set_iobs_self]
            exact Nat.sub_pos_of_lt (Nat.not_le.mp hlen)
          · rwa [set_iobs_of_ne hji]
    · rw [if_neg htrim]
      exact ⟨p, i, rest, fl, pktlen, rfl, h.refl.handsBack fun _ _ hj => hj⟩

/-- **`iob_trimhead`** returns the rest of the chain, which has a buffer. -/
theorem iobTrimhead_spec (h : Owns cfg p fl (i :: rest)) (trimlen : ℕ) :
    ∃ p' i' rest' fl', iobTrimhead cfg i trimlen p = some (p', i') ∧
      HandsBack True cfg p fl (i :: rest) p' fl' (i' :: rest') := by
  rw [iobTrimhead]
  by_cases htrim : 0 < trimlen
  · have hlen := h.length_le
    rw [length_cons] at hlen
    obtain ⟨p', i', rest', fl', pktlen', hloop, hback⟩ :=
      trimheadLoop_spec h (show rest.length < cfg.nbuffers + 1 by omega) trimlen (p.iobs i).pktlen
    rw [if_pos htrim, hloop]
    have hi' : i' ∈ fl' ++ i' :: rest' := by simp
    refine ⟨_, i', rest', fl', rfl, hback.toActs.trans (hback.owns.set_pktlen hi' pktlen'),
      hback.freed, fun j hj hpos => ?_⟩
    refine (hback.kept j hj hpos).imp_left fun hpos => ?_
    rwa [(set_pktlen_same p' i' pktlen' j).len]
  · rw [if_neg htrim]
    exact ⟨p, i, rest, fl, rfl, h.refl.handsBack fun _ _ hj => hj⟩

end Trimhead

/-! ### Trimming at the tail -/

section Trimtail

/-- **The walk to the end of a chain.** -/
theorem findLast_spec (penultimate : Option ℕ) (h : Path p.flink (some i) (c ++ [q]))
    (hfuel : c.length < fuel) :
    findLast p.iobs fuel penultimate i = some (c.getLast?.or penultimate, q) := by
  induction fuel generalizing i c penultimate with
  | zero => exact absurd hfuel (not_lt_zero _)
  | succ fuel ih =>
    rw [findLast]
    cases c with
    | nil =>
      obtain ⟨hi, hflink⟩ := h
      obtain rfl := some.inj hi
      have hnone : (p.iobs i).flink = none := hflink
      rw [hnone]
      rfl
    | cons a c =>
      obtain ⟨hi, hflink⟩ := h
      cases hi
      obtain ⟨n, hn⟩ : ∃ n, (c ++ [q]).head? = some n := by cases c <;> exact ⟨_, rfl⟩
      have hpath : Path p.flink (p.flink i) (c ++ [q]) := hflink
      have hnext : (p.iobs i).flink = some n := hpath.head?_eq.symm.trans hn
      rw [hnext]
      have hpath' : Path p.flink (some n) (c ++ [q]) := by rwa [Pool.flink, hnext] at hpath
      dsimp only
      rw [ih _ hpath' (lt_of_succ_lt_succ hfuel), getLast?_cons]
      cases c.getLast? <;> rfl

theorem consumeLast_eq (h : Owns cfg p fl c) (hhead : head ∈ c) (hq : q ∈ c) :
    ∃ p₁, consumeLast cfg head q p = (iobFree cfg p₁ q).1 ∧ Acts cfg p fl c p₁ fl c ∧
      ∀ j ≠ q, (p₁.iobs j).len = (p.iobs j).len := by
  have hhead' : head ∈ fl ++ c := mem_append_right fl hhead
  have hq' : q ∈ fl ++ c := mem_append_right fl hq
  have hacts := h.set_pktlen hhead' (uint16 ((p.iobs head).pktlen - ((p.iobs q).len : ℤ)))
  refine ⟨_, rfl, hacts.trans (hacts.owns.set_len hq' 0), fun j hj => ?_⟩
  rw [set_iobs_of_ne hj, (set_pktlen_same p head _ j).len]

/-- **The loop of `iob_trimtail`.** -/
theorem trimtailLoop_spec (h : Owns cfg p fl c) (hhead : c.head? = some head)
    (hfuel : c.length < fuel) (len : ℤ) :
    ∃ p' fl' c', trimtailLoop cfg head fuel len p = some (p', c'.head?) ∧
      HandsBack False cfg p fl c p' fl' c' := by
  induction fuel generalizing p fl c len with
  | zero => exact absurd hfuel (not_lt_zero _)
  | succ fuel ih =>
    rw [trimtailLoop]
    by_cases hlen : 0 < len
    · rw [if_pos hlen]
      obtain ⟨l, q, rfl⟩ : ∃ l q, c = l ++ [q] :=
        (eq_nil_or_concat' c).resolve_left fun hnil => by simp [hnil] at hhead
      have hmem : head ∈ l ++ [q] := mem_of_mem_head? hhead
      have hlength := h.length_le
      have hwalk := findLast_spec none (hhead ▸ h.chain)
        (show l.length < cfg.nbuffers by rw [length_append, length_singleton] at hlength; omega)
      rw [hwalk, bind_eq_bind, bind_some]
      dsimp only
      by_cases hq : ((p.iobs q).len : ℤ) ≤ len
      · rw [if_pos hq]
        obtain ⟨p₁, hconsume, hacts, hsame⟩ :=
          consumeLast_eq h hmem (mem_append_right l (mem_singleton.mpr rfl))
        rw [hconsume]
        have hdata : ∀ j ≠ q, ((iobFree cfg p₁ q).1.iobs j).len = (p.iobs j).len := fun j hj =>
          iobFree_same.len.trans (hsame j hj)
        rcases eq_nil_or_concat' l with rfl | ⟨l, b, rfl⟩
        · -- The head itself is freed.
          obtain ⟨hfree, -⟩ := hacts.owns.free_head
          exact ⟨_, _, [], rfl, ⟨hacts.trans hfree, ⟨[q], rfl⟩, fun j hj => absurd hj (by simp)⟩⟩
        · have hassoc : l ++ [b] ++ [q] = l ++ b :: q :: [] := by simp
          rw [hassoc] at hacts h hhead hfuel ⊢
          obtain ⟨hfree, -⟩ := hacts.owns.free_unlink l
          have hlast : (l ++ [b]).getLast?.or none = some b := by simp
          rw [hlast]
          obtain ⟨p', fl', c', hloop, hback⟩ :=
            ih hfree.owns (by rw [← hhead]; cases l <;> rfl) (by simp at hfuel ⊢; omega)
              (len - (p.iobs q).len)
          refine ⟨p', fl', c', hloop, (hacts.trans hfree).trans_handsBack ⟨[q], rfl⟩ ?_ hback⟩
          intro j hj hpos
          have hjq : j ≠ q := by
            rintro rfl
            have hnodup := h.nodup_chain
            rw [← hassoc] at hnodup
            exact (nodup_append.mp hnodup).2.2 j hj j (mem_singleton.mpr rfl) rfl
          rw [(set_flink_same _).len, hdata j hjq]
          exact hpos
      · rw [if_neg hq]
        have hq' : q ∈ fl ++ (l ++ [q]) := by simp
        have hacts := h.set_pktlen (mem_append_right fl hmem)
          (uint16 ((p.iobs head).pktlen - len))
        refine ⟨_, fl, l ++ [q], by rw [hhead],
          (hacts.trans (hacts.owns.set_len hq' _)).handsBack fun j _ hpos => ?_⟩
        have hsame := fun j =>
          (set_pktlen_same p head (uint16 ((p.iobs head).pktlen - len)) j).len
        by_cases hjq : j = q
        · subst hjq
          rw [set_iobs_self]
          dsimp only
          rw [hsame]
          omega
        · rw [set_iobs_of_ne hjq, hsame]
          exact hpos
    · rw [if_neg hlen]
      refine ⟨p, fl, c, by rw [hhead], h.refl.handsBack fun _ _ hj => hj⟩

/-- **`iob_trimtail`** returns what is left of the chain, which may be nothing. -/
theorem iobTrimtail_spec (h : Owns cfg p fl c) (hhead : c.head? = some head) (trimlen : ℕ) :
    ∃ p' fl' c', iobTrimtail cfg head trimlen p = some (p', c'.head?) ∧
      HandsBack False cfg p fl c p' fl' c' := by
  rw [iobTrimtail]
  by_cases htrim : 0 < trimlen
  · rw [if_pos htrim]
    have hlen := h.length_le
    exact trimtailLoop_spec h hhead (by omega) (int32 trimlen)
  · rw [if_neg htrim]
    exact ⟨p, fl, c, by rw [hhead], h.refl.handsBack fun _ _ hj => hj⟩

end Trimtail

/-! ### Packing the first buffer -/

section Contig

/-- The number of bytes in the buffers. -/
def Pool.dataLen (p : Pool) (c : List ℕ) : ℕ := (c.map fun i => (p.iobs i).len).sum

/-- The data of the buffers are inside of them. -/
def Inside (cfg : Config) (p : Pool) (c : List ℕ) : Prop :=
  ∀ i ∈ c, (p.iobs i).offset + (p.iobs i).len ≤ cfg.bufsize

/-- **The chain is well-formed**: the head has the length of the packet. -/
structure WellFormed (cfg : Config) (p : Pool) (c : List ℕ) : Prop where
  pktlen : ∀ i ∈ c.head?, (p.iobs i).pktlen = p.dataLen c
  inside : Inside cfg p c

theorem Config.narrow_of_le (cfg : Config) {n : ℕ} (h : n ≤ cfg.bufsize) : cfg.narrow n = n := by
  have hlt := cfg.bufsize_lt
  rw [Config.narrow]
  split_ifs with hsize
  · exact mod_eq_of_lt (by omega)
  · exact mod_eq_of_lt (by omega)

theorem dropOffset_spec (h : Owns cfg p fl (i :: rest)) (hinside : Inside cfg p (i :: rest)) :
    ∃ p', dropOffset i p = some p' ∧ Acts cfg p fl (i :: rest) p' fl (i :: rest) ∧
      Inside cfg p' (i :: rest) ∧ ∀ j, (p'.iobs j).len = (p.iobs j).len := by
  have hi : i ∈ fl ++ i :: rest := by simp
  rw [dropOffset]
  by_cases hoffset : 0 < (p.iobs i).offset
  · have hle := hinside i mem_cons_self
    obtain ⟨data, hmove, hlen⟩ := exists_moveDown
      (zero_le (p.iobs i).offset) (by rw [h.data i hi]; exact hle)
    rw [if_pos hoffset, hmove]
    refine ⟨_, rfl, h.set hi ?_ ?_, fun j hj => ?_, fun j => ?_⟩
    · rfl
    · exact hlen.trans (h.data i hi)
    · by_cases hji : j = i
      · subst hji
        rw [set_iobs_self]
        dsimp only
        omega
      · rw [set_iobs_of_ne hji]
        exact hinside j hj
    · by_cases hji : j = i
      · subst hji
        rw [set_iobs_self]
      · rw [set_iobs_of_ne hji]
  · rw [if_neg hoffset]
    exact ⟨p, rfl, h.refl, hinside, fun _ => rfl⟩

/-- **A round moves data from the second buffer to the first**: as much as is missing, or all there
is. -/
theorem pull_spec {n len : ℕ} (h : Owns cfg p fl (i :: n :: rest))
    (hinside : Inside cfg p (n :: rest))
    (hlt : (p.iobs i).len < len) (hle : len ≤ cfg.bufsize) :
    ∃ p', pull cfg i n len p = some p' ∧
      Acts cfg p fl (i :: n :: rest) p' fl (i :: n :: rest) ∧
      (p'.iobs i).len = (p.iobs i).len + min (len - (p.iobs i).len) (p.iobs n).len ∧
      (p'.iobs n).len = (p.iobs n).len - min (len - (p.iobs i).len) (p.iobs n).len ∧
      ∀ j, j ≠ i → j ≠ n → p'.iobs j = p.iobs j := by
  have hi : i ∈ fl ++ i :: n :: rest := by simp
  have hn : n ∈ fl ++ i :: n :: rest := by simp
  have hni : n ≠ i := fun hc => by
    have hnodup := h.nodup_chain
    simp [hc] at hnodup
  have hnext := hinside n mem_cons_self
  rw [pull]
  generalize hncopy : min (len - (p.iobs i).len) (p.iobs n).len = ncopy
  obtain ⟨bytes, hread, hbytes⟩ := exists_readAt (i := (p.iobs n).offset)
    (n := ncopy) (by rw [h.data n hn]; omega)
  obtain ⟨data, hwrite, hdata⟩ := exists_writeAt (l := bytes)
    (i := (p.iobs i).len) (by rw [h.data i hi]; omega)
  rw [hread, bind_eq_bind, bind_some, hwrite]
  have hnarrow : cfg.narrow ((p.iobs i).len + ncopy) = (p.iobs i).len + ncopy :=
    cfg.narrow_of_le (by omega)
  have hacts : Acts cfg p fl (i :: n :: rest)
      (p.set i { p.iobs i with data := data, len := cfg.narrow ((p.iobs i).len + ncopy) }) fl
      (i :: n :: rest) := h.set hi rfl (hdata.trans (h.data i hi))
  refine ⟨_, rfl, hacts.trans (hacts.owns.set hn ?_ ?_), ?_, ?_, fun j hji hjn => ?_⟩
  · rfl
  · exact hacts.owns.data n hn
  · rw [set_iobs_of_ne hni.symm, set_iobs_self]
    exact hnarrow
  · rw [set_iobs_self]
    rw [set_iobs_of_ne hni]
  · rw [set_iobs_of_ne hjn, set_iobs_of_ne hji]

/-- **The loop of `iob_contig`.** There is a second buffer as long as bytes are missing, because the
chain has them. -/
theorem contigLoop_spec {len : ℕ} (h : Owns cfg p fl (i :: rest)) (hinside : Inside cfg p rest)
    (hlt : (p.iobs i).len < len) (hle : len ≤ cfg.bufsize) (hsum : len ≤ p.dataLen (i :: rest))
    (hfuel : rest.length ≤ fuel) :
    ∃ p' fl' rest', contigLoop cfg i len fuel p = some p' ∧
      HandsBack False cfg p fl (i :: rest) p' fl' (i :: rest') := by
  induction fuel generalizing p fl rest with
  | zero =>
    obtain rfl := length_eq_zero_iff.mp (le_zero.mp hfuel)
    simp [Pool.dataLen] at hsum
    omega
  | succ fuel ih =>
    rw [contigLoop]
    cases rest with
    | nil =>
      simp [Pool.dataLen] at hsum
      omega
    | cons n rest =>
      have hflink : (p.iobs i).flink = some n := (h.chain.of_append []).1
      obtain ⟨p₁, hpull, hacts, hleni, hlenn, hother⟩ := pull_spec h hinside hlt hle
      rw [hflink, bind_eq_bind, bind_some, hpull, bind_eq_bind, bind_some]
      by_cases hempty : (p₁.iobs n).len = 0
      · rw [if_pos hempty]
        -- The second buffer is taken out; the first one has all of its data.
        obtain ⟨hfree, hnext⟩ := hacts.owns.free_unlink []
        rw [show iobFree cfg p₁ n = ((iobFree cfg p₁ n).1, rest.head?) from Prod.ext rfl hnext]
        dsimp only
        have hlen : ∀ j, (((iobFree cfg p₁ n).1.set i
            { (iobFree cfg p₁ n).1.iobs i with flink := rest.head? }).iobs j).len =
              (p₁.iobs j).len :=
          fun j => (set_flink_same _).len.trans iobFree_same.len
        have hoffset : ∀ j, (((iobFree cfg p₁ n).1.set i
            { (iobFree cfg p₁ n).1.iobs i with flink := rest.head? }).iobs j).offset =
              (p₁.iobs j).offset :=
          fun j => (set_flink_same _).offset.trans iobFree_same.offset
        generalize (iobFree cfg p₁ n).1.set i
          { (iobFree cfg p₁ n).1.iobs i with flink := rest.head? } = p₂ at hfree hlen hoffset ⊢
        have hrest : ∀ j ∈ rest, p₁.iobs j = p.iobs j := fun j hj => by
          have hnodup := h.nodup_chain
          simp only [nodup_cons, mem_cons, not_or] at hnodup
          exact hother j (fun hc => hnodup.1.2 (hc ▸ hj)) fun hc => hnodup.2.1 (hc ▸ hj)
        have hkept : ∀ j ∈ i :: rest, 0 < (p.iobs j).len → 0 < (p₂.iobs j).len :=
          fun j hj hpos => by
          rw [hlen]
          rcases mem_cons.mp hj with rfl | hj
          · omega
          · rwa [hrest j hj]
        have hback := hacts.trans hfree
        by_cases hmore : (p₂.iobs i).len < len
        · rw [if_pos hmore]
          have hinside' : Inside cfg p₂ rest := fun j hj => by
            rw [hlen, hoffset, hrest j hj]
            exact hinside j (mem_cons_of_mem n hj)
          have hsum' : len ≤ p₂.dataLen (i :: rest) := by
            have heq : rest.map (fun j => (p₂.iobs j).len) = rest.map fun j => (p.iobs j).len :=
              map_congr_left fun j hj => by rw [hlen, hrest j hj]
            simp only [Pool.dataLen, map_cons, sum_cons] at hsum ⊢
            rw [heq, hlen]
            omega
          obtain ⟨p', fl', rest', hloop, hback'⟩ :=
            ih hfree.owns hinside' hmore hsum' (le_of_succ_le_succ hfuel)
          exact ⟨p', fl', rest', hloop, hback.trans_handsBack ⟨[n], rfl⟩ hkept hback'⟩
        · rw [if_neg hmore]
          exact ⟨p₂, n :: fl, rest, rfl, hback, ⟨[n], rfl⟩, fun j hj hpos => .inl (hkept j hj hpos)⟩
      · rw [if_neg hempty, if_neg (by omega)]
        refine ⟨p₁, fl, n :: rest, rfl, hacts.handsBack fun j hj hpos => ?_⟩
        by_cases hji : j = i
        · rw [hji]
          omega
        · by_cases hjn : j = n
          · rw [hjn]
            omega
          · rwa [hother j hji hjn]

/-- **`iob_contig`** for a size that fits into a buffer. -/
theorem iobContig_spec {len : ℕ} (h : Owns cfg p fl (i :: rest))
    (hwf : WellFormed cfg p (i :: rest))
    (hle : len ≤ cfg.bufsize) :
    ∃ p' ok fl' rest', iobContig cfg i len p = some (p', ok) ∧
      HandsBack False cfg p fl (i :: rest) p' fl' (i :: rest') := by
  rw [iobContig]
  by_cases henough : len ≤ (p.iobs i).len
  · rw [if_pos henough]
    exact ⟨p, true, fl, rest, rfl, h.refl.handsBack fun _ _ hj => hj⟩
  · rw [if_neg henough]
    by_cases hpkt : len ≤ (p.iobs i).pktlen
    · have hlength := h.length_le
      rw [length_cons] at hlength
      obtain ⟨p₁, hdrop, hacts, hinside, hlen⟩ := dropOffset_spec h hwf.inside
      have hsum : len ≤ p₁.dataLen (i :: rest) := by
        have heq : p₁.dataLen (i :: rest) = p.dataLen (i :: rest) := by
          simp only [Pool.dataLen, hlen]
        rw [heq, ← hwf.pktlen i rfl]
        exact hpkt
      obtain ⟨p', fl', rest', hloop, hback⟩ := contigLoop_spec hacts.owns
        (fun j hj => hinside j (mem_cons_of_mem i hj)) (by rw [hlen]; exact not_le.mp henough)
        hle hsum (show rest.length ≤ cfg.nbuffers by omega)
      rw [if_pos hpkt, hdrop, bind_eq_bind, bind_some, hloop]
      refine ⟨p', true, fl', rest', rfl, hacts.trans_handsBack ⟨[], rfl⟩ (fun j _ hj => ?_) hback⟩
      rwa [hlen]
    · rw [if_neg hpkt]
      exact ⟨p, false, fl, rest, rfl, h.refl.handsBack fun _ _ hj => hj⟩

end Contig

/-! ### Copying into a chain -/

section Copyin

/-- **Buffers are taken from the free list** and put behind the chain. No buffer loses data. -/
structure Extends (cfg : Config) (p : Pool) (fl c : List ℕ) (p' : Pool) (fl' c' : List ℕ) : Prop
    extends Acts cfg p fl c p' fl' c' where
  taken : ∃ used, fl = used ++ fl' ∧ c' = c ++ used
  kept : ∀ j ∈ c, (p.iobs j).len ≤ (p'.iobs j).len

theorem Acts.extends_same (h : Acts cfg p fl c p' fl c)
    (hkept : ∀ j ∈ c, (p.iobs j).len ≤ (p'.iobs j).len) : Extends cfg p fl c p' fl c :=
  ⟨h, ⟨[], rfl, (append_nil c).symm⟩, hkept⟩

theorem Extends.trans {fl'' c'' : List ℕ} (h : Extends cfg p fl c p' fl' c')
    (h' : Extends cfg p' fl' c' p'' fl'' c'') : Extends cfg p fl c p'' fl'' c'' := by
  refine ⟨h.toActs.trans h'.toActs, ?_, fun j hj => le_trans (h.kept j hj) (h'.kept j ?_)⟩
  · obtain ⟨used, rfl, rfl⟩ := h.taken
    obtain ⟨used', rfl, rfl⟩ := h'.taken
    exact ⟨used ++ used', (append_assoc ..).symm, append_assoc ..⟩
  · obtain ⟨used, -, rfl⟩ := h.taken
    exact mem_append_left used hj

/-- **The walk to the offset** ends in the chain, because the chain has the data in front of the
offset. -/
theorem skipLoop_spec {offset : ℕ} (h : Path p.flink (some i) c) (hfuel : c.length ≤ fuel)
    (hoffset : offset ≤ p.dataLen c) :
    ∃ pre j post offset', skipLoop p.iobs fuel i offset = some (j, offset') ∧ c = pre ++ j :: post ∧
      offset' ≤ (p.iobs j).len := by
  induction fuel generalizing i c offset with
  | zero =>
    obtain rfl := length_eq_zero_iff.mp (le_zero.mp hfuel)
    exact absurd (Path.nil_iff.mp h) (by simp)
  | succ fuel ih =>
    rw [skipLoop]
    cases c with
    | nil => exact absurd (Path.nil_iff.mp h) (by simp)
    | cons a c =>
      obtain ⟨hi, hpath⟩ := Path.cons_iff.mp h
      cases hi
      by_cases hskip : (p.iobs i).len < offset
      · rw [if_pos hskip]
        have hrest : offset - (p.iobs i).len ≤ p.dataLen c := by
          simp only [Pool.dataLen, map_cons, sum_cons] at hoffset ⊢
          omega
        cases hnext : (p.iobs i).flink with
        | none =>
          -- There is no data behind the last buffer.
          rw [Pool.flink, hnext] at hpath
          obtain rfl := head?_eq_none_iff.mp hpath.head?_eq
          simp [Pool.dataLen] at hrest
          omega
        | some n =>
          rw [Pool.flink, hnext] at hpath
          obtain ⟨pre, j, post, offset', hloop, rfl, hle⟩ :=
            ih hpath (le_of_succ_le_succ hfuel) hrest
          exact ⟨i :: pre, j, post, offset', hloop, rfl, hle⟩
      · rw [if_neg hskip]
        exact ⟨[], i, c, offset, rfl, rfl, not_lt.mp hskip⟩

/-- **A round copies into one buffer**: the bytes stay inside of it. The last buffer of the chain is
extended, up to the end of its data. -/
theorem copyAmount_spec {offset : ℕ} {len : ℕ} (h : Owns cfg p fl c) (hi : i ∈ c) (hhead : head ∈ c)
    (hinside : (p.iobs i).offset + (p.iobs i).len ≤ cfg.bufsize)
    (hoffset : offset ≤ (p.iobs i).len) :
    ∃ p' ncopy, copyAmount cfg head i offset len p = (p', ncopy) ∧ Extends cfg p fl c p' fl c ∧
      (p.iobs i).offset + offset + ncopy ≤ cfg.bufsize ∧
      ∀ j, j ≠ i → SameData (p.iobs j) (p'.iobs j) := by
  rw [copyAmount]
  have hsame := h.refl.extends_same fun j _ => le_refl _
  by_cases hover : (p.iobs i).len - offset < len
  · rw [if_pos hover]
    cases hnext : (p.iobs i).flink with
    | some n => exact ⟨p, _, rfl, hsame, by omega, fun j _ => .refl _⟩
    | none =>
      rw [extend]
      generalize hnewlen : min (len + offset) (cfg.bufsize - (p.iobs i).offset) = newlen
      have hacts := h.set_pktlen (mem_append_right fl hhead)
        (uint16 ((p.iobs head).pktlen + ((newlen : ℤ) - (p.iobs i).len)))
      have hdata := set_pktlen_same p head
        (uint16 ((p.iobs head).pktlen + ((newlen : ℤ) - (p.iobs i).len)))
      refine ⟨_, _, rfl, ?_, by omega, fun j hj => ?_⟩
      · refine (hacts.trans (hacts.owns.set_len (mem_append_right fl hi) _)).extends_same
          fun j hj => ?_
        by_cases hji : j = i
        · subst hji
          rw [set_iobs_self]
          dsimp only
          rw [cfg.narrow_of_le (by omega)]
          omega
        · rw [set_iobs_of_ne hji]
          exact le_of_eq (hdata j).len.symm
      · rw [set_iobs_of_ne hj]
        exact hdata j
  · rw [if_neg hover]
    exact ⟨p, len, rfl, hsame, by omega, fun j _ => .refl _⟩

theorem Extends.set_data {data : List UInt8} (h : Extends cfg p fl c p' fl c) (hi : i ∈ c)
    (hdata : data.length = cfg.bufsize) :
    Extends cfg p fl c (p'.set i { p'.iobs i with data := data }) fl c := by
  have hacts : Acts cfg p' fl c (p'.set i { p'.iobs i with data := data }) fl c := by
    refine h.owns.set (mem_append_right fl hi) ?_ ?_
    · rfl
    · exact hdata
  refine (h.toActs.trans hacts).extends_same fun j hj => ?_
  by_cases hji : j = i
  · subst hji
    rw [set_iobs_self]
    exact h.kept j hj
  · rw [set_iobs_of_ne hji]
    exact h.kept j hj

theorem Popped.extends (hpop : Popped p none p') (h : Owns cfg p fl c) :
    Extends cfg p fl c p' fl c :=
  (hpop.acts h).extends_same fun j _ => le_of_eq (by rw [hpop.iobs_of_ne (by simp)])

theorem Owns.extends_link {n : ℕ} (h : Owns cfg p fl (pre ++ [q])) (hpop : Popped p (some n) p') :
    ∃ fl', fl = n :: fl' ∧ Extends cfg p fl (pre ++ [q])
      (p'.set q { p'.iobs q with flink := some n }) fl' (pre ++ [q] ++ [n]) := by
  obtain ⟨fl', rfl, hacts⟩ := h.link hpop
  have hassoc : pre ++ [q] ++ [n] = pre ++ [q, n] := by simp
  refine ⟨fl', rfl, by rw [hassoc]; exact hacts, ⟨[n], rfl, rfl⟩, fun j hj => ?_⟩
  have hjn : j ≠ n := by
    rintro rfl
    exact h.notMem_free hj mem_cons_self
  have hlen : (p'.iobs j).len = (p.iobs j).len := by
    rw [hpop.iobs_of_ne fun hc => hjn (some.inj hc).symm]
  exact le_of_eq ((set_flink_same (some n)).len.trans hlen).symm

/-- **The second loop of `iob_copyin`.** A round goes to the next buffer of the chain, or takes one
from the free list. -/
theorem copyLoop_spec {offset : ℕ} {interrupt throttled : Bool}
    (h : Owns cfg p fl (pre ++ i :: post)) (hhead : head ∈ pre ++ i :: post)
    (hinside : Inside cfg p (i :: post)) (hoffset : offset ≤ (p.iobs i).len)
    (hfuel : post.length + fl.length < fuel) (src : List UInt8) :
    ∃ p' r fl' c', copyLoop cfg interrupt throttled head fuel i offset src p = some (p', r) ∧
      Extends cfg p fl (pre ++ i :: post) p' fl' c' := by
  induction fuel generalizing p fl pre i post offset src with
  | zero => exact absurd hfuel (not_lt_zero _)
  | succ fuel ih =>
    have hsame := h.refl.extends_same fun j _ => le_refl _
    cases src with
    | nil => exact ⟨p, .ok, fl, _, by rw [copyLoop], hsame⟩
    | cons b src =>
      have hi : i ∈ pre ++ i :: post := by simp
      obtain ⟨p₁, ncopy, hamount, hext, hbound, hother⟩ :=
        copyAmount_spec h hi hhead (hinside i mem_cons_self) hoffset
      have hdata := hext.owns.data i (mem_append_right fl hi)
      obtain ⟨data, hwrite, hlen⟩ := exists_writeAt (m := (p₁.iobs i).data)
        (l := (b :: src).take ncopy) (i := (p.iobs i).offset + offset)
        (by rw [length_take]; omega)
      rw [copyLoop]
      rw [hamount]
      dsimp only
      rw [hwrite, bind_eq_bind, bind_some]
      have hext₂ := hext.set_data hi (hlen.trans hdata)
      have hsame₂ : ∀ j ∈ post, SameData (p.iobs j)
          ((p₁.set i { p₁.iobs i with data := data }).iobs j) := fun j hj => by
        have hji : j ≠ i := by
          rintro rfl
          exact (nodup_cons.mp (nodup_append.mp h.nodup_chain).2.1).1 hj
        rw [set_iobs_of_ne hji]
        exact hother j hji
      generalize p₁.set i { p₁.iobs i with data := data } = p₂ at hext₂ hsame₂ ⊢
      have hflink : (p.iobs i).flink = post.head? := (h.chain.of_append pre).1
      cases post with
      | cons n post =>
        rw [hflink]
        have hassoc : pre ++ i :: n :: post = (pre ++ [i]) ++ n :: post := by simp
        rw [hassoc] at hext₂ hhead ⊢
        obtain ⟨p', r, fl', c', hloop, hext'⟩ := ih hext₂.owns hhead (fun j hj => by
          rw [(hsame₂ j hj).len, (hsame₂ j hj).offset]
          exact hinside j (mem_cons_of_mem i hj)) (zero_le _)
          (by rw [length_cons] at hfuel; omega) ((b :: src).drop ncopy)
        exact ⟨p', r, fl', c', hloop, hext₂.trans hext'⟩
      | nil =>
        rw [hflink]
        by_cases hrest : (b :: src).drop ncopy = []
        · rw [if_pos hrest]
          exact ⟨p₂, .ok, fl, _, rfl, hext₂⟩
        · rw [if_neg hrest]
          have hpop := iobAlloc_popped cfg interrupt throttled p₂
          match halloc : iobAlloc cfg interrupt throttled p₂ with
          | (p₃, .buffer n) =>
            rw [halloc] at hpop
            obtain ⟨fl', rfl, hlink⟩ := hext₂.owns.extends_link hpop
            have hne : n ≠ i := by
              rintro rfl
              exact h.notMem_free hi mem_cons_self
            have hnew : Inside cfg (p₃.set i { p₃.iobs i with flink := some n }) [n] :=
              fun j hj => by
              rw [mem_singleton.mp hj, set_iobs_of_ne hne, hpop.iobs_self]
              exact zero_le _
            obtain ⟨p', r, fl'', c', hloop, hext'⟩ := ih hlink.owns (mem_append_left [n] hhead)
              hnew (zero_le _) (by simp at hfuel ⊢; omega) ((b :: src).drop ncopy)
            exact ⟨p', r, fl'', c', hloop, (hext₂.trans hlink).trans hext'⟩
          | (p₃, .null) =>
            rw [halloc] at hpop
            exact ⟨p₃, .enomem, fl, _, rfl, hext₂.trans (hpop.extends hext₂.owns)⟩
          | (p₃, .waits) =>
            rw [halloc] at hpop
            exact ⟨p₃, .waits, fl, _, rfl, hext₂.trans (hpop.extends hext₂.owns)⟩

/-- **`iob_copyin`** on a well-formed chain. -/
theorem iobCopyin_spec {interrupt throttled : Bool} (h : Owns cfg p fl c)
    (hhead : c.head? = some head) (hwf : WellFormed cfg p c) {src : List UInt8} {offset : ℕ} :
    ∃ p' r fl' c', iobCopyin cfg interrupt throttled head src offset p = some (p', r) ∧
      Extends cfg p fl c p' fl' c' := by
  rw [iobCopyin]
  by_cases hpipe : (p.iobs head).pktlen < offset
  · rw [if_pos hpipe]
    exact ⟨p, .espipe, fl, c, rfl, h.refl.extends_same fun j _ => le_refl _⟩
  · have hlength := h.length_le
    obtain ⟨pre, i, post, offset', hskip, rfl, hoffset⟩ := skipLoop_spec (hhead ▸ h.chain)
      (show c.length ≤ cfg.nbuffers by omega)
      (show offset ≤ p.dataLen c by rw [← hwf.pktlen head hhead]; exact not_lt.mp hpipe)
    rw [if_neg hpipe, hskip]
    rw [length_append, length_cons] at hlength
    exact copyLoop_spec h (mem_of_mem_head? hhead)
      (fun j hj => hwf.inside j (mem_append_right pre hj)) hoffset (by omega) src

end Copyin

/-! ### Putting a chain behind another -/

/-- **`iob_concat`** links the last buffer of a chain to the first one of another. -/
theorem iobConcat_spec {head₁ head₂ : ℕ} {c₁ c₂ : List ℕ} (h₁ : Owns cfg p fl c₁)
    (h₂ : Owns cfg p fl c₂) (hhead₁ : c₁.head? = some head₁) (hhead₂ : c₂.head? = some head₂)
    (hnodup : (fl ++ (c₁ ++ c₂)).Nodup) :
    ∃ p', iobConcat cfg head₁ head₂ p = some p' ∧ Acts cfg p fl (c₁ ++ c₂) p' fl (c₁ ++ c₂) ∧
      ∀ j, SameData (p.iobs j) (p'.iobs j) := by
  obtain ⟨l, q, rfl⟩ : ∃ l q, c₁ = l ++ [q] :=
    (eq_nil_or_concat' c₁).resolve_left fun hnil => by simp [hnil] at hhead₁
  have hlength := h₁.length_le
  rw [length_append, length_singleton] at hlength
  rw [iobConcat, findLast_spec none (hhead₁ ▸ h₁.chain) (show l.length < cfg.nbuffers by omega)]
  have hq : q ∉ c₂ := fun hmem => (nodup_append.mp (nodup_append.mp hnodup).2.1).2.2 q
    (mem_append_right l (mem_singleton.mpr rfl)) q hmem rfl
  have hsame : ∀ j, SameData (p.iobs j) ((p.set q { p.iobs q with
      flink := some head₂
      pktlen := uint16 ((p.iobs q).pktlen + (p.iobs head₂).pktlen : ℕ) }).iobs j) := by
    apply set_same
    exact ⟨rfl, rfl, rfl⟩
  have hmem : ∀ j ∈ fl ++ (l ++ [q] ++ c₂), j ∈ fl ++ (l ++ [q]) ∨ j ∈ fl ++ c₂ := fun j hj => by
    simp only [mem_append] at hj ⊢
    tauto
  refine ⟨_, rfl, ⟨⟨?_, ?_, hnodup, fun j hj => ?_, fun j hj => ?_⟩, .refl _, fun j hj => ?_⟩,
    hsame⟩
  · rw [set_flink]
    refine h₁.free.congr fun j hj => Function.update_of_ne ?_ ..
    rintro rfl
    exact h₁.notMem_free (mem_append_right l (mem_singleton.mpr rfl)) hj
  · have hchain := h₁.chain.link h₁.nodup_chain h₂.chain hq
    rw [hhead₂] at hchain
    have hhead : (l ++ [q] ++ c₂).head? = (l ++ [q]).head? := by cases l <;> rfl
    rw [set_flink, hhead, append_assoc]
    exact hchain
  · exact (hmem j hj).elim (h₁.bounded j) (h₂.bounded j)
  · rw [(hsame j).data]
    exact (hmem j hj).elim (h₁.data j) (h₂.data j)
  · refine set_iobs_of_ne fun hc => hj ?_
    rw [hc]
    simp

end GreenboneFeeder.IobChain
