import GreenboneFeeder.Iob.Operations
import GreenboneFeeder.Lib.Run

/-!
# No I/O buffer is lost

The users of `net/iob` hold chains of buffers by their first buffer. Every buffer is in the free
list or in one of the chains, and there only once (`IobChain.Conserved`). An operation that empties
buffers puts them in front of the free list (`IobChain.Handed`), but for the last one of a chain
that `iob_trimhead` empties. Both are so in every run (`IobChain.buffers_conserved`).

`iob_contig` is for sizes up to that of a buffer, as its assertion says. A larger one is copied over
the end of the buffer (`IobChain.contig_over_trimhead_keeps`, where `iob_trimhead` keeps a buffer
that it empties, too).
-/

namespace GreenboneFeeder.IobChain

open Singly Option List

/-! ### The system -/

/-- The pool, and the first buffers of the chains in use. -/
structure Sys where
  pool : Pool
  heads : List ℕ

/-- An operation. -/
inductive Op where
  | tryalloc (throttled : Bool)
  | free (head : ℕ)
  | copyin (interrupt throttled : Bool) (head : ℕ) (src : List UInt8) (offset : ℕ)
  | trimhead (head trimlen : ℕ)
  | trimtail (head trimlen : ℕ)
  | contig (head len : ℕ)
  | concat (head₁ head₂ : ℕ)
  deriving DecidableEq, Repr

variable (cfg : Config)

/-- All buffers are free. -/
def initial : Sys := ⟨iobInitialize cfg, []⟩

/-- **One operation.** A task that waits for a buffer in `iob_copyin` holds the chain as it is. -/
def step (s : Sys) : Op → Option Sys
  | .tryalloc throttled =>
    let (pool, iob) := iobTryalloc cfg throttled s.pool
    some ⟨pool, iob.toList ++ s.heads⟩
  | .free head =>
    let (pool, next) := iobFree cfg s.pool head
    some ⟨pool, next.toList ++ s.heads.erase head⟩
  | .copyin interrupt throttled head src offset => do
    let (pool, _) ← iobCopyin cfg interrupt throttled head src offset s.pool
    some ⟨pool, s.heads⟩
  | .trimhead head trimlen => do
    let (pool, head') ← iobTrimhead cfg head trimlen s.pool
    some ⟨pool, head' :: s.heads.erase head⟩
  | .trimtail head trimlen => do
    let (pool, head') ← iobTrimtail cfg head trimlen s.pool
    some ⟨pool, head'.toList ++ s.heads.erase head⟩
  | .contig head len => do
    let (pool, _) ← iobContig cfg head len s.pool
    some ⟨pool, s.heads⟩
  | .concat head₁ head₂ => do
    let pool ← iobConcat cfg head₁ head₂ s.pool
    some ⟨pool, s.heads.erase head₂⟩

/-- The buffers in the free list. -/
def freeBuffers (p : Pool) : List ℕ := follow p.flink cfg.nbuffers p.freelist

/-- The buffers of a chain. -/
def chainOf (p : Pool) (head : ℕ) : List ℕ := follow p.flink cfg.nbuffers (some head)

/-- **The operation may be called**: for chains in use. `iob_copyin` and `iob_contig` need a
well-formed chain, and `iob_contig` a size that fits into a buffer. -/
def Legal (s : Sys) : Op → Prop
  | .tryalloc _ => True
  | .free head | .trimhead head _ | .trimtail head _ => head ∈ s.heads
  | .copyin _ _ head _ _ => head ∈ s.heads ∧ WellFormed cfg s.pool (chainOf cfg s.pool head)
  | .contig head len =>
    head ∈ s.heads ∧ WellFormed cfg s.pool (chainOf cfg s.pool head) ∧ len ≤ cfg.bufsize
  | .concat head₁ head₂ => head₁ ∈ s.heads ∧ head₂ ∈ s.heads ∧ head₁ ≠ head₂

/-- **Every buffer is in exactly one place.** The free list and the chains end, and all of them
together are the buffers, each one once. -/
structure Conserved (s : Sys) : Prop where
  free : Path s.pool.flink s.pool.freelist (freeBuffers cfg s.pool)
  chains : ∀ head ∈ s.heads, Path s.pool.flink (some head) (chainOf cfg s.pool head)
  once : (freeBuffers cfg s.pool ++ s.heads.flatMap (chainOf cfg s.pool)).Perm (range cfg.nbuffers)

/-- `iob_trimhead` keeps the last buffer of a chain that it empties. -/
def Op.KeepsLast : Op → Prop
  | .trimhead _ _ => True
  | _ => False

/-- **What an operation hands back.** It puts buffers in front of the free list, or takes them from
there. A buffer with data is free afterwards or still has data; after `iob_trimhead` it may also be
the only one of a chain. -/
structure Handed (s : Sys) (op : Op) (s' : Sys) : Prop where
  front : (∃ freed, freeBuffers cfg s'.pool = freed ++ freeBuffers cfg s.pool) ∨
    ∃ taken, freeBuffers cfg s.pool = taken ++ freeBuffers cfg s'.pool
  emptied : ∀ i < cfg.nbuffers, i ∉ freeBuffers cfg s.pool → 0 < (s.pool.iobs i).len →
    i ∈ freeBuffers cfg s'.pool ∨ 0 < (s'.pool.iobs i).len ∨
      op.KeepsLast ∧ i ∈ s'.heads ∧ chainOf cfg s'.pool i = [i]

/-! ### Where the buffers are -/

variable {cfg}

/-- The free list and the chains, with the size of the buffers. -/
structure Layout (cfg : Config) (s : Sys) (fl : List ℕ) (chain : ℕ → List ℕ) : Prop where
  free : Path s.pool.flink s.pool.freelist fl
  chains : ∀ head ∈ s.heads, Path s.pool.flink (some head) (chain head)
  once : (fl ++ s.heads.flatMap chain).Perm (range cfg.nbuffers)
  data : ∀ i < cfg.nbuffers, (s.pool.iobs i).data.length = cfg.bufsize

variable {s : Sys} {op : Op} {p' : Pool} {fl fl' c c' others : List ℕ} {chain : ℕ → List ℕ}
  {head : ℕ}

namespace Layout

theorem nodup (h : Layout cfg s fl chain) : (fl ++ s.heads.flatMap chain).Nodup :=
  h.once.nodup_iff.mpr nodup_range

theorem lt (h : Layout cfg s fl chain) {i : ℕ} (hi : i ∈ fl ++ s.heads.flatMap chain) :
    i < cfg.nbuffers :=
  mem_range.mp (h.once.mem_iff.mp hi)

theorem split (chain : ℕ → List ℕ) (hhead : head ∈ s.heads) :
    (s.heads.flatMap chain).Perm (chain head ++ (s.heads.erase head).flatMap chain) :=
  (perm_cons_erase hhead).flatMap_right chain

theorem mem_flatMap (hhead : head ∈ s.heads) {i : ℕ} (hi : i ∈ chain head) :
    i ∈ s.heads.flatMap chain :=
  List.mem_flatMap.mpr ⟨head, hhead, hi⟩

section

variable (h : Layout cfg s fl chain)

include h

theorem owns (hhead : head ∈ s.heads) :
    Owns cfg s.pool fl (chain head) ∧ (chain head).head? = some head := by
  have hchain := h.chains head hhead
  have hmem : ∀ i ∈ fl ++ chain head, i ∈ fl ++ s.heads.flatMap chain := fun i hi =>
    (mem_append.mp hi).elim (mem_append_left _) fun hi =>
      mem_append_right fl (mem_flatMap hhead hi)
  have hnodup : (fl ++ chain head).Nodup := by
    have hperm := (split chain hhead).append_left fl
    rw [← append_assoc] at hperm
    exact (nodup_append.mp (hperm.nodup_iff.mp h.nodup)).1
  refine ⟨⟨h.free, ?_, hnodup, fun i hi => h.lt (hmem i hi), fun i hi => ?_⟩, hchain.head?_eq⟩
  · rw [hchain.head?_eq]
    exact hchain
  · exact h.data i (h.lt (hmem i hi))

theorem owns_nil : Owns cfg s.pool fl [] := by
  refine ⟨h.free, rfl, ?_, fun i hi => ?_, fun i hi => ?_⟩
  · rw [append_nil]
    exact (nodup_append.mp h.nodup).1
  · rw [append_nil] at hi
    exact h.lt (mem_append_left _ hi)
  · rw [append_nil] at hi
    exact h.data i (h.lt (mem_append_left _ hi))

theorem freeBuffers_eq : freeBuffers cfg s.pool = fl := by
  have hlen := h.once.length_eq
  rw [length_append, length_range] at hlen
  exact h.free.follow_eq (by omega)

theorem chainOf_eq (hhead : head ∈ s.heads) :
    chainOf cfg s.pool head = chain head := by
  have hlen := (h.owns hhead).1.length_le
  exact (h.chains head hhead).follow_eq (by omega)

theorem conserved : Conserved cfg s := by
  have hfree := h.freeBuffers_eq
  refine ⟨by rw [hfree]; exact h.free, fun head hhead => ?_, ?_⟩
  · rw [h.chainOf_eq hhead]
    exact h.chains head hhead
  · have heq : s.heads.flatMap (chainOf cfg s.pool) = s.heads.flatMap chain := by
      rw [flatMap_def, flatMap_def, map_congr_left fun _ hmem => h.chainOf_eq hmem]
    rw [hfree, heq]
    exact h.once

theorem of_perm {heads : List ℕ} (hperm : s.heads.Perm heads) :
    Layout cfg ⟨s.pool, heads⟩ fl chain :=
  ⟨h.free, fun head hhead => h.chains head (hperm.mem_iff.mpr hhead),
    ((hperm.symm.flatMap_right chain).append_left fl).trans h.once, h.data⟩

/-- **An operation on some of the buffers.** The chains that it is not called for do not change. -/
theorem act (hsub : others ⊆ s.heads)
    (hperm : (s.heads.flatMap chain).Perm (c ++ others.flatMap chain))
    (hacts : Acts cfg s.pool fl c p' fl' c') :
    Layout cfg ⟨p', c'.head?.toList ++ others⟩ fl' fun k =>
      if c'.head? = some k then c' else chain k := by
  have hperm' : (fl ++ s.heads.flatMap chain).Perm ((fl ++ c) ++ others.flatMap chain) := by
    rw [append_assoc]
    exact hperm.append_left fl
  have hdisj : ∀ i ∈ others.flatMap chain, i ∉ fl ++ c := fun i hi hmem =>
    (nodup_append.mp (hperm'.nodup_iff.mp h.nodup)).2.2 i hmem i hi rfl
  -- The head of the new chain is not one of the other heads.
  have hother : ∀ k ∈ others, c'.head? ≠ some k := fun k hk hc => by
    have hk' : k ∈ chain k := mem_of_mem_head? (h.owns (hsub hk)).2
    exact hdisj k (List.mem_flatMap.mpr ⟨k, hk, hk'⟩)
      (hacts.perm.mem_iff.mp (mem_append_right fl' (mem_of_mem_head? hc)))
  have hrest : others.flatMap (fun k => if c'.head? = some k then c' else chain k) =
      others.flatMap chain := by
    rw [flatMap_def, flatMap_def, map_congr_left fun k hk => if_neg (hother k hk)]
  refine ⟨hacts.owns.free, fun k hk => ?_, ?_, fun i hi => ?_⟩
  · rcases mem_append.mp hk with hk | hk
    · have hhead : c'.head? = some k := mem_toList.mp hk
      rw [if_pos hhead, ← hhead]
      exact hacts.owns.chain
    · rw [if_neg (hother k hk)]
      refine (h.chains k (hsub hk)).congr fun i hi => ?_
      rw [Pool.flink, hacts.frame i (hdisj i (List.mem_flatMap.mpr ⟨k, hk, hi⟩))]
      rfl
  · have hhead :
        c'.head?.toList.flatMap (fun k => if c'.head? = some k then c' else chain k) = c' := by
      cases c' with
      | nil => rfl
      | cons a c' => simp
    rw [flatMap_append, hhead, hrest, ← append_assoc]
    exact ((hacts.perm.append_right _).trans hperm'.symm).trans h.once
  · by_cases hmem : i ∈ fl ++ c
    · exact hacts.owns.data i (hacts.perm.mem_iff.mpr hmem)
    · rw [hacts.frame i hmem]
      exact h.data i hi

theorem handed {s' : Sys} {chain' : ℕ → List ℕ}
    (h' : Layout cfg s' fl' chain') (hacts : Acts cfg s.pool fl c s'.pool fl' c')
    (hfront : (∃ freed, fl' = freed ++ fl) ∨ ∃ taken, fl = taken ++ fl')
    (hkept : ∀ j ∈ c, j ∈ c' → 0 < (s.pool.iobs j).len →
      0 < (s'.pool.iobs j).len ∨ op.KeepsLast ∧ j ∈ s'.heads ∧ chain' j = [j]) :
    Handed cfg s op s' := by
  have hfree := h.freeBuffers_eq
  have hfree' := h'.freeBuffers_eq
  refine ⟨by rw [hfree, hfree']; exact hfront, fun i _ hnotMem hpos => ?_⟩
  rw [hfree] at hnotMem
  rw [hfree']
  by_cases hi : i ∈ c
  · rcases mem_append.mp (hacts.perm.mem_iff.mpr (mem_append_right fl hi)) with hi' | hi'
    · exact .inl hi'
    · refine .inr ((hkept i hi hi' hpos).imp_right fun ⟨hkeeps, hhead, hchain⟩ =>
        ⟨hkeeps, hhead, ?_⟩)
      rw [h'.chainOf_eq hhead, hchain]
  · have hframe := hacts.frame i fun hmem => (mem_append.mp hmem).elim hnotMem hi
    exact .inr (.inl (by rwa [hframe]))

end

end Layout

theorem Handed.of_perm {s' : Sys} {heads : List ℕ} (h : Handed cfg s op s')
    (hperm : s'.heads.Perm heads) : Handed cfg s op ⟨s'.pool, heads⟩ :=
  ⟨h.front, fun i hi hnotMem hpos => (h.emptied i hi hnotMem hpos).imp_right fun hi' =>
    hi'.imp_right fun ⟨hkeeps, hhead, hchain⟩ => ⟨hkeeps, hperm.mem_iff.mp hhead, hchain⟩⟩

/-- **The invariant**: the links make up a free list and chains that have every buffer once. -/
def Sound (cfg : Config) (s : Sys) : Prop := ∃ fl chain, Layout cfg s fl chain

namespace Layout

theorem handsBack (op : Op) (h : Layout cfg s fl chain) (hhead : head ∈ s.heads)
    (hback : HandsBack op.KeepsLast cfg s.pool fl (chain head) p' fl' c') :
    Sound cfg ⟨p', c'.head?.toList ++ s.heads.erase head⟩ ∧
      Handed cfg s op ⟨p', c'.head?.toList ++ s.heads.erase head⟩ := by
  have hlayout := h.act erase_subset (split chain hhead) hback.toActs
  refine ⟨⟨_, _, hlayout⟩, h.handed hlayout hback.toActs (.inl hback.freed) fun j _ hj hpos => ?_⟩
  refine (hback.kept j hj hpos).imp_right fun ⟨hkeeps, hsingle⟩ => ?_
  subst hsingle
  exact ⟨hkeeps, mem_append_left _ (mem_toList.mpr rfl), if_pos rfl⟩

theorem extends_chain (h : Layout cfg s fl chain) (hhead : head ∈ s.heads)
    (hext : Extends cfg s.pool fl (chain head) p' fl' c') :
    Sound cfg ⟨p', c'.head?.toList ++ s.heads.erase head⟩ ∧
      Handed cfg s op ⟨p', c'.head?.toList ++ s.heads.erase head⟩ := by
  have hlayout := h.act erase_subset (split chain hhead) hext.toActs
  obtain ⟨used, hfl, -⟩ := hext.taken
  exact ⟨⟨_, _, hlayout⟩, h.handed hlayout hext.toActs (.inr ⟨used, hfl⟩)
    fun j hj _ hpos => .inl (Nat.lt_of_lt_of_le hpos (hext.kept j hj))⟩

end Layout

theorem heads_perm (hc : c'.head? = some head) (hhead : head ∈ s.heads) :
    (c'.head?.toList ++ s.heads.erase head).Perm s.heads := by
  rw [hc]
  exact (perm_cons_erase hhead).symm

/-! ### One operation -/

theorem Layout.tryalloc (h : Layout cfg s fl chain) (throttled : Bool) :
    ∃ s', step cfg s (.tryalloc throttled) = some s' ∧ Sound cfg s' ∧
      Handed cfg s (.tryalloc throttled) s' := by
  have hpop := iobTryalloc_popped cfg throttled s.pool
  match htry : iobTryalloc cfg throttled s.pool with
  | (p', none) =>
    rw [htry] at hpop
    have hacts := hpop.acts h.owns_nil
    have hlayout := h.act (List.Subset.refl _) (.refl _) hacts
    refine ⟨⟨p', s.heads⟩, ?_, ⟨_, _, hlayout⟩, h.handed hlayout hacts (.inl ⟨[], rfl⟩) ?_⟩
    · rw [IobChain.step, htry]
      rfl
    · exact fun j hj => absurd hj not_mem_nil
  | (p', some i) =>
    rw [htry] at hpop
    obtain ⟨fl', rfl, hacts⟩ := h.owns_nil.pop hpop
    have hlayout := h.act (List.Subset.refl _) (.refl _) hacts
    refine ⟨⟨p', i :: s.heads⟩, ?_, ⟨_, _, hlayout⟩, h.handed hlayout hacts (.inr ⟨[i], rfl⟩) ?_⟩
    · rw [IobChain.step, htry]
      rfl
    · exact fun j hj => absurd hj not_mem_nil

theorem Layout.concat (h : Layout cfg s fl chain) {head₁ head₂ : ℕ} (hhead₁ : head₁ ∈ s.heads)
    (hhead₂ : head₂ ∈ s.heads) (hne : head₁ ≠ head₂) :
    ∃ s', step cfg s (.concat head₁ head₂) = some s' ∧ Sound cfg s' ∧
      Handed cfg s (.concat head₁ head₂) s' := by
  have hhead₂' : head₂ ∈ s.heads.erase head₁ := (mem_erase_of_ne hne.symm).mpr hhead₂
  have hsplit : (s.heads.flatMap chain).Perm
      (chain head₁ ++ chain head₂ ++ ((s.heads.erase head₁).erase head₂).flatMap chain) := by
    rw [append_assoc]
    exact (Layout.split chain hhead₁).trans
      (((perm_cons_erase hhead₂').flatMap_right chain).append_left _)
  have hsub : (s.heads.erase head₁).erase head₂ ⊆ s.heads :=
    fun k hk => mem_of_mem_erase (mem_of_mem_erase hk)
  have hnodup : (fl ++ (chain head₁ ++ chain head₂)).Nodup := by
    have hperm := hsplit.append_left fl
    rw [← append_assoc] at hperm
    exact (nodup_append.mp (hperm.nodup_iff.mp h.nodup)).1
  obtain ⟨howns₁, hc₁⟩ := h.owns hhead₁
  obtain ⟨howns₂, hc₂⟩ := h.owns hhead₂
  obtain ⟨p', hconcat, hacts, hsame⟩ := iobConcat_spec howns₁ howns₂ hc₁ hc₂ hnodup
  have hc : (chain head₁ ++ chain head₂).head? = some head₁ := by
    rw [head?_append, hc₁]
    rfl
  have hlayout := h.act hsub hsplit hacts
  have hhanded : Handed cfg s (.concat head₁ head₂) _ :=
    h.handed hlayout hacts (.inl ⟨[], rfl⟩) fun j _ _ hpos => .inl <| by rwa [(hsame j).len]
  have hperm :
      ((chain head₁ ++ chain head₂).head?.toList ++ (s.heads.erase head₁).erase head₂).Perm
        (s.heads.erase head₂) := by
    rw [hc, erase_comm]
    exact (perm_cons_erase ((mem_erase_of_ne hne).mpr hhead₁)).symm
  refine ⟨⟨p', s.heads.erase head₂⟩, ?_, ⟨_, _, hlayout.of_perm hperm⟩, hhanded.of_perm hperm⟩
  rw [IobChain.step, hconcat, bind_eq_bind, bind_some]

/-- **Every operation that may be called returns**, and keeps the invariant. -/
theorem Sound.step (h : Sound cfg s) (hlegal : Legal cfg s op) :
    ∃ s', step cfg s op = some s' ∧ Sound cfg s' ∧ Handed cfg s op s' := by
  obtain ⟨fl, chain, h⟩ := h
  cases op with
  | tryalloc throttled => exact h.tryalloc throttled
  | free head =>
    obtain ⟨howns, hc⟩ := h.owns hlegal
    obtain ⟨rest, hrest⟩ := head?_eq_some_iff.mp hc
    rw [hrest] at howns
    obtain ⟨hback, hnext⟩ := iobFree_spec howns
    rw [← hrest] at hback
    refine ⟨⟨(iobFree cfg s.pool head).1, rest.head?.toList ++ s.heads.erase head⟩, ?_,
      h.handsBack (.free head) hlegal hback⟩
    rw [← hnext]
    rfl
  | copyin interrupt throttled head src offset =>
    obtain ⟨hhead, hwf⟩ := hlegal
    obtain ⟨howns, hc⟩ := h.owns hhead
    rw [h.chainOf_eq hhead] at hwf
    obtain ⟨p', r, fl', c', hcopy, hext⟩ :=
      iobCopyin_spec howns hc hwf
    have hc' : c'.head? = some head := by
      obtain ⟨used, -, rfl⟩ := hext.taken
      rw [head?_append, hc]
      rfl
    obtain ⟨⟨fl'', chain'', hlayout⟩, hhanded⟩ := h.extends_chain hhead hext
    have hperm := heads_perm hc' hhead
    refine ⟨⟨p', s.heads⟩, ?_, ⟨fl'', chain'', hlayout.of_perm hperm⟩, hhanded.of_perm hperm⟩
    rw [IobChain.step, hcopy, bind_eq_bind, bind_some]
  | trimhead head trimlen =>
    obtain ⟨howns, hc⟩ := h.owns hlegal
    obtain ⟨rest, hrest⟩ := head?_eq_some_iff.mp hc
    rw [hrest] at howns
    obtain ⟨p', i', rest', fl', htrim, hback⟩ := iobTrimhead_spec howns trimlen
    rw [← hrest] at hback
    refine ⟨⟨p', i' :: s.heads.erase head⟩, ?_, h.handsBack (.trimhead head trimlen) hlegal hback⟩
    rw [IobChain.step, htrim, bind_eq_bind, bind_some]
  | trimtail head trimlen =>
    obtain ⟨howns, hc⟩ := h.owns hlegal
    obtain ⟨p', fl', c', htrim, hback⟩ := iobTrimtail_spec howns hc trimlen
    refine ⟨⟨p', c'.head?.toList ++ s.heads.erase head⟩, ?_,
      h.handsBack (.trimtail head trimlen) hlegal hback⟩
    rw [IobChain.step, htrim, bind_eq_bind, bind_some]
  | contig head len =>
    obtain ⟨hhead, hwf, hle⟩ := hlegal
    obtain ⟨howns, hc⟩ := h.owns hhead
    rw [h.chainOf_eq hhead] at hwf
    obtain ⟨rest, hrest⟩ := head?_eq_some_iff.mp hc
    rw [hrest] at howns hwf
    obtain ⟨p', ok, fl', rest', hcontig, hback⟩ := iobContig_spec howns hwf hle
    rw [← hrest] at hback
    have hperm := heads_perm (show (head :: rest').head? = some head from rfl) hhead
    obtain ⟨⟨fl'', chain'', hlayout⟩, hhanded⟩ :=
      h.handsBack (.contig head len) hhead hback
    refine ⟨⟨p', s.heads⟩, ?_, ⟨fl'', chain'', hlayout.of_perm hperm⟩, hhanded.of_perm hperm⟩
    rw [IobChain.step, hcontig, bind_eq_bind, bind_some]
  | concat head₁ head₂ => exact h.concat hlegal.1 hlegal.2.1 hlegal.2.2

/-! ### All runs -/

theorem putFree_range (cfg : Config) (n : ℕ) :
    let p := (range n).foldl putFree (zeroedPool cfg)
    Path p.flink p.freelist (range n).reverse ∧ ∀ i, (p.iobs i).data.length = cfg.bufsize := by
  induction n with
  | zero => exact ⟨rfl, fun i => length_replicate⟩
  | succ n ih =>
    obtain ⟨hpath, hdata⟩ := ih
    rw [range_succ, foldl_concat, reverse_concat]
    generalize (range n).foldl putFree (zeroedPool cfg) = p at hpath hdata
    refine ⟨⟨rfl, ?_⟩, fun i => ?_⟩
    · have hflink : (putFree p n).flink = Function.update p.flink n p.freelist := set_flink
      rw [hflink, Function.update_self]
      refine hpath.congr fun i hi => Function.update_of_ne ?_ ..
      rintro rfl
      simp at hi
    · exact (congrArg length (set_flink_same p.freelist).data).trans (hdata i)

theorem sound_initial {cfg : Config} : Sound cfg (initial cfg) := by
  obtain ⟨hpath, hdata⟩ := putFree_range cfg cfg.nbuffers
  refine ⟨(range cfg.nbuffers).reverse, fun _ => [], hpath, ?_, ?_, fun i _ => hdata i⟩
  · exact fun head hhead => absurd hhead not_mem_nil
  · rw [initial, flatMap_nil, append_nil]
    exact reverse_perm _

/-- **No buffer is lost.** Every operation that may be called returns; each buffer is in exactly one
place in every state, and the buffers that are emptied are handed back. -/
theorem buffers_conserved (cfg : Config) (ops : List Op)
    (hlegal : Run.AllSteps (step cfg) (Legal cfg) (initial cfg) ops) :
    (∃ s, Run.run (step cfg) (initial cfg) ops = some s ∧ Conserved cfg s) ∧
      Run.AllSteps (step cfg) (fun s op => ∀ s', step cfg s op = some s' → Handed cfg s op s')
        (initial cfg) ops := by
  have hstep : ∀ s op s', Sound cfg s → Legal cfg s op → step cfg s op = some s' →
      Sound cfg s' ∧ Handed cfg s op s' := fun s op s' hs hop hs' => by
    obtain ⟨hsound, hhanded⟩ := Run.of_eq_some (hs.step hop) hs'
    exact ⟨hsound, hhanded⟩
  constructor
  · obtain ⟨s, hrun, fl, chain, hlayout⟩ := Run.progress
      (fun s op hs hop => by
        obtain ⟨s', hs', hsound, -⟩ := hs.step hop
        exact ⟨s', hs', hsound⟩) ops sound_initial hlegal
    exact ⟨s, hrun, hlayout.conserved⟩
  · exact Run.AllSteps.of_invariant (fun s op s' hs hop hs' => (hstep s op s' hs hop hs').1)
      (fun s op hs hop s' hs' => (hstep s op s' hs hop hs').2) ops sound_initial hlegal

instance (cfg : Config) (p : Pool) (c : List ℕ) : Decidable (WellFormed cfg p c) :=
  decidable_of_iff ((∀ i ∈ c.head?, (p.iobs i).pktlen = p.dataLen c) ∧
      ∀ i ∈ c, (p.iobs i).offset + (p.iobs i).len ≤ cfg.bufsize)
    ⟨fun h => ⟨h.1, h.2⟩, fun h => ⟨h.pktlen, h.inside⟩⟩

instance (cfg : Config) (s : Sys) : ∀ op, Decidable (Legal cfg s op)
  | .tryalloc _ => isTrue trivial
  | .free head | .trimhead head _ | .trimtail head _ => inferInstanceAs (Decidable (head ∈ s.heads))
  | .copyin _ _ _ _ _ | .contig _ _ | .concat _ _ => inferInstanceAs (Decidable (_ ∧ _))

theorem four_lt_size : 4 < 2 ^ 16 := by decide

/-- Four buffers of four bytes. -/
def fourBuffers : Config := ⟨4, 4, 0, four_lt_size⟩

/-- A packet of ten bytes is trimmed on both sides and packed, and another buffer put behind it. -/
theorem buffers_conserved_packet :
    ∃ s, Run.run (step fourBuffers) (initial fourBuffers)
        [.tryalloc false, .copyin false false 3 [1, 2, 3, 4, 5, 6, 7, 8, 9, 10] 0, .trimhead 3 2,
          .contig 3 3, .trimtail 3 3, .tryalloc false, .concat 3 1, .free 3] = some s ∧
      Conserved fourBuffers s := by
  refine (buffers_conserved fourBuffers _ ?_).1
  decide

/-- **A size that is larger than a buffer, and a buffer that is not handed back.** When five of the
six bytes of a chain are packed into the first buffer, of four bytes, the copy runs over its end.
When all six are trimmed at the head, the second buffer stays in the chain, without data. -/
theorem contig_over_trimhead_keeps :
    ∃ s, Run.run (step fourBuffers) (initial fourBuffers)
        [.tryalloc false, .copyin false false 3 [1, 2, 3, 4, 5, 6] 0] = some s ∧
      3 ∈ s.heads ∧ WellFormed fourBuffers s.pool (chainOf fourBuffers s.pool 3) ∧
      step fourBuffers s (.contig 3 5) = none ∧
      ∃ s', step fourBuffers s (.trimhead 3 6) = some s' ∧ (s.pool.iobs 2).len = 2 ∧
        (s'.pool.iobs 2).len = 0 ∧ 2 ∉ freeBuffers fourBuffers s'.pool := by
  refine ⟨_, rfl, by decide, by decide, by decide, _, rfl, ?_⟩
  decide

end GreenboneFeeder.IobChain
