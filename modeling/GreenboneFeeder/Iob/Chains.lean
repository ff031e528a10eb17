import GreenboneFeeder.Iob.Buffers
import GreenboneFeeder.Lib.Singly
import Mathlib.Data.List.Perm.Subperm

/-!
# What the operations do to the free list and to a chain

`IobChain.Owns` says that the links make up a free list and a chain without common buffers. An
operation on the chain touches these buffers only, and moves some of them from one list to the other
(`IobChain.Acts`). There is one lemma for each elementary edit, and the loops are sequences of them.
-/

namespace GreenboneFeeder.IobChain

open List Function

open CString Words Singly

variable {cfg : Config}

/-- The links. -/
def Pool.flink (p : Pool) (i : ℕ) : Option ℕ := (p.iobs i).flink

/-- **The links make up the free list and a chain**, which have no buffer in common. -/
structure Owns (cfg : Config) (p : Pool) (fl c : List ℕ) : Prop where
  free : Path p.flink p.freelist fl
  chain : Path p.flink c.head? c
  nodup : (fl ++ c).Nodup
  bounded : ∀ i ∈ fl ++ c, i < cfg.nbuffers
  data : ∀ i ∈ fl ++ c, (p.iobs i).data.length = cfg.bufsize

/-- **An operation on a chain**: the buffers of the free list and of the chain are distributed anew,
and all others are left alone. -/
structure Acts (cfg : Config) (p : Pool) (fl c : List ℕ) (p' : Pool) (fl' c' : List ℕ) : Prop where
  owns : Owns cfg p' fl' c'
  perm : (fl' ++ c').Perm (fl ++ c)
  frame : ∀ i ∉ fl ++ c, p'.iobs i = p.iobs i

variable {p p' p'' : Pool} {fl fl' fl'' c c' c'' pre post : List ℕ} {i j q : ℕ} {iob : Iob}

theorem Owns.refl (h : Owns cfg p fl c) : Acts cfg p fl c p fl c := ⟨h, .refl _, fun _ _ => rfl⟩

theorem Acts.trans (h : Acts cfg p fl c p' fl' c') (h' : Acts cfg p' fl' c' p'' fl'' c'') :
    Acts cfg p fl c p'' fl'' c'' := by
  refine ⟨h'.owns, h'.perm.trans h.perm, fun i hi => ?_⟩
  rw [h'.frame i fun hmem => hi (h.perm.mem_iff.mp hmem), h.frame i hi]

theorem Owns.length_le (h : Owns cfg p fl c) : fl.length + c.length ≤ cfg.nbuffers := by
  have hle := (subperm_of_subset h.nodup fun i hi =>
    mem_range.mpr (h.bounded i hi)).length_le
  rwa [length_append, length_range] at hle

theorem Owns.notMem_free (h : Owns cfg p fl c) (hi : i ∈ c) : i ∉ fl := fun hmem =>
  (nodup_append.mp h.nodup).2.2 i hmem i hi rfl

theorem Owns.nodup_chain (h : Owns cfg p fl c) : c.Nodup := (nodup_append.mp h.nodup).2.1

/-! ### Writing a buffer -/

section Write

@[simp] theorem set_iobs_self : (p.set i iob).iobs i = iob := update_self ..

theorem set_iobs_of_ne (h : j ≠ i) : (p.set i iob).iobs j = p.iobs j := update_of_ne h ..

theorem set_flink : (p.set i iob).flink = update p.flink i iob.flink := by
  funext j
  by_cases hj : j = i
  · rw [hj, update_self, Pool.flink, set_iobs_self]
  · rw [update_of_ne hj, Pool.flink, set_iobs_of_ne hj]
    rfl

/-- **A buffer is written** without its link. -/
theorem Owns.set (h : Owns cfg p fl c) (hi : i ∈ fl ++ c) (hflink : iob.flink = (p.iobs i).flink)
    (hdata : iob.data.length = cfg.bufsize) : Acts cfg p fl c (p.set i iob) fl c := by
  have hsame : (p.set i iob).flink = p.flink := by
    rw [set_flink, hflink]
    exact update_eq_self i p.flink
  refine ⟨⟨?_, ?_, h.nodup, h.bounded, fun j hj => ?_⟩, .refl _, fun j hj => ?_⟩
  · rw [hsame]
    exact h.free
  · rw [hsame]
    exact h.chain
  · by_cases hji : j = i
    · rw [hji, set_iobs_self, hdata]
    · rw [set_iobs_of_ne hji]
      exact h.data j hj
  · exact set_iobs_of_ne fun hji => hj (hji ▸ hi)

/-- The buffers differ in the link and in the length of the packet at most. -/
structure SameData (iob iob' : Iob) : Prop where
  len : iob'.len = iob.len
  offset : iob'.offset = iob.offset
  data : iob'.data = iob.data

theorem SameData.refl (iob : Iob) : SameData iob iob := ⟨rfl, rfl, rfl⟩

theorem set_same (h : SameData (p.iobs i) iob) (j : ℕ) :
    SameData (p.iobs j) ((p.set i iob).iobs j) := by
  by_cases hj : j = i
  · subst hj
    rwa [set_iobs_self]
  · rw [set_iobs_of_ne hj]
    exact .refl _

theorem set_pktlen_same (p : Pool) (i n j : ℕ) :
    SameData (p.iobs j) ((p.set i { p.iobs i with pktlen := n }).iobs j) := by
  apply set_same
  exact ⟨rfl, rfl, rfl⟩

theorem set_flink_same (next : Option ℕ) :
    SameData (p.iobs j) ((p.set i { p.iobs i with flink := next }).iobs j) := by
  apply set_same
  exact ⟨rfl, rfl, rfl⟩

theorem Owns.set_pktlen (h : Owns cfg p fl c) (hi : i ∈ fl ++ c) (n : ℕ) :
    Acts cfg p fl c (p.set i { p.iobs i with pktlen := n }) fl c :=
  h.set hi rfl (h.data i hi)

theorem Owns.set_len (h : Owns cfg p fl c) (hi : i ∈ fl ++ c) (n : ℕ) :
    Acts cfg p fl c (p.set i { p.iobs i with len := n }) fl c :=
  h.set hi rfl (h.data i hi)

end Write

/-! ### Freeing a buffer -/

section Free

theorem passPktlen_acts (pre : List ℕ) (h : Owns cfg p fl (pre ++ i :: post)) :
    Acts cfg p fl (pre ++ i :: post) (passPktlen p i) fl (pre ++ i :: post) := by
  obtain ⟨hnext, -⟩ := h.chain.of_append pre
  have hflink : (p.iobs i).flink = post.head? := hnext
  rw [passPktlen]
  cases post with
  | nil =>
    rw [hflink]
    exact h.refl
  | cons n post =>
    rw [hflink]
    have hn : n ∈ fl ++ (pre ++ i :: n :: post) := by simp
    exact h.set hn rfl (h.data n hn)

theorem passPktlen_same (p : Pool) (i j : ℕ) : SameData (p.iobs j) ((passPktlen p i).iobs j) := by
  rw [passPktlen]
  cases (p.iobs i).flink with
  | none => exact .refl _
  | some n => exact set_pktlen_same p n _ j

theorem iobFree_iobs_of_ne (hj : j ≠ i) : (iobFree cfg p i).1.iobs j = (passPktlen p i).iobs j :=
  update_of_ne hj ..

theorem iobFree_same :
    SameData (p.iobs j) ((iobFree cfg p i).1.iobs j) := by
  have h := passPktlen_same p i j
  by_cases hj : j = i
  · subst hj
    rw [iobFree]
    dsimp only
    rw [update_self]
    exact { h with }
  · rw [iobFree_iobs_of_ne hj]
    exact h

theorem iobFree_flink :
    (iobFree cfg p i).1.flink = update (passPktlen p i).flink i (passPktlen p i).freelist := by
  funext j
  by_cases hj : j = i
  · rw [hj, update_self, Pool.flink, iobFree]
    dsimp only
    rw [update_self]
  · rw [update_of_ne hj, Pool.flink, iobFree_iobs_of_ne hj]
    rfl

theorem Owns.path_iobFree (pre : List ℕ) (h : Owns cfg p fl (pre ++ i :: post)) :
    Path (iobFree cfg p i).1.flink (some i) (i :: fl) := by
  have h₁ := (passPktlen_acts pre h).owns
  refine ⟨rfl, ?_⟩
  rw [iobFree_flink, update_self]
  refine h₁.free.congr fun j hj => update_of_ne ?_ ..
  rintro rfl
  exact h.notMem_free (by simp) hj

theorem Owns.frame_iobFree (pre : List ℕ) (h : Owns cfg p fl (pre ++ i :: post))
    (hj : j ∉ fl ++ (pre ++ i :: post)) :
    (iobFree cfg p i).1.iobs j = p.iobs j := by
  rw [iobFree_iobs_of_ne fun hc => hj (by rw [hc]; simp), (passPktlen_acts pre h).frame j hj]

/-- **The first buffer of a chain is freed.** -/
theorem Owns.free_head (h : Owns cfg p fl (i :: post)) :
    Acts cfg p fl (i :: post) (iobFree cfg p i).1 (i :: fl) post ∧
      (iobFree cfg p i).2 = post.head? := by
  have h₁ := (passPktlen_acts [] h).owns
  obtain ⟨hnext, hpost⟩ := h₁.chain.of_append []
  have hperm : (i :: fl ++ post).Perm (fl ++ i :: post) := perm_middle.symm
  refine ⟨⟨⟨Owns.path_iobFree [] h, ?_, hperm.nodup_iff.mpr h.nodup, fun j hj => ?_,
    fun j hj => ?_⟩, hperm, fun j hj => Owns.frame_iobFree [] h hj⟩, ?_⟩
  · rw [iobFree_flink]
    refine hpost.congr fun j hj => update_of_ne ?_ ..
    rintro rfl
    exact (nodup_cons.mp h.nodup_chain).1 hj
  · exact h.bounded j (hperm.mem_iff.mp hj)
  · rw [iobFree_same.data]
    exact h.data j (hperm.mem_iff.mp hj)
  · exact (h.chain.of_append []).1

/-- **A buffer of a chain is freed** and the buffer in front of it is linked to the next one. -/
theorem Owns.free_unlink (pre : List ℕ) (h : Owns cfg p fl (pre ++ q :: i :: post)) :
    Acts cfg p fl (pre ++ q :: i :: post)
        ((iobFree cfg p i).1.set q { (iobFree cfg p i).1.iobs q with flink := post.head? })
          (i :: fl)
        (pre ++ q :: post) ∧
      (iobFree cfg p i).2 = post.head? := by
  have hsplit : pre ++ q :: i :: post = (pre ++ [q]) ++ i :: post := by simp
  have h' : Owns cfg p fl ((pre ++ [q]) ++ i :: post) := hsplit ▸ h
  have h₁ := (passPktlen_acts _ h').owns
  rw [← hsplit] at h₁
  have hperm : (i :: fl ++ (pre ++ q :: post)).Perm (fl ++ (pre ++ q :: i :: post)) := by
    rw [hsplit, show pre ++ q :: post = (pre ++ [q]) ++ post by simp]
    exact (perm_middle.symm.trans (perm_middle.symm.append_left fl))
  have hnodup := hperm.nodup_iff.mpr h.nodup
  have hnotMem : i ∉ fl ++ (pre ++ q :: post) := (nodup_cons.mp hnodup).1
  have hqi : q ≠ i := fun hc => hnotMem (by rw [← hc]; simp)
  have hfree := h'.path_iobFree
  -- The links of the chain without the buffer are those of the pool before it was freed.
  have hchain := h₁.chain.unlink (nodup_append.mp (nodup_cons.mp hnodup).2).2.1
  refine ⟨⟨⟨?_, ?_, hnodup, fun j hj => ?_, fun j hj => ?_⟩, hperm, fun j hj => ?_⟩, ?_⟩
  · rw [set_flink]
    refine hfree.congr fun j hj => update_of_ne ?_ ..
    rintro rfl
    rcases mem_cons.mp hj with hji | hj
    · exact hqi hji
    · exact h.notMem_free (by simp) hj
  · rw [set_flink, iobFree_flink]
    have hhead : (pre ++ q :: post).head? = (pre ++ q :: i :: post).head? := by cases pre <;> rfl
    rw [hhead, update_comm hqi.symm]
    refine hchain.congr fun j hj => update_of_ne ?_ ..
    rintro rfl
    exact hnotMem (mem_append_right fl hj)
  · exact h.bounded j (hperm.mem_iff.mp hj)
  · have hdata : ((iobFree cfg p i).1.iobs j).data.length = cfg.bufsize := by
      rw [iobFree_same.data]
      exact h.data j (hperm.mem_iff.mp hj)
    by_cases hjq : j = q
    · subst hjq
      rw [set_iobs_self]
      exact hdata
    · rw [set_iobs_of_ne hjq]
      exact hdata
  · rw [set_iobs_of_ne fun hc => hj (by rw [hc]; simp)]
    exact h'.frame_iobFree _ (by rwa [← hsplit])
  · exact (h'.chain.of_append _).1

end Free

/-! ### Taking a buffer from the free list -/

section Alloc

/-- **A buffer is taken from the free list**, or none is: the counts of the semaphores do not matter
for the lists. -/
inductive Popped (p : Pool) : Option ℕ → Pool → Prop
  | same {p' : Pool} (hiobs : p'.iobs = p.iobs) (hfree : p'.freelist = p.freelist) :
      Popped p none p'
  | taken {p' : Pool} {i : ℕ} (hhead : p.freelist = some i)
      (hiobs : p'.iobs = update p.iobs i
        { p.iobs i with flink := none, len := 0, offset := 0, pktlen := 0 })
      (hfree : p'.freelist = (p.iobs i).flink) : Popped p (some i) p'

theorem iobTryalloc_popped (cfg : Config) (throttled : Bool) (p : Pool) :
    Popped p (iobTryalloc cfg throttled p).2 (iobTryalloc cfg throttled p).1 := by
  rw [iobTryalloc]
  by_cases hcount : 0 < cfg.throttle ∧ p.semcount cfg throttled ≤ 0
  · rw [if_pos hcount]
    exact .same rfl rfl
  · rw [if_neg hcount]
    cases hhead : p.freelist with
    | none => exact .same rfl rfl
    | some i => exact .taken hhead rfl rfl

/-- The buffer that `iob_alloc` returns. -/
def Allocated.buffer? : Allocated → Option ℕ
  | .buffer i => some i
  | .null | .waits => none

theorem Popped.of_counts {r : Option ℕ} (h : Popped p' r p'') (hiobs : p'.iobs = p.iobs)
    (hfree : p'.freelist = p.freelist) : Popped p r p'' := by
  cases h with
  | same h₁ h₂ => exact .same (h₁.trans hiobs) (h₂.trans hfree)
  | taken h₁ h₂ h₃ => exact .taken (hfree ▸ h₁) (hiobs ▸ h₂) (hiobs ▸ h₃)

theorem allocwaitLoop_popped (cfg : Config) (throttled : Bool) (rounds : ℕ) (p : Pool) :
    Popped p (allocwaitLoop cfg throttled rounds p).2.buffer?
      (allocwaitLoop cfg throttled rounds p).1 := by
  induction rounds generalizing p with
  | zero => exact .same rfl rfl
  | succ rounds ih =>
    rw [allocwaitLoop]
    have hpop := iobTryalloc_popped cfg throttled p
    match htry : iobTryalloc cfg throttled p with
    | (p', some i) =>
      rw [htry] at hpop
      exact hpop
    | (p', none) =>
      rw [htry] at hpop
      dsimp only at hpop ⊢
      obtain ⟨h₁, h₂⟩ : p'.iobs = p.iobs ∧ p'.freelist = p.freelist := by
        cases hpop with
        | same h₁ h₂ => exact ⟨h₁, h₂⟩
      split_ifs
      · exact (ih _).of_counts h₁ h₂
      · exact (ih _).of_counts h₁ h₂
      · exact .same h₁ h₂
      · exact .same h₁ h₂

theorem iobAlloc_popped (cfg : Config) (interrupt throttled : Bool) (p : Pool) :
    Popped p (iobAlloc cfg interrupt throttled p).2.buffer?
      (iobAlloc cfg interrupt throttled p).1 := by
  rw [iobAlloc]
  cases interrupt with
  | false => exact allocwaitLoop_popped cfg throttled _ p
  | true =>
    have hpop := iobTryalloc_popped cfg throttled p
    match htry : iobTryalloc cfg throttled p with
    | (p', some i) =>
      rw [htry] at hpop
      exact hpop
    | (p', none) =>
      rw [htry] at hpop
      exact hpop

theorem Owns.of_counts (h : Owns cfg p fl c) (hiobs : p'.iobs = p.iobs)
    (hfree : p'.freelist = p.freelist) : Acts cfg p fl c p' fl c := by
  have hflink : p'.flink = p.flink := by
    funext j
    rw [Pool.flink, hiobs]
    rfl
  refine ⟨⟨?_, ?_, h.nodup, h.bounded, fun j hj => ?_⟩, .refl _, fun j _ => by rw [hiobs]⟩
  · rw [hflink, hfree]
    exact h.free
  · rw [hflink]
    exact h.chain
  · rw [hiobs]
    exact h.data j hj

theorem Popped.acts (hpop : Popped p none p') (h : Owns cfg p fl c) : Acts cfg p fl c p' fl c := by
  cases hpop with
  | same hiobs hfree => exact h.of_counts hiobs hfree

theorem Popped.iobs_of_ne {r : Option ℕ} (hpop : Popped p r p') (hj : r ≠ some j) :
    p'.iobs j = p.iobs j := by
  cases hpop with
  | same hiobs => rw [hiobs]
  | taken _ hiobs => rw [hiobs, update_of_ne fun hc => hj (congrArg some hc.symm)]

section

variable (hpop : Popped p (some i) p')

include hpop

theorem Popped.flink_of_ne (hj : j ≠ i) : p'.flink j = p.flink j := by
  rw [Pool.flink, hpop.iobs_of_ne fun hc => hj (Option.some.inj hc).symm]
  rfl

theorem Popped.iobs_self :
    p'.iobs i = { p.iobs i with flink := none, len := 0, offset := 0, pktlen := 0 } := by
  cases hpop with
  | taken _ hiobs => rw [hiobs, update_self]

theorem Popped.data_eq (j : ℕ) :
    (p'.iobs j).data = (p.iobs j).data := by
  by_cases hji : j = i
  · rw [hji, hpop.iobs_self]
  · rw [hpop.iobs_of_ne fun hc => hji (Option.some.inj hc).symm]

theorem Popped.free (h : Path p.flink p.freelist fl)
    (hnodup : fl.Nodup) : ∃ fl', fl = i :: fl' ∧ Path p'.flink p'.freelist fl' := by
  cases hpop with
  | taken hhead hiobs hfree =>
    obtain ⟨fl', rfl⟩ := head?_eq_some_iff.mp (h.head?_eq.trans hhead)
    refine ⟨fl', rfl, ?_⟩
    rw [hfree]
    refine h.2.congr fun j hj => (Popped.taken hhead hiobs hfree).flink_of_ne ?_
    rintro rfl
    exact (nodup_cons.mp hnodup).1 hj

end

/-- **A buffer is taken from the free list**, and is a chain. -/
theorem Owns.pop (h : Owns cfg p fl []) (hpop : Popped p (some i) p') :
    ∃ fl', fl = i :: fl' ∧ Acts cfg p fl [] p' fl' [i] := by
  obtain ⟨fl', rfl, hfree⟩ := hpop.free h.free (nodup_append.mp h.nodup).1
  have hperm : (fl' ++ [i]).Perm (i :: fl' ++ []) := by
    rw [append_nil]
    exact perm_append_singleton i fl'
  refine ⟨fl', rfl, ⟨hfree, ⟨rfl, ?_⟩, hperm.nodup_iff.mpr h.nodup,
    fun j hj => h.bounded j (hperm.mem_iff.mp hj), fun j hj => ?_⟩, hperm, fun j hj => ?_⟩
  · rw [Pool.flink, hpop.iobs_self]
    rfl
  · rw [hpop.data_eq]
    exact h.data j (hperm.mem_iff.mp hj)
  · refine hpop.iobs_of_ne fun hc => hj ?_
    rw [Option.some.inj hc]
    exact mem_cons_self

/-- **A buffer is taken from the free list** and put behind the last buffer of the chain. -/
theorem Owns.link (h : Owns cfg p fl (pre ++ [q])) (hpop : Popped p (some i) p') :
    ∃ fl', fl = i :: fl' ∧ Acts cfg p fl (pre ++ [q])
      (p'.set q { p'.iobs q with flink := some i }) fl' (pre ++ [q, i]) := by
  obtain ⟨fl', rfl, hfree⟩ := hpop.free h.free (nodup_append.mp h.nodup).1
  refine ⟨fl', rfl, ?_⟩
  have hperm : (fl' ++ (pre ++ [q, i])).Perm (i :: fl' ++ (pre ++ [q])) := by
    rw [show fl' ++ (pre ++ [q, i]) = (fl' ++ (pre ++ [q])) ++ [i] by simp]
    exact perm_append_singleton i _
  have hnotMem : i ∉ fl' ++ (pre ++ [q]) := (nodup_cons.mp h.nodup).1
  have hiq : q ≠ i := fun hc => hnotMem (by rw [← hc]; simp)
  have hchain : Path p'.flink (pre ++ [q]).head? (pre ++ [q]) := by
    refine h.chain.congr fun j hj => hpop.flink_of_ne ?_
    rintro rfl
    exact hnotMem (mem_append_right fl' hj)
  have hself : Path p'.flink (some i) [i] := by
    refine ⟨rfl, ?_⟩
    rw [Pool.flink, hpop.iobs_self]
    rfl
  refine ⟨⟨?_, ?_, hperm.nodup_iff.mpr h.nodup, fun j hj => h.bounded j (hperm.mem_iff.mp hj),
    fun j hj => ?_⟩, hperm, fun j hj => ?_⟩
  · rw [set_flink]
    refine hfree.congr fun j hj => update_of_ne ?_ ..
    rintro rfl
    exact h.notMem_free (by simp) (mem_cons_of_mem i hj)
  · have hhead : (pre ++ [q, i]).head? = (pre ++ [q]).head? := by cases pre <;> rfl
    rw [set_flink, hhead]
    refine hchain.link h.nodup_chain hself fun hc => hiq (mem_singleton.mp hc)
  · rw [(set_flink_same (some i)).data, hpop.data_eq]
    exact h.data j (hperm.mem_iff.mp hj)
  · have hji : j ≠ i := fun hc => hj (by rw [hc]; simp)
    rw [set_iobs_of_ne fun hc => hj (by rw [hc]; simp),
      hpop.iobs_of_ne fun hc => hji (Option.some.inj hc).symm]

end Alloc

end GreenboneFeeder.IobChain
