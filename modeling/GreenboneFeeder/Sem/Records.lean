import GreenboneFeeder.Sem.Acts
import Mathlib.Data.List.Perm.Subperm

/-!
# The record of a holder

A holder's record is meant to be a collection of priorities above its base priority, one for each
waiter that raised it: the highest is the priority the holder runs at, the others are pending. On
such a record (`Sem.Record.Good`) a boost adds its priority (`Sem.Record.levels_boost`), and the end
of a wait removes its priority *if it is there* (`Sem.Record.levels_restore`), or else may remove
that of somebody else.

The second half of the file says which holders the calls boost and restore: those of the semaphore,
each exactly once. In `sem_post` the two passes over the holders tell the running task by the head
of the ready-to-run list, which does not change because pre-emption is disabled.
-/

namespace GreenboneFeeder.Sem

open List Function Option

open Sched (Sound)

/-! ### Boosting and restoring -/

namespace Record

variable {r : Record} {p q n : ℕ}

/-- The record is in shape: what is pending is above the base priority, and not above the
current one. -/
structure Good (r : Record) : Prop where
  base_le : r.base ≤ r.sched
  pend : ∀ p ∈ r.pend, r.base < p ∧ p ≤ r.sched

/-- The priorities that the record is a collection of. -/
def levels (r : Record) : List ℕ :=
  (if r.base < r.sched then [r.sched] else []) ++ r.pend

theorem levels_of_boosted (hlt : r.base < r.sched) : r.levels = r.sched :: r.pend := by
  rw [levels, if_pos hlt, singleton_append]

theorem Good.le_of_mem_levels (h : r.Good) (hp : p ∈ r.levels) : r.base < p ∧ p ≤ r.sched := by
  rw [levels, mem_append] at hp
  rcases hp with hp | hp
  · split at hp
    · next hlt =>
      rw [mem_singleton] at hp
      omega
    · exact absurd hp not_mem_nil
  · exact h.pend p hp

theorem Good.pend_eq_nil (h : r.Good) (heq : r.sched = r.base) : r.pend = [] := by
  refine eq_nil_iff_forall_not_mem.mpr fun p hp => ?_
  have := h.pend p hp
  omega

theorem good_boost (h : r.Good) : (r.boost n p).Good := by
  rw [boost]
  split
  · next hlt =>
    split
    · next hlt' =>
      refine ⟨hlt.le, fun u hu => ?_⟩
      dsimp only at hu ⊢
      have hold : ∀ u ∈ r.pend, r.base < u ∧ u ≤ p := by
        intro u hu
        have := h.pend u hu
        omega
      split at hu
      · next hroom =>
        rcases mem_append.mp hu with hu | hu
        · exact hold u hu
        · rw [mem_singleton] at hu
          omega
      · exact hold u hu
    · refine ⟨h.base_le, fun u hu => ?_⟩
      dsimp only at hu ⊢
      rcases mem_append.mp hu with hu | hu
      · exact h.pend u hu
      · rw [mem_singleton] at hu
        omega
  · exact h

/-- **A boost adds its priority**, if there is room for it. -/
theorem levels_boost (hroom : r.pend.length < n) (hlt : r.base < p) :
    (r.boost n p).levels.Perm (p :: r.levels) := by
  rw [boost, if_pos hlt]
  by_cases hlt' : r.sched < p
  · rw [if_pos hlt']
    by_cases hboosted : r.base < r.sched
    · rw [levels_of_boosted (by exact hlt), levels_of_boosted hboosted]
      simp only [hboosted, hroom, and_self, if_true]
      exact (perm_append_singleton _ _).cons p
    · have hlevels : r.levels = r.pend := by rw [levels, if_neg hboosted, nil_append]
      rw [levels_of_boosted (by exact hlt), hlevels]
      simp only [hboosted, false_and, if_false]
      exact .refl _
  · rw [if_neg hlt']
    have hboosted : r.base < r.sched := by omega
    rw [levels_of_boosted (by exact hboosted), levels_of_boosted hboosted]
    exact ((perm_append_singleton _ _).cons _).trans (Perm.swap ..)

theorem boost_of_le (hle : p ≤ r.base) : r.boost n p = r := if_neg (Nat.not_lt.mpr hle)

theorem sched_boost_self : (r.boost n r.sched).sched = r.sched := by
  rw [boost]
  split <;> simp

theorem base_boost : (r.boost n p).base = r.base := by
  rw [boost]
  split
  · split <;> rfl
  · rfl

theorem base_restore : (r.restore p).base = r.base := by
  rw [restore]
  split
  · rfl
  split
  · rfl
  split
  · rfl
  split <;> rfl

theorem restore_of_base (heq : r.sched = r.base) : r.restore p = r := if_pos heq

/-- The end of a wait whose priority is neither the current one nor pending leaves a
record with pending priorities alone. -/
theorem restore_of_missing (h : r.Good) (hne : r.pend ≠ []) (hlt : p < r.sched)
    (hp : p ∉ r.pend) : r.restore p = r := by
  have hlen : ¬r.pend.length < 1 := by
    have := length_pos_iff.mpr hne
    omega
  have hsched : r.sched ≠ r.base := fun hc => hne (h.pend_eq_nil hc)
  have hmissing : ¬r.pend.findIdx (· = p) < r.pend.length := by
    rw [findIdx_lt_length]
    rintro ⟨u, hu, heq⟩
    exact hp (of_decide_eq_true heq ▸ hu)
  rw [restore, if_neg hsched, if_neg hlen, if_neg (by omega), if_neg hmissing]

/-- **The end of a wait removes its priority**, if it is there. -/
theorem levels_restore (h : r.Good) (hp : p ∈ r.levels) :
    (r.restore p).levels.Perm (r.levels.erase p) ∧ (r.restore p).Good := by
  obtain ⟨hbase, hle⟩ := h.le_of_mem_levels hp
  have hboosted : r.base < r.sched := by omega
  have hlevels := levels_of_boosted hboosted
  rw [restore, if_neg (by omega)]
  by_cases hnil : r.pend = []
  · -- the only boost is undone
    rw [if_pos (by simp [hnil])]
    have hpeq : p = r.sched := by
      rw [hlevels, hnil] at hp
      exact mem_singleton.mp hp
    refine ⟨?_, ⟨le_refl _, fun u hu => absurd hu not_mem_nil⟩⟩
    rw [hlevels, hnil, hpeq]
    simp [levels]
  have hlen : ¬r.pend.length < 1 := by
    have := length_pos_iff.mpr hnil
    omega
  rw [if_neg hlen]
  by_cases htop : r.sched ≤ p
  · -- the highest of the pending priorities takes over
    obtain ⟨hlt, hmax⟩ := Kernel.highest_spec hnil
    have hperm := Kernel.perm_cons_removeAt hlt
    have hmem : r.pend.getD (Kernel.highest r.pend) 0 ∈ r.pend := hperm.mem_iff.mpr (by simp)
    obtain ⟨hmbase, hmle⟩ := h.pend _ hmem
    rw [if_pos htop]
    refine ⟨?_, ⟨hmbase.le, fun u hu => ?_⟩⟩
    · obtain rfl : p = r.sched := by omega
      rw [levels_of_boosted (by exact hmbase), hlevels, erase_cons_head]
      exact hperm.symm
    · have hu' : u ∈ r.pend := hperm.mem_iff.mpr (mem_cons_of_mem _ hu)
      exact ⟨(h.pend u hu').1, hmax u hu'⟩
  · -- the priority is among the pending ones
    have hne : r.sched ≠ p := by omega
    have hmem : p ∈ r.pend := by
      rw [hlevels] at hp
      exact (mem_cons.mp hp).resolve_left (Ne.symm hne)
    have hfound : r.pend.findIdx (· = p) < r.pend.length :=
      findIdx_lt_length.mpr ⟨p, hmem, by simp⟩
    have hperm := Kernel.perm_cons_removeAt hfound
    have hget : r.pend.getD (r.pend.findIdx (· = p)) 0 = p := by
      rw [getD_eq_getElem _ _ hfound]
      simpa using findIdx_getElem (w := hfound)
    rw [hget] at hperm
    rw [if_neg htop, if_pos hfound]
    refine ⟨?_, ⟨h.base_le, fun u hu => ?_⟩⟩
    · rw [levels_of_boosted (by exact hboosted), hlevels, erase_cons_tail (by simpa using hne)]
      refine Perm.cons _ ?_
      have := hperm.symm.erase p
      rwa [erase_cons_head] at this
    · exact h.pend u (hperm.mem_iff.mpr (mem_cons_of_mem _ hu))

/-- If it is not there, the only boost is undone although it belongs to another wait. -/
example : (Record.mk 10 5 []).restore 3 = ⟨5, 5, []⟩ := rfl

/-- Every priority in the record is one that `sched_setpriority` accepts. -/
structure Valid (r : Record) : Prop where
  sched : ValidPriority r.sched
  base : ValidPriority r.base
  pend : ∀ p ∈ r.pend, ValidPriority p

theorem valid_boost (h : r.Valid) (hp : ValidPriority p) : (r.boost n p).Valid := by
  have hsnoc : ∀ a, ValidPriority a → ∀ u ∈ r.pend ++ [a], ValidPriority u := by
    intro a ha u hu
    rcases mem_append.mp hu with hu | hu
    · exact h.pend u hu
    · exact mem_singleton.mp hu ▸ ha
  rw [boost]
  split
  · split
    · refine ⟨hp, h.base, fun u hu => ?_⟩
      split at hu
      · exact hsnoc _ h.sched u hu
      · exact h.pend u hu
    · exact { h with pend := hsnoc p hp }
  · exact h

theorem valid_restore (h : r.Valid) : (r.restore p).Valid := by
  have hremove : ∀ j, j < r.pend.length → ∀ u ∈ Kernel.removeAt r.pend j, ValidPriority u :=
    fun j hj u hu => h.pend u ((Kernel.perm_cons_removeAt hj).mem_iff.mpr
      (mem_cons_of_mem _ hu))
  rw [restore]
  split
  · exact h
  split
  · exact ⟨h.base, h.base, fun u hu => absurd hu not_mem_nil⟩
  next hlen =>
  have hhigh := (Kernel.highest_spec
    (ne_nil_of_length_pos (by omega : 0 < r.pend.length))).1
  split
  · refine ⟨h.pend _ ?_, h.base, hremove _ hhigh⟩
    exact (Kernel.perm_cons_removeAt hhigh).mem_iff.mpr (by simp)
  split
  · next hfound => exact { h with pend := hremove _ hfound }
  · exact h

end Record

/-! ### The records of the holders -/

/-- Priority inheritance is configured, with room for at least one pending priority. -/
structure Config.Inherits (cfg : Config) : Prop where
  priorityInheritance : cfg.priorityInheritance = true
  nnestprio : cfg.nnestprio ≠ 0

namespace Kernel

variable {τ κ : Type} [DecidableEq τ] {idle t : τ} {sem : κ} {cfg : Config}
  {k k' k₁ : Kernel τ κ} {p : ℕ} {r : τ} {g : τ → Record → Record}

/-- The records after a change of those of the listed tasks. -/
def mapRecords (l : List τ) (g : τ → Record → Record) (f : τ → Record) : τ → Record :=
  fun u => if u ∈ l then g u (f u) else f u

theorem mapRecords_of_mem {l : List τ} {f : τ → Record} (ht : t ∈ l) :
    mapRecords l g f t = g t (f t) := if_pos ht

theorem mapRecords_of_not_mem {l : List τ} {f : τ → Record}
    (ht : t ∉ l) : mapRecords l g f t = f t := if_neg ht

theorem mapRecords_append_singleton (l : List τ) (g : τ → Record → Record) (f : τ → Record) :
    mapRecords (l ++ [t]) g f = update (mapRecords l g f) t (g t (f t)) := by
  funext u
  by_cases hut : u = t
  · subst hut
    rw [update_self, mapRecords_of_mem (by simp)]
  · rw [update_of_ne hut]
    by_cases hu : u ∈ l
    · rw [mapRecords_of_mem (by simp [hu]), mapRecords_of_mem hu]
    · rw [mapRecords_of_not_mem (by simp [hu, hut]), mapRecords_of_not_mem hu]

/-- **A loop over the holders** that changes the record of each of them, and keeps `Q`. -/
theorem forEachHolder_records (Q : Kernel τ κ → Prop) (g : τ → Record → Record)
    (handler : τ → Kernel τ κ → Option (Kernel τ κ)) (h : Sound idle k.toSched)
    (hnodup : (k.holderTasks sem).Nodup) (hQ : Q k)
    (hhandler : ∀ u ∈ k.holderTasks sem, ∀ k₁, Quiet idle k k₁ → Q k₁ →
      k₁.record u = k.record u →
      ∃ k₂, handler u k₁ = some k₂ ∧ Quiet idle k₁ k₂ ∧
        k₂.record = update k₁.record u (g u (k.record u)) ∧ Q k₂) :
    ∃ k', k.forEachHolder sem handler = some k' ∧ Quiet idle k k' ∧ Q k' ∧
      k'.record = mapRecords (k.holderTasks sem) g k.record := by
  obtain ⟨k', hk', hquiet, hQ', hrecord⟩ := Run.foldlM_invariant
    (P := fun (pre : List (Holder τ)) k₁ => Quiet idle k k₁ ∧ Q k₁ ∧
      k₁.record = mapRecords (pre.map Holder.htcb) g k.record) (k.holders sem)
    ⟨Quiet.refl h, hQ, by funext u; exact (mapRecords_of_not_mem not_mem_nil).symm⟩ (by
      rintro pre pholder post hsplit k₁ ⟨hquiet, hQ₁, hrecord⟩
      -- the holder comes up for the first time
      have hnew : pholder.htcb ∉ pre.map Holder.htcb := by
        rw [holderTasks, hsplit, map_append, nodup_append] at hnodup
        exact fun hc => hnodup.2.2 _ hc _ mem_cons_self rfl
      obtain ⟨k₂, hk₂, hquiet₂, hrecord₂, hQ₂⟩ := hhandler pholder.htcb
        (mem_map_of_mem (by simp [hsplit])) k₁ hquiet hQ₁
        (by rw [hrecord, mapRecords_of_not_mem hnew])
      refine ⟨k₂, hk₂, hquiet.trans hquiet₂, hQ₂, ?_⟩
      rw [hrecord₂, hrecord, map_append, map_singleton, mapRecords_append_singleton])
  exact ⟨k', hk', hquiet, hQ', hrecord⟩

/-- The records of all tasks but the idle one hold priorities that can be set. -/
def RecordsValid (idle : τ) (k : Kernel τ κ) : Prop :=
  ∀ t, t ≠ idle → (k.record t).Valid

omit [DecidableEq τ] in
theorem RecordsValid.congr (h : RecordsValid idle k) (hrecord : k'.record = k.record) :
    RecordsValid idle k' := fun t ht => hrecord ▸ h t ht

theorem restoreHolderPrio_records {u : τ} (interrupt : Bool) (h : Sound idle k.toSched)
    (hu : u ≠ idle)
    (hnest : cfg.nnestprio ≠ 0) (hvalid : (k.record u).Valid) (htu : t ≠ u) :
    ∃ k', k.restoreHolderPrio cfg interrupt t u = some k' ∧ Reprioritizes idle u k k' ∧
      k'.record = update k.record u ((k.record u).restore (k.schedPriority t)) ∧
      k'.schedPriority t = k.schedPriority t := by
  obtain ⟨k', hk', hchange, hrecord⟩ := restoreHolderPrio_spec cfg interrupt t h hu
  have hrecord' := hrecord hnest hvalid.base hvalid.pend
  refine ⟨k', hk', hchange, hrecord', ?_⟩
  have hsched : k'.schedPriority t = (k'.record t).sched := rfl
  rw [hsched, hrecord', update_of_ne htu]
  rfl

variable (h : Sound idle k.toSched) (hnodup : (k.holderTasks sem).Nodup)
  (hidle : idle ∉ k.holderTasks sem) (hnest : cfg.nnestprio ≠ 0)

include h hnodup hidle hnest

/-- **Every holder is boosted**, and the waiter keeps its priority, even if it is one of
them. -/
theorem boost_records (hvalid : ValidPriority (k.schedPriority t)) :
    ∃ k', k.forEachHolder sem (boostHolderPrio cfg t) = some k' ∧ Quiet idle k k' ∧
      k'.record = mapRecords (k.holderTasks sem)
        (fun _ r => r.boost cfg.nnestprio (k.schedPriority t)) k.record := by
  obtain ⟨k', hk', hquiet, -, hrecord⟩ := forEachHolder_records
    (fun k₁ => k₁.schedPriority t = k.schedPriority t)
    (fun _ r => r.boost cfg.nnestprio (k.schedPriority t)) (boostHolderPrio cfg t) h hnodup rfl (by
      intro u hu k₁ hquiet hprio hsame
      have hu' : u ≠ idle := fun hc => hidle (hc ▸ hu)
      obtain ⟨k₂, hk₂, hchange, hrecord⟩ := boostHolderPrio_spec cfg t hquiet.sound hu'
      rw [hprio, hsame] at hrecord
      refine ⟨k₂, hk₂, hchange.quiet, hrecord hnest hvalid, ?_⟩
      have hsched : k₂.schedPriority t = (k₂.record t).sched := rfl
      rw [hsched, hrecord hnest hvalid]
      by_cases htu : t = u
      · subst htu
        rw [update_self]
        exact Record.sched_boost_self
      · rw [update_of_ne htu]
        exact hprio)
  exact ⟨k', hk', hquiet, hrecord⟩

/-- **Every holder is restored**, when an interrupt handler posts or a wait is
cancelled. -/
theorem restoreIrq_records (interrupt : Bool) (hvalid : RecordsValid idle k)
    (ht : t ∉ k.holderTasks sem) :
    ∃ k', k.forEachHolder sem (restoreHolderPrio cfg interrupt t) = some k' ∧ Quiet idle k k' ∧
      k'.record = mapRecords (k.holderTasks sem) (fun _ r => r.restore (k.schedPriority t))
        k.record := by
  obtain ⟨k', hk', hquiet, -, hrecord⟩ := forEachHolder_records
    (fun k₁ => k₁.schedPriority t = k.schedPriority t)
    (fun _ r => r.restore (k.schedPriority t)) (restoreHolderPrio cfg interrupt t) h hnodup rfl (by
      intro u hu k₁ hquiet hprio hsame
      have hu' : u ≠ idle := fun hc => hidle (hc ▸ hu)
      obtain ⟨k₂, hk₂, hchange, hrecord, hprio₂⟩ := restoreHolderPrio_records interrupt
        hquiet.sound hu' hnest (hsame ▸ hvalid u hu') (fun hc : t = u => ht (hc ▸ hu))
      rw [hprio, hsame] at hrecord
      exact ⟨k₂, hk₂, hchange.quiet, hrecord, hprio₂.trans hprio⟩)
  exact ⟨k', hk', hquiet, hrecord⟩

/-- **Every holder is restored** by the two passes, when the running task has disabled
pre-emption. -/
theorem restorePasses_records (hvalid : RecordsValid idle k)
    (ht : t ∉ k.holderTasks sem) (hr : k.readyHead = some r) (hlock : k.lockcount r ≠ 0) :
    ∃ k', k.restorePasses cfg (some t) sem = some k' ∧ Quiet idle k k' ∧
      k'.record = mapRecords (k.holderTasks sem) (fun _ r => r.restore (k.schedPriority t))
        k.record := by
  obtain ⟨k₁, hk₁, hquiet₁, ⟨hprio₁, hr₁, -⟩, hrecord₁⟩ := forEachHolder_records
    (fun k₁ => k₁.schedPriority t = k.schedPriority t ∧ k₁.readyHead = some r ∧
      k₁.lockcount r ≠ 0)
    (fun u rec => if u = r then rec else rec.restore (k.schedPriority t))
    (restoreHolderPrioA cfg t) h hnodup ⟨rfl, hr, hlock⟩ (by
      rintro u hu k₁ hquiet ⟨hprio, hr₁, hlock₁⟩ hsame
      have hu' : u ≠ idle := fun hc => hidle (hc ▸ hu)
      rw [restoreHolderPrioA, hr₁]
      by_cases hur : u = r
      · subst hur
        refine ⟨k₁, if_pos rfl, Quiet.refl hquiet.sound, ?_, hprio, hr₁, hlock₁⟩
        rw [if_pos rfl, ← hsame, update_eq_self]
      · rw [if_neg (fun hc => hur (some.inj hc).symm), if_neg hur]
        obtain ⟨k₂, hk₂, hchange, hrecord, hprio₂⟩ := restoreHolderPrio_records false
          hquiet.sound hu' hnest (hsame ▸ hvalid u hu') (fun hc : t = u => ht (hc ▸ hu))
        rw [hprio, hsame] at hrecord
        refine ⟨k₂, hk₂, hchange.quiet, hrecord, hprio₂.trans hprio,
          hchange.head r hr₁ (Ne.symm hur) hlock₁, ?_⟩
        rw [hchange.lockcount]
        exact hlock₁)
  have hpass : k.restorePasses cfg (some t) sem = k₁.restoreHolderPrioB cfg t sem := by
    rw [restorePasses, hk₁]
    rfl
  rw [hpass, restoreHolderPrioB, hr₁, hquiet₁.holders]
  by_cases hmem : r ∈ k.holderTasks sem
  · obtain ⟨pholder, hfind⟩ : ∃ pholder,
        (k.holders sem).find? (fun h => some r = some h.htcb) = some pholder := by
      rw [← isSome_iff_exists, find?_isSome]
      obtain ⟨pholder, hpholder, heq⟩ := mem_map.mp hmem
      exact ⟨pholder, hpholder, by simp [heq]⟩
    have hpr : pholder.htcb = r := by
      have := find?_some hfind
      simpa using Eq.symm (of_decide_eq_true this)
    have hridle : r ≠ idle := fun hc => hidle (hc ▸ hmem)
    have hsame : k₁.record r = k.record r := by
      rw [hrecord₁, mapRecords_of_mem hmem, if_pos rfl]
    obtain ⟨k₂, hk₂, hchange, hrecord, -⟩ := restoreHolderPrio_records false hquiet₁.sound hridle
      hnest (hsame ▸ hvalid r hridle) (fun hc : t = r => ht (hc ▸ hmem))
    rw [hfind]
    refine ⟨k₂, by rw [← hk₂, ← hpr], hquiet₁.trans hchange.quiet, ?_⟩
    rw [hrecord, hsame, hprio₁, hrecord₁]
    funext u
    by_cases hur : u = r
    · subst hur
      rw [update_self, mapRecords_of_mem hmem]
    · rw [update_of_ne hur]
      by_cases hu : u ∈ k.holderTasks sem
      · rw [mapRecords_of_mem hu, mapRecords_of_mem hu, if_neg hur]
      · rw [mapRecords_of_not_mem hu, mapRecords_of_not_mem hu]
  · have hfind : (k.holders sem).find? (fun h => some r = some h.htcb) = none := by
      refine find?_eq_none.mpr fun h hh hc => hmem ?_
      exact mem_map.mpr ⟨h, hh, by simpa using Eq.symm (of_decide_eq_true hc)⟩
    rw [hfind]
    refine ⟨k₁, rfl, hquiet₁, ?_⟩
    rw [hrecord₁]
    funext u
    by_cases hu : u ∈ k.holderTasks sem
    · rw [mapRecords_of_mem hu, mapRecords_of_mem hu, if_neg (fun hc : u = r => hmem (hc ▸ hu))]
    · rw [mapRecords_of_not_mem hu, mapRecords_of_not_mem hu]

/-! ### The calls -/

/-- The records after a wait has ended, or after nothing if nobody waited. -/
def restoredRecords (k : Kernel τ κ) (sem : κ) (stcb : Option τ) : τ → Record :=
  match stcb with
  | none => k.record
  | some t => mapRecords (k.holderTasks sem) (fun _ r => r.restore (k.schedPriority t)) k.record

variable [DecidableEq κ] {interrupt : Bool}

theorem restoreBaseprio_records {stcb : Option τ} (hvalid : RecordsValid idle k)
    (hstcb : ∀ t, stcb = some t → t ∉ k.holderTasks sem)
    (hhead : interrupt = false → k.readyHead = some r ∧ k.lockcount r ≠ 0)
    (hs : k.restoreBaseprio cfg interrupt stcb sem = some k') :
    k'.record = k.restoredRecords sem stcb := by
  cases interrupt with
  | true =>
    cases stcb with
    | none =>
      cases hs
      rfl
    | some t =>
      obtain ⟨-, hrecord⟩ :=
        Run.of_eq_some (restoreIrq_records h hnodup hidle hnest true hvalid (hstcb t rfl)) hs
      exact hrecord
  | false =>
    obtain ⟨hr, hlock⟩ := hhead rfl
    obtain ⟨k₁, hk₁, hquiet₁, hrecord₁⟩ : ∃ k₁, k.restorePasses cfg stcb sem = some k₁ ∧
        Quiet idle k k₁ ∧ k₁.record = k.restoredRecords sem stcb := by
      cases stcb with
      | none => exact ⟨k, rfl, Quiet.refl h, rfl⟩
      | some t =>
        exact restorePasses_records h hnodup hidle hnest hvalid (hstcb t rfl) hr hlock
    have htask : k.restoreBaseprio cfg false stcb sem =
        if k₁.readyHead = some r then k₁.endPost cfg sem r
        else some (k₁.setRest r (.post sem (k.resets cfg r))) := by
      simp [restoreBaseprio, restoreBaseprioTask, hr, hk₁]
    rw [htask] at hs
    split at hs
    · obtain ⟨-, -, hrecord⟩ := Run.of_eq_some (endPost_mild hquiet₁.sound cfg sem r) hs
      exact hrecord.trans hrecord₁
    · cases hs
      exact hrecord₁

omit [DecidableEq κ] in
theorem inheriting_boost_records (hpi : cfg.priorityInheritance = true)
    (hvalid : ValidPriority (k.schedPriority t)) (hs : (k.inheriting cfg fun k => do
      let k ← k.onSched (·.lock false)
      k.forEachHolder sem (boostHolderPrio cfg t)) = some k₁) :
    k₁.record = mapRecords (k.holderTasks sem)
      (fun _ r => r.boost cfg.nnestprio (k.schedPriority t)) k.record := by
  rw [inheriting, if_pos hpi] at hs
  obtain ⟨k₀, hk₀, hboost⟩ := bind_eq_some_iff.mp hs
  obtain ⟨s₀, hs₀, rfl⟩ := map_eq_some_iff.mp hk₀
  obtain ⟨hprio, hstate, hlists⟩ := Sched.lock_frame hs₀
  have hsound : Sound idle (k.withSched s₀).toSched := h.congr hprio hstate hlists
  have hsched : (k.withSched s₀).schedPriority = k.schedPriority := hprio
  obtain ⟨-, hrecord⟩ :=
    Run.of_eq_some (boost_records hsound hnodup hidle hnest (hsched ▸ hvalid)) hboost
  rw [hrecord, hsched, record_withSched hprio]
  rfl

omit h hnodup hidle hnest

/-- The kernel is in order, no task is recorded twice as a holder of a semaphore, and the
records hold priorities that can be set. -/
structure RecordsInOrder (idle : τ) (k : Kernel τ κ) : Prop where
  inOrder : InOrder idle k
  nodup : ∀ sem, (k.holderTasks sem).Nodup
  valid : RecordsValid idle k

theorem block_records (hcfg : cfg.Inherits) (h : RecordsInOrder idle k) (hidle : t ≠ idle)
    (hs : k.block cfg sem t = some k') :
    k'.record = mapRecords (k.holderTasks sem)
      (fun _ r => r.boost cfg.nnestprio (k.schedPriority t)) k.record := by
  obtain ⟨k₁, hk₁, hblock⟩ := bind_eq_some_iff.mp hs
  have hsound : Sound idle ((k.setSemcount sem (k.semcount sem - 1)).setWaitsem t
    (some sem)).toSched := h.inOrder.sound
  have hrecord₁ := inheriting_boost_records hsound (h.nodup sem) (h.inOrder.holders sem)
    hcfg.nnestprio hcfg.priorityInheritance (h.valid t hidle).sched hk₁
  obtain ⟨hquiet, -⟩ := inheriting_boost hsound (h.inOrder.holders sem) hk₁
  obtain ⟨s', hs', rfl⟩ := map_eq_some_iff.mp hblock
  have hstep : Sched.step 0 k₁.toSched (.block t .waitSem) = some s' := hs'
  obtain ⟨-, hprio, -⟩ :=
    Run.of_eq_some (Sched.block_waiting hquiet.sound (Sched.legal_of_step hstep).1 hidle) hs'
  rw [record_withSched (by exact hprio)]
  exact hrecord₁

theorem cancelWait_records (hcfg : cfg.Inherits) (h : RecordsInOrder idle k)
    (ht : t ∉ k.holderTasks sem) (hs : k.cancelWait cfg t interrupt sem = some k') :
    k'.record = k.restoredRecords sem (some t) := by
  obtain ⟨k₁, hk₁, heq⟩ := bind_eq_some_iff.mp hs
  obtain ⟨-, heq⟩ := ite_none_right_eq_some.mp heq
  rw [inheriting, if_pos hcfg.priorityInheritance] at hk₁
  obtain ⟨-, hrecord⟩ := Run.of_eq_some (restoreIrq_records h.inOrder.sound (h.nodup sem)
    (h.inOrder.holders sem) hcfg.nnestprio interrupt h.valid ht) hk₁
  cases heq
  exact hrecord

theorem leave_records {errcode : Errno} (hcfg : cfg.Inherits) (h : RecordsInOrder idle k)
    (ht : t ∉ k.holderTasks sem) (hsem : k.waitsem t = some sem)
    (hs : k.cancelWait cfg t interrupt sem = some k₁)
    (hs' : (k₁.setErrno t (some errcode)).onSched (·.unblockTask cfg.rrTicks t) = some k') :
    k'.record = k.restoredRecords sem (some t) := by
  have hdoes := does_abandon h.inOrder hsem hs
  have hmem : t ∈ k₁.lists .waitingForSemaphore :=
    hdoes.waiting.mem_iff.mpr (h.inOrder.waiting t sem hsem)
  obtain ⟨s'', hs'', -, hprio, -⟩ :=
    Sched.unblock_waiting cfg.rrTicks hdoes.sound (hdoes.sound.mem_waiting_iff.mp hmem)
  obtain ⟨s', hunblock, rfl⟩ := map_eq_some_iff.mp hs'
  obtain rfl := some.inj (hs''.symm.trans hunblock)
  rw [record_withSched (by exact hprio), ← cancelWait_records hcfg h ht hs]
  rfl

/-- What comes before the priorities are restored in `sem_post`: pre-emption is disabled,
and the running task stays the running one. -/
theorem wake_records {k₂ : Kernel τ κ} (h : InOrder idle k) (hpi : cfg.priorityInheritance = true)
    (hr : k.readyHead = some r) (hs : k.release cfg interrupt sem r = some k₁)
    (hwake : k₁.wake cfg (k.firstWaiter sem) = some k₂) :
    k₂.record = k.record ∧ k₂.holderTasks = k.holderTasks ∧
      (interrupt = false → k₂.readyHead = some r ∧ k₂.lockcount r ≠ 0) := by
  obtain ⟨hsound, hlists, -, -, -, hholders, -, hrecord⟩ := release_spec h.sound hs
  have hr₁ : k₁.readyHead = some r := by
    rw [readyHead, hlists]
    exact hr
  have hlock : interrupt = false → k₁.lockcount r ≠ 0 := by
    rintro rfl
    rw [release, inheriting, if_pos hpi, if_pos hpi] at hs
    obtain ⟨s₁, hs₁, rfl⟩ := map_eq_some_iff.mp hs
    exact Sched.lockcount_lock (by exact hr) hs₁
  cases hfirst : k.firstWaiter sem with
  | none =>
    rw [hfirst] at hwake
    cases hwake
    exact ⟨hrecord, hholders, fun hi => ⟨hr₁, hlock hi⟩⟩
  | some t =>
    have hmem : t ∈ k₁.lists .waitingForSemaphore := by
      rw [hlists]
      exact mem_of_find?_eq_some hfirst
    have hrt : r ≠ t := by
      rintro rfl
      exact not_mem_waiting_of_readyHead hsound hr₁ hmem
    obtain ⟨k₃, hk₃, -, -, -, -, -, hholders₃, -, -, hrecord₃, hlock₃, hhead₃⟩ :=
      wake_spec cfg hsound hmem
    rw [hfirst] at hwake
    obtain rfl := some.inj (hk₃.symm.trans hwake)
    refine ⟨hrecord₃.trans hrecord, ?_, fun hi => ⟨hhead₃ r hr₁ hrt (hlock hi), ?_⟩⟩
    · rw [← hholders]
      funext sem'
      rw [holderTasks, holderTasks, hholders₃]
    · rw [hlock₃]
      exact hlock hi

theorem post_records {stcb : Option τ} (hcfg : cfg.Inherits)
    (h : RecordsInOrder idle k) (hr : k.readyHead = some r) (hmax : k.semcount sem < valueMax)
    (hs : k.release cfg interrupt sem r = some k₁)
    (ht : ∀ t, k.firstWaiter sem = some t → t ∉ k.holderTasks sem)
    (hpost : k.semPost cfg interrupt sem r = some (k', stcb)) :
    k'.record = k.restoredRecords sem (k.firstWaiter sem) ∧
      ∀ sem', (k'.holderTasks sem').Sublist (k.holderTasks sem') := by
  obtain ⟨k₂, hk₂, hdoes, -⟩ := does_wake h.inOrder hs
  obtain ⟨hrecord, hholders, hhead⟩ := wake_records h.inOrder hcfg.priorityInheritance hr hs hk₂
  rw [semPost_eq h.inOrder hs hmax hk₂, inheriting, if_pos hcfg.priorityInheritance] at hpost
  obtain ⟨k₃, hk₃, heq⟩ := map_eq_some_iff.mp hpost
  obtain ⟨rfl, -⟩ := Prod.mk.inj heq
  refine ⟨?_, fun sem' => ?_⟩
  · have hprio : k₂.schedPriority = k.schedPriority := schedPriority_of_record hrecord
    rw [restoreBaseprio_records hdoes.sound (hholders ▸ h.nodup sem) (hdoes.holders sem)
      hcfg.nnestprio (h.valid.congr hrecord) (hholders ▸ ht) hhead hk₃]
    cases k.firstWaiter sem <;> simp only [restoredRecords, hrecord, hholders, hprio]
  · have hmild := Run.of_eq_some (restoreBaseprio_mild hdoes.sound cfg interrupt (k.firstWaiter sem)
      (hdoes.holders sem)) hk₃
    rw [← hholders]
    exact hmild.holders sem'

/-- A task that goes on with its call leaves the records alone, unless priorities are pending that
it discards. If it was given a count while it was blocked, it is recorded as a holder now. -/
theorem resume_records (hpi : cfg.priorityInheritance = true) (h : InOrder idle k)
    (hs : k.resume cfg t = some k') :
    ((∀ sem, k.rest t = .post sem true → k.pendReprios t = []) → k'.record = k.record) ∧
    ((∀ sem', (k'.holderTasks sem').Sublist (k.holderTasks sem')) ∨
      ∃ sem, k.rest t = .wait sem ∧ k.errno t = none ∧
        ∀ sem', (k'.holderTasks sem').Sublist ((k.addHolder sem t).holderTasks sem')) := by
  rw [resume] at hs
  split at hs
  · cases hs
  · next sem hwait =>
    rw [inheriting, if_pos hpi] at hs
    obtain ⟨hsched, -, -, -, hrecord⟩ := holdIfGranted_frame (k.setRest t .nothing) sem t
    obtain ⟨hmild, -, hrecord'⟩ := Run.of_eq_some (unlock_mild (hsched ▸ h.sound) cfg) hs
    refine ⟨fun _ => hrecord'.trans hrecord, ?_⟩
    have hholders := hmild.holders
    rw [holdIfGranted] at hholders
    split at hholders
    · next herrno => exact .inr ⟨sem, hwait, herrno, hholders⟩
    · exact .inl hholders
  · next sem discard hpost =>
    cases discard with
    | false =>
      obtain ⟨hmild, -, hrecord⟩ :=
        Run.of_eq_some (endPost_mild (k := k.setRest t .nothing) h.sound cfg sem t) hs
      exact ⟨fun _ => hrecord, .inl hmild.holders⟩
    | true =>
      obtain ⟨hmild, -, hrecord⟩ := Run.of_eq_some
        (endPost_mild (k := (k.setRest t .nothing).setPend t []) h.sound cfg sem t) hs
      refine ⟨fun hpend => ?_, .inl hmild.holders⟩
      rw [hrecord, record_setPend, ← hpend sem hpost]
      exact update_eq_self t k.record

end Kernel

end GreenboneFeeder.Sem
