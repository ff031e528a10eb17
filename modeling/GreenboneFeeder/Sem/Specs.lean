import GreenboneFeeder.Sched.Frame
import GreenboneFeeder.Sem.Model
import Mathlib.Data.List.GetD
import Mathlib.Data.List.Perm.Basic

/-!
# What the functions of the semaphores do

One lemma for each function of `Sem.Kernel`. The functions of priority inheritance are *quiet*
(`Sem.Kernel.Quiet`): they leave the counts, the waiters and the holders alone. What they do to the
priorities of a holder is said on its record: its priority, its base priority and its pending
priorities.
-/

namespace GreenboneFeeder.Sem

open List Function

open Sched (Sound priorityMin priorityMax)

/-! ### The record of a task -/

/-- What priority inheritance knows about a task. -/
@[ext]
structure Record where
  sched : ℕ
  base : ℕ
  pend : List ℕ

namespace Record

/-- What a waiter of the priority `p` does to the record of a holder. -/
def boost (nnestprio p : ℕ) (r : Record) : Record :=
  if r.base < p then
    if r.sched < p then
      { r with
        sched := p
        pend := if r.base < r.sched ∧ r.pend.length < nnestprio then r.pend ++ [r.sched]
          else r.pend }
    else { r with pend := r.pend ++ [p] }
  else r

/-- What the end of the wait of a task of the priority `p` does to the record of a
holder. -/
def restore (p : ℕ) (r : Record) : Record :=
  if r.sched = r.base then r
  else if r.pend.length < 1 then ⟨r.base, r.base, []⟩
  else if r.sched ≤ p then
    { r with
      sched := r.pend.getD (Kernel.highest r.pend) 0
      pend := Kernel.removeAt r.pend (Kernel.highest r.pend) }
  else if r.pend.findIdx (· = p) < r.pend.length then
    { r with pend := Kernel.removeAt r.pend (r.pend.findIdx (· = p)) }
  else r

end Record

/-- A priority that `sched_setpriority` accepts. -/
def ValidPriority (p : ℕ) : Prop := priorityMin ≤ p ∧ p ≤ priorityMax

instance (p : ℕ) : Decidable (ValidPriority p) :=
  inferInstanceAs (Decidable (_ ∧ _))

namespace Kernel

variable {τ κ : Type} {idle t : τ} {k k' k'' : Kernel τ κ}

def record (k : Kernel τ κ) (t : τ) : Record :=
  ⟨k.schedPriority t, k.basePriority t, k.pendReprios t⟩

/-- **A quiet change**: the tasks move within the lists, and the semaphores and their
waiters stay as they are. -/
structure Quiet (idle : τ) (k k' : Kernel τ κ) : Prop where
  sound : Sound idle k'.toSched
  waiting : (k'.lists .waitingForSemaphore).Perm (k.lists .waitingForSemaphore)
  blocked : ∀ t, (k'.taskState t).isBlocked = (k.taskState t).isBlocked
  semcount : k'.semcount = k.semcount
  waitsem : k'.waitsem = k.waitsem
  holders : k'.holders = k.holders
  rest : k'.rest = k.rest

theorem Quiet.refl (h : Sound idle k.toSched) : Quiet idle k k :=
  ⟨h, .refl _, fun _ => rfl, rfl, rfl, rfl, rfl⟩

theorem Quiet.trans (h : Quiet idle k k') (h' : Quiet idle k' k'') : Quiet idle k k'' :=
  ⟨h'.sound, h'.waiting.trans h.waiting, fun t => (h'.blocked t).trans (h.blocked t),
    h'.semcount.trans h.semcount,
    h'.waitsem.trans h.waitsem, h'.holders.trans h.holders, h'.rest.trans h.rest⟩

/-! ### The pending priorities -/

/-- The invariant of the loop: `j` is the index of the highest entry before `i`. -/
theorem highestFrom_spec (pend : List ℕ) (n i j : ℕ) (hn : i + n = pend.length) (hj : j < i)
    (hmax : ∀ m < i, pend.getD m 0 ≤ pend.getD j 0) :
    highestFrom pend n i j < pend.length ∧
      ∀ m < pend.length, pend.getD m 0 ≤ pend.getD (highestFrom pend n i j) 0 := by
  induction n generalizing i j with
  | zero =>
    obtain rfl : i = pend.length := by omega
    exact ⟨hj, hmax⟩
  | succ n ih =>
    refine ih (i + 1) _ (by omega) ?_ fun m hm => ?_
    · split <;> omega
    · have hcases : m < i ∨ m = i := by omega
      split
      · next hlt =>
        rcases hcases with hm | rfl
        · exact (hmax m hm).trans hlt.le
        · exact le_refl _
      · next hge =>
        rcases hcases with hm | rfl
        · exact hmax m hm
        · exact not_lt.mp hge

theorem highest_spec {pend : List ℕ} (hne : pend ≠ []) :
    highest pend < pend.length ∧ ∀ p ∈ pend, p ≤ pend.getD (highest pend) 0 := by
  have hpos : 0 < pend.length := length_pos_iff.mpr hne
  obtain ⟨hlt, hmax⟩ := highestFrom_spec pend (pend.length - 1) 1 0 (by omega) (by omega)
    (fun m hm => by obtain rfl : m = 0 := by omega
                    exact le_refl _)
  refine ⟨hlt, fun p hp => ?_⟩
  obtain ⟨m, hm, rfl⟩ := getElem_of_mem hp
  have := hmax m hm
  rwa [getD_eq_getElem _ _ hm] at this

theorem perm_cons_removeAt {pend : List ℕ} {j : ℕ} (hj : j < pend.length) :
    pend.Perm (pend.getD j 0 :: removeAt pend j) := by
  obtain ⟨init, last, rfl⟩ : ∃ init last, pend = init ++ [last] :=
    ⟨pend.dropLast, pend.getLast (ne_nil_of_length_pos (by omega)),
      (dropLast_concat_getLast _).symm⟩
  rw [length_append, length_singleton] at hj
  rw [removeAt, getLastD_eq_getLast?, getLast?_append]
  by_cases hlt : j < init.length
  · -- the last entry takes the place of the one removed
    rw [set_append_left _ _ hlt, getD_append _ _ _ _ hlt]
    simp only [getLast?_singleton, Option.some_or, Option.getD_some, dropLast_concat]
    rw [getD_eq_getElem _ _ hlt]
    refine (perm_append_singleton last init).trans ?_
    refine Perm.trans ?_ (Perm.cons _ (set_perm_cons_eraseIdx hlt last).symm)
    refine Perm.trans ?_ (Perm.swap ..)
    exact Perm.cons _ (getElem_cons_eraseIdx_perm hlt).symm
  · obtain rfl : j = init.length := by omega
    simp [set_append_right]

variable [DecidableEq τ]

/-! ### Priority inheritance -/

omit [DecidableEq τ] in
theorem schedPriority_of_record (h : k'.record = k.record) : k'.schedPriority = k.schedPriority :=
  funext fun u => congrArg Record.sched (congrFun h u)

omit [DecidableEq τ] in
theorem record_withSched {s' : Sched τ} (hprio : s'.schedPriority = k.schedPriority) :
    (k.withSched s').record = k.record := by
  funext u
  simp [record, hprio]

/-- **A change of the priority of the task `t`**: it is quiet, and does not switch away
from another task that has disabled pre-emption. -/
structure Reprioritizes (idle t : τ) (k k' : Kernel τ κ) : Prop where
  quiet : Quiet idle k k'
  lockcount : k'.lockcount = k.lockcount
  head : Sched.KeepsHead t k.toSched k'.toSched

variable (h : Sound idle k.toSched)

include h

omit [DecidableEq τ] in
theorem Reprioritizes.refl : Reprioritizes idle t k k :=
  ⟨Quiet.refl h, rfl, fun _ hr _ _ => hr⟩

theorem reprioritizes_setPend (l : List ℕ) :
    Reprioritizes idle t k (k.setPend t l) :=
  ⟨⟨h, .refl _, fun _ => rfl, rfl, rfl, rfl, rfl⟩, rfl, fun _ hr _ _ => hr⟩

omit h in
theorem record_setPend (l : List ℕ) :
    (k.setPend t l).record = update k.record t { k.record t with pend := l } := by
  funext u
  by_cases hu : u = t
  · subst hu
    simp [record]
  · simp [record, hu]

theorem setPriority_spec (hidle : t ≠ idle) (p : ℕ) :
    ∃ k', k.setPriority t p = some k' ∧ Reprioritizes idle t k k' ∧
      (ValidPriority p →
        k'.record = update k.record t { k.record t with sched := p }) := by
  by_cases hp : ValidPriority p
  · obtain ⟨s', hs', hsound, hprio, hlock, hhead, hperm⟩ :=
      Sched.setPriority_waiting h hidle hp.1 hp.2
    refine ⟨k.withSched s', ?_, ⟨⟨hsound, hperm _ (by simp) (by simp),
      h.isBlocked_congr hsound hperm, rfl, rfl, rfl, rfl⟩, hlock, hhead⟩, fun _ => ?_⟩
    · rw [setPriority, onSched, hs']
      rfl
    · funext u
      by_cases hu : u = t
      · subst hu
        simp [record, hprio]
      · simp [record, hprio, hu]
  · refine ⟨k, ?_, Reprioritizes.refl h, fun hc => absurd hc hp⟩
    rw [setPriority, onSched, Sched.setPriority_refused hp]
    rfl

theorem setPend_setPriority_spec (hidle : t ≠ idle) (l : List ℕ) (p : ℕ) :
    ∃ k', (k.setPend t l).setPriority t p = some k' ∧ Reprioritizes idle t k k' ∧
      (ValidPriority p → k'.record =
        update k.record t { k.record t with sched := p, pend := l }) := by
  obtain ⟨k', hk', ⟨hquiet, hlock, hhead⟩, hrecord⟩ :=
    setPriority_spec (k := k.setPend t l) h hidle p
  refine ⟨k', hk', ⟨(reprioritizes_setPend h l).quiet.trans hquiet, hlock, hhead⟩, fun hp => ?_⟩
  rw [hrecord hp, record_setPend]
  simp

/-- Where nothing is pending, it makes no difference when the pending priorities are
discarded. -/
theorem reprioritize_spec (interrupt : Bool) (hidle : t ≠ idle) :
    ∃ k', k.reprioritize interrupt t (k.basePriority t) = some k' ∧ Reprioritizes idle t k k' ∧
      (k.pendReprios t = [] → ValidPriority (k.basePriority t) →
        k'.record = update k.record t ⟨k.basePriority t, k.basePriority t, []⟩) := by
  by_cases hp : ValidPriority (k.basePriority t)
  · obtain ⟨s', hs', hsound, hprio, hlock, hhead, hperm⟩ :=
      Sched.setPriority_waiting h hidle hp.1 hp.2
    have hchange : Reprioritizes idle t k (k.withSched s') :=
      ⟨⟨hsound, hperm _ (by simp) (by simp), h.isBlocked_congr hsound hperm, rfl, rfl, rfl, rfl⟩,
        hlock, hhead⟩
    simp only [reprioritize, hs', Option.bind_eq_bind, Option.bind_some, true_and]
    split
    · refine ⟨_, rfl, ⟨⟨hsound, hchange.quiet.waiting, hchange.quiet.blocked, rfl, rfl, rfl, rfl⟩,
        hlock, hhead⟩, fun _ _ => funext fun u => ?_⟩
      by_cases hu : u = t
      · subst hu
        simp [record, hprio]
      · simp [record, hprio, hu]
    · refine ⟨_, rfl, hchange, fun hpend _ => funext fun u => ?_⟩
      by_cases hu : u = t
      · subst hu
        simp [record, hprio, hpend]
      · simp [record, hprio, hu]
  · refine ⟨k, ?_, Reprioritizes.refl h, fun _ hc => absurd hc hp⟩
    simp only [reprioritize, Sched.setPriority_refused hp]
    rfl

omit h

variable (cfg : Config)

theorem boostHolderPrio_spec (rtcb : τ) (h : Sound idle k.toSched) (hidle : t ≠ idle) :
    ∃ k', k.boostHolderPrio cfg rtcb t = some k' ∧ Reprioritizes idle t k k' ∧
      (cfg.nnestprio ≠ 0 → ValidPriority (k.schedPriority rtcb) →
        k'.record = update k.record t
          ((k.record t).boost cfg.nnestprio (k.schedPriority rtcb))) := by
  obtain ⟨k₁, hk₁, hchange₁, hrecord₁⟩ := setPriority_spec h hidle (k.schedPriority rtcb)
  obtain ⟨k₂, hk₂, hchange₂, hrecord₂⟩ := setPend_setPriority_spec h hidle
    (k.pendReprios t ++ [k.schedPriority t]) (k.schedPriority rtcb)
  rw [boostHolderPrio]
  by_cases hn : cfg.nnestprio = 0
  · rw [if_pos hn]
    split
    · exact ⟨k₁, hk₁, hchange₁, fun hc => absurd hn hc⟩
    · exact ⟨k, rfl, Reprioritizes.refl h, fun hc => absurd hn hc⟩
  rw [if_neg hn]
  by_cases hlt : k.basePriority t < k.schedPriority rtcb
  · rw [if_pos hlt]
    by_cases hlt' : k.schedPriority t < k.schedPriority rtcb
    · by_cases hroom : k.basePriority t < k.schedPriority t ∧
          (k.pendReprios t).length < cfg.nnestprio
      · simp only [hlt', hroom, and_self, if_true]
        refine ⟨k₂, hk₂, hchange₂, fun _ hv => ?_⟩
        rw [hrecord₂ hv]
        simp [Record.boost, record, hlt, hlt', hroom]
      · simp only [hlt', hroom, if_true, if_false]
        refine ⟨k₁, hk₁, hchange₁, fun _ hv => ?_⟩
        rw [hrecord₁ hv]
        simp [Record.boost, record, hlt, hlt', hroom]
    · simp only [hlt', if_false]
      refine ⟨_, rfl, reprioritizes_setPend h _, fun _ _ => ?_⟩
      rw [record_setPend]
      simp [Record.boost, record, hlt, hlt']
  · rw [if_neg hlt]
    refine ⟨k, rfl, Reprioritizes.refl h, fun _ _ => ?_⟩
    simp [Record.boost, record, hlt]

theorem restoreHolderPrio_spec (interrupt : Bool) (stcb : τ) (h : Sound idle k.toSched)
    (hidle : t ≠ idle) :
    ∃ k', k.restoreHolderPrio cfg interrupt stcb t = some k' ∧ Reprioritizes idle t k k' ∧
      (cfg.nnestprio ≠ 0 → ValidPriority (k.basePriority t) →
        (∀ p ∈ k.pendReprios t, ValidPriority p) →
        k'.record = update k.record t ((k.record t).restore (k.schedPriority stcb))) := by
  rw [restoreHolderPrio]
  by_cases heq : k.schedPriority t = k.basePriority t
  · rw [if_pos heq]
    refine ⟨k, rfl, Reprioritizes.refl h, fun _ _ _ => ?_⟩
    simp [Record.restore, record, heq]
  rw [if_neg heq]
  by_cases hlow : k.resets cfg t
  · obtain ⟨k', hk', hchange, hrecord⟩ := reprioritize_spec h interrupt hidle
    simp only [hlow, if_true]
    refine ⟨k', hk', hchange, fun hn hv _ => ?_⟩
    have hnone := hlow.resolve_left hn
    rw [hrecord (length_eq_zero_iff.mp (by omega)) hv]
    simp [Record.restore, record, heq, hnone]
  obtain ⟨-, hlen⟩ := not_or.mp hlow
  by_cases hle : k.schedPriority t ≤ k.schedPriority stcb
  · simp only [hlow, hle, if_true, if_false]
    obtain ⟨k', hk', hchange, hrecord⟩ := setPend_setPriority_spec h hidle
      (removeAt (k.pendReprios t) (highest (k.pendReprios t)))
      ((k.pendReprios t).getD (highest (k.pendReprios t)) 0)
    refine ⟨k', hk', hchange, fun _ _ hv => ?_⟩
    have hlt := (highest_spec (ne_nil_of_length_pos (by omega : 0 < (k.pendReprios t).length))).1
    have hmem : (k.pendReprios t).getD (highest (k.pendReprios t)) 0 ∈ k.pendReprios t := by
      rw [getD_eq_getElem _ _ hlt]
      exact getElem_mem hlt
    rw [hrecord (hv _ hmem)]
    simp only [Record.restore, record, heq, hlen, hle, if_true, if_false]
  · simp only [hlow, hle, if_false]
    split
    · next hfound =>
      refine ⟨_, rfl, reprioritizes_setPend h _, fun _ _ _ => ?_⟩
      rw [record_setPend]
      simp only [Record.restore, record, heq, hlen, hle, hfound, if_true, if_false]
    · next hmissing =>
      refine ⟨k, rfl, Reprioritizes.refl h, fun _ _ _ => ?_⟩
      simp only [Record.restore, record, heq, hlen, hle, hmissing, if_false]
      exact (update_eq_self t k.record).symm

omit [DecidableEq τ] in
theorem forEachHolder_spec {sem : κ} (handler : τ → Kernel τ κ → Option (Kernel τ κ))
    (h : Sound idle k.toSched) (hhandler : ∀ pholder ∈ k.holders sem, ∀ k₁, Quiet idle k k₁ →
      ∃ k₂, handler pholder.htcb k₁ = some k₂ ∧ Quiet idle k₁ k₂) :
    ∃ k', k.forEachHolder sem handler = some k' ∧ Quiet idle k k' := by
  refine Run.foldlM_invariant (P := fun _ k₁ => Quiet idle k k₁) _ (Quiet.refl h) ?_
  rintro pre pholder post hsplit k₁ hquiet
  obtain ⟨k₂, hk₂, hquiet₂⟩ := hhandler pholder (by simp [hsplit]) k₁ hquiet
  exact ⟨k₂, hk₂, hquiet.trans hquiet₂⟩

/-! ### The holders -/

section Holders

variable {sem sem' : κ} {u : τ}

omit [DecidableEq τ] in
theorem ne_idle_of_mem_holders {pholder : Holder τ} (hidle : idle ∉ k.holderTasks sem)
    (hmem : pholder ∈ k.holders sem) : pholder.htcb ≠ idle := by
  rintro rfl
  exact hidle (mem_map_of_mem hmem)

variable [DecidableEq κ]

theorem holderTasks_addHolder :
    (k.addHolder sem t).holderTasks sem =
      if t ∈ k.holderTasks sem then k.holderTasks sem else t :: k.holderTasks sem := by
  have hany : (k.holders sem).any (·.htcb = t) = true ↔ t ∈ k.holderTasks sem := by
    rw [holderTasks, any_eq_true, mem_map]
    exact exists_congr fun h => and_congr_right fun _ => decide_eq_true_iff
  split
  · next hold =>
    simp only [holderTasks, addHolder, setHolders_holders, update_self, hany.mpr hold,
      if_true, map_map]
    refine map_congr_left fun h _ => ?_
    dsimp only [Function.comp]
    split <;> rfl
  · next hnew =>
    simp only [holderTasks, addHolder, setHolders_holders, update_self,
      if_neg (fun hc => hnew (hany.mp hc)), map_cons]

theorem holderTasks_addHolder_of_ne (hne : sem' ≠ sem) :
    (k.addHolder sem t).holderTasks sem' = k.holderTasks sem' := by
  simp [holderTasks, addHolder, hne]

theorem mem_holderTasks_addHolder (hu : u ∈ (k.addHolder sem t).holderTasks sem') :
    u = t ∧ sem' = sem ∨ u ∈ k.holderTasks sem' := by
  by_cases hsem : sem' = sem
  · subst hsem
    rw [holderTasks_addHolder] at hu
    split at hu
    · exact .inr hu
    · exact (mem_cons.mp hu).imp_left fun heq => ⟨heq, rfl⟩
  · rw [holderTasks_addHolder_of_ne hsem] at hu
    exact .inr hu

theorem nodup_addHolder (h : (k.holderTasks sem').Nodup) :
    ((k.addHolder sem t).holderTasks sem').Nodup := by
  by_cases hsem : sem' = sem
  · subst hsem
    rw [holderTasks_addHolder]
    split
    · exact h
    · next hnew => exact nodup_cons.mpr ⟨hnew, h⟩
  · rwa [holderTasks_addHolder_of_ne hsem]

theorem holderTasks_releaseHolder : (k.releaseHolder sem t).holderTasks = k.holderTasks := by
  funext sem'
  by_cases hsem : sem' = sem
  · subst hsem
    simp only [holderTasks, releaseHolder, setHolders_holders, update_self, map_map]
    refine map_congr_left fun h _ => ?_
    dsimp only [Function.comp]
    split <;> rfl
  · simp [holderTasks, releaseHolder, hsem]

theorem holders_freeHolder_sublist :
    ((k.freeHolder sem t).holders sem').Sublist (k.holders sem') := by
  rw [freeHolder]
  split
  · exact Sublist.refl _
  · split
    · by_cases hsem : sem' = sem
      · subst hsem
        rw [setHolders_holders, update_self]
        exact eraseP_sublist
      · simp [hsem]
    · exact Sublist.refl _

theorem holderTasks_freeHolder_sublist :
    ((k.freeHolder sem t).holderTasks sem').Sublist (k.holderTasks sem') :=
  holders_freeHolder_sublist.map _

theorem freeHolder_frame (k : Kernel τ κ) (sem : κ) (t : τ) :
    (k.freeHolder sem t).toSched = k.toSched ∧ (k.freeHolder sem t).semcount = k.semcount ∧
      (k.freeHolder sem t).waitsem = k.waitsem ∧ (k.freeHolder sem t).rest = k.rest ∧
      (k.freeHolder sem t).record = k.record := by
  rw [freeHolder]
  split
  · exact ⟨rfl, rfl, rfl, rfl, rfl⟩
  · split <;> exact ⟨rfl, rfl, rfl, rfl, rfl⟩

theorem mem_holderTasks_holdIfGranted (hu : u ∈ (k.holdIfGranted sem t).holderTasks sem') :
    u = t ∧ sem' = sem ∨ u ∈ k.holderTasks sem' := by
  rw [holdIfGranted] at hu
  split at hu
  · exact mem_holderTasks_addHolder hu
  · exact .inr hu

theorem holdIfGranted_frame (k : Kernel τ κ) (sem : κ) (t : τ) :
    (k.holdIfGranted sem t).toSched = k.toSched ∧
      (k.holdIfGranted sem t).semcount = k.semcount ∧
      (k.holdIfGranted sem t).waitsem = k.waitsem ∧ (k.holdIfGranted sem t).rest = k.rest ∧
      (k.holdIfGranted sem t).record = k.record := by
  rw [holdIfGranted]
  split <;> exact ⟨rfl, rfl, rfl, rfl, rfl⟩

end Holders

/-! ### The calls -/

/-- **A mild change**: as a quiet one, but holders may have been removed, and a task may have been
switched out at the end of `sem_post`. -/
structure Mild (idle : τ) (k k' : Kernel τ κ) : Prop where
  sound : Sound idle k'.toSched
  waiting : (k'.lists .waitingForSemaphore).Perm (k.lists .waitingForSemaphore)
  blocked : ∀ t, (k'.taskState t).isBlocked = (k.taskState t).isBlocked
  semcount : k'.semcount = k.semcount
  waitsem : k'.waitsem = k.waitsem
  holders : ∀ sem, (k'.holderTasks sem).Sublist (k.holderTasks sem)
  rest : ∀ u sem, k'.rest u = .wait sem → k.rest u = .wait sem

omit [DecidableEq τ] in
theorem Quiet.mild (h : Quiet idle k k') : Mild idle k k' :=
  { h with
    holders := fun sem => by rw [holderTasks, h.holders]; rfl
    rest := fun _ _ hrest => h.rest ▸ hrest }

omit [DecidableEq τ] in
theorem Mild.trans (h : Mild idle k k') (h' : Mild idle k' k'') : Mild idle k k'' :=
  ⟨h'.sound, h'.waiting.trans h.waiting, fun t => (h'.blocked t).trans (h.blocked t),
    h'.semcount.trans h.semcount,
    h'.waitsem.trans h.waitsem, fun sem => (h'.holders sem).trans (h.holders sem),
    fun u sem hrest => h.rest u sem (h'.rest u sem hrest)⟩

variable [DecidableEq κ] {sem : κ}

variable (h : Sound idle k.toSched)

include h

omit [DecidableEq κ] in
theorem unlock_mild :
    ∃ k', k.onSched (·.unlock cfg.rrTicks false) = some k' ∧ Mild idle k k' ∧
      k'.lists .waitingForSemaphore = k.lists .waitingForSemaphore ∧ k'.record = k.record := by
  obtain ⟨s', hs', hsound, hprio, hlists⟩ := Sched.unlock_waiting h
  have hwaiting := hlists .waitingForSemaphore (by simp) (by simp)
  refine ⟨k.withSched s', by rw [onSched, hs']; rfl,
    ⟨hsound, by rw [withSched_toSched, hwaiting], h.isBlocked_congr hsound fun L hr hp => ?_, rfl,
      rfl, fun _ => Sublist.refl _, fun _ _ => id⟩, hwaiting, ?_⟩
  · exact Perm.of_eq (hlists L hr hp)
  funext u
  simp [record, hprio]

theorem endPost_mild (sem : κ) (rtcb : τ) :
    ∃ k', k.endPost cfg sem rtcb = some k' ∧ Mild idle k k' ∧
      k'.lists .waitingForSemaphore = k.lists .waitingForSemaphore ∧ k'.record = k.record := by
  obtain ⟨hsched, hsemcount, hwaitsem, hrest, hrecord⟩ :=
    freeHolder_frame k sem rtcb
  obtain ⟨k', hk', hmild, hlists, hrecord'⟩ :=
    unlock_mild (hsched ▸ h) cfg
  refine ⟨k', hk', ⟨hmild.sound, ?_, hsched ▸ hmild.blocked, hmild.semcount.trans hsemcount,
    hmild.waitsem.trans hwaitsem, fun sem' => ?_, fun u sem' hu => ?_⟩,
    hsched ▸ hlists, hrecord'.trans hrecord⟩
  · rw [← hsched]
    exact hmild.waiting
  · exact (hmild.holders sem').trans holderTasks_freeHolder_sublist
  · rw [← hrest]
    exact hmild.rest u sem' hu

omit h [DecidableEq κ] in
theorem forEachHolder_restore (interrupt : Bool) (stcb : τ) (h : Sound idle k.toSched)
    (hidle : idle ∉ k.holderTasks sem) :
    ∃ k', k.forEachHolder sem (restoreHolderPrio cfg interrupt stcb) = some k' ∧
      Quiet idle k k' := by
  refine forEachHolder_spec _ h fun pholder hmem k₁ hquiet => ?_
  obtain ⟨k₂, hk₂, hchange, -⟩ :=
    restoreHolderPrio_spec cfg interrupt stcb hquiet.sound (ne_idle_of_mem_holders hidle hmem)
  exact ⟨k₂, hk₂, hchange.quiet⟩

omit [DecidableEq κ] in
theorem restoreBaseprioIrq_mild (stcb : Option τ) (hidle : idle ∉ k.holderTasks sem) :
    ∃ k', k.restoreBaseprioIrq cfg stcb sem = some k' ∧ Quiet idle k k' := by
  cases stcb with
  | none => exact ⟨k, rfl, Quiet.refl h⟩
  | some stcb => exact forEachHolder_restore cfg true stcb h hidle

omit [DecidableEq κ] in
theorem restorePasses_mild (stcb : Option τ) (hidle : idle ∉ k.holderTasks sem) :
    ∃ k', k.restorePasses cfg stcb sem = some k' ∧ Quiet idle k k' := by
  cases stcb with
  | none => exact ⟨k, rfl, Quiet.refl h⟩
  | some stcb =>
    obtain ⟨k₁, hk₁, hquiet₁⟩ := forEachHolder_spec (restoreHolderPrioA cfg stcb) h
      fun pholder hmem k₁ hquiet => by
        rw [restoreHolderPrioA]
        split
        · exact ⟨k₁, rfl, Quiet.refl hquiet.sound⟩
        · obtain ⟨k₂, hk₂, hchange, -⟩ :=
            restoreHolderPrio_spec cfg _ stcb hquiet.sound (ne_idle_of_mem_holders hidle hmem)
          exact ⟨k₂, hk₂, hchange.quiet⟩
    obtain ⟨k₂, hk₂, hquiet₂⟩ : ∃ k₂, k₁.restoreHolderPrioB cfg stcb sem = some k₂ ∧
        Quiet idle k₁ k₂ := by
      rw [restoreHolderPrioB]
      split
      · exact ⟨k₁, rfl, Quiet.refl hquiet₁.sound⟩
      · next pholder hfind =>
        have hmem := mem_of_find?_eq_some hfind
        rw [hquiet₁.holders] at hmem
        obtain ⟨k₂, hk₂, hchange, -⟩ :=
          restoreHolderPrio_spec cfg _ stcb hquiet₁.sound (ne_idle_of_mem_holders hidle hmem)
        exact ⟨k₂, hk₂, hchange.quiet⟩
    exact ⟨k₂, by rw [restorePasses, hk₁]; exact hk₂, hquiet₁.trans hquiet₂⟩

theorem restoreBaseprio_mild (interrupt : Bool) (stcb : Option τ)
    (hidle : idle ∉ k.holderTasks sem) :
    ∃ k', k.restoreBaseprio cfg interrupt stcb sem = some k' ∧ Mild idle k k' := by
  cases interrupt with
  | true =>
    obtain ⟨k', hk', hquiet⟩ := restoreBaseprioIrq_mild h cfg stcb hidle
    exact ⟨k', hk', hquiet.mild⟩
  | false =>
    obtain ⟨r, rest, hready⟩ := h.consistent.ready_eq_cons
    have hhead : k.readyHead = some r := by rw [readyHead, hready]; rfl
    obtain ⟨k₁, hk₁, hquiet₁⟩ := restorePasses_mild h cfg stcb hidle
    have htask : k.restoreBaseprio cfg false stcb sem =
        if k₁.readyHead = some r then k₁.endPost cfg sem r
        else some (k₁.setRest r (.post sem (k.resets cfg r))) := by
      simp [restoreBaseprio, restoreBaseprioTask, hhead, hk₁]
    rw [htask]
    split
    · obtain ⟨k', hk', hmild, -, -⟩ := endPost_mild hquiet₁.sound cfg sem r
      exact ⟨k', hk', hquiet₁.mild.trans hmild⟩
    · refine ⟨_, rfl, hquiet₁.mild.trans ?_⟩
      refine ⟨hquiet₁.sound, .refl _, fun _ => rfl, rfl, rfl, fun _ => Sublist.refl _,
        ?_⟩
      intro u sem' hu
      by_cases hur : u = r
      · subst hur
        simp at hu
      · simpa [hur] using hu

end Kernel

end GreenboneFeeder.Sem
