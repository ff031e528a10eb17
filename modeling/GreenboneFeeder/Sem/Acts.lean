import GreenboneFeeder.Sem.Specs

/-!
# What a step amounts to

Whatever the configuration, a step of the system is one of seven acts as far as the counts, the
waiters and the history go (`Sem.System.step_does`), so an invariant needs to be looked at for seven
acts, not for the branches of the calls. With priority inheritance, an act leaves the waiting list
in the order in which the changes of the priorities put it, and without it in the order in which it
was.
-/

namespace GreenboneFeeder.Sem

open Function Option Kernel

open Sched (Sound)

/-- What a step amounts to. -/
inductive Act (τ κ : Type) where
  /-- nothing that concerns the counts -/
  | quiet
  /-- a count is taken -/
  | take (sem : κ)
  /-- a task begins to wait -/
  | arrive (sem : κ) (t : τ)
  /-- a count is posted that nobody waits for -/
  | post (sem : κ)
  /-- a count is posted, and given to a task that waits -/
  | grant (sem : κ) (t : τ)
  /-- a wait is interrupted -/
  | leave (sem : κ) (t : τ)
  /-- a task that waits is being deleted -/
  | abandon (sem : κ) (t : τ)

namespace Kernel

variable {τ κ : Type} [DecidableEq κ]

/-- The tasks that wait for a semaphore, in the order of the waiting list. -/
def waiters (k : Kernel τ κ) (sem : κ) : List τ :=
  (k.lists .waitingForSemaphore).filter fun t => k.waitsem t = some sem

theorem mem_waiters {k : Kernel τ κ} {sem : κ} {t : τ} :
    t ∈ k.waiters sem ↔ t ∈ k.lists .waitingForSemaphore ∧ k.waitsem t = some sem := by
  rw [waiters, List.mem_filter, decide_eq_true_iff]

/-- The task that is woken is the first of those that wait for the semaphore. -/
theorem firstWaiter_eq_head? (k : Kernel τ κ) (sem : κ) :
    k.firstWaiter sem = (k.waiters sem).head? :=
  List.head?_filter.symm

/-- **The kernel is in order**: the idle task neither holds a semaphore nor waits, the tasks that
wait are in the waiting list, and a count is negative exactly when somebody waits. -/
structure InOrder (idle : τ) (k : Kernel τ κ) : Prop where
  sound : Sound idle k.toSched
  holders : ∀ sem, idle ∉ k.holderTasks sem
  rest : ∀ sem, k.rest idle ≠ .wait sem
  waiting : ∀ t sem, k.waitsem t = some sem → t ∈ k.lists .waitingForSemaphore
  negative : ∀ sem, k.semcount sem < 0 ↔ k.waiters sem ≠ []

end Kernel

namespace Act

variable {τ κ : Type} [DecidableEq τ] [DecidableEq κ]

/-- The waiting list after the act. -/
def waiting (k : Kernel τ κ) : Act τ κ → List τ
  | .arrive _ t => PrioList.insert k.schedPriority t (k.lists .waitingForSemaphore)
  | .grant _ t => (k.lists .waitingForSemaphore).erase t
  | .leave _ t => (k.lists .waitingForSemaphore).erase t
  | _ => k.lists .waitingForSemaphore

/-- The counts after the act. -/
def semcount (k : Kernel τ κ) : Act τ κ → κ → ℤ
  | .quiet => k.semcount
  | .take sem => update k.semcount sem (k.semcount sem - 1)
  | .arrive sem _ => update k.semcount sem (k.semcount sem - 1)
  | .post sem => update k.semcount sem (k.semcount sem + 1)
  | .grant sem _ => update k.semcount sem (k.semcount sem + 1)
  | .leave sem _ => update k.semcount sem (k.semcount sem + 1)
  | .abandon sem _ => update k.semcount sem (k.semcount sem + 1)

/-- What the tasks wait for after the act. -/
def waitsem (k : Kernel τ κ) : Act τ κ → τ → Option κ
  | .arrive sem t => update k.waitsem t (some sem)
  | .grant _ t => update k.waitsem t none
  | .leave _ t => update k.waitsem t none
  | .abandon _ t => update k.waitsem t none
  | _ => k.waitsem

/-- The history after the act. -/
def history (x : System τ κ) : Act τ κ → History τ κ
  | .take sem => x.toHistory.acquired sem
  | .arrive sem t => x.toHistory.blocked t (x.schedPriority t) (x.holderTasks sem)
  | .post sem => x.toHistory.posted sem
  | .grant sem _ => (x.toHistory.posted sem).acquired sem
  | _ => x.toHistory

/-- When the act is possible. -/
def Enabled (k : Kernel τ κ) : Act τ κ → Prop
  | .quiet => True
  | .take sem => 0 < k.semcount sem
  | .arrive sem t => k.semcount sem ≤ 0 ∧ t ∉ k.lists .waitingForSemaphore
  | .post sem => k.waiters sem = []
  | .grant sem t => k.firstWaiter sem = some t
  | .leave sem t => t ∈ k.waiters sem
  | .abandon sem t => t ∈ k.waiters sem

end Act

/-- **The change from `k` to `k'` is the act.** -/
structure Kernel.Does {τ κ : Type} [DecidableEq τ] [DecidableEq κ] (cfg : Config) (idle : τ)
    (k : Kernel τ κ) (a : Act τ κ) (k' : Kernel τ κ) : Prop where
  enabled : a.Enabled k
  sound : Sound idle k'.toSched
  holders : ∀ sem, idle ∉ k'.holderTasks sem
  rest : ∀ sem, k'.rest idle ≠ .wait sem
  waiting : (k'.lists .waitingForSemaphore).Perm (a.waiting k)
  semcount : k'.semcount = a.semcount k
  waitsem : k'.waitsem = a.waitsem k
  plain : cfg.priorityInheritance = false →
    k'.lists .waitingForSemaphore = a.waiting k ∧ k'.schedPriority = k.schedPriority

namespace Kernel

variable {τ κ : Type} [DecidableEq τ] [DecidableEq κ] {idle t : τ} {sem : κ} {cfg : Config}
  {k k' k₁ : Kernel τ κ} {interrupt : Bool}

/-! ### The calls -/

omit [DecidableEq τ] [DecidableEq κ] in
theorem not_mem_waiting_of_readyHead (h : Sound idle k.toSched) (ht : k.readyHead = some t) :
    t ∉ k.lists .waitingForSemaphore :=
  h.consistent.not_mem_of_mem (List.mem_of_head? ht) (by simp)

omit [DecidableEq τ] in
theorem InOrder.waitsem_of_readyHead (h : InOrder idle k) (ht : k.readyHead = some t) :
    k.waitsem t = none := by
  cases hw : k.waitsem t with
  | none => rfl
  | some sem => exact absurd (h.waiting t sem hw) (not_mem_waiting_of_readyHead h.sound ht)

theorem mem_holderTasks_take {sem' : κ} {u : τ} (hu : u ∈ (k.take cfg sem t).holderTasks sem') :
    u = t ∧ sem' = sem ∨ u ∈ k.holderTasks sem' := by
  rw [take] at hu
  split at hu
  · exact mem_holderTasks_addHolder hu
  · exact .inr hu

theorem take_frame (cfg : Config) (sem : κ) (t : τ) (k : Kernel τ κ) :
    (k.take cfg sem t).toSched = k.toSched ∧ (k.take cfg sem t).rest = k.rest ∧
      (k.take cfg sem t).semcount = update k.semcount sem (k.semcount sem - 1) ∧
      (k.take cfg sem t).waitsem = update k.waitsem t none := by
  rw [take]
  cases cfg.priorityInheritance <;> exact ⟨rfl, rfl, rfl, rfl⟩

omit [DecidableEq κ] in
theorem inheriting_boost (h : Sound idle k.toSched) (hidle : idle ∉ k.holderTasks sem)
    (hs : (k.inheriting cfg fun k => do
      let k ← k.onSched (·.lock false)
      k.forEachHolder sem (boostHolderPrio cfg t)) = some k₁) :
    Quiet idle k k₁ ∧ (cfg.priorityInheritance = false → k₁ = k) := by
  rw [inheriting] at hs
  split at hs
  · next hpi =>
    refine ⟨?_, fun hc => absurd hpi (by simp [hc])⟩
    obtain ⟨k₀, hlock, hboost⟩ := bind_eq_some_iff.mp hs
    obtain ⟨s₀, hs₀, rfl⟩ := map_eq_some_iff.mp hlock
    obtain ⟨hprio, hstate, hlists⟩ := Sched.lock_frame hs₀
    have hsound : Sound idle (k.withSched s₀).toSched := h.congr hprio hstate hlists
    have hquiet₀ : Quiet idle k (k.withSched s₀) :=
      ⟨hsound, by simp [hlists], fun u => by simp [hstate], rfl, rfl, rfl, rfl⟩
    obtain ⟨k₂, hk₂, hquiet⟩ := forEachHolder_spec
      (boostHolderPrio cfg t) hsound fun pholder hmem k₂ hquiet => by
        obtain ⟨k₃, hk₃, hchange, -⟩ :=
          boostHolderPrio_spec cfg t hquiet.sound (ne_idle_of_mem_holders hidle hmem)
        exact ⟨k₃, hk₃, hchange.quiet⟩
    obtain rfl := some.inj (hk₂.symm.trans hboost)
    exact hquiet₀.trans hquiet
  · cases hs
    exact ⟨Quiet.refl h, fun _ => rfl⟩

theorem block_spec (h : Sound idle k.toSched) (hholders : idle ∉ k.holderTasks sem)
    (hidle : t ≠ idle) (hs : k.block cfg sem t = some k') :
    Sound idle k'.toSched ∧
      (k'.lists .waitingForSemaphore).Perm (t :: k.lists .waitingForSemaphore) ∧
      k'.semcount = update k.semcount sem (k.semcount sem - 1) ∧
      k'.waitsem = update k.waitsem t (some sem) ∧ k'.holders = k.holders ∧
      k'.rest = update k.rest t (.wait sem) ∧
      (cfg.priorityInheritance = false → k'.lists .waitingForSemaphore =
        PrioList.insert k.schedPriority t (k.lists .waitingForSemaphore) ∧
        k'.schedPriority = k.schedPriority) := by
  obtain ⟨k₁, hk₁, hblock⟩ := bind_eq_some_iff.mp hs
  obtain ⟨hquiet, hplain⟩ := inheriting_boost
    (k := (k.setSemcount sem (k.semcount sem - 1)).setWaitsem t (some sem)) h hholders hk₁
  obtain ⟨s', hs', rfl⟩ := map_eq_some_iff.mp hblock
  have hstep : Sched.step 0 k₁.toSched (.block t .waitSem) = some s' := hs'
  have hready := (Sched.legal_of_step hstep).1
  obtain ⟨hsound, hprio, hlists⟩ :=
    Run.of_eq_some (Sched.block_waiting hquiet.sound hready hidle) hs'
  refine ⟨hsound, ?_, hquiet.semcount, hquiet.waitsem, hquiet.holders, ?_, fun hpi => ?_⟩
  · rw [withSched_toSched, hlists]
    exact (PrioList.insert_perm ..).trans (hquiet.waiting.cons t)
  · simp [hquiet.rest]
  · obtain rfl := hplain hpi
    exact ⟨hlists, hprio⟩

theorem release_spec (h : Sound idle k.toSched) (hs : k.release cfg interrupt sem t = some k₁) :
    Sound idle k₁.toSched ∧ k₁.lists = k.lists ∧ k₁.schedPriority = k.schedPriority ∧
      k₁.semcount = update k.semcount sem (k.semcount sem + 1) ∧
      k₁.waitsem = k.waitsem ∧ k₁.holderTasks = k.holderTasks ∧ k₁.rest = k.rest ∧
      k₁.record = k.record := by
  rw [release, inheriting] at hs
  split at hs
  · obtain ⟨s₁, hs₁, rfl⟩ := map_eq_some_iff.mp hs
    obtain ⟨hprio, hstate, hlists⟩ := Sched.lock_frame hs₁
    exact ⟨h.congr hprio hstate hlists, hlists, hprio, rfl, rfl, holderTasks_releaseHolder, rfl,
      record_withSched hprio⟩
  · cases hs
    exact ⟨h, rfl, rfl, rfl, rfl, rfl, rfl, rfl⟩

/-- The beginning of `sem_post` stops the system only if the calling task has disabled
pre-emption too often. -/
theorem exists_release (cfg : Config) (sem : κ) (hr : k.readyHead = some t)
    (hlock : cfg.priorityInheritance = true → interrupt = false →
      k.lockcount t < Sched.maxLockCount) :
    ∃ k₁, k.release cfg interrupt sem t = some k₁ := by
  have hr' : (k.lists .readyToRun).head? = some t := hr
  cases hpi : cfg.priorityInheritance with
  | false => exact ⟨_, by rw [release, inheriting, if_neg (by simp [hpi])]⟩
  | true =>
    obtain ⟨s₁, hs₁⟩ : ∃ s₁, k.toSched.lock interrupt = some s₁ := by
      cases interrupt with
      | true => exact ⟨_, by rw [Sched.lock, hr']; rfl⟩
      | false => exact ⟨_, by rw [Sched.lock, hr']; exact if_pos (hlock hpi rfl)⟩
    rw [release, inheriting, if_pos hpi, if_pos hpi]
    exact ⟨_, map_eq_some_iff.mpr ⟨s₁, hs₁, rfl⟩⟩

omit [DecidableEq κ] in
theorem wake_spec (cfg : Config) (h : Sound idle k.toSched)
    (ht : t ∈ k.lists .waitingForSemaphore) :
    ∃ k', k.wake cfg (some t) = some k' ∧ Sound idle k'.toSched ∧
      k'.lists .waitingForSemaphore = (k.lists .waitingForSemaphore).erase t ∧
      k'.schedPriority = k.schedPriority ∧ k'.semcount = k.semcount ∧
      k'.waitsem = update k.waitsem t none ∧ k'.holders = k.holders ∧
      k'.rest = k.rest ∧ (k'.taskState t).isBlocked = false ∧ k'.record = k.record ∧
      k'.lockcount = k.lockcount ∧ Sched.KeepsHead t k.toSched k'.toSched := by
  obtain ⟨s', hs', hsound, hprio, hlock, hhead, hblocked, hlists⟩ :=
    Sched.unblock_waiting cfg.rrTicks h (h.mem_waiting_iff.mp ht)
  refine ⟨(k.setWaitsem t none).withSched s', ?_, hsound, hlists, hprio, rfl, rfl, rfl, rfl,
    hblocked, record_withSched hprio, hlock, hhead⟩
  rw [wake, onSched, setWaitsem_toSched, hs']
  rfl

variable (h : InOrder idle k)

include h

/-- A mild change that leaves the scheduler alone without priority inheritance is quiet
as an act. -/
theorem Mild.does (hmild : Mild idle k k') (hplain : cfg.priorityInheritance = false →
      k'.lists .waitingForSemaphore = k.lists .waitingForSemaphore ∧
      k'.schedPriority = k.schedPriority) :
    Does cfg idle k .quiet k' :=
  { hmild with
    enabled := trivial
    holders := fun sem hc => h.holders sem ((hmild.holders sem).subset hc)
    rest := fun sem hc => h.rest sem (hmild.rest idle sem hc)
    plain := hplain }

theorem does_take (hr : k.readyHead = some t) (hidle : t ≠ idle)
    (hpos : 0 < k.semcount sem) : Does cfg idle k (.take sem) (k.take cfg sem t) := by
  obtain ⟨hsched, hrest, hsemcount, hwaitsem⟩ := take_frame cfg sem t k
  refine ⟨hpos, hsched ▸ h.sound, fun sem' hc => ?_, fun sem' => hrest ▸ h.rest sem', ?_,
    hsemcount, ?_, fun _ => ?_⟩
  · rcases mem_holderTasks_take hc with ⟨heq, -⟩ | hmem
    · exact hidle heq.symm
    · exact h.holders sem' hmem
  · rw [hsched]
    exact .refl _
  · rw [hwaitsem, ← h.waitsem_of_readyHead hr]
    exact update_eq_self t k.waitsem
  · rw [hsched]
    exact ⟨rfl, rfl⟩

theorem does_arrive (hr : k.readyHead = some t) (hidle : t ≠ idle)
    (hpos : ¬0 < k.semcount sem) (hs : k.block cfg sem t = some k') :
    Does cfg idle k (.arrive sem t) k' := by
  obtain ⟨hsound, hperm, hsemcount, hwaitsem, hholders, hrest, hplain⟩ :=
    block_spec h.sound (h.holders sem) hidle hs
  refine ⟨⟨Int.not_lt.mp hpos, not_mem_waiting_of_readyHead h.sound hr⟩, hsound, fun sem' => ?_,
    fun sem' => ?_, hperm.trans (PrioList.insert_perm ..).symm, hsemcount, hwaitsem, hplain⟩
  · rw [holderTasks, hholders]
    exact h.holders sem'
  · rw [hrest, update_of_ne (Ne.symm hidle)]
    exact h.rest sem'

theorem does_trywait (hr : k.readyHead = some t) (hpos : 0 < k.semcount sem) :
    Does cfg idle k (.take sem)
      ((k.setSemcount sem (k.semcount sem - 1)).setWaitsem t none) := by
  refine ⟨hpos, h.sound, h.holders, h.rest, .refl _, rfl, ?_, fun _ => ⟨rfl, rfl⟩⟩
  rw [← h.waitsem_of_readyHead hr]
  exact update_eq_self t k.waitsem

/-- What `sem_post` amounts to. -/
def postAct (sem : κ) (k : Kernel τ κ) : Act τ κ :=
  match k.firstWaiter sem with
  | none => .post sem
  | some t => .grant sem t

omit [DecidableEq τ] in
theorem InOrder.firstWaiter_eq_none (hc : 0 ≤ k.semcount sem) :
    k.firstWaiter sem = none := by
  have hnil : k.waiters sem = [] := by
    by_contra hne
    exact absurd ((h.negative sem).mpr hne) (Int.not_lt.mpr hc)
  rw [firstWaiter_eq_head?, hnil]
  rfl

omit h

theorem Does.mild {a : Act τ κ} (h : Does cfg idle k a k₁) (hmild : Mild idle k₁ k')
    (hpi : cfg.priorityInheritance = true) : Does cfg idle k a k' :=
  ⟨h.enabled, hmild.sound, fun sem hc => h.holders sem ((hmild.holders sem).subset hc),
    fun sem hc => h.rest sem (hmild.rest idle sem hc), hmild.waiting.trans h.waiting,
    hmild.semcount.trans h.semcount, hmild.waitsem.trans h.waitsem,
    fun hc => absurd hpi (by simp [hc])⟩

variable (h : InOrder idle k)

include h

variable (hs : k.release cfg interrupt sem t = some k₁)

include hs

theorem does_wake :
    ∃ k₂, k₁.wake cfg (k.firstWaiter sem) = some k₂ ∧ Does cfg idle k (postAct sem k) k₂ ∧
      ∀ u, k.firstWaiter sem = some u → (k₂.taskState u).isBlocked = false := by
  obtain ⟨hsound, hlists, hprio, hsemcount, hwaitsem, hholders, hrest, -⟩ := release_spec h.sound hs
  rw [postAct]
  cases hfirst : k.firstWaiter sem with
  | none =>
    have hnil : k.waiters sem = [] := by
      rwa [firstWaiter_eq_head?, List.head?_eq_none_iff] at hfirst
    refine ⟨k₁, rfl, ⟨hnil, hsound, hholders ▸ h.holders, hrest ▸ h.rest, ?_, hsemcount, hwaitsem,
      fun _ => ⟨?_, hprio⟩⟩, fun u hu => absurd hu (by simp)⟩
    · rw [hlists]
      exact .refl _
    · rw [hlists]
      rfl
  | some u =>
    have hmem : u ∈ k₁.lists .waitingForSemaphore := by
      rw [hlists]
      exact List.mem_of_find?_eq_some hfirst
    obtain ⟨k₂, hk₂, hsound₂, hlists₂, hprio₂, hsemcount₂, hwaitsem₂, hholders₂, hrest₂, hblocked₂,
        -, -, -⟩ :=
      wake_spec cfg hsound hmem
    have hlist : k₂.lists .waitingForSemaphore = (k.lists .waitingForSemaphore).erase u := by
      rw [hlists₂, hlists]
    refine ⟨k₂, hk₂, ⟨hfirst, hsound₂, fun sem' => ?_, fun sem' => ?_, ?_, ?_, ?_, fun _ => ?_⟩,
      fun v hv => some.inj hv ▸ hblocked₂⟩
    · rw [holderTasks, hholders₂, ← holderTasks, hholders]
      exact h.holders sem'
    · rw [hrest₂, hrest]
      exact h.rest sem'
    · rw [hlist]
      exact .refl _
    · exact hsemcount₂.trans hsemcount
    · rw [hwaitsem₂, hwaitsem]
      rfl
    · exact ⟨hlist, hprio₂.trans hprio⟩

theorem semPost_eq {k₂ : Kernel τ κ}
    (hmax : k.semcount sem < valueMax)
    (hwake : k₁.wake cfg (k.firstWaiter sem) = some k₂) :
    k.semPost cfg interrupt sem t = (k₂.inheriting cfg fun k₂ =>
      k₂.restoreBaseprio cfg interrupt (k.firstWaiter sem) sem).map (·, k.firstWaiter sem) := by
  obtain ⟨-, hlists, -, hsemcount, hwaitsem, -, -, -⟩ := release_spec h.sound hs
  have hsearch : (if k₁.semcount sem ≤ 0 then k₁.firstWaiter sem else none) =
      k.firstWaiter sem := by
    have hfirst : k₁.firstWaiter sem = k.firstWaiter sem := by
      rw [firstWaiter, firstWaiter, hlists, hwaitsem]
    rw [hsemcount, update_self]
    split
    · exact hfirst
    · exact (h.firstWaiter_eq_none (by omega)).symm
  rw [semPost, if_pos hmax, hs]
  simp only [bind_eq_bind, bind_some, hsearch, hwake]
  rw [map_eq_bind]
  rfl

/-- **`sem_post` can be performed** unless the count is at its maximum or pre-emption
cannot be disabled, and it amounts to a post or to a grant. -/
theorem does_post (hmax : k.semcount sem < valueMax) :
    ∃ k', k.semPost cfg interrupt sem t = some (k', k.firstWaiter sem) ∧
      Does cfg idle k (postAct sem k) k' ∧
      ∀ u, k.firstWaiter sem = some u → (k'.taskState u).isBlocked = false := by
  obtain ⟨k₂, hk₂, hdoes, hwoken⟩ := does_wake h hs
  rw [semPost_eq h hs hmax hk₂, inheriting]
  split
  · next hpi =>
    obtain ⟨k', hk', hmild⟩ := restoreBaseprio_mild hdoes.sound cfg interrupt (k.firstWaiter sem)
      (hdoes.holders sem)
    exact ⟨k', by rw [hk']; rfl, hdoes.mild hmild hpi,
      fun u hu => (hmild.blocked u).trans (hwoken u hu)⟩
  · exact ⟨k₂, rfl, hdoes, hwoken⟩

omit hs

omit h in
theorem release_of_semPost {stcb : Option τ}
    (hs : k.semPost cfg interrupt sem t = some (k', stcb)) :
    k.semcount sem < valueMax ∧ ∃ k₁, k.release cfg interrupt sem t = some k₁ := by
  rw [semPost] at hs
  split at hs
  · next hmax =>
    obtain ⟨k₁, hk₁, -⟩ := bind_eq_some_iff.mp hs
    exact ⟨hmax, k₁, hk₁⟩
  · cases hs

/-- The end of a wait that is not granted, as `sem_waitirq` and `sem_recover` share it. -/
theorem cancelWait_spec (hs : k.cancelWait cfg t interrupt sem = some k') :
    Sound idle k'.toSched ∧
      (k'.lists .waitingForSemaphore).Perm (k.lists .waitingForSemaphore) ∧
      k'.semcount = update k.semcount sem (k.semcount sem + 1) ∧
      k'.waitsem = update k.waitsem t none ∧ k'.holderTasks = k.holderTasks ∧
      k'.rest = k.rest ∧ (cfg.priorityInheritance = false → k'.toSched = k.toSched) := by
  obtain ⟨k₁, hk₁, hs⟩ := bind_eq_some_iff.mp hs
  obtain ⟨-, hs⟩ := Option.ite_none_right_eq_some.mp hs
  obtain ⟨hquiet, hplain⟩ :
      Quiet idle k k₁ ∧ (cfg.priorityInheritance = false → k₁ = k) := by
    rw [inheriting] at hk₁
    split at hk₁
    · next hpi =>
      refine ⟨?_, fun hc => absurd hpi (by simp [hc])⟩
      exact Run.of_eq_some (forEachHolder_restore cfg interrupt t h.sound (h.holders sem)) hk₁
    · cases hk₁
      exact ⟨Quiet.refl h.sound, fun _ => rfl⟩
  cases hs
  refine ⟨hquiet.sound, hquiet.waiting, ?_, ?_, ?_, hquiet.rest, fun hpi => ?_⟩
  · simp [hquiet.semcount]
  · simp [hquiet.waitsem]
  · funext sem'
    simp [holderTasks, hquiet.holders]
  · rw [hplain hpi]
    rfl

theorem does_abandon (ht : k.waitsem t = some sem)
    (hs : k.cancelWait cfg t interrupt sem = some k') : Does cfg idle k (.abandon sem t) k' := by
  obtain ⟨hsound, hperm, hsemcount, hwaitsem, hholders, hrest, hplain⟩ := cancelWait_spec h hs
  refine ⟨mem_waiters.mpr ⟨h.waiting t sem ht, ht⟩, hsound, hholders ▸ h.holders, hrest ▸ h.rest,
    hperm, hsemcount, hwaitsem, fun hpi => ?_⟩
  rw [hplain hpi]
  exact ⟨rfl, rfl⟩

theorem does_leave {errcode : Errno} (ht : k.waitsem t = some sem)
    (hs : k.cancelWait cfg t interrupt sem = some k₁)
    (hs' : (k₁.setErrno t (some errcode)).onSched (·.unblockTask cfg.rrTicks t) = some k') :
    Does cfg idle k (.leave sem t) k' := by
  have hdoes := does_abandon h ht hs
  have hmem : t ∈ k₁.lists .waitingForSemaphore := hdoes.waiting.mem_iff.mpr (h.waiting t sem ht)
  obtain ⟨s'', hs'', hsound, hprio, -, -, -, hlists⟩ :=
    Sched.unblock_waiting cfg.rrTicks hdoes.sound (hdoes.sound.mem_waiting_iff.mp hmem)
  obtain ⟨s', hunblock, rfl⟩ := map_eq_some_iff.mp hs'
  obtain rfl := some.inj (hs''.symm.trans hunblock)
  refine { hdoes with sound := hsound, waiting := ?_, plain := fun hpi => ?_ }
  · rw [withSched_toSched, hlists]
    exact hdoes.waiting.erase t
  · obtain ⟨hlist, hprio'⟩ := hdoes.plain hpi
    refine ⟨?_, hprio.trans hprio'⟩
    rw [withSched_toSched, hlists, hlist]
    rfl

theorem does_resume (hs : k.resume cfg t = some k') :
    Does cfg idle k .quiet k' := by
  have hrest : ∀ u sem', (k.setRest t .nothing).rest u = .wait sem' → k.rest u = .wait sem' := by
    intro u sem' hu
    by_cases hut : u = t
    · subst hut
      simp at hu
    · simpa [hut] using hu
  have hmild₀ : Mild idle k (k.setRest t .nothing) :=
    ⟨h.sound, .refl _, fun _ => rfl, rfl, rfl, fun _ => List.Sublist.refl _, hrest⟩
  rw [resume] at hs
  split at hs
  · cases hs
  · next sem hwait =>
    have htidle : t ≠ idle := by
      rintro rfl
      exact h.rest sem hwait
    rw [inheriting] at hs
    split at hs
    · next hpi =>
      obtain ⟨hsched, hsemcount, hwaitsem, hrest', -⟩ :=
        holdIfGranted_frame (k.setRest t .nothing) sem t
      have hdoes : Does cfg idle k .quiet ((k.setRest t .nothing).holdIfGranted sem t) := by
        refine ⟨trivial, hsched ▸ h.sound, fun sem' hc => ?_, fun sem' hc => ?_, ?_, hsemcount,
          hwaitsem, fun _ => ?_⟩
        · rcases mem_holderTasks_holdIfGranted hc with ⟨heq, -⟩ | hmem
          · exact htidle heq.symm
          · exact h.holders sem' hmem
        · rw [hrest'] at hc
          exact h.rest sem' (hrest idle sem' hc)
        · rw [hsched]
          exact .refl _
        · rw [hsched]
          exact ⟨rfl, rfl⟩
      obtain ⟨hmild, -, -⟩ := Run.of_eq_some (unlock_mild hdoes.sound cfg) hs
      exact hdoes.mild hmild hpi
    · cases hs
      exact hmild₀.does h fun _ => ⟨rfl, rfl⟩
  · next sem discard hpost =>
    obtain ⟨k₀, hk₀, hmild₁, hprio⟩ : ∃ k₀, (if discard then (k.setRest t .nothing).setPend t []
        else k.setRest t .nothing) = k₀ ∧ Mild idle k k₀ ∧ k₀.toSched = k.toSched := by
      cases discard with
      | false => exact ⟨_, rfl, hmild₀, rfl⟩
      | true => exact ⟨_, rfl, { hmild₀ with }, rfl⟩
    dsimp only at hs
    rw [hk₀] at hs
    obtain ⟨hmild, hlists, hrecord⟩ := Run.of_eq_some (endPost_mild hmild₁.sound cfg sem t) hs
    refine (hmild₁.trans hmild).does h fun _ => ⟨?_, ?_⟩
    · rw [hlists, hprio]
    · rw [schedPriority_of_record hrecord, hprio]

end Kernel

namespace System

variable {τ κ : Type} [DecidableEq τ] [DecidableEq κ] {cfg : Config} {idle : τ} {x x' : System τ κ}
  {e : Event τ κ}

/-- **The step from `x` to `x'` is the act.** -/
def Does (cfg : Config) (idle : τ) (x : System τ κ) (a : Act τ κ) (x' : System τ κ) : Prop :=
  x.toKernel.Does cfg idle a x'.toKernel ∧ x'.toHistory = a.history x

/-- What the events must not do: the idle task does not wait for a semaphore, and the
rest of the kernel does not block it. -/
def Allowed (idle : τ) (x : System τ κ) : Event τ κ → Prop
  | .wait _ => x.readyHead ≠ some idle
  | .sched op => op.target ≠ some idle
  | _ => True

instance (x : System τ κ) (e : Event τ κ) : Decidable (x.Allowed idle e) :=
  match e with
  | .wait _ => inferInstanceAs (Decidable (x.readyHead ≠ some idle))
  | .sched op => inferInstanceAs (Decidable (op.target ≠ some idle))
  | .trywait _ | .post _ _ | .waitirq _ _ _ | .recover _ _ | .resume => isTrue trivial

omit [DecidableEq τ] in
theorem readyHead_of_caller {t : τ} (h : x.caller = some t) : x.readyHead = some t :=
  (filter_eq_some_iff.mp h).1

/-- The calls that change nothing. -/
def Void (x : System τ κ) : Event τ κ → Prop
  | .trywait sem => ¬0 < x.semcount sem
  | .waitirq _ t _ => x.waitsem t = none
  | .recover _ t => x.waitsem t = none
  | _ => False

/-- **What the kernel does in one step**, and the act that this amounts to. -/
inductive Change (cfg : Config) (x : System τ κ) : Event τ κ → Act τ κ → Kernel τ κ → Prop
  | take {sem : κ} {t : τ} (hr : x.readyHead = some t) (hpos : 0 < x.semcount sem) :
      Change cfg x (.wait sem) (.take sem) (x.toKernel.take cfg sem t)
  | block {sem : κ} {t : τ} {k' : Kernel τ κ} (hr : x.readyHead = some t)
      (hpos : ¬0 < x.semcount sem) (hs : x.toKernel.block cfg sem t = some k') :
      Change cfg x (.wait sem) (.arrive sem t) k'
  | trywait {sem : κ} {t : τ} (hr : x.readyHead = some t) (hpos : 0 < x.semcount sem) :
      Change cfg x (.trywait sem) (.take sem)
        ((x.setSemcount sem (x.semcount sem - 1)).setWaitsem t none)
  | post {interrupt : Bool} {sem : κ} {t : τ} {k₁ k' : Kernel τ κ} (hr : x.readyHead = some t)
      (hmax : x.semcount sem < valueMax) (hrelease : x.release cfg interrupt sem t = some k₁)
      (hs : x.semPost cfg interrupt sem t = some (k', x.firstWaiter sem)) :
      Change cfg x (.post interrupt sem) (postAct sem x.toKernel) k'
  | leave {interrupt : Bool} {t : τ} {errcode : Errno} {sem : κ} {k₁ k' : Kernel τ κ}
      (hsem : x.waitsem t = some sem) (hcancel : x.cancelWait cfg t interrupt sem = some k₁)
      (hs : (k₁.setErrno t (some errcode)).onSched (·.unblockTask cfg.rrTicks t) = some k') :
      Change cfg x (.waitirq interrupt t errcode) (.leave sem t) k'
  | abandon {interrupt : Bool} {t : τ} {sem : κ} {k' : Kernel τ κ}
      (hsem : x.waitsem t = some sem) (hs : x.cancelWait cfg t interrupt sem = some k') :
      Change cfg x (.recover interrupt t) (.abandon sem t) k'
  | resume {t : τ} {k' : Kernel τ κ} (hr : x.readyHead = some t)
      (hs : x.toKernel.resume cfg t = some k') : Change cfg x .resume .quiet k'
  | sched {op : Sched.Op τ} {s' : Sched τ} (hforeign : x.toSched.Foreign op)
      (hs : x.toSched.step cfg.rrTicks op = some s') :
      Change cfg x (.sched op) .quiet (x.withSched s')
  | nothing {e : Event τ κ} (he : x.Void e) : Change cfg x e .quiet x.toKernel

omit [DecidableEq τ] in
theorem waitsem_of_taskState {t : τ} (h : x.toKernel.InOrder idle)
    (ht : x.taskState t ≠ .waitSem) : x.waitsem t = none := by
  by_contra hne
  obtain ⟨sem, hsem⟩ := Option.ne_none_iff_exists'.mp hne
  exact ht (h.sound.mem_waiting_iff.mp (h.waiting t sem hsem))

/-- **The cases of a step.** -/
theorem step_cases (h : x.toKernel.InOrder idle) (hs : x.step cfg e = some x') :
    ∃ a, Change cfg x e a x'.toKernel ∧ x'.toHistory = a.history x := by
  cases e with
  | wait sem =>
    obtain ⟨t, hcaller, hs⟩ := bind_eq_some_iff.mp hs
    obtain ⟨⟨k', ok⟩, hwait, rfl⟩ := map_eq_some_iff.mp hs
    have hr := readyHead_of_caller hcaller
    rw [semWait] at hwait
    split at hwait
    · next hpos =>
      cases hwait
      exact ⟨.take sem, .take hr hpos, rfl⟩
    · next hpos =>
      split at hwait
      · obtain ⟨k'', hblock, heq⟩ := map_eq_some_iff.mp hwait
        cases heq
        exact ⟨.arrive sem t, .block hr hpos hblock, rfl⟩
      · cases hwait
  | trywait sem =>
    obtain ⟨t, hcaller, rfl⟩ := map_eq_some_iff.mp hs
    have hr := readyHead_of_caller hcaller
    by_cases hpos : 0 < x.semcount sem
    · refine ⟨.take sem, ?_, ?_⟩
      · simp only [semTrywait, if_pos hpos]
        exact .trywait hr hpos
      · simp [semTrywait, hpos, Act.history]
    · refine ⟨.quiet, ?_, ?_⟩
      · simp only [semTrywait, if_neg hpos]
        exact .nothing hpos
      · simp [semTrywait, hpos, Act.history]
  | post interrupt sem =>
    obtain ⟨t, hcaller, hs⟩ := bind_eq_some_iff.mp hs
    obtain ⟨⟨k', stcb⟩, hpost, rfl⟩ := map_eq_some_iff.mp hs
    have hr : x.readyHead = some t := by
      cases interrupt with
      | true => exact hcaller
      | false => exact readyHead_of_caller hcaller
    obtain ⟨hmax, k₁, hrelease⟩ := release_of_semPost hpost
    obtain ⟨k'', hk'', -, -⟩ := does_post h hrelease hmax
    obtain ⟨rfl, rfl⟩ := Prod.mk.inj (some.inj (hk''.symm.trans hpost))
    refine ⟨postAct sem x.toKernel, .post hr hmax hrelease hpost, ?_⟩
    rw [postAct]
    cases hfirst : x.firstWaiter sem <;> simp [afterPost, Act.history]
  | waitirq interrupt t errcode =>
    obtain ⟨k', hirq, rfl⟩ := map_eq_some_iff.mp hs
    rw [semWaitirq] at hirq
    split at hirq
    · split at hirq
      · cases hirq
      · next sem hsem =>
        obtain ⟨k₁, hcancel, hunblock⟩ := bind_eq_some_iff.mp hirq
        exact ⟨.leave sem t, .leave hsem hcancel hunblock, rfl⟩
    · next hstate =>
      cases hirq
      exact ⟨.quiet, .nothing (waitsem_of_taskState h hstate), rfl⟩
  | recover interrupt t =>
    obtain ⟨k', hrecover, rfl⟩ := map_eq_some_iff.mp hs
    rw [semRecover] at hrecover
    split at hrecover
    · split at hrecover
      · cases hrecover
      · next sem hsem => exact ⟨.abandon sem t, .abandon hsem hrecover, rfl⟩
    · next hstate =>
      cases hrecover
      exact ⟨.quiet, .nothing (waitsem_of_taskState h hstate), rfl⟩
  | resume =>
    obtain ⟨t, hr, hs⟩ := bind_eq_some_iff.mp hs
    obtain ⟨k', hresume, rfl⟩ := map_eq_some_iff.mp hs
    exact ⟨.quiet, .resume hr hresume, rfl⟩
  | sched op =>
    rw [step] at hs
    split at hs
    · next hforeign =>
      obtain ⟨k', hk', rfl⟩ := map_eq_some_iff.mp hs
      obtain ⟨s', hs', rfl⟩ := map_eq_some_iff.mp hk'
      exact ⟨.quiet, .sched hforeign hs', rfl⟩
    · cases hs

theorem Change.does {a : Act τ κ} {k' : Kernel τ κ} (h : x.toKernel.InOrder idle)
    (he : x.Allowed idle e) (hchange : Change cfg x e a k') :
    x.toKernel.Does cfg idle a k' := by
  cases hchange with
  | take hr hpos => exact does_take h hr (fun hc => he (hc ▸ hr)) hpos
  | block hr hpos hs => exact does_arrive h hr (fun hc => he (hc ▸ hr)) hpos hs
  | trywait hr hpos => exact does_trywait h hr hpos
  | post hr hmax hrelease hs =>
    obtain ⟨k'', hk'', hdoes, -⟩ := does_post h hrelease hmax
    obtain ⟨rfl, -⟩ := Prod.mk.inj (some.inj (hk''.symm.trans hs))
    exact hdoes
  | leave hsem hcancel hs => exact does_leave h hsem hcancel hs
  | abandon hsem hs => exact does_abandon h hsem hs
  | resume hr hs => exact does_resume h hs
  | sched hforeign hs =>
    obtain ⟨hsound, hprio, hlists⟩ := Sched.step_foreign h.sound he hforeign hs
    exact ⟨trivial, hsound, h.holders, h.rest, by simp [hlists, Act.waiting], rfl, rfl,
      fun _ => ⟨hlists, hprio⟩⟩
  | nothing => exact (Kernel.Quiet.refl h.sound).mild.does h fun _ => ⟨rfl, rfl⟩

/-- **Every step is one of the acts.** -/
theorem step_does (h : x.toKernel.InOrder idle) (he : x.Allowed idle e)
    (hs : x.step cfg e = some x') : ∃ a, Does cfg idle x a x' := by
  obtain ⟨a, hchange, hhistory⟩ := step_cases h hs
  exact ⟨a, hchange.does h he, hhistory⟩

end System

end GreenboneFeeder.Sem
