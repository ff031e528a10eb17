import GreenboneFeeder.Lib.Counting
import GreenboneFeeder.Sem.Acts
import Mathlib.Data.Set.Card

/-!
# The semaphores count

Each semaphore of the kernel is a counting semaphore (`Sem.System.refines_of_does`): its count is
the number of the available units less the number of the tasks that wait. `sem_post` chooses the
first in the waiting list, so it has the highest priority. Without priority inheritance, among
waiters of the same priority the one that has waited longest is woken; with it, a waiter that is
also a holder is moved behind the others when its priority is set again
(`Sem.System.later_waiter_woken`).
-/

namespace GreenboneFeeder.Sem

open Function List Kernel

open Sched (Sound)
open Counting (Ideal)

/-! ### The waiters after an act -/

/-- The task that stops waiting with the act, and its semaphore. -/
def Act.departs {τ κ : Type} : Act τ κ → Option (κ × τ)
  | .grant sem t => some (sem, t)
  | .leave sem t => some (sem, t)
  | .abandon sem t => some (sem, t)
  | _ => none

namespace Kernel

variable {τ κ : Type} [DecidableEq τ] [DecidableEq κ] {cfg : Config} {idle t : τ} {sem : κ}
  {k k' : Kernel τ κ} {a : Act τ κ}

/-! What an act does to a part `p` of the waiting list, if it changes what the part is for
no other task than the one that begins or stops waiting. -/

section Part

variable {p q : τ → Bool} {l : List τ}

theorem filter_eq_erase (hl : l.Nodup) (hp : ∀ u, u ≠ t → q u = p u) (ht : q t = false) :
    l.filter q = (l.filter p).erase t := by
  rw [(hl.filter _).erase_eq_filter, filter_filter]
  refine filter_congr fun u _ => ?_
  by_cases hut : u = t
  · simp [hut, ht]
  · simp [hut, hp u hut]

theorem filter_erase_eq_erase (hl : l.Nodup) (hp : ∀ u, u ≠ t → q u = p u)
    (ht : q t = false) : (l.erase t).filter q = (l.filter p).erase t := by
  rw [← filter_eq_erase hl hp ht, hl.erase_eq_filter, filter_filter]
  refine filter_congr fun u _ => ?_
  by_cases hut : u = t
  · simp [hut, ht]
  · simp [hut]

theorem Does.filter_of_departs (hsound : Sound idle k.toSched) (h : Does cfg idle k a k')
    (ha : a.departs = some (sem, t)) (hp : ∀ u, u ≠ t → q u = p u) (ht : q t = false) :
    ((k'.lists .waitingForSemaphore).filter q).Perm
      (((k.lists .waitingForSemaphore).filter p).erase t) := by
  have hnodup := hsound.consistent.nodup .waitingForSemaphore
  refine (h.waiting.filter q).trans (List.Perm.of_eq ?_)
  cases a with
  | grant sem₀ t₀ | leave sem₀ t₀ =>
    cases ha
    exact filter_erase_eq_erase hnodup hp ht
  | abandon sem₀ t₀ =>
    exact filter_eq_erase hnodup hp ht
  | _ => cases ha

theorem Does.filter_of_arrive (h : Does cfg idle k (.arrive sem t) k')
    (hp : ∀ u, u ≠ t → q u = p u) :
    ((k'.lists .waitingForSemaphore).filter q).Perm
      (if q t then t :: (k.lists .waitingForSemaphore).filter p
        else (k.lists .waitingForSemaphore).filter p) := by
  refine (h.waiting.filter q).trans (((PrioList.insert_perm _ _ _).filter q).trans ?_)
  rw [filter_cons]
  have hsame : (k.lists .waitingForSemaphore).filter q =
      (k.lists .waitingForSemaphore).filter p := by
    refine filter_congr fun u hu => hp u ?_
    rintro rfl
    exact h.enabled.2 hu
  rw [hsame]

end Part

omit [DecidableEq κ] in
theorem waitsem_of_departs (ha : a.departs = some (sem, t)) :
    a.waitsem k = update k.waitsem t none := by
  cases a with
  | grant sem₀ t₀ | leave sem₀ t₀ | abandon sem₀ t₀ =>
    obtain ⟨rfl, rfl⟩ := Prod.mk.inj (Option.some.inj ha); rfl
  | _ => cases ha

theorem Does.waiters_of_arrive (h : Does cfg idle k (.arrive sem t) k') :
    (k'.waiters sem).Perm (t :: k.waiters sem) := by
  have hperm := h.filter_of_arrive (p := fun u => k.waitsem u = some sem)
    (q := fun u => k'.waitsem u = some sem) fun u hu => by simp [h.waitsem, Act.waitsem, hu]
  rwa [if_pos (by simp [h.waitsem, Act.waitsem])] at hperm

theorem Does.waiters_of_arrive_ne {sem' : κ} (h : Does cfg idle k (.arrive sem' t) k')
    (hne : sem ≠ sem') : (k'.waiters sem).Perm (k.waiters sem) := by
  have hperm := h.filter_of_arrive (p := fun u => k.waitsem u = some sem)
    (q := fun u => k'.waitsem u = some sem) fun u hu => by simp [h.waitsem, Act.waitsem, hu]
  rwa [if_neg (by simp [h.waitsem, Act.waitsem, Ne.symm hne])] at hperm

variable (h : Does cfg idle k a k')

include h

theorem Does.waiters_of_departs {sem' : κ} (hsound : Sound idle k.toSched)
    (ha : a.departs = some (sem', t)) :
    (k'.waiters sem).Perm ((k.waiters sem).erase t) := by
  have hwaitsem := h.waitsem.trans (waitsem_of_departs ha)
  exact h.filter_of_departs hsound ha (fun u hu => by simp [hwaitsem, hu]) (by simp [hwaitsem])

theorem Does.waiters_of_stays
    (hwaiting : a.waiting k = k.lists .waitingForSemaphore) (hwaitsem : a.waitsem k = k.waitsem) :
    (k'.waiters sem).Perm (k.waiters sem) := by
  rw [waiters, waiters, h.waitsem, hwaitsem, ← hwaiting]
  exact h.waiting.filter _

/-- A task that stops waiting was a waiter of its semaphore, and of no other. -/
theorem Does.mem_waiters_of_departs (ha : a.departs = some (sem, t)) :
    t ∈ k.waiters sem := by
  have henabled := h.enabled
  cases a with
  | grant sem₀ t₀ =>
    cases ha
    rw [Act.Enabled, firstWaiter_eq_head?] at henabled
    exact mem_of_head? henabled
  | leave sem₀ t₀ | abandon sem₀ t₀ =>
    cases ha
    exact henabled
  | _ => cases ha

theorem Does.waiters_of_departs_ne {sem' : κ} (hsound : Sound idle k.toSched)
    (ha : a.departs = some (sem', t)) (hne : sem ≠ sem') :
    (k'.waiters sem).Perm (k.waiters sem) := by
  have hperm : (k'.waiters sem).Perm _ := h.waiters_of_departs hsound ha
  rwa [erase_of_not_mem] at hperm
  intro hc
  have hsem := (mem_waiters.mp hc).2
  rw [(mem_waiters.mp (h.mem_waiters_of_departs ha)).2] at hsem
  exact hne (Option.some.inj hsem).symm

omit h

end Kernel

/-! ### Refinement -/

/-- The semaphore that an act is about; all others stay as they are. -/
def Act.target {τ κ : Type} : Act τ κ → Option κ
  | .quiet => none
  | .take sem => some sem
  | .arrive sem _ => some sem
  | .post sem => some sem
  | .grant sem _ => some sem
  | .leave sem _ => some sem
  | .abandon sem _ => some sem

namespace System

variable {τ κ : Type} [DecidableEq τ] [DecidableEq κ] {cfg : Config} {idle t : τ} {sem : κ}
  {x x' : System τ κ} {a : Act τ κ} {i : Ideal τ} {n : ℕ}

/-- **The semaphore is the counting semaphore.** -/
structure Refines (x : System τ κ) (sem : κ) (i : Ideal τ) : Prop where
  count : x.semcount sem = i.count
  waiting : i.waiting = x.waiters sem
  posts : i.posts = x.posts sem
  acquisitions : i.acquisitions = x.acquisitions sem

omit [DecidableEq τ] in
theorem Refines.congr (h : Refines x sem i) (hcount : x'.semcount sem = x.semcount sem)
    (hwaiters : (x'.waiters sem).Perm (x.waiters sem)) (hposts : x'.posts sem = x.posts sem)
    (hacquisitions : x'.acquisitions sem = x.acquisitions sem) : Refines x' sem i :=
  ⟨hcount.trans h.count, h.waiting.trans (Multiset.coe_eq_coe.mpr hwaiters.symm),
    h.posts.trans hposts.symm, h.acquisitions.trans hacquisitions.symm⟩

omit [DecidableEq τ] in
theorem semcount_of_ne_target (k : Kernel τ κ) (ha : a.target ≠ some sem) :
    a.semcount k sem = k.semcount sem := by
  cases a <;>
    first
    | rfl
    | exact update_of_ne (fun hc => ha (congrArg some hc.symm)) _ _

theorem history_of_ne_target (x : System τ κ) (ha : a.target ≠ some sem) :
    (a.history x).posts sem = x.posts sem ∧
      (a.history x).acquisitions sem = x.acquisitions sem := by
  have hne : ∀ {sem₀ : κ}, a.target = some sem₀ → sem ≠ sem₀ := by
    rintro sem₀ htarget rfl
    exact ha htarget
  cases a with
  | take sem₀ => exact ⟨rfl, update_of_ne (hne rfl) _ _⟩
  | post sem₀ => exact ⟨update_of_ne (hne rfl) _ _, rfl⟩
  | grant sem₀ t =>
    exact ⟨update_of_ne (hne rfl) _ _, update_of_ne (hne rfl) _ _⟩
  | _ => exact ⟨rfl, rfl⟩

theorem waiters_of_ne_target {k k' : Kernel τ κ} (hsound : Sound idle k.toSched)
    (hdoes : k.Does cfg idle a k') (ha : a.target ≠ some sem) :
    (k'.waiters sem).Perm (k.waiters sem) := by
  have hne : ∀ {sem₀ : κ}, a.target = some sem₀ → sem ≠ sem₀ := by
    rintro sem₀ htarget rfl
    exact ha htarget
  cases a with
  | arrive sem₀ t => exact hdoes.waiters_of_arrive_ne (hne rfl)
  | grant sem₀ t | leave sem₀ t | abandon sem₀ t =>
    exact hdoes.waiters_of_departs_ne hsound rfl (hne rfl)
  | _ => exact hdoes.waiters_of_stays rfl rfl

theorem count_erase (ht : t ∈ i.waiting) :
    (i.available : ℤ) - (i.waiting.erase t).card = i.count + 1 := by
  have hpos := Multiset.card_pos_iff_exists_mem.mpr ⟨t, ht⟩
  rw [Multiset.card_erase_of_mem ht, Nat.pred_eq_sub_one, Ideal.count]
  omega

theorem Refines.waiting_of_departs (h : Refines x sem i) (hsound : Sound idle x.toSched)
    (hdoes : x.toKernel.Does cfg idle a x'.toKernel) (ha : a.departs = some (sem, t)) :
    t ∈ i.waiting ∧ i.waiting.erase t = x'.waiters sem := by
  rw [h.waiting]
  refine ⟨hdoes.mem_waiters_of_departs ha, ?_⟩
  exact Multiset.coe_eq_coe.mpr (hdoes.waiters_of_departs hsound ha).symm

/-- **Every act is a step of the counting semaphore.** -/
theorem refines_of_does (h : Refines x sem i) (hb : i.Balanced n) (hsound : Sound idle x.toSched)
    (hdoes : Does cfg idle x a x') :
    ∃ i', (i' = i ∨ i.Step i') ∧ Refines x' sem i' := by
  obtain ⟨hdoes, hhistory⟩ := hdoes
  have hcount : x'.semcount sem = a.semcount x.toKernel sem := by rw [hdoes.semcount]
  have hposts : x'.posts sem = (a.history x).posts sem := by rw [hhistory]
  have hacquisitions : x'.acquisitions sem = (a.history x).acquisitions sem := by rw [hhistory]
  by_cases ha : a.target = some sem
  swap
  · obtain ⟨hposts', hacquisitions'⟩ := history_of_ne_target x ha
    exact ⟨i, .inl rfl, h.congr (hcount.trans (semcount_of_ne_target _ ha))
      (waiters_of_ne_target hsound hdoes ha) (hposts.trans hposts')
      (hacquisitions.trans hacquisitions')⟩
  have henabled := hdoes.enabled
  cases a with
  | quiet => cases ha
  | take sem₀ =>
    cases ha
    rw [Act.Enabled, h.count, Ideal.count] at henabled
    obtain ⟨m, hm⟩ : ∃ m, i.available = m + 1 := ⟨i.available - 1, by omega⟩
    refine ⟨_, .inr (.take hm), ?_, h.waiting.trans ?_, h.posts.trans hposts.symm, ?_⟩
    · rw [hcount, Act.semcount, update_self, h.count, Ideal.count, Ideal.count]
      push_cast
      omega
    · exact Multiset.coe_eq_coe.mpr (hdoes.waiters_of_stays rfl rfl).symm
    · rw [hacquisitions]
      simp [Act.history, h.acquisitions]
  | arrive sem₀ t =>
    cases ha
    have hzero : i.available = 0 := by
      have hle := henabled.1
      rw [h.count, Ideal.count] at hle
      refine hb.busy.elim id fun hw => ?_
      rw [hw, Multiset.card_zero] at hle
      omega
    refine ⟨_, .inr (.block t hzero), ?_, ?_, h.posts.trans hposts.symm,
      h.acquisitions.trans hacquisitions.symm⟩
    · rw [hcount, Act.semcount, update_self, h.count, Ideal.count, Ideal.count, Multiset.card_cons]
      push_cast
      omega
    · rw [h.waiting]
      exact Multiset.coe_eq_coe.mpr hdoes.waiters_of_arrive.symm
  | post sem₀ =>
    obtain rfl := Option.some.inj ha
    have hnil : i.waiting = 0 := by
      rw [h.waiting, show x.waiters sem₀ = [] from henabled]
      rfl
    refine ⟨_, .inr (.post hnil), ?_, h.waiting.trans ?_, ?_,
      h.acquisitions.trans hacquisitions.symm⟩
    · rw [hcount, Act.semcount, update_self, h.count, Ideal.count, Ideal.count]
      push_cast
      omega
    · exact Multiset.coe_eq_coe.mpr (hdoes.waiters_of_stays rfl rfl).symm
    · rw [hposts]
      simp [Act.history, h.posts]
  | grant sem₀ t =>
    cases ha
    obtain ⟨hmem, hwaiting⟩ := h.waiting_of_departs hsound hdoes rfl
    refine ⟨_, .inr (.grant t hmem), ?_, hwaiting, ?_, ?_⟩
    · rw [hcount, Act.semcount, update_self, h.count]
      exact (count_erase hmem).symm
    · rw [hposts]
      simp [Act.history, h.posts]
    · rw [hacquisitions]
      simp [Act.history, h.acquisitions]
  | leave sem₀ t | abandon sem₀ t =>
    cases ha
    obtain ⟨hmem, hwaiting⟩ := h.waiting_of_departs hsound hdoes rfl
    refine ⟨_, .inr (.cancel t hmem), ?_, hwaiting, h.posts.trans hposts.symm,
      h.acquisitions.trans hacquisitions.symm⟩
    rw [hcount, Act.semcount, update_self, h.count]
    exact (count_erase hmem).symm

/-! ### Runs -/

/-- The system at boot: no semaphore has been used, and no count is negative. -/
structure Booted (idle : τ) (x : System τ κ) : Prop where
  boot : Sched.Boot idle x.toSched
  semcount : ∀ sem, 0 ≤ x.semcount sem
  waitsem : ∀ t, x.waitsem t = none
  holders : ∀ sem, x.holders sem = []
  rest : ∀ t, x.rest t = .nothing
  posts : ∀ sem, x.posts sem = 0
  acquisitions : ∀ sem, x.acquisitions sem = 0
  basePriority : x.basePriority = x.schedPriority
  pendReprios : ∀ t, x.pendReprios t = []

/-- What every run keeps: the kernel is in order, and each semaphore is a counting
semaphore that began with the count of `x₀`. -/
structure Kept (idle : τ) (x₀ x : System τ κ) : Prop where
  inOrder : x.toKernel.InOrder idle
  refines : ∀ sem, ∃ i, Relation.ReflTransGen Ideal.Step (Ideal.fresh (x₀.semcount sem).toNat) i ∧
    Refines x sem i

omit [DecidableEq τ] in
theorem Refines.negative_iff (h : Refines x sem i) (hb : i.Balanced n) :
    x.semcount sem < 0 ↔ x.waiters sem ≠ [] := by
  have hneg := Ideal.neg_min_count hb
  rw [← h.count, h.waiting, Multiset.coe_card] at hneg
  rw [← length_pos_iff]
  omega

theorem mem_waiting_of_does {k k' : Kernel τ κ} (h : k.InOrder idle) (hdoes : k.Does cfg idle a k')
    (ht : k'.waitsem t = some sem) : t ∈ k'.lists .waitingForSemaphore := by
  rw [hdoes.waiting.mem_iff]
  rw [hdoes.waitsem] at ht
  have hleft : ∀ u, update k.waitsem u none t = some sem →
      t ≠ u ∧ t ∈ k.lists .waitingForSemaphore := by
    intro u hu
    have hne : t ≠ u := by
      rintro rfl
      simp at hu
    rw [update_of_ne hne] at hu
    exact ⟨hne, h.waiting t sem hu⟩
  cases a with
  | arrive sem₀ u =>
    rw [Act.waiting, PrioList.mem_insert]
    by_cases htu : t = u
    · exact .inl htu
    · rw [Act.waitsem, update_of_ne htu] at ht
      exact .inr (h.waiting t sem ht)
  | grant sem₀ u | leave sem₀ u => exact (mem_erase_of_ne (hleft u ht).1).mpr (hleft u ht).2
  | abandon sem₀ u => exact (hleft u ht).2
  | _ => exact h.waiting t sem ht

theorem Kept.of_does {x₀ : System τ κ} (h : Kept idle x₀ x) (hdoes : Does cfg idle x a x') :
    Kept idle x₀ x' := by
  have hrefines : ∀ sem, ∃ i,
      Relation.ReflTransGen Ideal.Step (Ideal.fresh (x₀.semcount sem).toNat) i ∧
      Refines x' sem i := by
    intro sem
    obtain ⟨i, hreach, hi⟩ := h.refines sem
    obtain ⟨i', hstep, hi'⟩ :=
      refines_of_does hi (Ideal.balanced_of_reachable hreach) h.inOrder.sound hdoes
    refine ⟨i', ?_, hi'⟩
    rcases hstep with rfl | hstep
    · exact hreach
    · exact hreach.tail hstep
  refine ⟨⟨hdoes.1.sound, hdoes.1.holders, hdoes.1.rest,
    fun t sem ht => mem_waiting_of_does h.inOrder hdoes.1 ht, fun sem => ?_⟩, hrefines⟩
  obtain ⟨i, hreach, hi⟩ := hrefines sem
  exact hi.negative_iff (Ideal.balanced_of_reachable hreach)

theorem Booted.kept (h : Booted idle x) : Kept idle x x := by
  have hwaiters : ∀ sem, x.waiters sem = [] := by
    intro sem
    rw [waiters, h.boot.empty _ (by simp) (by simp)]
    rfl
  obtain ⟨hconsistent, hcomplete⟩ := h.boot.consistent
  refine ⟨⟨⟨hconsistent, hcomplete⟩, fun sem => ?_, fun sem => ?_, fun t sem ht => ?_,
    fun sem => ?_⟩, fun sem => ⟨_, .refl, ?_, ?_, ?_, ?_⟩⟩
  · rw [holderTasks, h.holders]
    exact not_mem_nil
  · simp [h.rest]
  · rw [h.waitsem] at ht
    cases ht
  · rw [hwaiters]
    have := h.semcount sem
    simp only [ne_eq, not_true_eq_false, iff_false]
    omega
  · have := h.semcount sem
    simp only [Ideal.count, Ideal.fresh, Multiset.card_zero]
    omega
  · rw [hwaiters]
    rfl
  · rw [h.posts]
    rfl
  · rw [h.acquisitions]
    rfl

/-! ### The order of the waiters -/

/-- Waiters of the same priority stand in the order in which they began to wait. -/
structure ArrivalOrder (x : System τ κ) : Prop where
  order : (x.lists .waitingForSemaphore).Pairwise fun t u =>
    x.schedPriority t = x.schedPriority u → x.blockedSince t < x.blockedSince u
  past : ∀ t ∈ x.lists .waitingForSemaphore, x.blockedSince t < x.blockings

omit [DecidableEq τ] [DecidableEq κ] in
theorem ArrivalOrder.of_sublist (h : ArrivalOrder x)
    (hlist : (x'.lists .waitingForSemaphore).Sublist (x.lists .waitingForSemaphore))
    (hprio : x'.schedPriority = x.schedPriority) (hsince : x'.blockedSince = x.blockedSince)
    (hblockings : x'.blockings = x.blockings) : ArrivalOrder x' := by
  refine ⟨?_, fun t ht => ?_⟩
  · rw [hprio, hsince]
    exact h.order.sublist hlist
  · rw [hsince, hblockings]
    exact h.past t (hlist.subset ht)

omit [DecidableEq κ] in
theorem ArrivalOrder.of_arrive (h : ArrivalOrder x) (hsound : Sound idle x.toSched)
    (ht : t ∉ x.lists .waitingForSemaphore) (hlist : x'.lists .waitingForSemaphore =
      PrioList.insert x.schedPriority t (x.lists .waitingForSemaphore))
    (hprio : x'.schedPriority = x.schedPriority)
    (hsince : x'.blockedSince = update x.blockedSince t x.blockings)
    (hblockings : x'.blockings = x.blockings + 1) : ArrivalOrder x' := by
  have hsame : ∀ u ∈ x.lists .waitingForSemaphore, x'.blockedSince u = x.blockedSince u := by
    intro u hu
    have hne : u ≠ t := by
      rintro rfl
      exact ht hu
    rw [hsince, update_of_ne hne]
  have hself : x'.blockedSince t = x.blockings := by
    rw [hsince]
    exact update_self ..
  refine ⟨?_, fun u hu => ?_⟩
  · rw [hlist, hprio]
    refine PrioList.pairwise_insert (hsound.consistent.sorted _ rfl) ?_ ?_ ?_
    · refine h.order.imp_of_mem fun {a b} ha hb hab heq => ?_
      rw [hsame a ha, hsame b hb]
      exact hab heq
    · intro u hu _ _
      rw [hsame u hu, hself]
      exact h.past u hu
    · intro u _ hlt heq
      exact absurd heq (Nat.ne_of_gt hlt)
  · rw [hblockings]
    rw [hlist, PrioList.mem_insert] at hu
    rcases hu with rfl | hu
    · omega
    · rw [hsame u hu]
      exact Nat.lt_succ_of_lt (h.past u hu)

/-- Without priority inheritance, every act keeps the waiters in the order of their
arrival. -/
theorem ArrivalOrder.of_does (h : ArrivalOrder x) (hsound : Sound idle x.toSched)
    (hdoes : Does cfg idle x a x') (hpi : cfg.priorityInheritance = false) : ArrivalOrder x' := by
  obtain ⟨hdoes, hhistory⟩ := hdoes
  obtain ⟨hlist, hprio⟩ := hdoes.plain hpi
  have hsince : x'.blockedSince = (a.history x).blockedSince := by rw [hhistory]
  have hblockings : x'.blockings = (a.history x).blockings := by rw [hhistory]
  cases a with
  | arrive sem t => exact h.of_arrive hsound hdoes.enabled.2 hlist hprio hsince hblockings
  | grant sem t | leave sem t =>
    exact h.of_sublist (hlist ▸ erase_sublist) hprio hsince hblockings
  | _ => exact h.of_sublist (by rw [hlist]; exact List.Sublist.refl _) hprio hsince hblockings

/-! ### Counting and waking -/

/-- The task is blocked on the semaphore. -/
def BlockedOn (x : System τ κ) (sem : κ) (t : τ) : Prop :=
  x.taskState t = .waitSem ∧ x.waitsem t = some sem

instance (x : System τ κ) : Decidable (BlockedOn x sem t) :=
  inferInstanceAs (Decidable (_ ∧ _))

/-- The post from `x` to `x'` wakes the task, and no other, by its priority and, without priority
inheritance, by the time of its wait. -/
structure Wakes (cfg : Config) (x : System τ κ) (sem : κ) (t : τ) (x' : System τ κ) : Prop where
  waited : BlockedOn x sem t
  woken : (x'.taskState t).isBlocked = false
  others : ∀ u, u ≠ t → BlockedOn x sem u → BlockedOn x' sem u
  highest : ∀ u, BlockedOn x sem u → x.schedPriority u ≤ x.schedPriority t
  longest : cfg.priorityInheritance = false → ∀ u, u ≠ t → BlockedOn x sem u →
    x.schedPriority u = x.schedPriority t → x.blockedSince t < x.blockedSince u

omit [DecidableEq τ] in
theorem blockedOn_iff (h : Sound idle x.toSched) : BlockedOn x sem t ↔ t ∈ x.waiters sem := by
  rw [mem_waiters, h.mem_waiting_iff]
  rfl

omit [DecidableEq τ] in
theorem pairwise_head {R : τ → τ → Prop} {u : τ} (hR : (x.lists .waitingForSemaphore).Pairwise R)
    (ht : x.firstWaiter sem = some t) (hu : u ∈ x.waiters sem) (hne : u ≠ t) : R t u := by
  rw [firstWaiter_eq_head?] at ht
  obtain ⟨ts, hts⟩ := head?_eq_some_iff.mp ht
  have hpair : (x.waiters sem).Pairwise R := hR.filter _
  rw [hts] at hpair hu
  exact (pairwise_cons.mp hpair).1 u ((mem_cons.mp hu).resolve_left hne)

theorem exists_wakes {interrupt : Bool} {r : τ} (h : x.toKernel.InOrder idle)
    (horder : cfg.priorityInheritance = false → ArrivalOrder x)
    (hr : (if interrupt then x.readyHead else x.caller) = some r)
    (hlock : cfg.priorityInheritance = true → interrupt = false →
      x.lockcount r < Sched.maxLockCount) (hblocked : ∃ t, BlockedOn x sem t) :
    ∃ x' t, x.step cfg (.post interrupt sem) = some x' ∧ Wakes cfg x sem t x' := by
  obtain ⟨t₀, ht₀⟩ := hblocked
  have hne : x.waiters sem ≠ [] := ne_nil_of_mem ((blockedOn_iff h.sound).mp ht₀)
  obtain ⟨t, ts, hts⟩ := exists_cons_of_ne_nil hne
  have hfirst : x.firstWaiter sem = some t := by
    rw [firstWaiter_eq_head?, hts]
    rfl
  have hneg := (h.negative sem).mpr hne
  have hhead : x.readyHead = some r := by
    cases interrupt with
    | true => exact hr
    | false => exact readyHead_of_caller hr
  obtain ⟨k₁, hk₁⟩ := exists_release cfg sem hhead hlock
  obtain ⟨k', hk', hdoes, hwoken⟩ :=
    does_post h hk₁ (by rw [valueMax]; omega)
  have hact : postAct sem x.toKernel = .grant sem t := by
    rw [postAct, hfirst]
  rw [hact] at hdoes
  have hmem : t ∈ x.waiters sem := by rw [hts]; exact mem_cons_self
  refine ⟨⟨k', x.afterPost sem (x.firstWaiter sem)⟩, t, ?_, (blockedOn_iff h.sound).mpr hmem,
    hwoken t hfirst, fun u hut hu => ?_, fun u hu => ?_, fun hpi u hut hu heq => ?_⟩
  · rw [step, hr]
    exact Option.map_eq_some_iff.mpr ⟨_, hk', rfl⟩
  · rw [blockedOn_iff h.sound] at hu
    refine (blockedOn_iff hdoes.sound).mpr ?_
    rw [(hdoes.waiters_of_departs h.sound rfl).mem_iff]
    exact (mem_erase_of_ne hut).mpr hu
  · by_cases hut : u = t
    · rw [hut]
    · have hsorted : PrioList.Sorted x.schedPriority (x.lists .waitingForSemaphore) :=
        h.sound.consistent.sorted _ rfl
      exact pairwise_head (R := fun t u => x.schedPriority u ≤ x.schedPriority t) hsorted hfirst
        ((blockedOn_iff h.sound).mp hu) hut
  · exact pairwise_head (horder hpi).order hfirst ((blockedOn_iff h.sound).mp hu) hut heq.symm

/-- Four tasks at boot, with one semaphore of the count 1: the idle task `0`, a task of
priority 5 and two tasks of priority 10. -/
def fourTasks : System (Fin 4) Unit where
  schedPriority := fun t => if t = 0 then 0 else if t = 1 then 5 else 10
  taskState := fun t => if t = 0 then .running else .inactive
  lockcount := fun _ => 0
  roundRobin := fun _ => false
  timeslice := fun _ => 0
  lists := fun L => match L with
    | .readyToRun => [0]
    | .inactiveTasks => [1, 2, 3]
    | _ => []
  semcount := fun _ => 1
  holders := fun _ => []
  waitsem := fun _ => none
  errno := fun _ => none
  basePriority := fun t => if t = 0 then 0 else if t = 1 then 5 else 10
  pendReprios := fun _ => []
  rest := fun _ => .nothing
  posts := fun _ => 0
  acquisitions := fun _ => 0
  blockings := 0
  blockedSince := fun _ => 0
  blockedPriority := fun _ => 0
  blockedHolders := fun _ => []

theorem fourTasks_booted : Booted 0 fourTasks where
  boot :=
    { ready := rfl
      running := rfl
      idlePriority := rfl
      inactive := by decide
      mem_inactive := by decide
      nodup := by decide
      empty := by
        intro L hr hi
        cases L <;> first | rfl | exact absurd rfl hr | exact absurd rfl hi }
  semcount := by decide
  waitsem := fun _ => rfl
  holders := fun _ => rfl
  rest := fun _ => rfl
  posts := fun _ => rfl
  acquisitions := fun _ => rfl
  basePriority := rfl
  pendReprios := fun _ => rfl

end System

end GreenboneFeeder.Sem
