import GreenboneFeeder.Sem.Inheritance

/-!
# The holders of a semaphore and their records

The record of a task has room for `CONFIG_SEM_NNESTPRIO` pending priorities, but one of the two
places of `sem_boostholderprio` that record a priority does not look whether there is room. A wait
that blocks adds at most one priority to the record of each holder, so no record is overrun as long
as not more waits follow each other before it is empty again (`Sem.System.records_fit`).

The count of a holder should be the number of its waits less the number of its posts. It is as long
as no `sem_trywait` succeeds, tasks post what they hold only, no interrupt handler posts what the
interrupted task holds, and no count leaves the range of an `int16_t`
(`Sem.System.holder_counts`).

Everything else leaves the counts alone and lets no record grow (`Sem.Kernel.Settles`).
-/

namespace GreenboneFeeder.Sem

open Function Option Kernel Run

namespace Kernel

variable {τ κ : Type} [DecidableEq τ] {t : τ} {sem : κ} {cfg : Config} {k k' k'' : Kernel τ κ}
  {stcb : Option τ}

/-! ### Counts and records -/

/-- The count of the task as a holder of the semaphore: `0` if it is not listed. -/
def held (k : Kernel τ κ) (sem : κ) (t : τ) : ℤ :=
  ((k.holders sem).find? (·.htcb = t)).elim 0 Holder.counts

/-- No task is listed twice, and no count is negative. -/
def Counted (k : Kernel τ κ) : Prop :=
  ∀ sem, (k.holderTasks sem).Nodup ∧ ∀ t, 0 ≤ k.held sem t

/-- **The rest of a call**: no count changes, and no record grows. -/
structure Settles (k k' : Kernel τ κ) : Prop where
  pend : ∀ t, (k'.pendReprios t).length ≤ (k.pendReprios t).length
  listed : ∀ sem, (k'.holderTasks sem).Sublist (k.holderTasks sem)
  counts : k.Counted → k'.Counted ∧ k'.held = k.held

theorem Settles.of_holders (hholders : k'.holders = k.holders)
    (hpend : ∀ t, (k'.pendReprios t).length ≤ (k.pendReprios t).length) : Settles k k' := by
  have hheld : k'.held = k.held := by
    funext sem t
    rw [held, held, hholders]
  have hlisted : k'.holderTasks = k.holderTasks := by
    funext sem
    rw [holderTasks, holderTasks, hholders]
  refine ⟨hpend, fun sem => by rw [hlisted], fun h => ⟨fun sem => ?_, hheld⟩⟩
  rw [hlisted, hheld]
  exact h sem

theorem Settles.refl (k : Kernel τ κ) : Settles k k := .of_holders rfl fun _ => le_rfl

theorem Settles.trans (h : Settles k k') (h' : Settles k' k'') : Settles k k'' :=
  ⟨fun t => (h'.pend t).trans (h.pend t), fun sem => (h'.listed sem).trans (h.listed sem),
    fun hk =>
    ⟨(h'.counts (h.counts hk).1).1, (h'.counts (h.counts hk).1).2.trans (h.counts hk).2⟩⟩

theorem settles_onSched {f : Sched τ → Option (Sched τ)} (hs : k.onSched f = some k') :
    Settles k k' := by
  obtain ⟨s, -, rfl⟩ := map_eq_some_iff.mp hs
  exact .of_holders rfl fun _ => le_rfl

theorem settles_setPend {l : List ℕ} (hl : l.length ≤ (k.pendReprios t).length) :
    Settles k (k.setPend t l) := by
  refine .of_holders rfl fun u => ?_
  rw [setPend_pendReprios, update_apply]
  split
  · next heq => rwa [heq]
  · exact le_rfl

theorem settles_restoreHolderPrio {interrupt : Bool} {stcb htcb : τ}
    (hs : k.restoreHolderPrio cfg interrupt stcb htcb = some k') : Settles k k' := by
  have hremove : ∀ j, (removeAt (k.pendReprios htcb) j).length ≤ (k.pendReprios htcb).length := by
    simp [removeAt]
  rw [restoreHolderPrio] at hs
  dsimp only at hs
  split_ifs at hs
  · exact some.inj hs ▸ .refl k
  · obtain ⟨⟨s, ok⟩, -, hs⟩ := bind_eq_some_iff.mp hs
    dsimp only at hs
    split_ifs at hs
    · cases hs
      exact (settles_setPend (Nat.zero_le _)).trans (.of_holders rfl fun _ => le_rfl)
    · cases hs
      exact .of_holders rfl fun _ => le_rfl
  · exact (settles_setPend (hremove _)).trans (settles_onSched hs)
  · exact some.inj hs ▸ settles_setPend (hremove _)
  · exact some.inj hs ▸ .refl k

theorem settles_forEachHolder {handler : τ → Kernel τ κ → Option (Kernel τ κ)}
    (hhandler : ∀ {h k k'}, handler h k = some k' → Settles k k')
    (hs : k.forEachHolder sem handler = some k') : Settles k k' :=
  invariant (fun _ _ _ hk hs => hk.trans (hhandler hs)) (k.holders sem)
    (.refl k) hs

theorem settles_wake (hs : k.wake cfg stcb = some k') : Settles k k' := by
  cases stcb with
  | none => exact some.inj hs ▸ .refl k
  | some stcb => exact { settles_onSched hs with }

theorem settles_restorePasses (hs : k.restorePasses cfg stcb sem = some k') :
    Settles k k' := by
  cases stcb with
  | none => exact some.inj hs ▸ .refl k
  | some stcb =>
    obtain ⟨k₁, hk₁, hs⟩ := bind_eq_some_iff.mp hs
    refine (settles_forEachHolder (fun {h k k'} hs => ?_) hk₁).trans ?_
    · rw [restoreHolderPrioA] at hs
      split at hs
      · exact some.inj hs ▸ .refl k
      · exact settles_restoreHolderPrio hs
    · rw [restoreHolderPrioB] at hs
      split at hs
      · exact some.inj hs ▸ .refl k₁
      · exact settles_restoreHolderPrio hs

/-! ### Boosts -/

/-- A boost adds at most one priority, and to the record of the holder only. -/
theorem boostHolderPrio_pend {htcb : τ} (hs : k.boostHolderPrio cfg t htcb = some k') :
    k'.holders = k.holders ∧ ∀ u, (k'.pendReprios u).length ≤
      (k.pendReprios u).length + if u = htcb then 1 else 0 := by
  have hsched : ∀ {k₁ : Kernel τ κ} {p : ℕ}, k₁.setPriority htcb p = some k' →
      k'.holders = k₁.holders ∧ k'.pendReprios = k₁.pendReprios := by
    intro k₁ p hs
    obtain ⟨s, -, rfl⟩ := map_eq_some_iff.mp hs
    exact ⟨rfl, rfl⟩
  have hsnoc : ∀ q u, ((k.setPend htcb (k.pendReprios htcb ++ [q])).pendReprios u).length ≤
      (k.pendReprios u).length + if u = htcb then 1 else 0 := by
    intro q u
    by_cases hu : u = htcb
    · subst hu
      simp
    · simp [hu]
  rw [boostHolderPrio] at hs
  dsimp only at hs
  split_ifs at hs
  · exact ⟨(hsched hs).1, fun u => by rw [(hsched hs).2]; omega⟩
  · exact some.inj hs ▸ ⟨rfl, fun u => Nat.le_add_right _ _⟩
  · exact ⟨(hsched hs).1, fun u => by rw [(hsched hs).2]; exact hsnoc _ u⟩
  · exact ⟨(hsched hs).1, fun u => by rw [(hsched hs).2]; omega⟩
  · exact some.inj hs ▸ ⟨rfl, hsnoc _⟩
  · exact some.inj hs ▸ ⟨rfl, fun u => Nat.le_add_right _ _⟩

/-- The loop over the holders adds to a record as often as the task is listed. -/
theorem foldlM_boost_pend (l : List (Holder τ)) :
    ∀ {k : Kernel τ κ}, l.foldlM (fun k h => k.boostHolderPrio cfg t h.htcb) k = some k' →
      k'.holders = k.holders ∧ ∀ u, (k'.pendReprios u).length ≤
        (k.pendReprios u).length + (l.map Holder.htcb).count u := by
  induction l with
  | nil =>
    intro k hs
    cases hs
    exact ⟨rfl, fun u => Nat.le_add_right _ _⟩
  | cons h l ih =>
    intro k hs
    obtain ⟨k₁, hk₁, hs⟩ := bind_eq_some_iff.mp hs
    obtain ⟨hholders₁, hpend₁⟩ := boostHolderPrio_pend hk₁
    obtain ⟨hholders, hpend⟩ := ih hs
    refine ⟨hholders.trans hholders₁, fun u => (hpend u).trans ?_⟩
    have hu := hpend₁ u
    rw [List.map_cons, List.count_cons]
    by_cases heq : u = h.htcb
    · subst heq
      simp only [if_true, beq_self_eq_true] at hu ⊢
      omega
    · simp only [heq, if_false, beq_iff_eq, Ne.symm heq] at hu ⊢
      omega

theorem find?_map_htcb (l : List (Holder τ)) {f : Holder τ → Holder τ}
    (hf : ∀ h, (f h).htcb = h.htcb) (u : τ) :
    (l.map f).find? (·.htcb = u) = (l.find? (·.htcb = u)).map f := by
  rw [List.find?_map]
  have hcomp : (fun h : Holder τ => decide (h.htcb = u)) ∘ f = fun h => decide (h.htcb = u) :=
    funext fun h => by rw [Function.comp_apply, hf]
  rw [hcomp]

section Counts

variable [DecidableEq κ]

theorem held_addHolder (hk : 0 ≤ k.held sem t) (hmax : k.held sem t < valueMax) (sem' : κ)
    (u : τ) :
    (k.addHolder sem t).held sem' u = k.held sem' u + if sem' = sem ∧ u = t then 1 else 0 := by
  have hwrap : ∀ h : Holder τ, (k.holders sem).find? (·.htcb = t) = some h →
      Words.int16 (h.counts + 1) = h.counts + 1 := by
    intro h hfind
    rw [held, hfind] at hk hmax
    change 0 ≤ h.counts at hk
    change h.counts < 0x7fff at hmax
    exact Words.int16_of_lt (by omega) (by omega)
  by_cases hsem : sem' = sem
  · subst hsem
    simp only [held, addHolder, setHolders_holders, update_self, true_and]
    split
    · next hany =>
      rw [find?_map_htcb _ (by intro h; split <;> rfl)]
      cases hfind : (k.holders sem').find? (·.htcb = u) with
      | none => grind
      | some h =>
        have hh : h.htcb = u := by simpa using List.find?_some hfind
        by_cases hu : u = t
        · subst hu
          simp [hh, hwrap h hfind]
        · simp [hh, hu]
    · cases hfind : (k.holders sem').find? (·.htcb = u) <;> grind
  · simp [held, addHolder, hsem]

theorem held_releaseHolder (sem' : κ) (u : τ) :
    (k.releaseHolder sem t).held sem' u =
      k.held sem' u - if sem' = sem ∧ u = t ∧ 0 < k.held sem t then 1 else 0 := by
  by_cases hsem : sem' = sem
  · subst hsem
    simp only [held, releaseHolder, setHolders_holders, update_self, true_and]
    rw [find?_map_htcb _ (by intro h; split <;> rfl)]
    cases hfind : (k.holders sem').find? (·.htcb = u) <;> grind
  · simp [held, releaseHolder, hsem]

theorem held_freeHolder (hk : k.Counted) (sem' : κ) (u : τ) :
    (k.freeHolder sem t).held sem' u = k.held sem' u := by
  have herase : ∀ l : List (Holder τ), (l.map Holder.htcb).Nodup →
      (l.find? (·.htcb = t)).elim 0 Holder.counts = 0 →
      ((l.eraseP (·.htcb = t)).find? (·.htcb = u)).elim 0 Holder.counts =
        (l.find? (·.htcb = u)).elim 0 Holder.counts := by
    intro l hnodup hzero
    induction l with
    | nil => rfl
    | cons h l ih =>
      obtain ⟨hnew, hnodup⟩ := List.nodup_cons.mp hnodup
      by_cases hht : h.htcb = t
      · have hnone : l.find? (·.htcb = t) = none := by
          rw [List.find?_eq_none]
          intro h' hh' hc
          exact hnew (by rw [hht, ← of_decide_eq_true hc]; exact List.mem_map_of_mem hh')
        grind
      · grind
  rw [freeHolder]
  split
  · rfl
  · next p hp =>
    split
    · next hle =>
      by_cases hsem : sem' = sem
      · subst hsem
        have hnonneg := (hk sem').2 t
        have hzero : k.held sem' t = 0 := by
          rw [held, hp] at hnonneg ⊢
          exact le_antisymm hle hnonneg
        simpa [held] using herase _ (hk sem').1 hzero
      · simp [held, hsem]
    · rfl

theorem settles_freeHolder : Settles k (k.freeHolder sem t) := by
  refine ⟨fun u => ?_, fun _ => holderTasks_freeHolder_sublist, fun hk => ?_⟩
  · exact (congrArg (List.length ∘ Record.pend) (congrFun (freeHolder_frame k sem t).2.2.2.2 u)).le
  · have hheld : (k.freeHolder sem t).held = k.held := by
      funext sem' u
      exact held_freeHolder hk sem' u
    refine ⟨fun sem' => ⟨(hk sem').1.sublist holderTasks_freeHolder_sublist, ?_⟩, hheld⟩
    rw [hheld]
    exact (hk sem').2

theorem counted_addHolder (hk : k.Counted) (hmax : k.held sem t < valueMax) :
    (k.addHolder sem t).Counted := by
  refine fun sem' => ⟨nodup_addHolder (hk sem').1, fun u => ?_⟩
  have hnonneg := (hk sem').2 u
  rw [held_addHolder ((hk sem).2 t) hmax]
  split <;> omega

theorem counted_releaseHolder (hk : k.Counted) : (k.releaseHolder sem t).Counted := by
  refine fun sem' => ⟨by rw [holderTasks_releaseHolder]; exact (hk sem').1, fun u => ?_⟩
  have hnonneg := (hk sem').2 u
  rw [held_releaseHolder]
  split
  · next h => obtain ⟨rfl, rfl, hpos⟩ := h; omega
  · omega

/-! ### The calls -/

variable (hpi : cfg.priorityInheritance = true)

include hpi

theorem settles_take :
    Settles (k.addHolder sem t) (k.take cfg sem t) := by
  rw [take, if_pos hpi]
  exact .of_holders rfl fun _ => le_rfl

omit hpi in
theorem settles_endPost (hs : k.endPost cfg sem t = some k') : Settles k k' :=
  settles_freeHolder.trans (settles_onSched hs)

theorem settles_semPost {interrupt : Bool}
    (hs : k.semPost cfg interrupt sem t = some (k', stcb)) :
    Settles (k.releaseHolder sem t) k' := by
  rw [semPost] at hs
  split at hs
  swap
  · cases hs
  obtain ⟨k₁, hrelease, hs⟩ := bind_eq_some_iff.mp hs
  obtain ⟨k₂, hwake, hs⟩ := bind_eq_some_iff.mp hs
  obtain ⟨k₃, hrestore, hs⟩ := bind_eq_some_iff.mp hs
  cases hs
  rw [inheriting, if_pos hpi] at hrestore
  have h₁ : Settles (k.releaseHolder sem t) k₁ := by
    rw [release, inheriting, if_pos hpi, if_pos hpi] at hrelease
    exact { settles_onSched hrelease with }
  refine (h₁.trans (settles_wake hwake)).trans ?_
  rw [restoreBaseprio] at hrestore
  split at hrestore
  · rw [restoreBaseprioIrq.eq_def] at hrestore
    split at hrestore
    · exact some.inj hrestore ▸ .refl k₂
    · exact settles_forEachHolder settles_restoreHolderPrio hrestore
  · obtain ⟨r, -, hrestore⟩ := bind_eq_some_iff.mp hrestore
    obtain ⟨k₄, hpasses, hrestore⟩ := bind_eq_some_iff.mp hrestore
    refine (settles_restorePasses hpasses).trans ?_
    split at hrestore
    · exact settles_endPost hrestore
    · exact some.inj hrestore ▸ .of_holders rfl fun _ => le_rfl

theorem settles_resume (hs : k.resume cfg t = some k') :
    Settles (match k.rest t with | .wait sem => k.holdIfGranted sem t | _ => k) k' := by
  rw [resume] at hs
  split at hs
  · cases hs
  · next sem hrest =>
    rw [inheriting, if_pos hpi] at hs
    have h := settles_onSched hs
    simp only [hrest, holdIfGranted, setRest_errno] at h ⊢
    split_ifs at h ⊢ <;> exact { h with }
  · next sem discard hrest =>
    simp only [hrest]
    cases discard with
    | false => exact { settles_endPost hs with }
    | true =>
      have hrun : Settles ((k.setRest t .nothing).setPend t []) k' := settles_endPost hs
      have hpend : Settles (k.setRest t .nothing) ((k.setRest t .nothing).setPend t []) :=
        settles_setPend (Nat.zero_le _)
      exact { hpend.trans hrun with }

omit hpi in
theorem settles_cancelWait {interrupt : Bool}
    (hs : k.cancelWait cfg t interrupt sem = some k') : Settles k k' := by
  obtain ⟨k₁, hk₁, hs⟩ := bind_eq_some_iff.mp hs
  obtain ⟨-, hs⟩ := ite_none_right_eq_some.mp hs
  cases hs
  have h₁ : Settles k k₁ := by
    rw [inheriting] at hk₁
    split at hk₁
    · exact settles_forEachHolder settles_restoreHolderPrio hk₁
    · exact some.inj hk₁ ▸ .refl k
  exact h₁.trans (.of_holders rfl fun _ => le_rfl)

theorem block_pend (hs : k.block cfg sem t = some k') :
    k'.holders = k.holders ∧ ∀ u, (k'.pendReprios u).length ≤
      (k.pendReprios u).length + (k.holderTasks sem).count u := by
  obtain ⟨k₁, hboost, hs⟩ := bind_eq_some_iff.mp hs
  rw [inheriting, if_pos hpi] at hboost
  obtain ⟨k₀, hlock, hboost⟩ := bind_eq_some_iff.mp hboost
  obtain ⟨s₀, -, rfl⟩ := map_eq_some_iff.mp hlock
  obtain ⟨s₁, -, rfl⟩ := map_eq_some_iff.mp hs
  have hloop := foldlM_boost_pend _ hboost
  exact hloop

omit hpi

end Counts

end Kernel

namespace System

variable {τ κ : Type} [DecidableEq τ] [DecidableEq κ] {cfg : Config} {x x' : System τ κ}
  {e : Event τ κ} {k' : Kernel τ κ}

/-- What the event adds to the difference of the completed waits of a task and its posts. -/
def earned (x : System τ κ) (e : Event τ κ) (sem : κ) (t : τ) : ℤ :=
  if x.readyHead = some t then
    match e with
    | .wait sem' => if sem = sem' ∧ 0 < x.semcount sem' then 1 else 0
    | .trywait sem' => if sem = sem' ∧ 0 < x.semcount sem' then 1 else 0
    | .post false sem' => if sem = sem' then -1 else 0
    | .resume => if x.rest t = .wait sem ∧ x.errno t = none then 1 else 0
    | _ => 0
  else 0

/-- **An honest event**: no `sem_trywait` that succeeds, a task posts what it holds, an interrupt
handler what the interrupted task does not hold, and no task takes a count when its own is at the
maximum of an `int16_t`. -/
def honest (x : System τ κ) : Event τ κ → Bool
  | .wait sem => x.readyHead.all fun t => 0 < x.semcount sem → x.held sem t < valueMax
  | .trywait sem => x.semcount sem ≤ 0
  | .post interrupt sem => x.readyHead.all fun t => 0 < x.held sem t ↔ interrupt = false
  | .resume => x.readyHead.all fun t => match x.rest t with
      | .wait sem => x.errno t = none → x.held sem t < valueMax
      | _ => true
  | _ => true

/-- The event is a wait that blocks on a semaphore of which the task is recorded as a holder. -/
def strains (x : System τ κ) (e : Event τ κ) (h : τ) : Bool :=
  match e with
  | .wait sem => x.semcount sem ≤ 0 ∧ h ∈ x.holderTasks sem
  | _ => false

/-- No task is recorded twice as a holder of a semaphore. -/
def Listed (k : Kernel τ κ) : Prop := ∀ sem, (k.holderTasks sem).Nodup

/-- **What a step does** to the counts and to the records. -/
structure Books (x : System τ κ) (e : Event τ κ) (k' : Kernel τ κ) : Prop where
  counts : x.honest e = true → x.Counted →
    k'.Counted ∧ ∀ sem t, k'.held sem t = x.held sem t + x.earned e sem t
  listed : Listed x.toKernel → Listed k'
  pend : Listed x.toKernel → ∀ t, (k'.pendReprios t).length ≤
    (x.pendReprios t).length + if x.strains e t then 1 else 0

theorem Books.of_settles {k₀ : Kernel τ κ} (h : k₀.Settles k')
    (hpend : k₀.pendReprios = x.pendReprios) (hlisted : Listed x.toKernel → Listed k₀)
    (hcounts : x.honest e = true → x.Counted →
      k₀.Counted ∧ ∀ sem t, k₀.held sem t = x.held sem t + x.earned e sem t) :
    Books x e k' := by
  refine ⟨fun he hk => ?_, fun hl sem => (hlisted hl sem).sublist (h.listed sem),
    fun _ t => (h.pend t).trans (by rw [hpend]; omega)⟩
  obtain ⟨hcounted, hheld⟩ := hcounts he hk
  refine ⟨(h.counts hcounted).1, fun sem t => ?_⟩
  rw [(h.counts hcounted).2, hheld]

theorem Books.of_quiet (h : x.toKernel.Settles k')
    (he : x.honest e = true → ∀ sem t, x.earned e sem t = 0) : Books x e k' :=
  of_settles h rfl id fun hx hk => ⟨hk, fun sem t => by rw [he hx, add_zero]⟩

/-- The task goes on with the semaphore. -/
theorem books_take (hpi : cfg.priorityInheritance = true) {sem : κ} {t : τ}
    (hr : x.readyHead = some t) (hpos : 0 < x.semcount sem) :
    Books x (.wait sem) (x.take cfg sem t) := by
  refine .of_settles (settles_take hpi) rfl (fun hl _ => nodup_addHolder (hl _)) fun he hk => ?_
  simp only [honest, hr, all_some, hpos, forall_const, decide_eq_true_iff] at he
  refine ⟨counted_addHolder hk he, fun sem' u => ?_⟩
  rw [held_addHolder ((hk sem).2 t) he, earned]
  grind

/-- The task waits, and adds to the record of each holder at most once. -/
theorem books_block (hpi : cfg.priorityInheritance = true) {sem : κ} {t : τ}
    (hpos : ¬0 < x.semcount sem) (hblock : x.block cfg sem t = some k') :
    Books x (.wait sem) k' := by
  obtain ⟨hholders, hpend⟩ := block_pend hpi hblock
  have hlisted : k'.holderTasks = x.holderTasks := by
    funext sem'
    rw [holderTasks, holderTasks, hholders]
  have hheld : k'.held = x.held := by
    funext sem' u
    rw [held, held, hholders]
  refine ⟨fun _ hk => ⟨fun sem' => ?_, fun sem' u => ?_⟩, fun hl => ?_, fun hl u => ?_⟩
  · rw [hlisted, hheld]
    exact hk sem'
  · rw [hheld, earned]
    simp [hpos]
  · rw [Listed, hlisted]
    exact hl
  · refine (hpend u).trans (Nat.add_le_add_left ?_ _)
    by_cases hu : u ∈ x.holderTasks sem
    · simp only [strains, Int.not_lt.mp hpos, hu, and_self, decide_true, if_true]
      exact List.nodup_iff_count_le_one.mp (hl sem) u
    · rw [List.count_eq_zero_of_not_mem hu]
      exact Nat.zero_le _

theorem books_post (hpi : cfg.priorityInheritance = true) {interrupt : Bool} {sem : κ} {t : τ}
    {stcb : Option τ} (hcaller : (if interrupt then x.readyHead else x.caller) = some t)
    (hpost : x.semPost cfg interrupt sem t = some (k', stcb)) :
    Books x (.post interrupt sem) k' := by
  have hr : x.readyHead = some t := by
    cases interrupt with
    | true => exact hcaller
    | false => exact readyHead_of_caller hcaller
  refine .of_settles (settles_semPost hpi hpost) rfl
    (fun hl => by rw [Listed, holderTasks_releaseHolder]; exact hl)
    fun he hk => ⟨counted_releaseHolder hk, fun sem' u => ?_⟩
  simp only [honest, hr, all_some, decide_eq_true_iff] at he
  rw [held_releaseHolder]
  cases interrupt <;> simp only [earned, hr, some_inj] <;> grind

/-- A task that goes on behind `up_block_task` becomes a holder if it was given the count. -/
theorem books_resume (hpi : cfg.priorityInheritance = true) {t : τ} (hr : x.readyHead = some t)
    (hresume : x.resume cfg t = some k') : Books x .resume k' := by
  have hmax : ∀ {sem}, x.honest .resume = true → x.rest t = .wait sem → x.errno t = none →
      x.held sem t < valueMax := by
    intro sem he hrest herrno
    simpa [honest, hr, hrest, herrno] using he
  refine .of_settles (settles_resume hpi hresume) ?_ (fun hl => ?_) fun he hk => ?_
  · split
    · rw [holdIfGranted]
      split <;> rfl
    · rfl
  · split
    · rw [holdIfGranted]
      split
      · exact fun _ => nodup_addHolder (hl _)
      · exact hl
    · exact hl
  · simp only [earned]
    split
    · next sem hrest =>
      rw [holdIfGranted]
      split
      · next herrno =>
        have hlt := hmax he hrest herrno
        refine ⟨counted_addHolder hk hlt, fun sem' u => ?_⟩
        rw [held_addHolder ((hk sem).2 t) hlt]
        grind
      · exact ⟨hk, by grind⟩
    · exact ⟨hk, by grind⟩

/-- **Every step keeps the books.** -/
theorem step_books (hpi : cfg.priorityInheritance = true) (hs : x.step cfg e = some x') :
    Books x e x'.toKernel := by
  cases e with
  | wait sem =>
    obtain ⟨t, hcaller, hs⟩ := bind_eq_some_iff.mp hs
    obtain ⟨⟨k', ok⟩, hwait, rfl⟩ := map_eq_some_iff.mp hs
    rw [semWait] at hwait
    split at hwait
    · next hpos =>
      cases hwait
      exact books_take hpi (readyHead_of_caller hcaller) hpos
    · next hpos =>
      split at hwait
      · obtain ⟨k'', hblock, heq⟩ := map_eq_some_iff.mp hwait
        cases heq
        exact books_block hpi hpos hblock
      · cases hwait
  | trywait sem =>
    obtain ⟨t, hcaller, rfl⟩ := map_eq_some_iff.mp hs
    refine .of_quiet ?_ fun he sem' u => ?_
    · dsimp only [semTrywait]
      split <;> exact .of_holders rfl fun _ => le_rfl
    · simp [earned, Int.not_lt.mpr (of_decide_eq_true he)]
  | post interrupt sem =>
    obtain ⟨t, hcaller, hs⟩ := bind_eq_some_iff.mp hs
    obtain ⟨⟨k', stcb⟩, hpost, rfl⟩ := map_eq_some_iff.mp hs
    exact books_post hpi hcaller hpost
  | waitirq interrupt t errcode =>
    obtain ⟨k', hirq, rfl⟩ := map_eq_some_iff.mp hs
    refine .of_quiet ?_ fun _ _ _ => by simp [earned]
    rw [semWaitirq] at hirq
    split at hirq
    · split at hirq
      · cases hirq
      · obtain ⟨k₁, hcancel, hunblock⟩ := bind_eq_some_iff.mp hirq
        have h := settles_onSched hunblock
        exact (settles_cancelWait hcancel).trans { h with }
    · exact some.inj hirq ▸ .refl _
  | recover interrupt t =>
    obtain ⟨k', hrecover, rfl⟩ := map_eq_some_iff.mp hs
    refine .of_quiet ?_ fun _ _ _ => by simp [earned]
    rw [semRecover] at hrecover
    split at hrecover
    · split at hrecover
      · cases hrecover
      · exact settles_cancelWait hrecover
    · exact some.inj hrecover ▸ .refl _
  | resume =>
    obtain ⟨t, hr, hs⟩ := bind_eq_some_iff.mp hs
    obtain ⟨k', hresume, rfl⟩ := map_eq_some_iff.mp hs
    exact books_resume hpi hr hresume
  | sched op =>
    rw [step] at hs
    split at hs
    · obtain ⟨k', hk', rfl⟩ := map_eq_some_iff.mp hs
      exact .of_quiet (settles_onSched hk') fun _ _ _ => by simp [earned]
    · cases hs

/-! ### Runs -/

/-- A step, with the number of the waits that may have added to the record of each task since it
was last empty. -/
def strained (cfg : Config) (s : System τ κ × (τ → ℕ)) (e : Event τ κ) :
    Option (System τ κ × (τ → ℕ)) :=
  (s.1.step cfg e).map fun x => (x, fun h =>
    if x.pendReprios h = [] then 0 else s.2 h + if s.1.strains e h then 1 else 0)

/-- **No record is overrun** in the runs in which less than `CONFIG_SEM_NNESTPRIO` waits on the
semaphores of a holder have blocked since its record was last empty, whenever another one does. -/
theorem records_fit (hcfg : cfg.Inherits) (idle : τ) (x₀ : System τ κ)
    (s : System τ κ × (τ → ℕ)) (es : List (Event τ κ)) (hboot : Booted idle x₀)
    (hsteps : Run.AllSteps (strained cfg)
      (fun s e => ∀ h, s.1.strains e h = true → s.2 h < cfg.nnestprio) (x₀, 0) es)
    (hrun : run (strained cfg) (x₀, 0) es = some s) (t : τ) :
    (s.1.pendReprios t).length ≤ cfg.nnestprio := by
  obtain ⟨-, hinv⟩ := invariant_of_allSteps (P := fun s => Listed s.1.toKernel ∧
      ∀ t, (s.1.pendReprios t).length ≤ s.2 t ∧ (s.1.pendReprios t).length ≤ cfg.nnestprio) (by
      rintro s e s' ⟨hlisted, hinv⟩ he hs
      obtain ⟨x', hstep, rfl⟩ := map_eq_some_iff.mp hs
      have hbooks := step_books hcfg.priorityInheritance hstep
      refine ⟨hbooks.listed hlisted, fun h => ?_⟩
      have hpend := hbooks.pend hlisted h
      obtain ⟨hle, hfits⟩ := hinv h
      by_cases hnil : x'.pendReprios h = []
      · simp [hnil]
      simp only [hnil, if_false]
      refine ⟨by omega, ?_⟩
      split at hpend
      · next hstrains =>
        have hlt := he h hstrains
        omega
      · omega)
    es ⟨fun sem => by simp [holderTasks, hboot.holders], fun t => by simp [hboot.pendReprios]⟩
    hsteps hrun
  exact (hinv t).2

theorem records_fit_three :
    ∃ s, run (strained ⟨true, 1, 20⟩) (threePriorities, 0) [.sched (.unblock 1), .wait (),
        .sched (.unblock 2), .wait (), .sched (.unblock 3), .wait ()] = some s ∧
      s.1.pendReprios 1 = [10] ∧ (s.1.pendReprios 1).length ≤ 1 :=
  exists_eq_some (by decide) fun s hs h =>
    ⟨h, records_fit ⟨rfl, by decide⟩ 0 threePriorities s _ threePriorities_booted (by decide) hs 1⟩

/-- **A record is overrun.** The task `1` holds the semaphore and is raised by the tasks `2` and
`3`, which fills its record. When it waits for the semaphore itself, its raised priority is recorded
as well. -/
theorem record_overrun :
    Booted 0 threePriorities ∧
      ∃ x, run (step ⟨true, 1, 20⟩) threePriorities [.sched (.unblock 1), .wait (),
          .sched (.unblock 2), .wait (), .sched (.unblock 3), .wait (), .wait ()] = some x ∧
        x.pendReprios 1 = [10, 20] :=
  ⟨threePriorities_booted, exists_eq_some (by decide) fun _ _ h => h⟩

/-- A step, with a tally of the completed waits of each task less its posts. -/
def tallied (cfg : Config) (s : System τ κ × (κ → τ → ℤ)) (e : Event τ κ) :
    Option (System τ κ × (κ → τ → ℤ)) :=
  (s.1.step cfg e).map (·, fun sem t => s.2 sem t + s.1.earned e sem t)

/-- **The counts of the holders are exact** in honest runs, and such a post from an interrupt
handler changes none. -/
theorem holder_counts (hpi : cfg.priorityInheritance = true) (idle : τ) (x₀ : System τ κ)
    (s : System τ κ × (κ → τ → ℤ)) (es : List (Event τ κ)) (hboot : Booted idle x₀)
    (hsteps : Run.AllSteps (tallied cfg) (fun s e => s.1.honest e = true) (x₀, 0) es)
    (hrun : run (tallied cfg) (x₀, 0) es = some s) :
    (∀ sem t, s.1.held sem t = s.2 sem t) ∧
      ∀ sem x', s.1.step cfg (.post true sem) = some x' → s.1.honest (.post true sem) = true →
        x'.held = s.1.held := by
  obtain ⟨hcounted, hheld⟩ := invariant_of_allSteps
    (P := fun s => s.1.Counted ∧ ∀ sem t, s.1.held sem t = s.2 sem t) (by
      rintro s e s' ⟨hcounted, hheld⟩ he hs
      obtain ⟨x', hstep, rfl⟩ := map_eq_some_iff.mp hs
      obtain ⟨hcounted', hheld'⟩ := (step_books hpi hstep).counts he hcounted
      exact ⟨hcounted', fun sem t => by rw [hheld', hheld]⟩)
    es (by
      refine ⟨fun sem => ?_, fun sem t => ?_⟩
      · simp [holderTasks, held, hboot.holders]
      · simp [held, hboot.holders]) hsteps hrun
  refine ⟨hheld, fun sem x' hs he => ?_⟩
  funext sem' t
  rw [((step_books hpi hs).counts he hcounted).2]
  simp [earned]

theorem holder_counts_twice :
    ∃ s, run (tallied ⟨true, 4, 20⟩) (threePriorities, 0) [.sched (.unblock 1), .wait (),
        .sched (.unblock 2), .wait (), .post false (), .resume] = some s ∧
      s.2 () 2 = 1 ∧ s.1.held () 2 = s.2 () 2 :=
  exists_eq_some (by decide) fun s hs h =>
    ⟨h, (holder_counts rfl 0 threePriorities s _ threePriorities_booted (by decide) hs).1 () 2⟩

/-- **Counts that are not exact**: after a `sem_trywait` that succeeds the task is not listed, and a
post from an interrupt handler takes the count of the interrupted task. -/
theorem counts_not_exact :
    Booted 0 threePriorities ∧
      (∃ s, run (tallied ⟨true, 4, 20⟩) (threePriorities, 0)
          [.sched (.unblock 1), .trywait ()] = some s ∧ s.1.held () 1 = 0 ∧ s.2 () 1 = 1) ∧
      ∃ s, run (tallied ⟨true, 4, 20⟩) (threePriorities, 0)
          [.sched (.unblock 1), .wait (), .post true ()] = some s ∧
        s.1.held () 1 = 0 ∧ s.2 () 1 = 1 :=
  ⟨threePriorities_booted, exists_eq_some (by decide) fun _ _ h => h,
    exists_eq_some (by decide) fun _ _ h => h⟩

end System

end GreenboneFeeder.Sem
