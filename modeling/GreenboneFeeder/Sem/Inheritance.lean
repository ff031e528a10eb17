import GreenboneFeeder.Sem.Counting
import GreenboneFeeder.Sem.Records

/-!
# Priority inheritance

While a task waits for a semaphore, the holders should have at least the priority with which it
began to wait. A task that begins to wait sees to that for those that are holders then, and each of
them records the priority. The guarantee is lost in three ways.

* A task that is given a count by a post becomes a holder only when it runs again. The waiters that
  arrive in the meantime do not raise it (`Sem.System.late_holder_not_raised`).
* When a wait ends, each holder is restored as if the waiter had raised it. If it did not, because
  the holder came later, or if its priority has changed since, the holder may lose what another
  waiter gave it.
* A task that gives its raised priority back at the end of a `sem_post` is switched out before it
  discards its record. It discards what the waiters that raise it meanwhile have recorded there.

In the runs in which none of this happens the guarantee holds (`Sem.System.holders_inherit`): the
priorities of the waiters that raised a holder are among those in its record.
-/

namespace GreenboneFeeder.Sem

open Function List Kernel

open Sched (Sound)

/-! ### The records after an act -/

namespace Act

variable {τ κ : Type} [DecidableEq τ] [DecidableEq κ] {cfg : Config} {k : Kernel τ κ} {t : τ}
  {sem : κ} {a : Act τ κ}

/-- The records after the act, with priority inheritance. -/
def records (cfg : Config) (k : Kernel τ κ) : Act τ κ → τ → Record
  | .arrive sem t => mapRecords (k.holderTasks sem)
      (fun _ r => r.boost cfg.nnestprio (k.schedPriority t)) k.record
  | .grant sem t => k.restoredRecords sem (some t)
  | .leave sem t => k.restoredRecords sem (some t)
  | .abandon sem t => k.restoredRecords sem (some t)
  | _ => k.record

omit [DecidableEq κ] in
theorem records_of_departs (ha : a.departs = some (sem, t)) :
    a.records cfg k = k.restoredRecords sem (some t) := by
  cases a with
  | grant sem₀ t₀ | leave sem₀ t₀ | abandon sem₀ t₀ =>
    obtain ⟨rfl, rfl⟩ := Prod.mk.inj (Option.some.inj ha); rfl
  | _ => cases ha

omit [DecidableEq κ] in
/-- A property of records that boosting and restoring keep is kept by every act. -/
theorem forall_records (P : Record → Prop) (u : τ) (h : P (k.record u))
    (hboost : ∀ sem t, a = .arrive sem t →
      P ((k.record u).boost cfg.nnestprio (k.schedPriority t)))
    (hrestore : ∀ sem t, a.departs = some (sem, t) → u ∈ k.holderTasks sem →
      P ((k.record u).restore (k.schedPriority t))) : P (a.records cfg k u) := by
  have hdeparts : ∀ sem t, a.departs = some (sem, t) →
      P (k.restoredRecords sem (some t) u) := by
    intro sem t ha
    dsimp only [restoredRecords, mapRecords]
    split
    · next hu => exact hrestore sem t ha hu
    · exact h
  cases a with
  | arrive sem t =>
    dsimp only [records, mapRecords]
    split
    · exact hboost sem t rfl
    · exact h
  | grant sem t | leave sem t | abandon sem t => exact hdeparts sem t rfl
  | _ => exact h

omit [DecidableEq κ] in
theorem base_records (u : τ) : (a.records cfg k u).base = k.basePriority u :=
  forall_records (fun r => r.base = k.basePriority u) u rfl (fun _ _ _ => Record.base_boost)
    fun _ _ _ _ => Record.base_restore

end Act

namespace System

variable {τ κ : Type} [DecidableEq τ] [DecidableEq κ] {cfg : Config} {idle t h w : τ} {sem : κ}
  {x x' : System τ κ} {a : Act τ κ} {e : Event τ κ} {k' : Kernel τ κ}

/-! ### Careful runs -/

/-- The holder has the priority of the waiter anyway, or was there to be raised by it. -/
def Covers (x : System τ κ) (h w : τ) : Prop :=
  x.blockedPriority w ≤ x.basePriority h ∨ h ∈ x.blockedHolders w

/-- **The end of the wait takes nothing from the holder that others gave it**: the holder is not
raised, or was raised by the waiter to the priority that it still has, or its record has no such
priority. -/
def Undoable (x : System τ κ) (w h : τ) : Prop :=
  x.schedPriority h = x.basePriority h ∨
  (h ∈ x.blockedHolders w ∧ x.basePriority h < x.blockedPriority w ∧
    x.schedPriority w = x.blockedPriority w) ∨
  (x.pendReprios h ≠ [] ∧ x.schedPriority w < x.schedPriority h ∧
    x.schedPriority w ∉ x.pendReprios h)

/-- The wait can end: the waiter is no holder itself, and takes nothing from those that
are. -/
def CanEnd (x : System τ κ) (sem : κ) (w : τ) : Prop :=
  w ∉ x.holderTasks sem ∧ ∀ h ∈ x.holderTasks sem, x.Undoable w h

/-- **A careful event**: a wait ends only when it can, a task that was given a count becomes a
holder only while it covers those that wait, and a task that discards its record has nothing in
it. -/
def Careful (x : System τ κ) : Event τ κ → Prop
  | .post _ sem => ∀ w ∈ x.firstWaiter sem, x.CanEnd sem w
  | .waitirq _ w _ => ∀ sem ∈ x.waitsem w, x.CanEnd sem w
  | .recover _ w => ∀ sem ∈ x.waitsem w, x.CanEnd sem w
  | .resume => ∀ r ∈ x.readyHead, match x.rest r with
      | .nothing => True
      | .wait sem => x.errno r = none → ∀ w ∈ x.waiters sem, x.Covers r w
      | .post _ discard => discard → x.pendReprios r = []
  | _ => True

/-- There is room for the priority of a task that begins to wait in the records of the
holders. -/
def Fits (cfg : Config) (x : System τ κ) : Event τ κ → Prop
  | .wait sem => ∀ t ∈ x.readyHead, x.semcount sem ≤ 0 → ∀ h ∈ x.holderTasks sem,
      x.basePriority h < x.schedPriority t → (x.pendReprios h).length < cfg.nnestprio
  | _ => True

instance (x : System τ κ) (h w : τ) : Decidable (x.Covers h w) :=
  inferInstanceAs (Decidable (_ ∨ _))

instance (x : System τ κ) (w h : τ) : Decidable (x.Undoable w h) :=
  inferInstanceAs (Decidable (_ ∨ _))

instance (x : System τ κ) (sem : κ) (w : τ) : Decidable (x.CanEnd sem w) :=
  inferInstanceAs (Decidable (_ ∧ _))

instance (x : System τ κ) (e : Event τ κ) : Decidable (x.Careful e) :=
  match e with
  | .post _ sem => inferInstanceAs (Decidable (∀ w ∈ x.firstWaiter sem, x.CanEnd sem w))
  | .waitirq _ w _ => inferInstanceAs (Decidable (∀ sem ∈ x.waitsem w, x.CanEnd sem w))
  | .recover _ w => inferInstanceAs (Decidable (∀ sem ∈ x.waitsem w, x.CanEnd sem w))
  | .resume =>
    have : ∀ r, Decidable (match x.rest r with
        | .nothing => True
        | .wait sem => x.errno r = none → ∀ w ∈ x.waiters sem, x.Covers r w
        | .post _ discard => discard → x.pendReprios r = []) := fun r => by
      cases x.rest r <;> infer_instance
    inferInstanceAs (Decidable (∀ r ∈ x.readyHead, _))
  | .wait _ | .trywait _ | .sched _ => isTrue trivial

instance (x : System τ κ) (e : Event τ κ) : Decidable (x.Fits cfg e) :=
  match e with
  | .wait sem => inferInstanceAs (Decidable (∀ t ∈ x.readyHead, x.semcount sem ≤ 0 →
      ∀ h ∈ x.holderTasks sem, x.basePriority h < x.schedPriority t →
        (x.pendReprios h).length < cfg.nnestprio))
  | .post _ _ | .waitirq _ _ _ | .recover _ _ | .resume | .trywait _ | .sched _ => isTrue trivial

/-! ### What a careful step does -/

theorem Change.records (hcfg : cfg.Inherits) (horder : x.toKernel.RecordsInOrder idle)
    (he : x.Allowed idle e) (hcareful : x.Careful e) (hchange : Change cfg x e a k') :
    k'.record = a.records cfg x.toKernel := by
  cases hchange with
  | take hr hpos =>
    rw [Kernel.take]
    cases cfg.priorityInheritance <;> rfl
  | block hr hpos hs => exact block_records hcfg horder (fun hc => he (hc ▸ hr)) hs
  | trywait hr hpos => rfl
  | @post interrupt sem t k₁ k' hr hmax hrelease hs =>
    rw [(post_records hcfg horder hr hmax hrelease (fun t ht => (hcareful t ht).1) hs).1, postAct]
    cases x.firstWaiter sem <;> rfl
  | leave hsem hcancel hs =>
    exact leave_records hcfg horder (hcareful _ hsem).1 hsem hcancel hs
  | abandon hsem hs => exact cancelWait_records hcfg horder (hcareful _ hsem).1 hs
  | @resume t k' hr hs =>
    refine (resume_records hcfg.priorityInheritance horder.inOrder hs).1 fun sem hrest => ?_
    have hempty := hcareful t hr
    rw [hrest] at hempty
    exact hempty rfl
  | sched hforeign hs =>
    obtain ⟨-, hprio, -⟩ := Sched.step_foreign horder.inOrder.sound he hforeign hs
    exact record_withSched hprio
  | nothing => rfl

theorem Change.holders (hcfg : cfg.Inherits) (horder : x.toKernel.RecordsInOrder idle)
    (hcareful : x.Careful e) (hchange : Change cfg x e a k') :
    (∀ sem, (k'.holderTasks sem).Sublist (x.holderTasks sem)) ∨
      ∃ sem₀ r, (∀ sem t, a ≠ .arrive sem t) ∧ (∀ w ∈ x.waiters sem₀, x.Covers r w) ∧
        ∀ sem, (k'.holderTasks sem).Sublist ((x.toKernel.addHolder sem₀ r).holderTasks sem) := by
  have hcancel : ∀ {t : τ} {sem : κ} {interrupt : Bool} {k₁ : Kernel τ κ},
      x.cancelWait cfg t interrupt sem = some k₁ → k₁.holderTasks = x.holderTasks := by
    intro t sem interrupt k₁ hs
    obtain ⟨-, -, -, -, hholders, -, -⟩ := cancelWait_spec horder.inOrder hs
    exact hholders
  cases hchange with
  | @take sem t hr hpos =>
    refine .inr ⟨sem, t, by simp, fun w hw => ?_, fun sem' => ?_⟩
    · -- nobody waits while the count is positive
      have hneg := (horder.inOrder.negative sem).mpr (ne_nil_of_mem hw)
      omega
    · rw [Kernel.take, if_pos hcfg.priorityInheritance]
      exact List.Sublist.refl _
  | @block sem t k' hr hpos hs =>
    obtain ⟨k₁, hk₁, hblock⟩ := Option.bind_eq_some_iff.mp hs
    obtain ⟨hquiet, -⟩ := inheriting_boost
      (k := (x.toKernel.setSemcount sem (x.semcount sem - 1)).setWaitsem t (some sem))
      horder.inOrder.sound (horder.inOrder.holders sem) hk₁
    obtain ⟨s', -, rfl⟩ := Option.map_eq_some_iff.mp hblock
    refine .inl fun sem' => ?_
    have hsame : k₁.holders sem' = x.holders sem' := congrFun hquiet.holders sem'
    show ((k₁.holders sem').map Holder.htcb).Sublist ((x.holders sem').map Holder.htcb)
    rw [hsame]
  | trywait hr hpos => exact .inl fun _ => List.Sublist.refl _
  | post hr hmax hrelease hs =>
    exact .inl (post_records hcfg horder hr hmax hrelease
      (fun t ht => (hcareful t ht).1) hs).2
  | leave hsem hcancel' hs =>
    obtain ⟨s', -, rfl⟩ := Option.map_eq_some_iff.mp hs
    refine .inl fun sem' => ?_
    rw [← hcancel hcancel']
    exact List.Sublist.refl _
  | abandon hsem hs =>
    refine .inl fun sem' => ?_
    rw [hcancel hs]
  | @resume t k' hr hs =>
    rcases (resume_records hcfg.priorityInheritance horder.inOrder hs).2 with
      hsub | ⟨sem, hrest, herrno, hsub⟩
    · exact .inl hsub
    · have hcovers := hcareful t hr
      rw [hrest] at hcovers
      exact .inr ⟨sem, t, by simp, hcovers herrno, hsub⟩
  | sched hforeign hs | nothing => exact .inl fun _ => List.Sublist.refl _

theorem Change.canEnd (hcareful : x.Careful e) (hchange : Change cfg x e a k')
    (ha : a.departs = some (sem, t)) : x.CanEnd sem t := by
  cases hchange with
  | post hr hmax hrelease hs =>
    rw [postAct] at ha
    split at ha
    · cases ha
    · next w hfirst =>
      obtain ⟨rfl, rfl⟩ := Prod.mk.inj (Option.some.inj ha)
      exact hcareful w hfirst
  | leave hsem hcancel hs | abandon hsem hs =>
    cases ha
    exact hcareful _ hsem
  | _ => cases ha

/-- A task that begins to wait is not the idle task, and finds room in the records. -/
theorem Change.fits (he : x.Allowed idle e) (hfits : x.Fits cfg e)
    (hchange : Change cfg x e (.arrive sem t) k') :
    t ≠ idle ∧ ∀ h ∈ x.holderTasks sem, x.basePriority h < x.schedPriority t →
      (x.pendReprios h).length < cfg.nnestprio := by
  generalize ha : Act.arrive sem t = a at hchange
  cases hchange with
  | block hr hpos hs =>
    cases ha
    exact ⟨fun hc => he (hc ▸ hr), hfits _ hr (Int.not_lt.mp hpos)⟩
  | post hr hmax hrelease hs =>
    rw [postAct] at ha
    split at ha <;> cases ha
  | _ => cases ha

/-! ### The waiters that raised a holder -/

/-- The tasks that wait for a semaphore and raised the holder when they began to. -/
def boosters (x : System τ κ) (h : τ) : List τ :=
  (x.lists .waitingForSemaphore).filter fun w =>
    (x.waitsem w).isSome ∧ h ∈ x.blockedHolders w ∧ x.basePriority h < x.blockedPriority w

theorem mem_boosters (horder : x.toKernel.InOrder idle) (hw : x.waitsem w = some sem) :
    w ∈ x.boosters h ↔ h ∈ x.blockedHolders w ∧ x.basePriority h < x.blockedPriority w := by
  rw [boosters, mem_filter, decide_eq_true_iff, hw]
  exact ⟨fun hmem => hmem.2.2, fun hmem => ⟨horder.waiting w sem hw, rfl, hmem⟩⟩

/-- **What holds while somebody waits**: the priorities of the waiters that raised a holder are in
its record, and every holder covers every waiter. -/
structure Inherited (idle : τ) (x : System τ κ) : Prop where
  nodup : ∀ sem, (x.holderTasks sem).Nodup
  valid : x.toKernel.RecordsValid idle
  good : ∀ t, (x.record t).Good
  recorded : ∀ h, ((x.boosters h).map x.blockedPriority).Subperm (x.record h).levels
  covered : ∀ sem, ∀ h ∈ x.holderTasks sem, ∀ w ∈ x.waiters sem, x.Covers h w

theorem Inherited.le_schedPriority (hinv : Inherited idle x) (horder : x.toKernel.InOrder idle)
    (hh : h ∈ x.holderTasks sem) (hw : w ∈ x.waiters sem) :
    x.blockedPriority w ≤ x.schedPriority h := by
  have hbase : x.basePriority h ≤ x.schedPriority h := (hinv.good h).base_le
  rcases hinv.covered sem h hh w hw with hle | hmem
  · exact hle.trans hbase
  rcases Nat.lt_or_ge (x.basePriority h) (x.blockedPriority w) with hlt | hle
  · have hbooster : w ∈ x.boosters h :=
      (mem_boosters horder (mem_waiters.mp hw).2).mpr ⟨hmem, hlt⟩
    have hlevel := (hinv.recorded h).subset (mem_map_of_mem hbooster)
    exact ((hinv.good h).le_of_mem_levels hlevel).2
  · exact hle.trans hbase

/-! ### What a careful step keeps -/

theorem Inherited.boost (hinv : Inherited idle x)
    (hfits : ∀ h ∈ x.holderTasks sem, x.basePriority h < x.schedPriority t →
      (x.pendReprios h).length < cfg.nnestprio) (h : τ) :
    ((Act.arrive sem t).records cfg x.toKernel h).Good ∧
      (if h ∈ x.holderTasks sem ∧ x.basePriority h < x.schedPriority t then
          x.schedPriority t :: (x.boosters h).map x.blockedPriority
        else (x.boosters h).map x.blockedPriority).Subperm
      ((Act.arrive sem t).records cfg x.toKernel h).levels := by
  have hgood := hinv.good h
  have hrecorded := hinv.recorded h
  dsimp only [Act.records]
  by_cases hh : h ∈ x.holderTasks sem
  · rw [mapRecords_of_mem hh]
    refine ⟨Record.good_boost hgood, ?_⟩
    by_cases hlt : x.basePriority h < x.schedPriority t
    · rw [if_pos ⟨hh, hlt⟩]
      have hperm := Record.levels_boost (r := x.record h) (hfits h hh hlt) hlt
      exact (subperm_cons _).mpr hrecorded |>.trans hperm.symm.subperm
    · rw [if_neg (fun hc => hlt hc.2), Record.boost_of_le (Nat.not_lt.mp hlt)]
      exact hrecorded
  · rw [mapRecords_of_not_mem hh, if_neg (fun hc => hh hc.1)]
    exact ⟨hgood, hrecorded⟩

/-- A wait that ends takes from each holder what the waiter gave it, and no more. -/
theorem Inherited.restore (hinv : Inherited idle x) (horder : x.toKernel.InOrder idle)
    (ht : x.waitsem t = some sem) (hend : x.CanEnd sem t) (h : τ) :
    (x.restoredRecords sem (some t) h).Good ∧
      (((x.boosters h).erase t).map x.blockedPriority).Subperm
        (x.restoredRecords sem (some t) h).levels := by
  have hgood := hinv.good h
  have hrecorded := hinv.recorded h
  have hless : (((x.boosters h).erase t).map x.blockedPriority).Subperm (x.record h).levels :=
    (erase_sublist.map _).subperm.trans hrecorded
  dsimp only [restoredRecords]
  by_cases hh : h ∈ x.holderTasks sem
  swap
  · rw [mapRecords_of_not_mem hh]
    exact ⟨hgood, hless⟩
  rw [mapRecords_of_mem hh]
  rcases hend.2 h hh with hbase | ⟨hmem, hlt, hprio⟩ | ⟨hpend, hlt, hmissing⟩
  · rw [Record.restore_of_base hbase]
    exact ⟨hgood, hless⟩
  · -- the waiter is one of those that raised the holder, so its priority is in the record
    have hbooster : t ∈ x.boosters h := (mem_boosters horder ht).mpr ⟨hmem, hlt⟩
    have hlevel := hrecorded.subset (mem_map_of_mem hbooster)
    obtain ⟨hperm, hgood'⟩ := Record.levels_restore hgood hlevel
    have herase : (((x.boosters h).erase t).map x.blockedPriority).Perm
        (((x.boosters h).map x.blockedPriority).erase (x.blockedPriority t)) := by
      have := ((perm_cons_erase hbooster).map x.blockedPriority).erase (x.blockedPriority t)
      rw [map_cons, erase_cons_head] at this
      exact this.symm
    rw [hprio]
    exact ⟨hgood', herase.subperm.trans ((hrecorded.erase _).trans hperm.symm.subperm)⟩
  · rw [Record.restore_of_missing hgood hpend hlt hmissing]
    exact ⟨hgood, hless⟩

theorem history_of_ne (x : System τ κ) (ha : ∀ sem, a ≠ .arrive sem w) :
    (a.history x).blockedPriority w = x.blockedPriority w ∧
      (a.history x).blockedHolders w = x.blockedHolders w := by
  cases a with
  | arrive sem t =>
    have hwt : w ≠ t := by
      rintro rfl
      exact ha sem rfl
    exact ⟨update_of_ne hwt _ _, update_of_ne hwt _ _⟩
  | _ => exact ⟨rfl, rfl⟩

theorem mem_waiters_of_does {k : Kernel τ κ} (hsound : Sound idle k.toSched)
    (hdoes : k.Does cfg idle a k') (ha : ∀ sem, a ≠ .arrive sem w) (hw : w ∈ k'.waiters sem) :
    w ∈ k.waiters sem := by
  have hdeparts : ∀ sem₀ t, a.departs = some (sem₀, t) → w ∈ k.waiters sem := fun sem₀ t ht =>
    mem_of_mem_erase ((hdoes.waiters_of_departs hsound ht).mem_iff.mp hw)
  cases a with
  | arrive sem₀ t =>
    have hwt : w ≠ t := by
      rintro rfl
      exact ha sem₀ rfl
    rw [mem_waiters, hdoes.waiting.mem_iff, hdoes.waitsem, Act.waiting, Act.waitsem,
      PrioList.mem_insert, update_of_ne hwt] at hw
    exact mem_waiters.mpr ⟨hw.1.resolve_left hwt, hw.2⟩
  | grant sem₀ t | leave sem₀ t | abandon sem₀ t => exact hdeparts sem₀ t rfl
  | _ => exact (hdoes.waiters_of_stays rfl rfl).mem_iff.mp hw

/-- The step from `x` to `x'` is the act, with priority inheritance. -/
structure Inherits (cfg : Config) (idle : τ) (x : System τ κ) (a : Act τ κ) (x' : System τ κ) :
    Prop where
  does : x.toKernel.Does cfg idle a x'.toKernel
  history : x'.toHistory = a.history x
  record : x'.record = a.records cfg x.toKernel

theorem Inherits.basePriority (h : Inherits cfg idle x a x') :
    x'.basePriority = x.basePriority := by
  funext u
  have hrecord : (x'.record u).base = (a.records cfg x.toKernel u).base := by rw [h.record]
  exact hrecord.trans (Act.base_records u)

theorem Inherits.blocked_of_ne (h : Inherits cfg idle x a x') (ha : ∀ sem, a ≠ .arrive sem w) :
    x'.blockedPriority w = x.blockedPriority w ∧ x'.blockedHolders w = x.blockedHolders w := by
  rw [h.history]
  exact history_of_ne x ha

theorem Inherits.boosters_of_arrive (hs : Inherits cfg idle x (.arrive sem t) x') (h : τ) :
    ((x'.boosters h).map x'.blockedPriority).Perm
      (if h ∈ x.holderTasks sem ∧ x.basePriority h < x.schedPriority t then
          x.schedPriority t :: (x.boosters h).map x.blockedPriority
        else (x.boosters h).map x.blockedPriority) := by
  have hne : ∀ {u : τ}, u ≠ t → ∀ sem₀, Act.arrive sem t ≠ .arrive sem₀ u :=
    fun hu sem₀ hc => hu (Act.arrive.inj hc).2.symm
  have hprio : x'.blockedPriority t = x.schedPriority t := by
    rw [hs.history]
    exact update_self ..
  have hholders : x'.blockedHolders t = x.holderTasks sem := by
    rw [hs.history]
    exact update_self ..
  have hwaitsem : x'.waitsem = update x.waitsem t (some sem) := hs.does.waitsem
  -- the others are as they were, and the new one raised the holder if it could
  have hperm : (x'.boosters h).Perm (if h ∈ x.holderTasks sem ∧
      x.basePriority h < x.schedPriority t then t :: x.boosters h else x.boosters h) := by
    refine (hs.does.filter_of_arrive (p := fun w => (x.waitsem w).isSome ∧
      h ∈ x.blockedHolders w ∧ x.basePriority h < x.blockedPriority w) fun u hu => ?_).trans
      (List.Perm.of_eq ?_)
    · simp only [hwaitsem, update_of_ne hu, hs.basePriority, hs.blocked_of_ne (hne hu)]
    · simp only [hwaitsem, update_self, hprio, hholders, hs.basePriority,
        Option.isSome_some, true_and, decide_eq_true_eq]
      rfl
  have hsame : (x.boosters h).map x'.blockedPriority = (x.boosters h).map x.blockedPriority := by
    refine map_congr_left fun u hu => (hs.blocked_of_ne (hne ?_)).1
    rintro rfl
    exact hs.does.enabled.2 (mem_of_mem_filter hu)
  refine (hperm.map _).trans (List.Perm.of_eq ?_)
  split
  · rw [map_cons, hprio, hsame]
  · exact hsame

omit [DecidableEq τ] [DecidableEq κ] in
theorem ne_arrive_of_departs (ha : a.departs = some (sem, t)) (sem₀ : κ) (w : τ) :
    a ≠ .arrive sem₀ w := by
  rintro rfl
  cases ha

variable (hs : Inherits cfg idle x a x')

include hs

theorem Inherits.boosters_of_departs
    (hsound : Sound idle x.toSched) (ha : a.departs = some (sem, t)) (h : τ) :
    ((x'.boosters h).map x'.blockedPriority).Perm
      (((x.boosters h).erase t).map x.blockedPriority) := by
  have hwaitsem : x'.waitsem = update x.waitsem t none :=
    hs.does.waitsem.trans (waitsem_of_departs ha)
  have hsame := fun w => hs.blocked_of_ne fun sem₀ => ne_arrive_of_departs ha sem₀ w
  have hprio : x'.blockedPriority = x.blockedPriority := funext fun w => (hsame w).1
  rw [hprio]
  refine List.Perm.map _ (hs.does.filter_of_departs hsound ha (fun u hu => ?_) ?_)
  · simp only [hwaitsem, update_of_ne hu, hs.basePriority, hsame u]
  · simp [hwaitsem]

theorem Inherits.boosters_of_stays (ha : ∀ sem t, a ≠ .arrive sem t)
    (hwaiting : a.waiting x.toKernel = x.lists .waitingForSemaphore)
    (hwaitsem : a.waitsem x.toKernel = x.waitsem) (h : τ) :
    ((x'.boosters h).map x'.blockedPriority).Perm ((x.boosters h).map x.blockedPriority) := by
  have hsame := fun w => hs.blocked_of_ne fun sem₀ => ha sem₀ w
  have hprio : x'.blockedPriority = x.blockedPriority := funext fun w => (hsame w).1
  have hholders : x'.blockedHolders = x.blockedHolders := funext fun w => (hsame w).2
  have hlist := hs.does.waiting
  rw [hwaiting] at hlist
  simp only [boosters, hprio, hholders, hs.basePriority, hs.does.waitsem.trans hwaitsem]
  exact (hlist.filter _).map _

/-- **An act keeps the records**, if every wait ends only when it can and there is room
for the priority of every task that begins to wait. -/
theorem Inherited.recorded_of_inherits (hinv : Inherited idle x)
    (horder : x.toKernel.InOrder idle)
    (hfits : ∀ sem t, a = .arrive sem t → ∀ h ∈ x.holderTasks sem,
      x.basePriority h < x.schedPriority t → (x.pendReprios h).length < cfg.nnestprio)
    (hend : ∀ sem t, a.departs = some (sem, t) → x.CanEnd sem t) (h : τ) :
    (x'.record h).Good ∧ ((x'.boosters h).map x'.blockedPriority).Subperm (x'.record h).levels := by
  have hdeparts : ∀ sem t, a.departs = some (sem, t) → (x'.record h).Good ∧
      ((x'.boosters h).map x'.blockedPriority).Subperm (x'.record h).levels := by
    intro sem t ht
    have hmem := (mem_waiters.mp (hs.does.mem_waiters_of_departs ht)).2
    obtain ⟨hgood, hsub⟩ := hinv.restore horder hmem (hend sem t ht) h
    rw [hs.record, Act.records_of_departs ht]
    exact ⟨hgood, (hs.boosters_of_departs horder.sound ht h).subperm.trans hsub⟩
  have hstays : (∀ sem t, a ≠ .arrive sem t) →
      a.waiting x.toKernel = x.lists .waitingForSemaphore → a.waitsem x.toKernel = x.waitsem →
      a.records cfg x.toKernel = x.record → (x'.record h).Good ∧
      ((x'.boosters h).map x'.blockedPriority).Subperm (x'.record h).levels := by
    intro ha hwaiting hwaitsem hrecords
    rw [hs.record, hrecords]
    exact ⟨hinv.good h, (hs.boosters_of_stays ha hwaiting hwaitsem h).subperm.trans
      (hinv.recorded h)⟩
  cases a with
  | arrive sem t =>
    obtain ⟨hgood, hsub⟩ := hinv.boost (hfits sem t rfl) h
    rw [hs.record]
    exact ⟨hgood, (hs.boosters_of_arrive h).subperm.trans hsub⟩
  | grant sem t | leave sem t | abandon sem t => exact hdeparts sem t rfl
  | _ => exact hstays (by simp) rfl rfl rfl

theorem Inherits.covers_iff (ha : ∀ sem, a ≠ .arrive sem w) :
    x'.Covers h w ↔ x.Covers h w := by
  rw [Covers, Covers, hs.basePriority, (hs.blocked_of_ne ha).1, (hs.blocked_of_ne ha).2]

omit hs

/-- **Every careful step keeps the guarantee.** -/
theorem Inherited.of_change (hcfg : cfg.Inherits) (hinv : Inherited idle x)
    (horder : x.toKernel.InOrder idle) (he : x.Allowed idle e) (hfits : x.Fits cfg e)
    (hcareful : x.Careful e) (hchange : Change cfg x e a x'.toKernel)
    (hhistory : x'.toHistory = a.history x) : Inherited idle x' := by
  have horder' : x.toKernel.RecordsInOrder idle := { hinv with inOrder := horder }
  have hs : Inherits cfg idle x a x' :=
    ⟨hchange.does horder he, hhistory, hchange.records hcfg horder' he hcareful⟩
  have hrecorded := hinv.recorded_of_inherits hs horder
    (by rintro sem t rfl; exact (hchange.fits he hfits).2)
    (fun sem t ht => hchange.canEnd hcareful ht)
  refine ⟨fun sem => ?_, fun u hu => ?_, fun h => (hrecorded h).1, fun h => (hrecorded h).2,
    fun sem h hh w hw => ?_⟩
  · rcases hchange.holders hcfg horder' hcareful with hsub | ⟨sem₀, r, -, -, hsub⟩
    · exact (hinv.nodup sem).sublist (hsub sem)
    · exact (nodup_addHolder (hinv.nodup sem)).sublist (hsub sem)
  · rw [hs.record]
    refine Act.forall_records Record.Valid u (hinv.valid u hu) ?_
      fun _ _ _ _ => Record.valid_restore (hinv.valid u hu)
    rintro sem t rfl
    exact Record.valid_boost (hinv.valid u hu) (hinv.valid t (hchange.fits he hfits).1).sched
  · by_cases harrive : ∃ sem₀, a = .arrive sem₀ w
    · -- a waiter that has just come raised all that are holders
      obtain ⟨sem₀, rfl⟩ := harrive
      have hsem : sem₀ = sem := by
        have hwaitsem := (mem_waiters.mp hw).2
        rw [hs.does.waitsem, Act.waitsem, update_self] at hwaitsem
        exact Option.some.inj hwaitsem
      subst hsem
      refine .inr ?_
      rcases hchange.holders hcfg horder' hcareful with hsub | ⟨-, -, hne, -, -⟩
      · rw [hhistory]
        simpa [Act.history] using (hsub sem₀).subset hh
      · exact absurd rfl (hne sem₀ w)
    · have ha : ∀ sem₀, a ≠ .arrive sem₀ w := fun sem₀ hc => harrive ⟨sem₀, hc⟩
      have hw' := mem_waiters_of_does horder.sound hs.does ha hw
      rw [hs.covers_iff ha]
      rcases hchange.holders hcfg horder' hcareful with hsub | ⟨sem₀, r, -, hcovers, hsub⟩
      · exact hinv.covered sem h ((hsub sem).subset hh) w hw'
      · rcases mem_holderTasks_addHolder ((hsub sem).subset hh) with ⟨rfl, rfl⟩ | hold
        · exact hcovers w hw'
        · exact hinv.covered sem h hold w hw'

/-! ### Runs -/

theorem Booted.inherited (hboot : Booted idle x)
    (hvalid : ∀ t, t ≠ idle → ValidPriority (x.schedPriority t)) : Inherited idle x := by
  have hpend : ∀ t, (x.record t).pend = [] := hboot.pendReprios
  have hbase : ∀ t, (x.record t).base = x.schedPriority t := fun t => by
    rw [← hboot.basePriority]
    rfl
  have hnone : x.lists .waitingForSemaphore = [] := hboot.boot.empty _ (by simp) (by simp)
  refine ⟨fun sem => ?_, fun t ht => ⟨hvalid t ht, ?_, fun p hp => ?_⟩,
    fun t => ⟨(hbase t).le, fun p hp => ?_⟩, fun h => ?_, fun sem h hh => ?_⟩
  · rw [holderTasks, hboot.holders]
    exact nodup_nil
  · rw [hbase t]
    exact hvalid t ht
  · rw [hpend] at hp
    cases hp
  · rw [hpend] at hp
    cases hp
  · rw [boosters, hnone]
    exact nil_subperm
  · rw [holderTasks, hboot.holders] at hh
    cases hh

/-- **Priority inheritance, in careful runs.** From boot, if the events are careful and there is
room, a holder of a semaphore has at least the priority with which any task that is blocked on it
blocked. -/
theorem holders_inherit (hcfg : cfg.Inherits) (idle : τ) (x₀ x : System τ κ)
    (es : List (Event τ κ)) (hboot : Booted idle x₀)
    (hvalid : ∀ t, t ≠ idle → ValidPriority (x₀.schedPriority t)) (hsteps : Run.AllSteps (step cfg)
      (fun x e => x.Allowed idle e ∧ x.Fits cfg e ∧ x.Careful e) x₀ es)
    (hrun : Run.run (step cfg) x₀ es = some x) (sem : κ) (h w : τ)
    (hholder : h ∈ x.holderTasks sem) (hwaiter : BlockedOn x sem w) :
    x.blockedPriority w ≤ x.schedPriority h := by
  obtain ⟨hkept, hinv⟩ := Run.invariant_of_allSteps
    (P := fun x => Kept idle x₀ x ∧ Inherited idle x) (by
      rintro x e x' ⟨hkept, hinv⟩ ⟨he, hfits, hcareful⟩ hs
      obtain ⟨a, hchange, hhistory⟩ := step_cases hkept.inOrder hs
      exact ⟨hkept.of_does ⟨hchange.does hkept.inOrder he, hhistory⟩,
        hinv.of_change hcfg hkept.inOrder he hfits hcareful hchange hhistory⟩)
    es ⟨hboot.kept, hboot.inherited hvalid⟩ hsteps hrun
  exact hinv.le_schedPriority hkept.inOrder hholder
    ((blockedOn_iff hkept.inOrder.sound).mp hwaiter)

/-! ### Three priorities -/

/-- Four tasks at boot, with one semaphore of the count 1: the idle task `0`, and tasks
of the priorities 5, 10 and 20. -/
def threePriorities : System (Fin 4) Unit :=
  { fourTasks with
    schedPriority := fun t => [0, 5, 10, 20].getD t.val 0
    basePriority := fun t => [0, 5, 10, 20].getD t.val 0 }

theorem threePriorities_booted : Booted 0 threePriorities :=
  { fourTasks_booted with
    boot := { fourTasks_booted.boot with idlePriority := rfl }
    semcount := by decide
    basePriority := rfl }

/-- Three tasks compete for the semaphore, and the wait of one of them is interrupted:
the holder keeps the priority of the other. -/
theorem holders_inherit_interrupted :
    ∃ x, Run.run (step ⟨true, 4, 20⟩) threePriorities [.sched (.unblock 1), .wait (),
        .sched (.unblock 2), .wait (), .sched (.unblock 3), .wait (),
        .waitirq true 2 .eintr] = some x ∧
      x.blockedPriority 3 = 20 ∧ x.blockedPriority 3 ≤ x.schedPriority 1 :=
  Run.exists_eq_some (P := fun x => 1 ∈ x.holderTasks () ∧ BlockedOn x () 3 ∧
    x.blockedPriority 3 = 20) (by decide) fun x hx ⟨hholder, hwaiter, hprio⟩ =>
    ⟨hprio, holders_inherit ⟨rfl, by decide⟩ 0 threePriorities x _ threePriorities_booted
      (by decide) (by decide) hx () 1 3 hholder hwaiter⟩

/-- **A task that becomes a holder late is not raised.** The task `3` takes the semaphore and
sleeps, and the task `1` waits. The task `3` posts, which gives the task `1` the count, and waits at
once: it finds no holder to raise. Then the task `1` is recorded as the holder, with the priority 5,
while the task `3` waits with the priority 20. -/
theorem late_holder_not_raised :
    Booted 0 threePriorities ∧
      ∃ x, Run.run (step ⟨true, 4, 20⟩) threePriorities [.sched (.unblock 3), .wait (),
          .sched (.block 3 .waitSig), .sched (.unblock 1), .wait (), .sched (.unblock 3),
          .post false (), .wait (), .resume] = some x ∧
        1 ∈ x.holderTasks () ∧ BlockedOn x () 3 ∧ x.blockedPriority 3 = 20 ∧
        x.schedPriority 1 = 5 :=
  ⟨threePriorities_booted, Run.exists_eq_some (by decide) fun _ _ h => h⟩

end System

end GreenboneFeeder.Sem
