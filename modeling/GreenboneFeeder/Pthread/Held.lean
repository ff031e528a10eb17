import GreenboneFeeder.Pthread.Mutex

/-!
# Who holds the semaphore of a mutex

The semaphore of a mutex has one count. It is held by the thread in `pid`, or by a thread that has
got the count and is not yet in `pid`, or it is available. `Pthread.Held` says how each operation on
the semaphore moves the count.

Of the threads it needs to be known only what they do with the semaphore: they are blocked on it, or
were given its count, or neither (`Pthread.Place`). So the lemmas serve a mutex alone as well as the
mutex of a condition variable, whose threads have other places to be at.
-/

namespace GreenboneFeeder.Pthread

open Function

open Sem (Plain)

variable {τ : Type}

/-- The thread has the count. -/
def Holds (pid : Option τ) (place : τ → Place) (t : τ) : Prop := pid = some t ∨ place t = .given

/-- **At most one thread has the count**, and it is available only if no thread has it. -/
structure Held (sem : Plain τ) (pid : Option τ) (place : τ → Place) : Prop where
  balanced : sem.Balanced
  blocked : ∀ t, place t = .blocked ↔ t ∈ sem.waiters
  nodup : sem.waiters.Nodup
  busy : ∀ t, Holds pid place t → sem.semcount ≤ 0
  binary : sem.semcount ≤ 1
  unique : ∀ t u, Holds pid place t → Holds pid place u → t = u
  given : ∀ t, place t = .given → pid = none

namespace Held

variable [DecidableEq τ] {sem sem' : Plain τ} {pid : Option τ} {place : τ → Place} {t u : τ}

omit [DecidableEq τ] in
theorem init : Held (Plain.semInit 1 : Plain τ) none fun _ => .outside where
  balanced := .inl ⟨(by decide : (0 : ℤ) ≤ 1), rfl⟩
  blocked t := by simp [Plain.semInit]
  nodup := List.nodup_nil
  busy t h := by rcases h with h | h <;> cases h
  binary := le_refl _
  unique t u h := by rcases h with h | h <;> cases h
  given t h := by cases h

variable (h : Held sem pid place)

include h

omit [DecidableEq τ] in
theorem not_given (hpid : pid = some t) : place u ≠ .given := by
  intro hu
  rw [h.given u hu] at hpid
  cases hpid

omit [DecidableEq τ] in
theorem not_holds (hpos : 0 < sem.semcount) : ¬Holds pid place t :=
  fun ht => absurd (h.busy t ht) (by omega)

omit [DecidableEq τ] in
theorem pid_eq_none (hpos : 0 < sem.semcount) : pid = none := by
  cases hpid : pid with
  | none => rfl
  | some t => exact absurd (.inl hpid) (h.not_holds hpos)

omit [DecidableEq τ] in
theorem not_mem (ht : place t ≠ .blocked) : t ∉ sem.waiters :=
  fun hmem => ht ((h.blocked t).mpr hmem)

theorem update_blocked_iff {p : Place} (hp : p ≠ .blocked) (ht : place t ≠ .blocked) (u : τ) :
    update place t p u = .blocked ↔ u ∈ sem.waiters := by
  by_cases hut : u = t
  · rw [hut, update_self]
    exact iff_of_false hp (h.not_mem ht)
  · rw [update_of_ne hut, h.blocked]

omit h

theorem given_of_update {p : Place} (hp : p ≠ .given) (hu : update place t p u = .given) :
    place u = .given := by
  by_cases hut : u = t
  · rw [hut, update_self] at hu
    exact absurd hu hp
  · rwa [update_of_ne hut] at hu

omit [DecidableEq τ] in
theorem take (h : Held sem pid place) (hpos : 0 < sem.semcount) :
    Held { sem with semcount := sem.semcount - 1 } (some t) place := by
  have honly : ∀ {u}, Holds (some t) place u → t = u := by
    rintro u (hu | hu)
    · exact Option.some.inj hu
    · exact absurd (.inr hu) (h.not_holds hpos)
  have hbinary := h.binary
  refine ⟨h.balanced.semTrywait (if_pos hpos), h.blocked, h.nodup, fun u _ => ?_, ?_,
    fun u v hu hv => ?_, fun u hu => ?_⟩
  · change sem.semcount - 1 ≤ 0
    omega
  · change sem.semcount - 1 ≤ 1
    omega
  · exact (honly hu).symm.trans (honly hv)
  · exact absurd (.inr hu) (h.not_holds hpos)

section

variable (h : Held sem pid place)

include h

theorem take_given (ht : place t = .outside) (hpos : 0 < sem.semcount) :
    Held { sem with semcount := sem.semcount - 1 } pid (update place t .given) := by
  have hpid := h.pid_eq_none hpos
  have honly : ∀ {u}, Holds pid (update place t .given) u → u = t := by
    rintro u (hu | hu)
    · exact absurd (.inl hu) (h.not_holds hpos)
    · by_contra hut
      rw [update_of_ne hut] at hu
      exact h.not_holds hpos (.inr hu)
  have hbinary := h.binary
  refine ⟨h.balanced.semTrywait (if_pos hpos),
    h.update_blocked_iff (by decide) (by rw [ht]; decide), h.nodup, fun u _ => ?_, ?_,
    fun u v hu hv => (honly hu).trans (honly hv).symm, fun _ _ => hpid⟩
  · change sem.semcount - 1 ≤ 0
    omega
  · change sem.semcount - 1 ≤ 1
    omega

theorem block (ht : place t = .outside) (hpos : ¬0 < sem.semcount) :
    Held ⟨sem.semcount - 1, t :: sem.waiters⟩ pid (update place t .blocked) := by
  have hholds : ∀ {u}, Holds pid (update place t .blocked) u → Holds pid place u :=
    fun hu => hu.imp id (given_of_update (by decide))
  have hbalanced : (sem.semWait t).1.Balanced := h.balanced.semWait
  rw [Plain.semWait, if_neg hpos] at hbalanced
  refine ⟨hbalanced, fun u => ?_,
    List.nodup_cons.mpr ⟨h.not_mem (by rw [ht]; decide), h.nodup⟩, fun u hu => ?_, ?_,
      fun u v hu hv => h.unique u v (hholds hu) (hholds hv),
    fun u hu => h.given u (given_of_update (by decide) hu)⟩
  · by_cases hut : u = t
    · simp [hut]
    · rw [update_of_ne hut, h.blocked, List.mem_cons, or_iff_right hut]
  · change sem.semcount - 1 ≤ 0
    omega
  · change sem.semcount - 1 ≤ 1
    omega

/-- The places after a post that gives the count to `stcb`. -/
def wake (place : τ → Place) : Option τ → τ → Place
  | some u => update place u .given
  | none => place

theorem release (hpid : pid = some t) {stcb : Option τ}
    (hpost : sem.semPost stcb = some sem') : Held sem' none (wake place stcb) := by
  have hbusy := h.busy t (.inl hpid)
  have hbalanced := h.balanced.semPost hpost
  obtain ⟨hchoice, hpost⟩ := Option.ite_none_right_eq_some.mp hpost
  cases hpost
  have hbinary : sem.semcount + 1 ≤ 1 := by omega
  cases stcb with
  | none =>
    have hnone : ∀ {u}, Holds none place u → False := by
      rintro u (hu | hu)
      · cases hu
      · exact h.not_given hpid hu
    exact ⟨hbalanced, h.blocked, h.nodup, fun u hu => (hnone hu).elim, hbinary,
      fun u v hu => (hnone hu).elim, fun _ _ => rfl⟩
  | some u =>
    have honly : ∀ {v}, Holds none (update place u .given) v → v = u := by
      rintro v (hv | hv)
      · cases hv
      · by_contra hvu
        rw [update_of_ne hvu] at hv
        exact h.not_given hpid hv
    refine ⟨hbalanced, fun v => ?_, h.nodup.erase u, fun _ _ => ?_, hbinary,
      fun v w hv hw => (honly hv).trans (honly hw).symm, fun _ _ => rfl⟩
    · change update place u .given v = .blocked ↔ v ∈ sem.waiters.erase u
      rw [h.nodup.mem_erase_iff]
      by_cases hvu : v = u
      · simp [hvu]
      · rw [update_of_ne hvu, h.blocked, and_iff_right hvu]
    · have := hchoice.2.1
      change sem.semcount + 1 ≤ 0
      omega

theorem own (ht : place t = .given) :
    Held sem (some t) (update place t .outside) := by
  have hplace : ∀ {u}, update place t .outside u = .given → False := by
    intro u hu
    by_cases hut : u = t
    · rw [hut, update_self] at hu
      cases hu
    · rw [update_of_ne hut] at hu
      exact hut (h.unique u t (.inr hu) (.inr ht))
  have honly : ∀ {u}, Holds (some t) (update place t .outside) u → t = u := by
    rintro u (hu | hu)
    · exact Option.some.inj hu
    · exact (hplace hu).elim
  exact ⟨h.balanced, h.update_blocked_iff (by decide) (by rw [ht]; decide), h.nodup,
    fun u _ => h.busy t (.inr ht), h.binary, fun u v hu hv => (honly hu).symm.trans (honly hv),
    fun u hu => (hplace hu).elim⟩

theorem interrupt (hirq : sem.semWaitirq t = some sem') :
    Held sem' pid (update place t .outside) := by
  have hbalanced := h.balanced.semWaitirq hirq
  obtain ⟨ht, hirq⟩ := Option.ite_none_right_eq_some.mp hirq
  cases hirq
  have hholds : ∀ {u}, Holds pid (update place t .outside) u → Holds pid place u :=
    fun hu => hu.imp id (given_of_update (by decide))
  have hneg : sem.semcount + 1 ≤ 0 := by
    have hpos := List.length_pos_of_mem ht
    rcases h.balanced with ⟨-, hnil⟩ | heq
    · rw [hnil] at ht
      exact absurd ht List.not_mem_nil
    · omega
  refine ⟨hbalanced, fun u => ?_, h.nodup.erase t, fun _ _ => hneg, hneg.trans (by decide),
    fun u v hu hv => h.unique u v (hholds hu) (hholds hv), fun u hu =>
      h.given u (given_of_update (by decide) hu)⟩
  rw [h.nodup.mem_erase_iff]
  by_cases hut : u = t
  · simp [hut]
  · rw [update_of_ne hut, h.blocked, and_iff_right hut]

end

end Held

end GreenboneFeeder.Pthread
