import GreenboneFeeder.Environ.Packed
import GreenboneFeeder.Lib.Run

/-!
# The environment is a finite map, as long as it is not emptied

The environment is meant to be a map from names to values, which `setenv` and `unsetenv` change and
`getenv` reads. It is, up to the point where `unsetenv` removes the only variable: `kumm_realloc` is
called with the size zero, frees the block and returns `NULL`, which `unsetenv` takes for a failure,
and `tg_envp` still points to the block.

A `setenv` that finds no memory has already removed the old value (`Environ.value_lost`); it changes
nothing if there was none (`Environ.setenvNomem_iff`).
-/

namespace GreenboneFeeder.Environ

open Function

/-! ### Calls -/

/-- The calls, with names and values as they are meant to be. -/
inductive Op where
  | setenv (name : Name) (value : Value)
  | unsetenv (name : Name)
  | getenv (name : Name)
  deriving DecidableEq, Repr

/-- What a call returns. -/
inductive Response where
  | status (ret : ℤ)
  | value (pvalue : Option (List UInt8))
  deriving DecidableEq, Repr

variable (junk : ℕ → UInt8) (g : Group)

/-- **One call.** -/
def step : Op → Option (Group × Response)
  | .setenv name value =>
    (setenv junk (some name.toStr) (some value.toStr) true g).map fun r => (r.1, .status r.2)
  | .unsetenv name => (unsetenv junk name.toStr g).map fun r => (r.1, .status r.2)
  | .getenv name => (getenv (some name.toStr) g).map fun r => (r.1, .value r.2)

/-! ### The map -/

/-- A map from names to values. -/
abbrev Env := Name → Option Value

namespace Env

/-- The map without variables. -/
def empty : Env := fun _ => none

/-- The map after a call. -/
def after (m : Env) : Op → Env
  | .setenv name value => update m name (some value)
  | .unsetenv name => update m name none
  | .getenv _ => m

/-- What the call has to return. -/
def response (m : Env) : Op → Response
  | .setenv _ _ => .status ok
  | .unsetenv _ => .status ok
  | .getenv name => .value ((m name).map fun v => v.chars)

/-- The call removes the only variable. -/
def Empties (m : Env) : Op → Prop
  | .unsetenv name => m name ≠ none ∧ ∀ other ≠ name, m other = none
  | _ => False

end Env

/-- `tg_envp` points to `tg_envsize` bytes, or to nothing if there are no variables. -/
def Valid (m : Env) : Prop :=
  (∃ bytes, g.envp = .block bytes ∧ g.envsize ≤ bytes.length) ∨
    g.envp = .null ∧ g.envsize = 0 ∧ m = Env.empty

/-- The call returns what it has to return, and `tg_envp` is valid then. -/
def Correct (s : Group × Env) (op : Op) : Prop :=
  ∃ g', step junk s.1 op = some (g', s.2.response op) ∧ Valid g' (s.2.after op)

/-- The code and the map take a call together. -/
def stepBoth (s : Group × Env) (op : Op) : Option (Group × Env) :=
  (step junk s.1 op).map fun r => (r.1, s.2.after op)

/-! ### The map that the block stands for -/

/-- **The block stands for the map.** -/
def Represents (m : Env) : Prop :=
  ∃ es, Packed g es ∧ ∀ n v, m n = some v ↔ (n, v) ∈ es

section Represents

variable {g : Group} {m : Env} {n : Name} {v : Value} {e : Entry} {es pre post : List Entry}

theorem absent_or_split (n : Name) (es : List Entry) :
    Absent n es ∨ ∃ pre e post, es = pre ++ e :: post ∧ e.1 = n := by
  by_cases h : ∃ e ∈ es, e.1 = n
  · obtain ⟨e, he, hn⟩ := h
    obtain ⟨pre, post, rfl⟩ := List.append_of_mem he
    exact .inr ⟨pre, e, post, rfl, hn⟩
  · exact .inl fun e he hn => h ⟨e, he, hn⟩

theorem eq_none_iff_absent (hm : ∀ n v, m n = some v ↔ (n, v) ∈ es) :
    m n = none ↔ Absent n es := by
  rw [Option.eq_none_iff_forall_ne_some]
  constructor
  · rintro h ⟨k, v⟩ he rfl
    exact h v ((hm k v).mpr he)
  · intro h v hv
    exact h (n, v) ((hm n v).mp hv) rfl

theorem Packed.valid (h : Packed g es) (hm : ∀ n v, m n = some v ↔ (n, v) ∈ es) : Valid g m := by
  have henvp := h.envp
  split_ifs at henvp with hes
  · subst hes
    refine .inr ⟨henvp, h.envsize, funext fun n => ?_⟩
    exact (eq_none_iff_absent hm).mpr fun e he => absurd he List.not_mem_nil
  · exact .inl ⟨pack es, henvp, Nat.le_of_eq h.envsize⟩

theorem update_some_iff {rest : List Entry} (hn : Absent n rest)
    (hrest : ∀ k w, k ≠ n → (m k = some w ↔ (k, w) ∈ rest)) (k : Name) (w : Value) :
    update m n (some v) k = some w ↔ (k, w) ∈ rest ++ [(n, v)] := by
  rw [List.mem_append, List.mem_singleton, Prod.mk.injEq]
  by_cases hk : k = n
  · subst hk
    rw [update_self, Option.some.injEq]
    exact ⟨fun hw => .inr ⟨rfl, hw.symm⟩,
      fun hw => hw.elim (fun hmem => absurd rfl (hn _ hmem)) fun hw => hw.2.symm⟩
  · rw [update_of_ne hk, hrest k w hk]
    exact ⟨.inl, fun hw => hw.elim id fun hw => absurd hw.1 hk⟩

theorem update_none_iff {rest : List Entry} (hn : Absent n rest)
    (hrest : ∀ k w, k ≠ n → (m k = some w ↔ (k, w) ∈ rest)) (k : Name) (w : Value) :
    update m n none k = some w ↔ (k, w) ∈ rest := by
  by_cases hk : k = n
  · subst hk
    exact ⟨fun hw => absurd hw (by simp), fun hmem => absurd rfl (hn _ hmem)⟩
  · rw [update_of_ne hk, hrest k w hk]

theorem some_iff_erase (hm : ∀ n v, m n = some v ↔ (n, v) ∈ pre ++ e :: post) (k : Name) (w : Value)
    (hk : k ≠ e.1) : m k = some w ↔ (k, w) ∈ pre ++ post := by
  have hne : (k, w) ≠ e := fun hc => hk (congrArg Prod.fst hc)
  rw [hm, List.mem_append, List.mem_append, List.mem_cons, or_iff_right hne]

theorem represents_empty : Represents {} Env.empty :=
  ⟨[], ⟨rfl, rfl, List.nodup_nil⟩, fun n v => by simp [Env.empty]⟩

end Represents

/-! ### One call -/

section Step

variable {g : Group} {m : Env} (junk : ℕ → UInt8)

/-- **One call** on a block that stands for a map returns what it has to exactly when it does not
remove the only variable, and then the block stands for the map after the call. -/
theorem step_represents (h : Represents g m) (op : Op) (hop : ¬m.Empties op) :
    ∃ g', step junk g op = some (g', m.response op) ∧ Represents g' (m.after op) ∧
      Valid g' (m.after op) := by
  obtain ⟨es, hes, hm⟩ := h
  cases op with
  | setenv n v =>
    rcases absent_or_split n es with hn | ⟨pre, e, post, rfl, rfl⟩
    · obtain ⟨g', hcall, hes'⟩ := hes.setenv_of_absent hn v junk
      have hm' := update_some_iff (v := v) hn fun k w _ => hm k w
      exact ⟨g', by rw [step, hcall]; rfl, ⟨_, hes', hm'⟩, hes'.valid hm'⟩
    · obtain ⟨g', hcall, hes'⟩ := hes.setenv_of_mem v junk
      have hm' := update_some_iff (v := v) hes.absent_erase (some_iff_erase hm)
      exact ⟨g', by rw [step, hcall]; rfl, ⟨_, hes', hm'⟩, hes'.valid hm'⟩
  | unsetenv n =>
    rcases absent_or_split n es with hn | ⟨pre, e, post, rfl, rfl⟩
    · have hm' := update_none_iff hn fun k w _ => hm k w
      refine ⟨g, ?_, ⟨_, hes, hm'⟩, hes.valid hm'⟩
      rw [step, hes.unsetenv_of_absent hn]
      rfl
    · have hm' := update_none_iff hes.absent_erase (some_iff_erase hm)
      have hne : pre ++ post ≠ [] := fun hnil => hop ⟨?_, fun k hk => ?_⟩
      · obtain ⟨g', hcall, hes'⟩ := hes.unsetenv_of_mem hne junk
        exact ⟨g', by rw [step, hcall]; rfl, ⟨_, hes', hm'⟩, hes'.valid hm'⟩
      · rw [(hm e.1 e.2).mpr (by simp)]
        simp
      · rw [Option.eq_none_iff_forall_ne_some]
        intro w hw
        rw [some_iff_erase hm k w hk, hnil] at hw
        exact absurd hw List.not_mem_nil
  | getenv n =>
    rcases absent_or_split n es with hn | ⟨pre, e, post, rfl, rfl⟩
    · obtain ⟨g', hcall, hes'⟩ := hes.getenv_of_absent hn
      refine ⟨g', ?_, ⟨_, hes', hm⟩, hes'.valid hm⟩
      rw [step, hcall, Env.response, (eq_none_iff_absent hm).mpr hn]
      rfl
    · refine ⟨g, ?_, ⟨_, hes, hm⟩, hes.valid hm⟩
      rw [step, hes.getenv_of_mem, Env.response, (hm e.1 e.2).mpr (by simp)]
      rfl

theorem not_correct_of_empties (h : Represents g m) (op : Op) (hop : m.Empties op) :
    ¬Correct junk (g, m) op := by
  obtain ⟨es, hes, hm⟩ := h
  cases op with
  | setenv n v | getenv n => exact hop.elim
  | unsetenv n =>
    obtain ⟨hsome, hother⟩ := hop
    rcases absent_or_split n es with hn | ⟨pre, e, post, rfl, rfl⟩
    · exact absurd ((eq_none_iff_absent hm).mpr hn) hsome
    · have hnil : pre ++ post = [] := by
        refine List.eq_nil_iff_forall_not_mem.mpr fun d hd => ?_
        have hd' := hes.absent_erase d hd
        have := (some_iff_erase hm d.1 d.2 hd').mpr hd
        rw [hother d.1 hd'] at this
        exact absurd this (by simp)
      obtain ⟨rfl, rfl⟩ := List.append_eq_nil_iff.mp hnil
      obtain ⟨g', hcall, -⟩ := Packed.unsetenv_of_only hes junk
      rintro ⟨g'', hstep, -⟩
      rw [step, hcall] at hstep
      exact absurd hstep (by simp [Env.response, ok, error])

end Step

/-- **The environment is a finite map exactly as long as it is not emptied**: all calls return what
they have to and leave `tg_envp` valid if and only if none removes the only variable. -/
theorem environ_map_iff (junk : ℕ → UInt8) (ops : List Op) :
    Run.AllSteps (stepBoth junk) (Correct junk) ({}, Env.empty) ops ↔
      Run.AllSteps (fun (m : Env) op => some (m.after op)) (fun m op => ¬m.Empties op) Env.empty
        ops := by
  suffices h : ∀ (g : Group) (m : Env), Represents g m →
      (Run.AllSteps (stepBoth junk) (Correct junk) (g, m) ops ↔
        Run.AllSteps (fun (m : Env) op => some (m.after op)) (fun m op => ¬m.Empties op) m ops) by
    exact h {} Env.empty represents_empty
  induction ops with
  | nil => exact fun _ _ _ => .rfl
  | cons op ops ih =>
    intro g m h
    by_cases hop : m.Empties op
    · exact ⟨fun hl => absurd hl.1 (not_correct_of_empties junk h op hop), fun hr =>
        absurd hop hr.1⟩
    · obtain ⟨g', hstep, hrep, hvalid⟩ := step_represents junk h op hop
      have hboth : stepBoth junk (g, m) op = some (g', m.after op) := by
        rw [stepBoth, hstep]
        rfl
      rw [Run.allSteps_cons_of_some hboth, Run.allSteps_cons_of_some rfl, ih g' _ hrep]
      exact and_congr_left' ⟨fun _ => hop, fun _ => ⟨g', hstep, hvalid⟩⟩

/-- **The only variable is removed**: `unsetenv` returns `ERROR`, `tg_envp` points to freed memory,
and the next `setenv` gives that to `kumm_realloc`. -/
theorem only_variable_unset :
    let name : Name := ⟨⟨[65], by decide⟩, by decide, by decide⟩
    let value : Value := ⟨⟨[49], by decide⟩, by decide⟩
    ∃ g g', step (fun _ => 0) {} (.setenv name value) = some (g, .status ok) ∧
      step (fun _ => 0) g (.unsetenv name) = some (g', .status error) ∧
      g'.envp = .freed ∧ step (fun _ => 0) g' (.setenv name value) = none :=
  ⟨_, _, rfl, rfl, rfl, rfl⟩

/-! ### No memory -/

section Nomem

variable {junk : ℕ → UInt8} {g g' : Group} {name value : Str}

theorem appendVar_ok {ret : ℤ} (h : appendVar junk name value g = some (g', ret)) : ret = ok := by
  unfold appendVar at h
  split_ifs at h
  · obtain ⟨bytes, -, heq⟩ := Option.bind_eq_some_iff.mp h
    cases heq
    rfl
  · obtain ⟨⟨newenvp, envp⟩, hrealloc, h⟩ := Option.bind_eq_some_iff.mp h
    have hne : newenvp ≠ .null := by
      rintro rfl
      cases henvp : g.envp <;> simp [kummRealloc, kummMalloc, henvp] at hrealloc
    dsimp only at h
    rw [if_neg hne] at h
    obtain ⟨bytes, -, heq⟩ := Option.bind_eq_some_iff.mp h
    cases heq
    rfl

/-- What is left of a failure: the block is not touched. -/
theorem appendNomem_error {room : ℕ} (h : appendNomem junk room name value g = some (g', error)) :
    g' = { g with errno := enomem } := by
  unfold appendNomem at h
  split_ifs at h
  · exact absurd (appendVar_ok h) (by decide)
  · cases h
    rfl

theorem getenv_errno (k : Option Str) (errno : ℤ) :
    (getenv k { g with errno := errno }).map Prod.snd = (getenv k g).map Prod.snd := by
  cases k with
  | none => rfl
  | some k =>
    rw [getenv, getenv, show envFindvar { g with errno := errno } k = envFindvar g k from rfl]
    cases envFindvar g k with
    | none => rfl
    | some pvar =>
      cases pvar with
      | none => rfl
      | some pvar =>
        simp only [Option.bind_eq_bind, Option.bind_some]
        cases strchrEq (g.envp.bytes.drop pvar) with
        | none => rfl
        | some pvalue =>
          cases pvalue with
          | none => rfl
          | some pvalue =>
            simp only [Option.bind_some]
            cases CString.strlen 0 pvalue <;> rfl

/-- A string that begins with a name has a `=`. -/
theorem strchrEq_of_envCmpname : ∀ {a b : List UInt8}, 0 ∉ a →
    envCmpname (a ++ [0]) b = some true → ∃ pvalue, strchrEq b = some (some pvalue)
  | [], [], _, h => by cases h
  | [], d :: b, _, h => by
    rw [List.nil_append, envCmpname] at h
    split_ifs at h with hd
    · cases b <;> cases h
    · have hd : d = eqSign := (of_decide_eq_true (Option.some.inj h)).2
      exact ⟨b, if_pos hd⟩
  | c :: a, [], _, h => by cases h
  | c :: a, d :: b, hnul, h => by
    rw [List.mem_cons, not_or] at hnul
    rw [List.cons_append, envCmpname] at h
    split_ifs at h with hd
    · rw [strchrEq]
      split_ifs with heq hzero
      · exact ⟨b, rfl⟩
      · exact absurd (hzero.symm.trans hd.symm) hnul.1
      · exact strchrEq_of_envCmpname hnul.2 h
    · exact absurd (of_decide_eq_true (Option.some.inj h)).1.symm hnul.1

theorem findLoop_cmpname {mem : List UInt8} {stop ptr : ℕ} : ∀ {fuel start : ℕ},
    findLoop name mem stop fuel start = some ptr → ptr < stop →
      envCmpname name.mem (mem.drop ptr) = some true
  | 0, start, h, hlt => by
    rw [findLoop] at h
    split_ifs at h
    cases h
    contradiction
  | fuel + 1, start, h, hlt => by
    rw [findLoop] at h
    split_ifs at h
    · obtain ⟨found, hcmp, h⟩ := Option.bind_eq_some_iff.mp h
      cases found with
      | true =>
        cases h
        exact hcmp
      | false =>
        obtain ⟨len, -, h⟩ := Option.bind_eq_some_iff.mp h
        exact findLoop_cmpname h hlt
    · cases h
      contradiction

/-- `getenv` returns `NULL` only if no string has the name. -/
theorem envFindvar_of_getenv (h : (getenv (some name) g).map Prod.snd = some none) :
    envFindvar g name = some none := by
  rw [getenv] at h
  cases hfind : envFindvar g name with
  | none =>
    rw [hfind] at h
    cases h
  | some pvar =>
    cases pvar with
    | none => rfl
    | some pvar =>
      obtain ⟨ptr, hloop, hptr⟩ := Option.bind_eq_some_iff.mp hfind
      split_ifs at hptr with hlt
      · cases hptr
        obtain ⟨pvalue, heq⟩ :=
          strchrEq_of_envCmpname name.nul_notMem (findLoop_cmpname hloop hlt)
        rw [hfind] at h
        simp only [Option.bind_eq_bind, Option.bind_some, heq] at h
        cases hlen : CString.strlen 0 pvalue <;> rw [hlen] at h <;> cases h
      · cases hptr

end Nomem

/-- **A `setenv` that finds no memory** changes nothing if the name had no value, in any environment
and for any name. If it had one, in an environment that stands for a map, the old string is removed
before memory is asked for. -/
theorem setenvNomem_iff (junk : ℕ → UInt8) (room : ℕ) {g g' : Group} (name : Str) (v : Value)
    (overwrite : Bool)
    (hfail : setenvNomem junk room (some name) (some v.toStr) overwrite g = some (g', error)) :
    ((getenv (some name) g).map Prod.snd = some none →
      ∀ k, (getenv k g').map Prod.snd = (getenv k g).map Prod.snd) ∧
    ∀ (m : Env) (n : Name), Represents g m → name = n.toStr → m n ≠ none →
      (getenv (some name) g').map Prod.snd ≠ (getenv (some name) g).map Prod.snd := by
  rw [setenvNomem, setenvBy, if_neg v.ne_nil] at hfail
  constructor
  · intro hnull k
    simp only [envFindvar_of_getenv hnull, ite_self] at hfail
    rw [appendNomem_error hfail, getenv_errno]
  · rintro m n ⟨es, hes, hm⟩ rfl hsome
    rcases absent_or_split n es with hn | ⟨pre, e, post, rfl, rfl⟩
    · exact absurd ((eq_none_iff_absent hm).mpr hn) hsome
    obtain ⟨g₁, hremove, ⟨tail, henvp⟩, hsize⟩ := hes.envRemovevar
    rw [if_neg (by rw [hes.envp]; simp), hes.envFindvar_of_mem, Option.bind_eq_bind,
      Option.bind_some] at hfail
    cases overwrite with
    | false => cases hfail
    | true =>
      dsimp only at hfail
      rw [if_pos rfl, hremove] at hfail
      have hfind : envFindvar g₁ e.1.toStr = some none :=
        envFindvar_of_absent (congrArg Pointer.bytes henvp) hsize hes.absent_erase
      rw [appendNomem_error hfail, getenv_errno, hes.getenv_of_mem, getenv, hfind]
      simp

/-- A name that has no value yet, in an environment with another variable. -/
theorem setenvNomem_iff_other :
    let name : Name := ⟨⟨[65], by decide⟩, by decide, by decide⟩
    let other : Str := ⟨[66], by decide⟩
    let value : Value := ⟨⟨[49, 50], by decide⟩, by decide⟩
    ∃ g g', step (fun _ => 0) {} (.setenv name value) = some (g, .status ok) ∧
      setenvNomem (fun _ => 0) 8 (some other) (some value.toStr) true g = some (g', error) ∧
      ∀ k, (getenv k g').map Prod.snd = (getenv k g).map Prod.snd :=
  ⟨_, _, rfl, rfl, (setenvNomem_iff (fun _ => 0) 8 ⟨[66], by decide⟩
    ⟨⟨[49, 50], by decide⟩, by decide⟩ true rfl).1 rfl⟩

/-- **The value is lost** when it cannot be replaced: the chunk of the block has room for eight
bytes, and ten are needed. -/
theorem value_lost :
    let name : Name := ⟨⟨[65], by decide⟩, by decide, by decide⟩
    let value : Value := ⟨⟨[49], by decide⟩, by decide⟩
    let long : Str := ⟨[49, 50, 51, 52, 53, 54, 55], by decide⟩
    ∃ g g', step (fun _ => 0) {} (.setenv name value) = some (g, .status ok) ∧
      setenvNomem (fun _ => 0) 8 (some name.toStr) (some long) true g = some (g', error) ∧
      (step (fun _ => 0) g (.getenv name)).map Prod.snd = some (.value (some [49])) ∧
      (step (fun _ => 0) g' (.getenv name)).map Prod.snd = some (.value none) :=
  ⟨_, _, rfl, rfl, rfl, rfl⟩

end GreenboneFeeder.Environ
