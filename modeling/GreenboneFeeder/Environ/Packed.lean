import GreenboneFeeder.Environ.Model

/-!
# The packed block

What each function of the environment does with a block that holds strings `name=value`, one behind
the other, of different names.

`Environ.Packed` relates the block to the list of its entries. Each function has a lemma for a name
that is in the list and one for a name that is not. Between `env_removevar` and the reallocation the
block is larger than what it holds (`Environ.Loose`). To remove the only entry leaves a pointer to
freed memory behind (`Environ.Packed.unsetenv_of_only`).
-/

namespace GreenboneFeeder.Environ

open List Option

open CString

/-! ### Entries -/

/-- The name of a variable. -/
structure Name extends Str where
  eqSign_notMem : eqSign ∉ chars
  ne_nil : chars ≠ []
  deriving DecidableEq, Repr

/-- The value of a variable. -/
structure Value extends Str where
  ne_nil : chars ≠ []
  deriving DecidableEq, Repr

/-- A variable and its value. -/
abbrev Entry := Name × Value

/-- The string `name=value` in memory. -/
def encode (e : Entry) : List UInt8 := e.1.chars ++ eqSign :: e.2.mem

/-- The strings one behind the other. -/
def pack (es : List Entry) : List UInt8 := es.flatMap encode

/-- The name of no entry is `n`. -/
def Absent (n : Name) (es : List Entry) : Prop := ∀ e ∈ es, e.1 ≠ n

/-- **The block holds the entries.** -/
structure Packed (g : Group) (es : List Entry) : Prop where
  envp : g.envp = if es = [] then .null else .block (pack es)
  envsize : g.envsize = (pack es).length
  nodup : (es.map Prod.fst).Nodup

section Entries

variable {n : Name} {v : Value} {e : Entry} {es pre post : List Entry} {rest : List UInt8}

theorem Name.ext {n' : Name} (h : n.chars = n'.chars) : n = n' := by
  obtain ⟨⟨_, _⟩, _, _⟩ := n'
  obtain rfl := h
  rfl

@[simp] theorem pack_nil : pack [] = [] := rfl

@[simp] theorem pack_cons : pack (e :: es) = encode e ++ pack es := flatMap_cons

@[simp] theorem pack_append : pack (pre ++ post) = pack pre ++ pack post := flatMap_append

theorem encode_eq (e : Entry) : encode e = (e.1.chars ++ eqSign :: e.2.chars) ++ [0] := by
  simp [encode, Str.mem]

theorem length_encode (e : Entry) :
    (encode e).length = e.1.chars.length + e.2.chars.length + 2 := by
  simp [encode, Str.mem]
  omega

theorem nul_notMem_encode (e : Entry) : 0 ∉ e.1.chars ++ eqSign :: e.2.chars := by
  simp [e.1.nul_notMem, e.2.nul_notMem, eqSign]

theorem strlen_encode (e : Entry) (rest : List UInt8) :
    strlen 0 (encode e ++ rest) = some (e.1.chars.length + e.2.chars.length + 1) := by
  rw [encode_eq, append_assoc, singleton_append, strlen_append (nul_notMem_encode e)]
  simp [Nat.add_assoc]

theorem envCmpname_append {a b : List UInt8} (c : List UInt8) (ha : 0 ∉ a) (haeq : eqSign ∉ a)
    (hb : 0 ∉ b) (hbeq : eqSign ∉ b) :
    envCmpname (a ++ [0]) (b ++ eqSign :: c) = some (decide (b = a)) := by
  induction a generalizing b with
  | nil =>
    cases b with
    | nil => simp [envCmpname, eqSign]
    | cons d b =>
      have hd : d ≠ eqSign := fun hc => hbeq (hc ▸ mem_cons_self)
      have hd0 : 0 ≠ d := fun hc => hb (hc ▸ mem_cons_self)
      simp [envCmpname, hd, hd0]
  | cons x a ih =>
    have hx0 : x ≠ 0 := fun hc => ha (hc ▸ mem_cons_self)
    cases b with
    | nil =>
      have hx : x ≠ eqSign := fun hc => haeq (hc ▸ mem_cons_self)
      simp [envCmpname, hx, hx0]
    | cons d b =>
      rw [cons_append, cons_append, envCmpname]
      split_ifs with hxd
      · rw [ih (fun hc => ha (mem_cons_of_mem _ hc)) (fun hc => haeq (mem_cons_of_mem _ hc))
          (fun hc => hb (mem_cons_of_mem _ hc)) fun hc => hbeq (mem_cons_of_mem _ hc)]
        simp [hxd]
      · simp [hx0, Ne.symm hxd]

/-- **`env_cmpname` compares names.** -/
theorem envCmpname_encode (n : Name) (e : Entry) (rest : List UInt8) :
    envCmpname n.mem (encode e ++ rest) = some (decide (e.1 = n)) := by
  rw [encode, Str.mem, append_assoc, cons_append,
    envCmpname_append _ n.nul_notMem n.eqSign_notMem e.1.nul_notMem e.1.eqSign_notMem]
  exact congrArg some (decide_eq_decide.mpr ⟨Name.ext, fun hc => hc ▸ rfl⟩)

end Entries

/-! ### Searching -/

section Search

variable {g : Group} {n : Name} {e : Entry} {es pre post : List Entry}

theorem findLoop_eq (n : Name) (pre es : List Entry) (tail : List UInt8) (fuel : ℕ)
    (hfuel : (pack es).length ≤ fuel) :
    findLoop n.toStr (pack (pre ++ es) ++ tail) (pack (pre ++ es)).length fuel (pack pre).length =
      some (pack (pre ++ es.takeWhile fun e => e.1 ≠ n)).length := by
  induction es generalizing pre fuel with
  | nil =>
    rw [takeWhile_nil, append_nil]
    cases fuel <;> exact if_neg (Nat.lt_irrefl _)
  | cons e es ih =>
    have hlen := length_encode e
    obtain ⟨fuel, rfl⟩ : ∃ k, fuel = k + 1 := by
      rw [pack_cons, length_append] at hfuel
      exact ⟨fuel - 1, by omega⟩
    have hdrop : (pack (pre ++ e :: es) ++ tail).drop (pack pre).length =
        encode e ++ (pack es ++ tail) := by
      rw [pack_append, append_assoc, drop_left, pack_cons, append_assoc]
    have hlt : (pack pre).length < (pack (pre ++ e :: es)).length := by
      rw [pack_append, pack_cons, length_append, length_append]
      omega
    rw [findLoop, if_pos hlt, hdrop, envCmpname_encode, strlen_encode]
    change (if decide (e.1 = n) = true then _ else _) = _
    split_ifs with hn
    · rw [takeWhile_cons_of_neg (by simpa using hn), append_nil]
    · -- the next entry: `e` has been passed
      have hnext : (pack pre).length + (e.1.chars.length + e.2.chars.length + 1 + 1) =
          (pack (pre ++ [e])).length := by
        rw [pack_append, pack_cons, pack_nil, append_nil, length_append]
        omega
      have hih := ih (pre ++ [e]) fuel (by
        rw [pack_cons, length_append] at hfuel
        omega)
      rw [append_assoc, singleton_append, ← hnext] at hih
      rw [takeWhile_cons_of_pos (by simpa using hn), bind_eq_bind, bind_some, hih,
        append_assoc, singleton_append]

theorem Packed.bytes (h : Packed g es) : g.envp.bytes = pack es := by
  rw [h.envp]
  split_ifs with hes
  · rw [hes]
    rfl
  · rfl

theorem Packed.absent (h : Packed g (pre ++ e :: post)) : Absent e.1 pre ∧ Absent e.1 post := by
  have hnodup := h.nodup
  rw [map_append, map_cons, nodup_append, nodup_cons] at hnodup
  obtain ⟨-, ⟨hpost, -⟩, hdisjoint⟩ := hnodup
  exact ⟨fun d hd => hdisjoint d.1 (mem_map_of_mem hd) e.1 mem_cons_self,
    fun d hd hc => hpost (hc ▸ mem_map_of_mem hd)⟩

/-- **`env_findvar` finds the entry of the name**, at its place in the block. -/
theorem Packed.envFindvar_of_mem (h : Packed g (pre ++ e :: post)) :
    envFindvar g e.1.toStr = some (some (pack pre).length) := by
  have hloop := findLoop_eq e.1 [] (pre ++ e :: post) [] _ (Nat.le_refl _)
  have htake : (pre ++ e :: post).takeWhile (fun d => d.1 ≠ e.1) = pre := by
    rw [takeWhile_append_of_pos fun d hd => by simpa using h.absent.1 d hd,
      takeWhile_cons_of_neg (by simp), append_nil]
  rw [nil_append, append_nil, nil_append, htake] at hloop
  have hlen := length_encode e
  rw [envFindvar, h.bytes, h.envsize]
  change (findLoop _ _ _ _ (pack []).length).bind _ = _
  rw [hloop, bind_some, if_pos]
  rw [pack_append, pack_cons, length_append, length_append]
  omega

/-- **`env_findvar` finds nothing** where no entry has the name; more bytes may follow. -/
theorem envFindvar_of_absent {tail : List UInt8} (hbytes : g.envp.bytes = pack es ++ tail)
    (hsize : g.envsize = (pack es).length) (hn : Absent n es) :
    envFindvar g n.toStr = some none := by
  have hloop := findLoop_eq n [] es tail _ (Nat.le_refl _)
  have htake : es.takeWhile (fun d => d.1 ≠ n) = es := by
    rw [← append_nil es, takeWhile_append_of_pos fun d hd => by simpa using hn d hd]
    rfl
  rw [nil_append, nil_append, htake] at hloop
  rw [envFindvar, hbytes, hsize]
  change (findLoop _ _ _ _ (pack []).length).bind _ = _
  rw [hloop, bind_some, if_neg (Nat.lt_irrefl _)]

theorem Packed.envFindvar_of_absent (h : Packed g es) (hn : Absent n es) :
    envFindvar g n.toStr = some none :=
  Environ.envFindvar_of_absent (h.bytes.trans (append_nil _).symm) h.envsize hn

end Search

/-! ### Removing and appending -/

section Change

variable {g : Group} {n : Name} {v : Value} {e : Entry} {es pre post : List Entry}
  {junk : ℕ → UInt8}

/-- The block holds the entries, and then other bytes. -/
structure Loose (g : Group) (es : List Entry) : Prop where
  envp : ∃ tail, g.envp = .block (pack es ++ tail)
  envsize : g.envsize = (pack es).length

/-- **`env_removevar`** takes the entry out of the block. -/
theorem Packed.envRemovevar (h : Packed g (pre ++ e :: post)) :
    ∃ g', envRemovevar g (pack pre).length = some (g', ok) ∧ Loose g' (pre ++ post) := by
  have hlen := length_encode e
  have hsize := h.envsize
  have hpack : pack (pre ++ e :: post) = pack pre ++ (encode e ++ pack post) := by
    rw [pack_append, pack_cons]
  rw [hpack, length_append, length_append] at hsize
  have hmove := moveDown_append (pack pre) (encode e) (pack post)
  have hcount : g.envsize - ((pack pre).length + (encode e).length) = (pack post).length := by omega
  refine ⟨{ g with
    envp := .block (pack pre ++ pack post ++ (encode e ++ pack post).drop (pack post).length)
    envsize := g.envsize - (encode e).length }, ?_, ⟨_, by rw [pack_append]⟩, ?_⟩
  · rw [Environ.envRemovevar, if_pos (by omega), h.bytes, hpack, drop_left, strlen_encode,
      bind_eq_bind, bind_some]
    dsimp only
    rw [← hlen, hcount, hmove]
    rfl
  · change g.envsize - (encode e).length = _
    rw [pack_append, length_append]
    omega

theorem Loose.appendVar (h : Loose g es) (n : Name) (v : Value) (junk : ℕ → UInt8) :
    ∃ g', appendVar junk n.toStr v.toStr g = some (g', ok) ∧
      g'.envp = .block (pack (es ++ [(n, v)])) ∧ g'.envsize = (pack (es ++ [(n, v)])).length := by
  obtain ⟨⟨tail, henvp⟩, hsize⟩ := h
  have hlen := length_encode (n, v)
  obtain ⟨varlen, hvarlen⟩ : ∃ k, n.chars.length + v.chars.length + 2 = k := ⟨_, rfl⟩
  rw [hvarlen] at hlen
  -- the block after `kumm_realloc`: the entries, and room for the new string
  obtain ⟨room, hroom, hblock⟩ : ∃ room : List UInt8, room.length = (encode (n, v)).length ∧
      (pack es ++ tail).take (g.envsize + varlen) ++
        (range (g.envsize + varlen - (pack es ++ tail).length)).map junk = pack es ++ room := by
    rw [hsize, take_length_add_append, append_assoc]
    refine ⟨_, ?_, rfl⟩
    rw [length_append, length_take, length_map, length_range, length_append]
    omega
  have hrealloc : kummRealloc junk g.envp (g.envsize + varlen) =
      some (.block (pack es ++ room), .freed) := by
    rw [henvp, kummRealloc, if_neg (by omega), hblock]
  have hwrite : writeAt (pack es ++ room) g.envsize (encode (n, v)) =
      some (pack (es ++ [(n, v)])) := by
    rw [hsize, writeAt_append hroom, pack_append, pack_cons, pack_nil, append_nil]
  refine ⟨{ g with envp := .block (pack (es ++ [(n, v)])), envsize := g.envsize + varlen }, ?_,
    rfl, ?_⟩
  · rw [Environ.appendVar, hvarlen, if_neg (by rw [henvp]; simp)]
    dsimp only
    rw [hrealloc]
    change (writeAt (pack es ++ room) g.envsize (encode (n, v))).bind _ = _
    rw [hwrite]
    rfl
  · rw [pack_append, pack_cons, pack_nil, append_nil, length_append, hsize, hlen]

theorem appendVar_of_null (henvp : g.envp = .null) (n : Name) (v : Value) (junk : ℕ → UInt8) :
    ∃ g', appendVar junk n.toStr v.toStr g = some (g', ok) ∧
      g'.envp = .block (pack [(n, v)]) ∧ g'.envsize = (pack [(n, v)]).length := by
  have hlen := length_encode (n, v)
  have hwrite := writeAt_append (a := []) (b := (range (encode (n, v)).length).map junk)
    (l := encode (n, v)) (by simp)
  rw [nil_append] at hwrite
  refine ⟨{ g with envp := .block (encode (n, v)), envsize := (encode (n, v)).length }, ?_, ?_, ?_⟩
  · rw [Environ.appendVar, if_pos henvp, ← hlen]
    change (writeAt ((range (encode (n, v)).length).map junk) ([] : List UInt8).length
      (encode (n, v))).bind _ = _
    rw [hwrite]
    rfl
  · rw [pack_cons, pack_nil, append_nil]
  · rw [pack_cons, pack_nil, append_nil]

theorem nodup_append_of_absent (hnodup : (es.map Prod.fst).Nodup) (hn : Absent n es) :
    ((es ++ [(n, v)]).map Prod.fst).Nodup := by
  rw [map_append, nodup_append]
  refine ⟨hnodup, pairwise_singleton _ _, fun a ha b hb => ?_⟩
  obtain ⟨d, hd, rfl⟩ := mem_map.mp ha
  rw [mem_singleton.mp hb]
  exact hn d hd

theorem Packed.nodup_erase (h : Packed g (pre ++ e :: post)) :
    ((pre ++ post).map Prod.fst).Nodup :=
  h.nodup.sublist (((sublist_cons_self e post).append_left pre).map Prod.fst)

theorem Packed.absent_erase (h : Packed g (pre ++ e :: post)) : Absent e.1 (pre ++ post) := by
  intro d hd
  rcases mem_append.mp hd with hd | hd
  · exact h.absent.1 d hd
  · exact h.absent.2 d hd

theorem packed_append {g' : Group} (hnodup : (es.map Prod.fst).Nodup) (hn : Absent n es)
    (henvp : g'.envp = .block (pack (es ++ [(n, v)])))
    (hsize : g'.envsize = (pack (es ++ [(n, v)])).length) : Packed g' (es ++ [(n, v)]) :=
  ⟨by rw [henvp, if_neg (by simp)], hsize, nodup_append_of_absent hnodup hn⟩

/-! ### The interface -/

/-- **`setenv`** of a new name. -/
theorem Packed.setenv_of_absent (h : Packed g es) (hn : Absent n es) (v : Value)
    (junk : ℕ → UInt8) :
    ∃ g', setenv junk (some n.toStr) (some v.toStr) true g = some (g', ok) ∧
      Packed g' (es ++ [(n, v)]) := by
  have henvp := h.envp
  split_ifs at henvp with hes
  · subst hes
    obtain ⟨g', happend, henvp', hsize⟩ := appendVar_of_null henvp n v junk
    refine ⟨g', ?_, packed_append h.nodup hn henvp' hsize⟩
    rw [setenv, setenvBy, if_neg v.ne_nil, if_pos henvp]
    exact happend
  · have hloose : Loose g es := ⟨⟨[], by rw [henvp, append_nil]⟩, h.envsize⟩
    obtain ⟨g', happend, henvp', hsize⟩ := hloose.appendVar n v junk
    refine ⟨g', ?_, packed_append h.nodup hn henvp' hsize⟩
    rw [setenv, setenvBy, if_neg v.ne_nil, if_neg (by rw [henvp]; simp), h.envFindvar_of_absent hn]
    exact happend

/-- **`setenv`** of a name that has a value. -/
theorem Packed.setenv_of_mem (h : Packed g (pre ++ e :: post)) (v : Value) (junk : ℕ → UInt8) :
    ∃ g', setenv junk (some e.1.toStr) (some v.toStr) true g = some (g', ok) ∧
      Packed g' (pre ++ post ++ [(e.1, v)]) := by
  have henvp := h.envp
  obtain ⟨g₁, hremove, hloose⟩ := h.envRemovevar
  obtain ⟨g', happend, henvp', hsize⟩ := hloose.appendVar e.1 v junk
  refine ⟨g', ?_, packed_append h.nodup_erase h.absent_erase henvp' hsize⟩
  rw [setenv, setenvBy, if_neg v.ne_nil, if_neg (by rw [henvp]; simp), h.envFindvar_of_mem,
    bind_eq_bind, bind_some]
  dsimp only
  rw [hremove]
  exact happend

theorem Packed.unsetenv_of_absent (h : Packed g es) (hn : Absent n es) (junk : ℕ → UInt8) :
    unsetenv junk n.toStr g = some (g, ok) := by
  rw [unsetenv, h.envFindvar_of_absent hn]
  rfl

/-- **`unsetenv`** of one of several variables. -/
theorem Packed.unsetenv_of_mem (h : Packed g (pre ++ e :: post)) (hne : pre ++ post ≠ [])
    (junk : ℕ → UInt8) :
    ∃ g', unsetenv junk e.1.toStr g = some (g', ok) ∧ Packed g' (pre ++ post) := by
  obtain ⟨g₁, hremove, ⟨tail, henvp⟩, hsize⟩ := h.envRemovevar
  have hpos : 0 < (pack (pre ++ post)).length := by
    obtain ⟨d, ds, hd⟩ := exists_cons_of_ne_nil hne
    have := length_encode d
    rw [hd, pack_cons, length_append]
    omega
  have hrealloc :
      kummRealloc junk g₁.envp g₁.envsize = some (.block (pack (pre ++ post)), .freed) := by
    rw [henvp, hsize, kummRealloc, if_neg (by omega), take_left]
    simp
  refine ⟨{ g₁ with envp := .block (pack (pre ++ post)) }, ?_, ?_, hsize, h.nodup_erase⟩
  · rw [unsetenv, h.envFindvar_of_mem, bind_eq_bind, bind_some]
    dsimp only
    rw [hremove, bind_eq_bind, bind_some]
    rw [hrealloc]
    rfl
  · rw [if_neg hne]

/-- **`unsetenv` of the only variable** fails, and `tg_envp` points to memory that has been
freed. -/
theorem Packed.unsetenv_of_only (h : Packed g [e]) (junk : ℕ → UInt8) :
    ∃ g', unsetenv junk e.1.toStr g = some (g', error) ∧ g'.envp = .freed := by
  have hfind : envFindvar g e.1.toStr = some (some (pack []).length) := Packed.envFindvar_of_mem h
  obtain ⟨g₁, hremove, ⟨tail, henvp⟩, hsize⟩ :
      ∃ g', Environ.envRemovevar g (pack []).length = some (g', ok) ∧ Loose g' ([] ++ []) :=
    Packed.envRemovevar h
  have hrealloc : kummRealloc junk g₁.envp g₁.envsize = some (.null, .freed) := by
    rw [henvp, hsize]
    rfl
  refine ⟨{ g₁ with envp := .freed, errno := enomem }, ?_, rfl⟩
  rw [unsetenv, hfind, bind_eq_bind, bind_some]
  dsimp only
  rw [hremove, bind_eq_bind, bind_some]
  rw [hrealloc]
  rfl

theorem Packed.getenv_of_absent (h : Packed g es) (hn : Absent n es) :
    ∃ g', getenv (some n.toStr) g = some (g', none) ∧ Packed g' es := by
  refine ⟨{ g with errno := enoent }, ?_, ⟨h.envp, h.envsize, h.nodup⟩⟩
  rw [getenv, h.envFindvar_of_absent hn]
  rfl

theorem strchrEq_append {a : List UInt8} (c : List UInt8) (ha : 0 ∉ a) (haeq : eqSign ∉ a) :
    strchrEq (a ++ eqSign :: c) = some (some c) := by
  induction a with
  | nil => exact if_pos rfl
  | cons x a ih =>
    have hx : x ≠ eqSign := fun hc => haeq (hc ▸ mem_cons_self)
    have hx0 : x ≠ 0 := fun hc => ha (hc ▸ mem_cons_self)
    rw [cons_append, strchrEq, if_neg hx, if_neg hx0]
    exact ih (fun hc => ha (mem_cons_of_mem _ hc)) fun hc => haeq (mem_cons_of_mem _ hc)

/-- **`getenv`** of a name that has a value. -/
theorem Packed.getenv_of_mem (h : Packed g (pre ++ e :: post)) :
    getenv (some e.1.toStr) g = some (g, some e.2.chars) := by
  have hdrop : g.envp.bytes.drop (pack pre).length =
      e.1.chars ++ eqSign :: (e.2.chars ++ 0 :: pack post) := by
    rw [h.bytes, pack_append, pack_cons, encode, Str.mem]
    simp
  rw [getenv, h.envFindvar_of_mem, bind_eq_bind, bind_some]
  dsimp only
  rw [hdrop, strchrEq_append _ e.1.nul_notMem e.1.eqSign_notMem, bind_eq_bind, bind_some]
  dsimp only
  rw [strlen_append e.2.nul_notMem, bind_eq_bind, bind_some, take_left]

end Change

end GreenboneFeeder.Environ
