import GreenboneFeeder.Dogfeed.Server

/-!
# The protocol, and where the server departs from it

The protocol that heads `server.c` reads a buffer as a sequence of commands: a letter and the two
characters of its value. It is `Dogfeed.protocol`, a plain recursion over the buffer: three bytes
that form a command are one, and a byte that does not start one is skipped.

The server agrees with it as long as no command is *cut off*. When a letter or another byte arrives
after the first character of a value, the source clears `dog_cmd` but not `first_digit`: the
character in `value[0]` becomes the first one of the next command's value. `Dogfeed.CutOffsHarmless`
says when that is not visible, and `Dogfeed.createServer_eq_protocol_iff` is the equivalence.
-/

namespace GreenboneFeeder.Dogfeed

open List

/-! ### The protocol -/

/-- **The protocol**: a command is a letter followed immediately by two characters of a value;
everything else is skipped. -/
def protocol : List UInt8 → List (UInt8 × ℤ)
  | c :: d :: e :: rest =>
      if isCommand c && isValue d && isValue e then (c, atoi [d, e]) :: protocol rest
      else protocol (d :: e :: rest)
  | _ => []

/-- The commands executed one after another. -/
def execAll (cmds : List (UInt8 × ℤ)) (s : Statics) : Statics :=
  cmds.foldl (fun s c => execCommand c.1 c.2 s) s

/-- The replies among the writes of a step. -/
def replies (s : Statics) : List (List UInt8) :=
  s.writes.filterMap fun w => match w with
    | .reply bytes => some bytes
    | _ => none

section Protocol

variable {b c d e x : UInt8} {bs : List UInt8}

theorem protocol_skip (h : isCommand b = false) : protocol (b :: bs) = protocol bs := by
  match bs with
  | [] => rfl
  | [_] => rfl
  | d :: e :: bs => simp [protocol, h]

theorem protocol_cut (h : isValue x = false) : protocol (c :: x :: bs) = protocol (x :: bs) := by
  match bs with
  | [] => rfl
  | e :: bs => simp [protocol, h]

theorem protocol_cut_value (hd : isValue d = true) (h : isValue x = false) :
    protocol (c :: d :: x :: bs) = protocol (x :: bs) := by
  rw [protocol, if_neg (by simp [h]), protocol_skip (isCommand_eq_false_of_isValue hd)]

theorem protocol_command (hc : isCommand c = true) (hd : isValue d = true) (he : isValue e = true) :
    protocol (c :: d :: e :: bs) = (c, atoi [d, e]) :: protocol bs := by
  rw [protocol, if_pos (by simp [hc, hd, he])]

end Protocol

/-! ### The commands the server executes -/

/-- The commands of a buffer as the server's variables complete them. -/
def rxCommands : List UInt8 → Rx → List (UInt8 × ℤ)
  | [], _ => []
  | b :: bs, r =>
      match rxByte b r with
      | (r', none) => rxCommands bs r'
      | (r', some c) => c :: rxCommands bs r'

theorem serveBuffer_eq (bs : List UInt8) (r : Rx) (s : Statics) :
    serveBuffer bs r s = (execAll (rxCommands bs r) s, rxCommands bs r) := by
  induction bs generalizing r s with
  | nil => rfl
  | cons b bs ih =>
    rcases h : rxByte b r with ⟨r', _ | ⟨cmd, val⟩⟩
    · simp only [serveBuffer, rxCommands, h, ih]
    · simp only [serveBuffer, rxCommands, h, ih, execAll, foldl_cons]

section RxCommands

variable {b c v : UInt8} {bs : List UInt8} {first : Bool}

theorem rxCommands_letter (h : isCommand b = true) :
    rxCommands (b :: bs) ⟨c, first, v⟩ = rxCommands bs ⟨b, first, v⟩ := by
  simp [rxCommands, rxByte, h]

theorem rxCommands_other (h : isCommand b = false) (h' : isValue b = false) :
    rxCommands (b :: bs) ⟨c, first, v⟩ = rxCommands bs ⟨0, first, v⟩ := by
  simp [rxCommands, rxByte, h, h']

theorem rxCommands_outside (h : isValue b = true) :
    rxCommands (b :: bs) ⟨0, first, v⟩ = rxCommands bs ⟨0, first, v⟩ := by
  simp [rxCommands, rxByte, h, isCommand_eq_false_of_isValue h]

theorem ne_zero_of_isCommand (hc : isCommand c = true) : c ≠ 0 := by
  rintro rfl
  exact absurd hc (by decide)

theorem rxCommands_first (h : isValue b = true) (hc : isCommand c = true) :
    rxCommands (b :: bs) ⟨c, true, v⟩ = rxCommands bs ⟨c, false, b⟩ := by
  simp [rxCommands, rxByte, h, isCommand_eq_false_of_isValue h, ne_zero_of_isCommand hc]

theorem rxCommands_second (h : isValue b = true) (hc : isCommand c = true) :
    rxCommands (b :: bs) ⟨c, false, v⟩ =
      (c, atoi [v, b]) :: rxCommands bs ⟨0, true, v⟩ := by
  simp [rxCommands, rxByte, h, isCommand_eq_false_of_isValue h, ne_zero_of_isCommand hc]

end RxCommands

/-! ### When a cut-off command does no harm -/

/-- A character `d` left over from a cut-off command does no harm: at the first letter directly
followed by a value character `e`, a second one `f` follows, and `d e` is the same value as `e f`.
-/
def LeftoverHarmless (d : UInt8) : List UInt8 → Prop
  | l :: e :: rest =>
      if isCommand l && isValue e then
        match rest with
        | f :: _ => isValue f = true ∧ atoi [d, e] = atoi [e, f]
        | [] => False
      else LeftoverHarmless d (e :: rest)
  | _ => True

/-- **Every cut-off command does no harm**: wherever a letter `c` and one value character `d` are
followed by a byte `x` that is no value character, `d` does no harm from `x` on. -/
def CutOffsHarmless (bs : List UInt8) : Prop :=
  ∀ c d x rest, (c :: d :: x :: rest) <:+ bs → isCommand c = true → isValue d = true →
    isValue x = false → LeftoverHarmless d (x :: rest)

section Harmless

variable {b c d e x l : UInt8} {bs : List UInt8}

theorem leftoverHarmless_skip (h : isCommand x = false) :
    LeftoverHarmless d (x :: bs) ↔ LeftoverHarmless d bs := by
  cases bs with
  | nil => simp [LeftoverHarmless]
  | cons e bs => simp [LeftoverHarmless, h]

theorem leftoverHarmless_cut (h : isValue x = false) :
    LeftoverHarmless d (l :: x :: bs) ↔ LeftoverHarmless d (x :: bs) := by
  simp [LeftoverHarmless, h]

theorem cutOffsHarmless_cons :
    CutOffsHarmless (b :: bs) ↔
      (∀ d x rest, bs = d :: x :: rest → isCommand b = true → isValue d = true →
        isValue x = false → LeftoverHarmless d (x :: rest)) ∧ CutOffsHarmless bs := by
  constructor
  · refine fun h => ⟨?_, fun c d x rest hs => h c d x rest (hs.trans (suffix_cons b bs))⟩
    rintro d x rest rfl
    exact h b d x rest suffix_rfl
  · rintro ⟨h, ht⟩ c d x rest hs
    rcases suffix_cons_iff.mp hs with heq | hs
    · cases heq
      exact h d x rest rfl
    · exact ht c d x rest hs

theorem cutOffsHarmless_nil : CutOffsHarmless [] :=
  fun _ _ _ _ hs => absurd (suffix_nil.mp hs) (by simp)

theorem cutOffsHarmless_skip (h : isCommand b = false) :
    CutOffsHarmless (b :: bs) ↔ CutOffsHarmless bs := by
  rw [cutOffsHarmless_cons]
  simp [h]

theorem cutOffsHarmless_letter_nil : CutOffsHarmless [b] := by
  rw [cutOffsHarmless_cons]
  simp [cutOffsHarmless_nil]

theorem cutOffsHarmless_letter_cut (h : isValue x = false) :
    CutOffsHarmless (b :: x :: bs) ↔ CutOffsHarmless (x :: bs) := by
  rw [cutOffsHarmless_cons]
  refine and_iff_right ?_
  rintro d y rest heq - hd
  rw [(cons.inj heq).1, hd] at h
  exact absurd h (by simp)

theorem cutOffsHarmless_command (hd : isValue d = true) (he : isValue e = true) :
    CutOffsHarmless (c :: d :: e :: bs) ↔ CutOffsHarmless bs := by
  rw [cutOffsHarmless_cons, cutOffsHarmless_skip (isCommand_eq_false_of_isValue hd),
    cutOffsHarmless_skip (isCommand_eq_false_of_isValue he)]
  refine and_iff_right ?_
  intro d' x rest heq _ _ hx
  obtain ⟨-, heq⟩ := cons.inj heq
  rw [← (cons.inj heq).1, he] at hx
  exact absurd hx (by simp)

theorem cutOffsHarmless_letter_value (hd : isValue d = true) : CutOffsHarmless [c, d] := by
  rw [cutOffsHarmless_cons, cutOffsHarmless_skip (isCommand_eq_false_of_isValue hd)]
  simp [cutOffsHarmless_nil]

theorem cutOffsHarmless_cutOff (hc : isCommand c = true) (hd : isValue d = true)
    (hx : isValue x = false) :
    CutOffsHarmless (c :: d :: x :: bs) ↔
      LeftoverHarmless d (x :: bs) ∧ CutOffsHarmless (x :: bs) := by
  rw [cutOffsHarmless_cons, cutOffsHarmless_skip (isCommand_eq_false_of_isValue hd)]
  refine and_congr_left fun _ => ⟨fun h => h d x bs rfl hc hd hx, ?_⟩
  rintro h d' x' rest heq - - -
  cases heq
  exact h

end Harmless

/-! ### The server against the protocol -/

theorem byte_cases (b : UInt8) :
    (isCommand b = true ∧ isValue b = false) ∨ (isCommand b = false ∧ isValue b = true) ∨
      (isCommand b = false ∧ isValue b = false) := by
  cases hv : isValue b with
  | true => exact .inr (.inl ⟨isCommand_eq_false_of_isValue hv, rfl⟩)
  | false => cases hc : isCommand b <;> simp

/-- **The server never executes fewer commands than the protocol**: outside a command, after a
letter, and after the first character of the value. -/
theorem length_protocol_le (bs : List UInt8) :
    (∀ first v, (protocol bs).length ≤ (rxCommands bs ⟨0, first, v⟩).length) ∧
    (∀ c first v, isCommand c = true →
      (protocol (c :: bs)).length ≤ (rxCommands bs ⟨c, first, v⟩).length) ∧
    ∀ c d, isCommand c = true → isValue d = true →
      (protocol (c :: d :: bs)).length ≤ (rxCommands bs ⟨c, false, d⟩).length := by
  induction bs with
  | nil => exact ⟨fun _ _ => Nat.zero_le _, fun _ _ _ _ => Nat.zero_le _,
      fun _ _ _ _ => Nat.zero_le _⟩
  | cons b bs ih =>
    obtain ⟨ihOut, ihLetter, ihFirst⟩ := ih
    rcases byte_cases b with ⟨hb, hb'⟩ | ⟨hb, hb'⟩ | ⟨hb, hb'⟩
    · refine ⟨fun first v => ?_, fun c first v _ => ?_, fun c d hc hd => ?_⟩
      · rw [rxCommands_letter hb]
        exact ihLetter b first v hb
      · rw [rxCommands_letter hb, protocol_cut hb']
        exact ihLetter b first v hb
      · rw [rxCommands_letter hb, protocol_cut_value hd hb']
        exact ihLetter b false d hb
    · refine ⟨fun first v => ?_, fun c first v hc => ?_, fun c d hc hd => ?_⟩
      · rw [rxCommands_outside hb', protocol_skip hb]
        exact ihOut first v
      · cases first with
        | true =>
          rw [rxCommands_first hb' hc]
          exact ihFirst c b hc hb'
        | false =>
          -- the server completes a command here, the protocol at best one byte later
          rw [rxCommands_second hb' hc]
          have h := ihOut true v
          match bs with
          | [] => exact Nat.zero_le _
          | f :: bs =>
            cases hf : isValue f with
            | true =>
              rw [protocol_command hc hb' hf]
              rw [protocol_skip (isCommand_eq_false_of_isValue hf)] at h
              exact Nat.succ_le_succ h
            | false =>
              rw [protocol_cut_value hb' hf]
              exact Nat.le_succ_of_le h
      · rw [rxCommands_second hb' hc, protocol_command hc hd hb']
        exact Nat.succ_le_succ (ihOut true d)
    · refine ⟨fun first v => ?_, fun c first v _ => ?_, fun c d hc hd => ?_⟩
      · rw [rxCommands_other hb hb', protocol_skip hb]
        exact ihOut first v
      · rw [rxCommands_other hb hb', protocol_cut hb', protocol_skip hb]
        exact ihOut first v
      · rw [rxCommands_other hb hb', protocol_cut_value hd hb', protocol_skip hb]
        exact ihOut false d

/-- The server with nothing left over, against the protocol: outside a command,
after a letter, and after the first character of a value. -/
def AgreesWhenClean (bs : List UInt8) : Prop :=
  (∀ v, rxCommands bs ⟨0, true, v⟩ = protocol bs ↔ CutOffsHarmless bs) ∧
  (∀ c v, isCommand c = true →
    (rxCommands bs ⟨c, true, v⟩ = protocol (c :: bs) ↔ CutOffsHarmless (c :: bs))) ∧
  ∀ c d, isCommand c = true → isValue d = true →
    (rxCommands bs ⟨c, false, d⟩ = protocol (c :: d :: bs) ↔ CutOffsHarmless (c :: d :: bs))

/-- The server with a character `d` left over, against the protocol: outside a
command and after a letter. -/
def AgreesWithLeftover (bs : List UInt8) : Prop :=
  (∀ d, rxCommands bs ⟨0, false, d⟩ = protocol bs ↔
    LeftoverHarmless d bs ∧ CutOffsHarmless bs) ∧
  ∀ c d, isCommand c = true →
    (rxCommands bs ⟨c, false, d⟩ = protocol (c :: bs) ↔
      LeftoverHarmless d (c :: bs) ∧ CutOffsHarmless (c :: bs))

variable {bs : List UInt8}

theorem agreesWhenClean_cons {b : UInt8} (clean : AgreesWhenClean bs)
    (leftover : AgreesWithLeftover bs) : AgreesWhenClean (b :: bs) := by
  obtain ⟨ihOut, ihLetter, ihFirst⟩ := clean
  obtain ⟨ihOut', ihLetter'⟩ := leftover
  rcases byte_cases b with ⟨hb, hb'⟩ | ⟨hb, hb'⟩ | ⟨hb, hb'⟩
  · refine ⟨fun v => ?_, fun c v hc => ?_, fun c d hc hd => ?_⟩
    · rw [rxCommands_letter hb]
      exact ihLetter b v hb
    · rw [rxCommands_letter hb, protocol_cut hb', cutOffsHarmless_letter_cut hb']
      exact ihLetter b v hb
    · rw [rxCommands_letter hb, protocol_cut_value hd hb', cutOffsHarmless_cutOff hc hd hb']
      exact ihLetter' b d hb
  · refine ⟨fun v => ?_, fun c v hc => ?_, fun c d hc hd => ?_⟩
    · rw [rxCommands_outside hb', protocol_skip hb, cutOffsHarmless_skip hb]
      exact ihOut v
    · rw [rxCommands_first hb' hc]
      exact ihFirst c b hc hb'
    · rw [rxCommands_second hb' hc, protocol_command hc hd hb', cutOffsHarmless_command hd hb',
        cons_inj_right]
      exact ihOut d
  · refine ⟨fun v => ?_, fun c v hc => ?_, fun c d hc hd => ?_⟩
    · rw [rxCommands_other hb hb', protocol_skip hb, cutOffsHarmless_skip hb]
      exact ihOut v
    · rw [rxCommands_other hb hb', protocol_cut hb', protocol_skip hb,
        cutOffsHarmless_letter_cut hb', cutOffsHarmless_skip hb]
      exact ihOut v
    · rw [rxCommands_other hb hb', protocol_cut_value hd hb', protocol_skip hb,
        cutOffsHarmless_cutOff hc hd hb', cutOffsHarmless_skip hb, leftoverHarmless_skip hb]
      exact ihOut' d

/-- The left-over character meets its letter: it completes a command one byte
early, and the two readings agree exactly when that is not visible. -/
theorem leftover_completes {b c d : UInt8} (clean : AgreesWhenClean bs)
    (hc : isCommand c = true) (hb : isValue b = true) :
    rxCommands (b :: bs) ⟨c, false, d⟩ = protocol (c :: b :: bs) ↔
      LeftoverHarmless d (c :: b :: bs) ∧ CutOffsHarmless (c :: b :: bs) := by
  rw [rxCommands_second hb hc]
  match bs with
  | [] => simp [protocol, LeftoverHarmless, hc, hb]
  | f :: bs =>
    have hlen := (length_protocol_le (f :: bs)).1 true d
    cases hf : isValue f with
    | true =>
      have h := clean.1 d
      rw [protocol_skip (isCommand_eq_false_of_isValue hf),
        cutOffsHarmless_skip (isCommand_eq_false_of_isValue hf)] at h
      rw [protocol_command hc hb hf, cutOffsHarmless_command hb hf, cons.injEq, h]
      simp [LeftoverHarmless, hc, hb, hf]
    | false =>
      rw [protocol_cut_value hb hf]
      refine iff_of_false (fun heq => ?_) (by simp [LeftoverHarmless, hc, hb, hf])
      have := congrArg length heq
      rw [length_cons] at this
      omega

theorem agreesWithLeftover_cons {b : UInt8} (clean : AgreesWhenClean bs)
    (leftover : AgreesWithLeftover bs) : AgreesWithLeftover (b :: bs) := by
  obtain ⟨ihOut, ihLetter⟩ := leftover
  rcases byte_cases b with ⟨hb, hb'⟩ | ⟨hb, hb'⟩ | ⟨hb, hb'⟩
  · refine ⟨fun d => ?_, fun c d hc => ?_⟩
    · rw [rxCommands_letter hb]
      exact ihLetter b d hb
    · rw [rxCommands_letter hb, protocol_cut hb', leftoverHarmless_cut hb',
        cutOffsHarmless_letter_cut hb']
      exact ihLetter b d hb
  · refine ⟨fun d => ?_, fun c d hc => leftover_completes clean hc hb'⟩
    rw [rxCommands_outside hb', protocol_skip hb, leftoverHarmless_skip hb, cutOffsHarmless_skip hb]
    exact ihOut d
  · refine ⟨fun d => ?_, fun c d hc => ?_⟩
    · rw [rxCommands_other hb hb', protocol_skip hb, leftoverHarmless_skip hb,
        cutOffsHarmless_skip hb]
      exact ihOut d
    · rw [rxCommands_other hb hb', protocol_cut hb', protocol_skip hb, leftoverHarmless_cut hb',
        leftoverHarmless_skip hb, cutOffsHarmless_letter_cut hb', cutOffsHarmless_skip hb]
      exact ihOut d

theorem agrees (bs : List UInt8) : AgreesWhenClean bs ∧ AgreesWithLeftover bs := by
  induction bs with
  | nil =>
    refine ⟨⟨fun v => ?_, fun c v hc => ?_, fun c d hc hd => ?_⟩, fun d => ?_, fun c d hc => ?_⟩
    · exact iff_of_true rfl cutOffsHarmless_nil
    · exact iff_of_true rfl cutOffsHarmless_letter_nil
    · exact iff_of_true rfl (cutOffsHarmless_letter_value hd)
    · exact iff_of_true rfl ⟨trivial, cutOffsHarmless_nil⟩
    · exact iff_of_true rfl ⟨trivial, cutOffsHarmless_letter_nil⟩
  | cons b bs ih => exact ⟨agreesWhenClean_cons ih.1 ih.2, agreesWithLeftover_cons ih.1 ih.2⟩

/-- **The server implements its protocol exactly when no cut-off command does harm**: the executed
commands and the replies are those of the protocol if and only if every character left over goes
unnoticed. -/
theorem createServer_eq_protocol_iff (mybuffer : List UInt8) (s : Statics) :
    ((createServer mybuffer s).2 = protocol mybuffer ∧
      replies (createServer mybuffer s).1 = replies (execAll (protocol mybuffer) s)) ↔
    CutOffsHarmless mybuffer := by
  rw [createServer, serveBuffer_eq, ← (agrees mybuffer).1.1 0]
  refine and_iff_left_of_imp fun h => ?_
  rw [← h]

/-- A digit leaks: in `"A5B12"` the `A` is cut off, and the server executes the `B` with `51`, where
the protocol executes it with `12`. -/
theorem createServer_leaks_digit :
    ¬((createServer [65, 53, 66, 49, 50] {}).2 = protocol [65, 53, 66, 49, 50] ∧
      replies (createServer [65, 53, 66, 49, 50] {}).1 =
        replies (execAll (protocol [65, 53, 66, 49, 50]) {})) := by
  rintro ⟨h, -⟩
  exact absurd h (by decide)

end GreenboneFeeder.Dogfeed
