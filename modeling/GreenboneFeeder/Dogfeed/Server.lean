import GreenboneFeeder.Dogfeed.Settings

/-!
# The command server

`create_server` reads at most `RXBUFFER_SIZE` bytes from a client, walks over them with a state
machine, and executes every command it completes. The variables `dog_cmd`, `first_digit` and
`value[0]` live from one byte to the next. `Dogfeed.rxByte` is what one byte does to them, and which
command it completes; `Dogfeed.execCommand` is what a command does to the settings and sends back.
-/

namespace GreenboneFeeder.Dogfeed

/-- `RXBUFFER_SIZE`. -/
def rxBufferSize : ℕ := 128

/-! ### Reading a number -/

/-- The accumulation loop of `strtoul` in base ten, over the characters left. -/
def strtoul (accum : ℕ) : List UInt8 → ℕ
  | [] => accum
  | ch :: rest =>
      if 48 ≤ ch ∧ ch ≤ 57 then strtoul (accum * 10 + (ch.toNat - 48)) rest else accum

/-- The white space `lib_skipspace` skips. -/
def isSpace (ch : UInt8) : Bool :=
  ch = 32 || ch = 9 || ch = 10 || ch = 13 || ch = 12 || ch = 11

/-- `atoi`, which is `strtol` in base ten: leading white space, an optional sign,
and the digits up to the first other character. -/
def atoi (nptr : List UInt8) : ℤ :=
  match nptr.dropWhile isSpace with
  | 45 :: rest => -(strtoul 0 (rest.dropWhile isSpace) : ℤ)
  | 43 :: rest => strtoul 0 (rest.dropWhile isSpace)
  | rest => strtoul 0 (rest.dropWhile isSpace)

/-! ### The receiving state machine -/

/-- A byte that starts a command: `'A'..'I'`. -/
def isCommand (b : UInt8) : Bool := 65 ≤ b && b ≤ 73

/-- A byte of a value: `'0'..'9'` or `'?'`. -/
def isValue (b : UInt8) : Bool := (48 ≤ b && b ≤ 57) || b = 63

theorem isCommand_eq_false_of_isValue {b : UInt8} (h : isValue b = true) : isCommand b = false := by
  simp only [isValue, isCommand, Bool.or_eq_true, Bool.and_eq_true, decide_eq_true_eq,
    Bool.and_eq_false_iff, decide_eq_false_iff_not, UInt8.le_iff_toNat_le] at *
  rcases h with h | rfl
  · exact .inl (fun hc => absurd (Nat.le_trans hc h.2) (by decide))
  · exact .inl (by decide)

/-- The variables of the receiving loop. Of `value` only the first cell is read at a later byte, and
only while `first_digit` is clear; the reply of a read command overwrites it, but sets `first_digit`
again. -/
structure Rx where
  dogCmd : UInt8 := 0
  firstDigit : Bool := true
  value0 : UInt8 := 0
  deriving DecidableEq, Repr

/-- **One byte of the buffer**: what it does to the variables, and the command
with its value that it completes. -/
def rxByte (b : UInt8) (r : Rx) : Rx × Option (UInt8 × ℤ) :=
  if isCommand b then ({ r with dogCmd := b }, none)
  else if isValue b then
    if r.dogCmd = 0 then (r, none)
    else if r.firstDigit then ({ r with value0 := b, firstDigit := false }, none)
    else ({ r with dogCmd := 0, firstDigit := true }, some (r.dogCmd, atoi [r.value0, b]))
  else ({ r with dogCmd := 0 }, none)

/-! ### Executing a command -/

/-- The reply to a read command: the letter, two decimal digits, a line feed and
the terminating zero, all five of them sent. -/
def reply (cmd : UInt8) (v : UInt8) (s : Statics) : Statics :=
  { s with writes := s.writes ++ [.reply [cmd, v / 10 + 48, v % 10 + 48, 10, 0]] }

/-- What a completed command does. The letters `'A'..'I'` are 65 to 73; at most one of the tests of
the source succeeds. -/
def execCommand (dogCmd : UInt8) (val : ℤ) (s : Statics) : Statics :=
  if dogCmd = 65 then
    setPercentFood (UInt8.ofInt val) (setMode percentFoodKey (setRunning 0 s))
  else if dogCmd = 66 then
    if 0 ≤ val ∧ val ≤ 24 then
      setPeriodFood (UInt8.ofInt val) (setMode periodFoodKey (setRunning 0 s))
    else s
  else if dogCmd = 67 then
    if 0 ≤ val ∧ val ≤ 24 then
      setPeriodWater (UInt8.ofInt val) (setMode periodWaterKey (setRunning 0 s))
    else s
  else if dogCmd = 68 then setConfirmMode s
  else if dogCmd = 69 then reply 69 s.percentFood s
  else if dogCmd = 70 then reply 70 s.periodFood s
  else if dogCmd = 71 then reply 71 s.periodWater s
  else if dogCmd = 73 then increaseValue s
  else if dogCmd = 72 then decreaseValue s
  else s

/-- The loop over one received buffer: the settings with everything written and
sent, and the commands that were executed, in order. -/
def serveBuffer : List UInt8 → Rx → Statics → Statics × List (UInt8 × ℤ)
  | [], _, s => (s, [])
  | b :: bs, r, s =>
      match rxByte b r with
      | (r', none) => serveBuffer bs r' s
      | (r', some (cmd, val)) =>
          let (s', cmds) := serveBuffer bs r' (execCommand cmd val s)
          (s', (cmd, val) :: cmds)

/-- What `create_server` does with the `ret` bytes of one `recv`: the variables of
the loop start afresh in every buffer. -/
def createServer (mybuffer : List UInt8) (s : Statics) : Statics × List (UInt8 × ℤ) :=
  serveBuffer mybuffer {} s

end GreenboneFeeder.Dogfeed
