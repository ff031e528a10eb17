import Mathlib.Tactic.Common

/-!
# URL coding

`urlencode` and `urldecode` of the network utilities (`netutils/codecs`), with the two functions
that predict the length of their result. The decoder takes an incomplete sequence, or one that is
not hexadecimal, as it stands. `Urlcode.urlcode_exact` says that decoding takes encoding back, and
that all reported lengths are right.
-/

namespace GreenboneFeeder.Urlcode

/-- The character lies in a range. -/
def within (lo hi : Char) (ch : UInt8) : Bool := lo.toUInt8 ≤ ch && ch ≤ hi.toUInt8

variable (ch : UInt8)

/-- `IS_HEX_CHAR`. -/
def isHexChar : Bool := within '0' '9' ch || within 'a' 'f' ch || within 'A' 'F' ch

/-- `HEX_VALUE`. -/
def hexValue : ℕ :=
  if within '0' '9' ch then ch.toNat - '0'.toNat
  else if within 'a' 'f' ch then ch.toNat - 'a'.toNat + 10
  else ch.toNat - 'A'.toNat + 10

/-- A digit of `hex_chars`, "0123456789ABCDEF". -/
def hexChars (n : ℕ) : UInt8 :=
  UInt8.ofNat (if n < 10 then '0'.toNat + n else 'A'.toNat + (n - 10))

/-- The characters that are not encoded. -/
def isPlain : Bool :=
  within '0' '9' ch || within 'a' 'z' ch || within 'A' 'Z' ch ||
    ch == '_'.toUInt8 || ch == '-'.toUInt8 || ch == '.'.toUInt8 || ch == '~'.toUInt8

/-- What is left in the destination: the bytes written, with the terminator, and `dest_len`. -/
structure Written where
  dest : List UInt8
  destLen : ℕ
deriving DecidableEq

/-- The end of both functions: the terminator is written, and the length reported. -/
def finish (text : List UInt8) : Written where
  dest := text ++ [0]
  destLen := text.length

/-! ### Encoding -/

/-- What one byte is encoded to. -/
def encodeByte : List UInt8 :=
  if isPlain ch then [ch]
  else if ch = ' '.toUInt8 then ['+'.toUInt8]
  else ['%'.toUInt8, hexChars (ch.toNat >>> 4), hexChars (ch.toNat &&& 0x0f)]

def encodeLoop : List UInt8 → List UInt8
  | [] => []
  | ch :: rest => encodeByte ch ++ encodeLoop rest

variable (src : List UInt8) (srcLen : ℕ)

def urlencode : Written := finish (encodeLoop (src.take srcLen))

def encodeLenLoop : List UInt8 → ℕ
  | [] => 0
  | ch :: rest => (if isPlain ch || ch == ' '.toUInt8 then 1 else 3) + encodeLenLoop rest

def urlencodeLen : ℕ := encodeLenLoop (src.take srcLen)

/-! ### Decoding -/

/-- What a byte outside of a sequence is decoded to. -/
def decodeByte : UInt8 := if ch = '+'.toUInt8 then ' '.toUInt8 else ch

def decodeLoop : List UInt8 → List UInt8
  | ch :: high :: low :: rest =>
    if ch = '%'.toUInt8 then
      if isHexChar high && isHexChar low then
        UInt8.ofNat ((hexValue high <<< 4) ||| hexValue low) :: decodeLoop rest
      else ch :: decodeLoop (high :: low :: rest)
    else decodeByte ch :: decodeLoop (high :: low :: rest)
  -- fewer than two bytes follow
  | [ch, next] => [decodeByte ch, decodeByte next]
  | [ch] => [decodeByte ch]
  | [] => []

def urldecode : Written := finish (decodeLoop (src.take srcLen))

def decodeLenLoop : List UInt8 → ℕ
  | ch :: high :: low :: rest =>
    if ch = '%'.toUInt8 ∧ (isHexChar high && isHexChar low) = true then 1 + decodeLenLoop rest
    else 1 + decodeLenLoop (high :: low :: rest)
  | [_, _] => 2
  | [_] => 1
  | [] => 0

def urldecodeLen : ℕ := decodeLenLoop (src.take srcLen)

/-! ### The round trip -/

variable {ch : UInt8} {rest : List UInt8}

theorem hexValue_hexChars : ∀ n < 16, isHexChar (hexChars n) = true ∧
    hexValue (hexChars n) = n := by
  decide

theorem decodeLoop_cons (h : ch ≠ '%'.toUInt8) :
    decodeLoop (ch :: rest) = decodeByte ch :: decodeLoop rest := by
  rcases rest with _ | ⟨high, _ | ⟨low, rest⟩⟩
  · rfl
  · rfl
  · rw [decodeLoop, if_neg h]

theorem decodeLoop_encodeByte :
    decodeLoop (encodeByte ch ++ rest) = ch :: decodeLoop rest := by
  unfold encodeByte
  split
  · rename_i hplain
    have hpercent : ch ≠ '%'.toUInt8 := by
      rintro rfl
      revert hplain
      decide
    have hplus : ch ≠ '+'.toUInt8 := by
      rintro rfl
      revert hplain
      decide
    rw [List.singleton_append, decodeLoop_cons hpercent, decodeByte, if_neg hplus]
  split
  · rename_i hspace
    rw [List.singleton_append, decodeLoop_cons (by decide), hspace]
    rfl
  · have hlow : ch.toNat &&& 0x0f = ch.toNat % 16 := Nat.and_two_pow_sub_one_eq_mod _ 4
    have hlt := ch.toNat_lt
    obtain ⟨hishigh, hvalhigh⟩ := hexValue_hexChars (ch.toNat >>> 4) (by omega)
    obtain ⟨hislow, hvallow⟩ := hexValue_hexChars (ch.toNat &&& 0x0f) (by omega)
    have hbyte : (ch.toNat >>> 4) <<< 4 ||| (ch.toNat &&& 0x0f) = ch.toNat := by
      rw [← Nat.shiftLeft_add_eq_or_of_lt (by omega), Nat.shiftLeft_eq]
      omega
    simp [decodeLoop, hishigh, hislow, hvalhigh, hvallow, hbyte]

theorem decodeLoop_encodeLoop (s : List UInt8) : decodeLoop (encodeLoop s) = s := by
  induction s with
  | nil => rfl
  | cons ch s ih => rw [encodeLoop, decodeLoop_encodeByte, ih]

/-! ### The lengths -/

theorem encodeLenLoop_eq (s : List UInt8) : encodeLenLoop s = (encodeLoop s).length := by
  induction s with
  | nil => rfl
  | cons ch s ih =>
    rw [encodeLenLoop, encodeLoop, List.length_append, ih, encodeByte]
    by_cases hplain : isPlain ch
    · simp [hplain]
    · by_cases hspace : ch = ' '.toUInt8
      · subst hspace
        rfl
      · simp [hplain, hspace]

theorem decodeLenLoop_eq (u : List UInt8) : decodeLenLoop u = (decodeLoop u).length := by
  fun_induction decodeLoop u with
  | case1 high low rest hhex ih => simp [decodeLenLoop, hhex, ih, Nat.add_comm]
  | case2 high low rest hhex ih => simp [decodeLenLoop, hhex, ih, Nat.add_comm]
  | case3 ch high low rest hch ih => simp [decodeLenLoop, hch, ih, Nat.add_comm]
  | case4 | case5 | case6 => rfl

/-- **URL coding is exact**: what `urlencode` writes is decoded to the string it was made from, the
reported lengths are those of what was written, and the predicted lengths are the reported ones. -/
theorem urlcode_exact (s u : List UInt8) :
    urldecode (urlencode s s.length).dest (urlencode s s.length).destLen = ⟨s ++ [0], s.length⟩ ∧
      (urlencode s s.length).dest.length = (urlencode s s.length).destLen + 1 ∧
      (urldecode u u.length).dest.length = (urldecode u u.length).destLen + 1 ∧
      urlencodeLen s s.length = (urlencode s s.length).destLen ∧
      urldecodeLen u u.length = (urldecode u u.length).destLen := by
  refine ⟨?_, by simp [urlencode, finish], by simp [urldecode, finish], ?_, ?_⟩
  · simp [urldecode, urlencode, finish, decodeLoop_encodeLoop]
  · simp [urlencodeLen, urlencode, finish, encodeLenLoop_eq]
  · simp [urldecodeLen, urldecode, finish, decodeLenLoop_eq]

end GreenboneFeeder.Urlcode
