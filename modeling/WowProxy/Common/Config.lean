/-
  Common/Config.lean --- the constants and plain data of `common/config_.h`, and
  the few facts of C the model spells out.

  A byte buffer is a `List UInt8`.  A call that would leave a buffer, which C
  leaves undefined, has the value `none` wherever a definition below tracks it.
-/
import Mathlib.Algebra.Group.Int.Defs
import Mathlib.Algebra.Group.Nat.Defs
import Mathlib.Data.List.Basic

set_option autoImplicit false

namespace WowProxy

/-! ## Constants -/

/-- `HEADSIZE`: bytes of the big-endian length in front of every message. -/
def headSize : Nat := 2

/-- `MAX_BUF_SIZE`. -/
def maxBufSize : Nat := 1024

/-- The bytes of an ASCII string. -/
def ascii (s : String) : List UInt8 := s.toList.map fun c => UInt8.ofNat c.toNat

/-- The bytes of a literal, without decoding it first. -/
theorem ascii_ofList (chars : List Char) :
    ascii (String.ofList chars) = chars.map fun c => UInt8.ofNat c.toNat := by
  rw [ascii, String.toList_ofList]

/-- `ERRORMSG1`. -/
def errorMsg1 : List UInt8 := ascii "connect to wow server failed"

/-- `ERRORMSG2`. -/
def errorMsg2 : List UInt8 := ascii "Broken Pipe"

/-- The error numbers the program distinguishes. -/
inductive Errno where
  /-- interrupted by a signal -/
  | eintr
  /-- nothing to do now on a non-blocking descriptor (`EAGAIN`, `EWOULDBLOCK`) -/
  | eagain
  /-- the peer no longer reads -/
  | epipe
  /-- any other error number -/
  | other (code : Nat)
  deriving DecidableEq, Repr

/-- What `read` or `recv` returned: the bytes it stored, none of them at end of
stream, or an error number. -/
abbrev ReadResult : Type := Except Errno (List UInt8)

/-- A row of the command table (`Command`). -/
structure Command where
  /-- the template, a C string -/
  value : List UInt8
  paramNum : Int
  needRsp : Bool
  deprecated : Bool
  /-- for the game server, not the database -/
  is2Pipe : Bool
  deriving DecidableEq, Repr

/-! ## Machine integers and memory -/

/-- Conversion to `size_t`: arithmetic modulo `2 ^ 64`. -/
def sizeT (n : Int) : Nat := (n % 2 ^ 64).toNat

/-- Conversion to `int`: the representative of `n` modulo `2 ^ 32` in
`-2 ^ 31 .. 2 ^ 31 - 1`. -/
def toInt32 (n : Int) : Int := (n + 2 ^ 31) % 2 ^ 32 - 2 ^ 31

theorem sizeT_of_nonneg {n : Int} (h0 : 0 ≤ n) (h1 : n < 2 ^ 64) : sizeT n = n.toNat := by
  unfold sizeT
  rw [Int.emod_eq_of_lt h0 h1]

theorem toInt32_of_small {n : Int} (h0 : -2 ^ 31 ≤ n) (h1 : n < 2 ^ 31) : toInt32 n = n := by
  unfold toInt32
  rw [Int.emod_eq_of_lt (by omega) (by omega)]
  omega

/-- `memcpy(buf, src, n)` into a buffer of `room` bytes: the bytes written, or
`none` when the copy would leave either buffer. -/
def memcpy (room : Nat) (src : List UInt8) (n : Nat) : Option (List UInt8) :=
  if n ≤ src.length ∧ n ≤ room then some (src.take n) else none

theorem memcpy_eq_some {room n : Nat} {src : List UInt8} (hsrc : n ≤ src.length)
    (hroom : n ≤ room) : memcpy room src n = some (src.take n) := by
  simp [memcpy, hsrc, hroom]

end WowProxy
