import MyJavaExample.Lib.RingQueue

/-!
# Terminal queues and settings (`include/linux/tty.h`, `include/termios.h`)

The macros of `tty.h` on the three queues of a terminal are the operations of
a queue in a ring of 1024 bytes.  `PUTCH` does not look whether there is room.
-/

namespace MyJavaExample.Tty

open Lib

def TTY_BUF_SIZE : ℕ := 1024

instance : NeZero TTY_BUF_SIZE := ⟨Nat.succ_ne_zero 1023⟩

/-- The indices and the buffer of `struct tty_queue`. -/
abbrev TtyQueue := RingQueue UInt8 TTY_BUF_SIZE

def TtyQueue.init : TtyQueue := ⟨0, 0, fun _ => 0⟩

/-- The device has sent `k` bytes, or all that there are. -/
def TtyQueue.sent (q : TtyQueue) : ℕ → TtyQueue
  | 0 => q
  | k + 1 => if q.empty then q else TtyQueue.sent q.get.2 k

/-! ## Settings -/

/-- Places in `c_cc`. -/
def VINTR : Fin 17 := 0
def VQUIT : Fin 17 := 1
def VERASE : Fin 17 := 2
def VKILL : Fin 17 := 3
def VEOF : Fin 17 := 4
def VTIME : Fin 17 := 5
def VMIN : Fin 17 := 6
def VSTART : Fin 17 := 8
def VSTOP : Fin 17 := 9

/-- Bits of `c_iflag`. -/
def INLCR : UInt32 := 0o100
def IGNCR : UInt32 := 0o200
def ICRNL : UInt32 := 0o400
def IUCLC : UInt32 := 0o1000

/-- Bits of `c_oflag`. -/
def OPOST : UInt32 := 0o1
def OLCUC : UInt32 := 0o2
def ONLCR : UInt32 := 0o4
def OCRNL : UInt32 := 0o10
def ONLRET : UInt32 := 0o40

/-- Bits of `c_lflag`. -/
def ISIG : UInt32 := 0o1
def ICANON : UInt32 := 0o2
def ECHO : UInt32 := 0o10
def ECHOCTL : UInt32 := 0o1000
def ECHOKE : UInt32 := 0o4000

structure Termios where
  iflag : UInt32
  oflag : UInt32
  cflag : UInt32
  lflag : UInt32
  line : UInt8
  cc : Fin 17 → UInt8

/-- `INIT_C_CC`. -/
def INIT_C_CC : Fin 17 → UInt8 := fun i =>
  [3, 28, 127, 21, 4, 0, 1, 0, 17, 19, 26, 0, 18, 15, 23, 22, 0].getD i.val 0

/-- A flag of the settings is set. -/
def flag (flags f : UInt32) : Bool := flags &&& f ≠ 0

/-! ## Characters (`include/ctype.h`)

`c` is a signed character, so from 128 on the table `_ctype` is read in front
of its first entry.  What stands there is not known; the parameters say which of
these bytes have the bit in question. -/

/-- `c` is signed and the characters of the settings are not, so a byte from 128
on is equal to none of them. -/
def sameChar (c x : UInt8) : Bool := c = x ∧ c < 128

/-- `islower`. -/
def islower (below : UInt8 → Bool) (c : UInt8) : Bool :=
  if c < 128 then 97 ≤ c ∧ c ≤ 122 else below c

/-- `isupper`. -/
def isupper (below : UInt8 → Bool) (c : UInt8) : Bool :=
  if c < 128 then 65 ≤ c ∧ c ≤ 90 else below c

def toupper (below : UInt8 → Bool) (c : UInt8) : UInt8 := if islower below c then c - 32 else c

def tolower (below : UInt8 → Bool) (c : UInt8) : UInt8 := if isupper below c then c + 32 else c

end MyJavaExample.Tty
