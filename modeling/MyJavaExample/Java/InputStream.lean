import Mathlib.Data.List.Basic
import MyJavaExample.Lib.BigEndian

/-!
# Java input streams

An `InputStream` over a finite byte sequence.  What a stream may choose is part
of it: how many bytes one call of `read` delivers, and what `available`
answers.  Both are functions of the number of bytes that remain.  Every read
that delivers a byte makes that number smaller, so any sequence of chunk sizes
is a stream here.

`DataInputStream` reads numbers byte by byte, so the chunk sizes do not matter
to it, except for `read(byte[])`, which it passes on.
-/

namespace MyJavaExample.Java

open Lib

/-- The exceptions of the modelled classes. -/
inductive JExn where
  | eof
  | negativeArraySize
  | arrayIndexOutOfBounds
  | indexOutOfBounds
  | numberFormat
  | nullPointer
  | noSuchElement
  | classCast
  | stackOverflow
  | illegalArgument (message : String)
  | illegalState (message : String)
deriving DecidableEq, Repr

structure InputStream where
  /-- The bytes not delivered yet. -/
  rest : List UInt8
  /-- The bytes `read` delivers, given the bytes that remain and the bytes asked
      for.  Only values from 1 to the smaller of the two are used. -/
  chunk : ℕ → ℕ → ℕ
  /-- The answer of `available()`, given the bytes that remain. -/
  avail : ℕ → ℕ

namespace InputStream

/-- The stream delivers every byte asked for that remains. -/
def FullReads (s : InputStream) : Prop := ∀ m len, min m len ≤ s.chunk m len

/-- `available()` is the number of bytes that remain. -/
def ExactAvailable (s : InputStream) : Prop := ∀ m, s.avail m = m

/-- `available()` is zero at the end of the stream. -/
def AvailableSound (s : InputStream) : Prop := s.avail 0 = 0

/-- The number of bytes one `read` of `len` bytes delivers. -/
def delivered (s : InputStream) (len : ℕ) : ℕ :=
  max 1 (min (min s.rest.length len) (s.chunk s.rest.length len))

/-- `read(b, off, len)`: the bytes delivered, or `none` for the result -1. -/
def read (s : InputStream) (len : ℕ) : Option (List UInt8) × InputStream :=
  if len = 0 then (some [], s)
  else if s.rest = [] then (none, s)
  else (some (s.rest.take (s.delivered len)), { s with rest := s.rest.drop (s.delivered len) })

/-- A stream that serves every read in full, such as a `ByteArrayInputStream`. -/
def ofBytes (bs : List UInt8) : InputStream where
  rest := bs
  chunk := min
  avail := id

theorem ofBytes_fullReads (bs : List UInt8) : (ofBytes bs).FullReads := fun _ _ => le_rfl

theorem ofBytes_exactAvailable (bs : List UInt8) : (ofBytes bs).ExactAvailable := fun _ => rfl

theorem read_of_fullReads {s : InputStream} (h : s.FullReads) {len : ℕ} (hlen : len ≠ 0)
    (hne : s.rest ≠ []) :
    s.read len = (some (s.rest.take len), { s with rest := s.rest.drop len }) := by
  have hpos := List.length_pos_iff.2 hne
  have hd : s.delivered len = min s.rest.length len := by
    have := h s.rest.length len
    unfold delivered
    omega
  rw [read, if_neg hlen, if_neg hne, hd]
  rcases Nat.le_total s.rest.length len with hle | hle
  · rw [Nat.min_eq_left hle, List.take_of_length_le hle, List.take_length,
      List.drop_of_length_le hle, List.drop_length]
  · rw [Nat.min_eq_right hle]

theorem read_rest_le (s : InputStream) (len : ℕ) : (s.read len).2.rest.length ≤ s.rest.length := by
  unfold read
  split
  · exact le_rfl
  · split
    · exact le_rfl
    · simp

end InputStream

/-! ## `DataInputStream` -/

/-- A computation that reads from a stream and may throw. -/
abbrev JIO (α : Type) : Type := StateT InputStream (Except JExn) α

/-- The next `k` bytes, one by one. -/
def readFully (k : ℕ) : JIO (List UInt8) := fun s =>
  if s.rest.length < k then .error .eof
  else .ok (s.rest.take k, { s with rest := s.rest.drop k })

/-- A signed number of `k` bytes. -/
def readSigned (k : ℕ) : JIO ℤ := do
  let bs ← readFully k
  pure (toSigned (8 * k) (Lib.ofBytes bs))

def readByte : JIO ℤ := readSigned 1

def readShort : JIO ℤ := readSigned 2

def readInt : JIO ℤ := readSigned 4

def readLong : JIO ℤ := readSigned 8

/-- `read(b)` for an array `b` of `n` zero bytes: the array afterwards. -/
def readArray (n : ℕ) : JIO (List UInt8) := fun s =>
  match s.read n with
  | (none, s') => .ok (List.replicate n 0, s')
  | (some bs, s') => .ok (bs ++ List.replicate (n - bs.length) 0, s')

/-- `new byte[n]` throws when `n` is negative. -/
def newArraySize (n : ℤ) : JIO ℕ := fun s =>
  if n < 0 then .error .negativeArraySize else .ok (n.toNat, s)

/-- A computation that does not read. -/
def lookUp {α : Type} (x : Except JExn α) : JIO α := fun s => x.map fun a => (a, s)

/-! ## Rules for reading

`Reads p bs a` says that `p`, on any stream that serves its reads in full and
starts with `bs`, consumes exactly `bs` and returns `a`.  `Shrinks p` says that
`p` never puts bytes back, whatever the stream does, and `Yields p Q` that
every value `p` returns satisfies `Q`. -/

section Rules

variable {α β : Type}

def Reads (p : JIO α) (bs : List UInt8) (a : α) : Prop :=
  ∀ (s : InputStream) (r : List UInt8), s.FullReads → s.rest = bs ++ r →
    p s = .ok (a, { s with rest := r })

def Shrinks (p : JIO α) : Prop :=
  ∀ (s : InputStream) (a : α) (s' : InputStream), p s = .ok (a, s') →
    s'.rest.length ≤ s.rest.length

def Yields (p : JIO α) (Q : α → Prop) : Prop :=
  ∀ (s : InputStream) (a : α) (s' : InputStream), p s = .ok (a, s') → Q a

theorem JIO.bind_eq_ok {p : JIO α} {f : α → JIO β} {s s' : InputStream} {b : β} :
    (p >>= f) s = .ok (b, s') ↔ ∃ a t, p s = .ok (a, t) ∧ f a t = .ok (b, s') := by
  change (p s >>= fun r => f r.1 r.2) = _ ↔ _
  cases p s with
  | error e => simp [bind, Except.bind]
  | ok r =>
      obtain ⟨a, t⟩ := r
      simp [bind, Except.bind]

theorem JIO.bind_of_ok {p : JIO α} {f : α → JIO β} {s t : InputStream} {a : α}
    (h : p s = .ok (a, t)) : (p >>= f) s = f a t := by
  change (p s >>= fun r => f r.1 r.2) = _
  rw [h]
  rfl

theorem JIO.bind_of_error {p : JIO α} {f : α → JIO β} {s : InputStream} {e : JExn}
    (h : p s = .error e) : (p >>= f) s = .error e := by
  change (p s >>= fun r => f r.1 r.2) = _
  rw [h]
  rfl

theorem JIO.lookUp_bind {x : Except JExn α} {a : α} {f : α → JIO β} {s : InputStream}
    (h : x = .ok a) : (Java.lookUp x >>= f) s = f a s := by
  subst h
  rfl

theorem Reads.pure (a : α) : Reads (Pure.pure a) [] a := by
  rintro s r - rfl
  rfl

theorem Reads.bind {p : JIO α} {f : α → JIO β} {bs bs' : List UInt8} {a : α} {b : β}
    (hp : Reads p bs a) (hf : Reads (f a) bs' b) : Reads (p >>= f) (bs ++ bs') b := by
  intro s r hs hr
  rw [List.append_assoc] at hr
  exact JIO.bind_eq_ok.2 ⟨a, _, hp s _ hs hr, hf { s with rest := bs' ++ r } r hs rfl⟩

/-- What comes after `p`, on a stream that starts with the bytes `p` reads. -/
theorem Reads.bind_eq {p : JIO α} {f : α → JIO β} {bs : List UInt8} {a : α} (hp : Reads p bs a)
    {s : InputStream} (hs : s.FullReads) (r : List UInt8) :
    (p >>= f) { s with rest := bs ++ r } = f a { s with rest := r } :=
  JIO.bind_of_ok (hp { s with rest := bs ++ r } r hs rfl)

/-- The last step of a computation that only makes its result. -/
theorem Reads.map {p : JIO α} {g : α → β} {bs : List UInt8} {a : α} (hp : Reads p bs a) :
    Reads (p >>= fun x => Pure.pure (g x)) bs (g a) := by
  have h := hp.bind (f := fun x => Pure.pure (g x)) (Reads.pure (g a))
  rwa [List.append_nil] at h

theorem Reads.readFully (bs : List UInt8) : Reads (readFully bs.length) bs bs := by
  intro s r _ hr
  simp [Java.readFully, hr]

theorem Reads.readSigned {k v : ℕ} (h : v < 256 ^ k) :
    Reads (readSigned k) (toBytes k v) (toSigned (8 * k) v) := by
  have hb := (Reads.readFully (toBytes k v)).map (g := fun bs => toSigned (8 * k) (Lib.ofBytes bs))
  rwa [toBytes_length, ofBytes_toBytes h] at hb

theorem Reads.readArray (bs : List UInt8) : Reads (readArray bs.length) bs bs := by
  intro s r hs hr
  rcases eq_or_ne bs [] with rfl | hne
  · rw [List.nil_append] at hr
    simp [Java.readArray, InputStream.read, ← hr]
  · have hlen : bs.length ≠ 0 := fun h0 => hne (List.length_eq_zero_iff.1 h0)
    have hrest : s.rest ≠ [] := by simp [hr, hne]
    simp [Java.readArray, InputStream.read_of_fullReads hs hlen hrest, hr]

theorem Reads.newArraySize (n : ℕ) : Reads (newArraySize n) [] n := by
  rintro s r - rfl
  simp [Java.newArraySize]

theorem Reads.lookUp {x : Except JExn α} {a : α} (h : x = .ok a) :
    Reads (lookUp x) [] a := by
  rintro s r - hr
  rw [List.nil_append] at hr
  rw [Java.lookUp, h, ← hr]
  rfl

theorem Shrinks.pure (a : α) : Shrinks (Pure.pure a) := by
  intro s b s' h
  cases h
  exact le_rfl

theorem Shrinks.bind {p : JIO α} {f : α → JIO β} (hp : Shrinks p) (hf : ∀ a, Shrinks (f a)) :
    Shrinks (p >>= f) := by
  intro s b s' h
  obtain ⟨a, t, ha, hb⟩ := JIO.bind_eq_ok.1 h
  exact (hf a _ _ _ hb).trans (hp _ _ _ ha)

theorem Shrinks.readSigned (k : ℕ) : Shrinks (readSigned k) := by
  refine Shrinks.bind ?_ fun _ => Shrinks.pure _
  intro s a s' h
  unfold readFully at h
  split at h
  · cases h
  · cases h
    simp

theorem Shrinks.readArray (n : ℕ) : Shrinks (readArray n) := by
  intro s a s' h
  have hle := s.read_rest_le n
  unfold Java.readArray at h
  split at h <;> rename_i hread <;> cases h <;> rwa [hread] at hle

theorem Shrinks.newArraySize (n : ℤ) : Shrinks (newArraySize n) := by
  intro s a s' h
  unfold Java.newArraySize at h
  split at h
  · cases h
  · cases h
    exact le_rfl

theorem Yields.pure {Q : α → Prop} {a : α} (h : Q a) : Yields (Pure.pure a) Q := by
  intro s b s' hb
  cases hb
  exact h

theorem Yields.bind {p : JIO α} {f : α → JIO β} {Q : β → Prop} (hf : ∀ a, Yields (f a) Q) :
    Yields (p >>= f) Q := by
  intro s b s' h
  obtain ⟨a, t, -, hb⟩ := JIO.bind_eq_ok.1 h
  exact hf a _ _ _ hb

/-- What `p` returns is known to what comes after it. -/
theorem Yields.andThen {p : JIO α} {f : α → JIO β} {P : α → Prop} {Q : β → Prop} (hp : Yields p P)
    (hf : ∀ a, P a → Yields (f a) Q) : Yields (p >>= f) Q := by
  intro s b s' h
  obtain ⟨a, t, ha, hb⟩ := JIO.bind_eq_ok.1 h
  exact hf a (hp _ _ _ ha) _ _ _ hb

theorem Yields.ite {p q : JIO α} {Q : α → Prop} {c : Prop} [Decidable c] (hp : Yields p Q)
    (hq : Yields q Q) : Yields (if c then p else q) Q := by
  split
  · exact hp
  · exact hq

theorem Shrinks.ite {p q : JIO α} {c : Prop} [Decidable c] (hp : Shrinks p) (hq : Shrinks q) :
    Shrinks (if c then p else q) := by
  split
  · exact hp
  · exact hq

theorem lookUp_eq_ok {x : Except JExn α} {a : α} {s s' : InputStream} :
    Java.lookUp x s = .ok (a, s') ↔ x = .ok a ∧ s' = s := by
  cases x with
  | error e => exact ⟨fun h => (nomatch h), fun h => (nomatch h.1)⟩
  | ok b =>
      constructor
      · intro h
        cases h
        exact ⟨rfl, rfl⟩
      · rintro ⟨h, rfl⟩
        cases h
        rfl

/-- A number of at least one byte is taken off the stream. -/
theorem readSigned_lt {k : ℕ} (hk : 0 < k) {s s' : InputStream} {v : ℤ}
    (h : readSigned k s = .ok (v, s')) : s'.rest.length < s.rest.length := by
  obtain ⟨bs, t, hread, hpure⟩ := JIO.bind_eq_ok.1 h
  cases hpure
  unfold readFully at hread
  split at hread
  · cases hread
  · cases hread
    simp only [List.length_drop]
    omega

end Rules

end MyJavaExample.Java
