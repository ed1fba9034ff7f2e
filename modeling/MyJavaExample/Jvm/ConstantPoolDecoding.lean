import MyJavaExample.Jvm.ConstantPool

/-!
# Decoding a class file's constant pool

`CpInfo` is an entry of a constant pool as the class-file format defines it,
with its bytes, its data and the number of indices it takes.  A pool is decoded
when the parser reads it whole and each index that names an entry gives an object
with the data of that entry.

`parseConstantPool` reads a pool whole, with each object at the index of its
entry, when the count fits in a signed 16-bit number, no entry is a
`METHOD_TYPE`, `LONG` or `DOUBLE`, and every `UTF8` entry is shorter than
`2 ^ 15` bytes (`Pool.Decodable`).  It decodes the pool when in addition the
objects keep the data of the entries: those of `FIELD_REF`,
`INTERFACE_METHOD_REF`, `METHOD_HANDLE` and `INVOKE_DYNAMIC` do not.  There is no
other case (`parseConstantPool_iff`).

An entry with its own branch in the parser is read whole
(`reads_parseEntry`).  The other cases each leave a trace.  A `METHOD_TYPE`
adds a tag and no entry, so the two lists differ in length from then on.  A
long `UTF8` entry throws.  A `LONG` or `DOUBLE` takes two indices but one turn
of the loop, so the loop reads on behind the pool.
-/

namespace MyJavaExample.Jvm

open Java Lib ConstantPoolTag

/-! ## The class-file format -/

abbrev U1 : Type := Fin (2 ^ 8)
abbrev U2 : Type := Fin (2 ^ 16)
abbrev U4 : Type := Fin (2 ^ 32)
abbrev U8 : Type := Fin (2 ^ 64)

/-- An entry of a constant pool. -/
inductive CpInfo where
  | classInfo (nameIndex : U2)
  | fieldRef (classIndex nameAndTypeIndex : U2)
  | methodRef (classIndex nameAndTypeIndex : U2)
  | interfaceMethodRef (classIndex nameAndTypeIndex : U2)
  | string (stringIndex : U2)
  | integer (bytes : U4)
  | float (bytes : U4)
  | long (bytes : U8)
  | double (bytes : U8)
  | nameAndType (nameIndex descriptorIndex : U2)
  | utf8 (bytes : { bs : List UInt8 // bs.length < 2 ^ 16 })
  | methodHandle (referenceKind : U1) (referenceIndex : U2)
  | methodType (descriptorIndex : U2)
  | invokeDynamic (bootstrapMethodAttrIndex nameAndTypeIndex : U2)

namespace CpInfo

def tag : CpInfo → ℤ
  | classInfo _ => CLASS
  | fieldRef _ _ => FIELD_REF
  | methodRef _ _ => METHOD_REF
  | interfaceMethodRef _ _ => INTERFACE_METHOD_REF
  | string _ => STRING
  | integer _ => INTEGER
  | float _ => FLOAT
  | long _ => LONG
  | double _ => DOUBLE
  | nameAndType _ _ => NAME_AND_TYPE
  | utf8 _ => UTF8
  | methodHandle _ _ => METHOD_HANDLE
  | methodType _ => METHOD_TYPE
  | invokeDynamic _ _ => INVOKE_DYNAMIC

/-- The bytes after the tag. -/
def info : CpInfo → List UInt8
  | classInfo i => toBytes 2 i
  | fieldRef c n => toBytes 2 c ++ toBytes 2 n
  | methodRef c n => toBytes 2 c ++ toBytes 2 n
  | interfaceMethodRef c n => toBytes 2 c ++ toBytes 2 n
  | string i => toBytes 2 i
  | integer b => toBytes 4 b
  | float b => toBytes 4 b
  | long b => toBytes 8 b
  | double b => toBytes 8 b
  | nameAndType n d => toBytes 2 n ++ toBytes 2 d
  | utf8 bs => toBytes 2 bs.1.length ++ bs.1
  | methodHandle k i => toBytes 1 k ++ toBytes 2 i
  | methodType d => toBytes 2 d
  | invokeDynamic b n => toBytes 2 b ++ toBytes 2 n

def encode (e : CpInfo) : List UInt8 := toBytes 1 e.tag.toNat ++ e.info

/-- The indices an entry takes. -/
def slots : CpInfo → ℕ
  | long _ => 2
  | double _ => 2
  | _ => 1

/-- What the entry says: its indices and numbers in their order, and the text of
a `UTF8` entry. -/
def data (charset : List UInt8 → String) : CpInfo → List (ℕ ⊕ String)
  | classInfo i => [.inl i]
  | fieldRef c n => [.inl c, .inl n]
  | methodRef c n => [.inl c, .inl n]
  | interfaceMethodRef c n => [.inl c, .inl n]
  | string i => [.inl i]
  | integer b => [.inl b]
  | float b => [.inl b]
  | long b => [.inl b]
  | double b => [.inl b]
  | nameAndType n d => [.inl n, .inl d]
  | utf8 bs => [.inr (charset bs.1)]
  | methodHandle k i => [.inl k, .inl i]
  | methodType d => [.inl d]
  | invokeDynamic b n => [.inl b, .inl n]

/-- The object that the parser makes of an entry; for some kinds it is
`new Object()`. -/
def object (charset : List UInt8 → String) : CpInfo → JObject
  | classInfo i => .short (toSigned 16 i)
  | methodRef c n => .methodRef (toSigned 16 c) (toSigned 16 n)
  | string i => .short (toSigned 16 i)
  | integer b => .int (toSigned 32 b)
  | float b => .float (toSigned 32 b)
  | long b => .long (toSigned 64 b)
  | double b => .double (toSigned 64 b)
  | nameAndType n d => .nameAndType (toSigned 16 n) (toSigned 16 d)
  | utf8 bs => .string (charset bs.1)
  | _ => .object

/-- The kinds of which an object of their own is made. -/
def Kept : CpInfo → Prop
  | fieldRef _ _ => False
  | interfaceMethodRef _ _ => False
  | methodHandle _ _ => False
  | methodType _ => False
  | invokeDynamic _ _ => False
  | _ => True

end CpInfo

/-- The unsigned number with the `w` bits of `v`. -/
def bitsOf (w : ℕ) (v : ℤ) : ℕ := (v % 2 ^ w).toNat

/-- The data that an object holds. -/
def JObject.data : JObject → List (ℕ ⊕ String)
  | object => []
  | short v => [.inl (bitsOf 16 v)]
  | int v => [.inl (bitsOf 32 v)]
  | float bits => [.inl (bitsOf 32 bits)]
  | long v => [.inl (bitsOf 64 v)]
  | double bits => [.inl (bitsOf 64 bits)]
  | string s => [.inr s]
  | methodRef c n => [.inl (bitsOf 16 c), .inl (bitsOf 16 n)]
  | nameAndType n d => [.inl (bitsOf 16 n), .inl (bitsOf 16 d)]

/-- The entries of a pool with their class-file indices, from the index `i`
on. -/
def indexed : ℕ → List CpInfo → List (ℕ × CpInfo)
  | _, [] => []
  | i, e :: es => (i, e) :: indexed (i + e.slots) es

def poolSlots (es : List CpInfo) : ℕ := (es.map CpInfo.slots).sum

/-- A constant pool: its `constant_pool_count` fits in 16 bits. -/
structure Pool where
  entries : List CpInfo
  count_lt : poolSlots entries + 1 < 2 ^ 16

/-- The bytes of the entries. -/
def entryBytes (es : List CpInfo) : List UInt8 := es.flatMap CpInfo.encode

/-- The bytes of a pool in a class file. -/
def Pool.bytes (p : Pool) : List UInt8 :=
  toBytes 2 (poolSlots p.entries + 1) ++ entryBytes p.entries

/-- The index gives an object with the data of the entry. -/
def JConstantPool.Gives (charset : List UInt8 → String) (cp : JConstantPool) (i : ℕ) (e : CpInfo) :
    Prop :=
  (cp.getConstantPoolEntry i).map JObject.data = some (e.data charset)

/-- The parser reads exactly the pool in front of `rest`, and every index that
names an entry gives it. -/
def Decodes (charset : List UInt8 → String) (p : Pool) (rest : List UInt8) : Prop :=
  ∃ cp s, parseConstantPool charset (.ofBytes (p.bytes ++ rest)) = .ok (cp, s) ∧
    s.rest = rest ∧
    (∀ ie ∈ indexed 1 p.entries, cp.Gives charset ie.1 ie.2) ∧
    cp.tagList.length = cp.entryList.length

/-- The parser has a branch that reads the entry. -/
def CpInfo.Readable : CpInfo → Prop
  | .methodType _ => False
  | .utf8 bs => bs.1.length < 2 ^ 15
  | _ => True

/-! ## One entry -/

section Entry

variable {charset : List UInt8 → String} (cp : JConstantPool)

/-- Reading a number as signed keeps its bits. -/
theorem bitsOf_toSigned {w : ℕ} (n : Fin (2 ^ w)) : bitsOf w (toSigned w n) = n := by
  have hmod : toSigned w n % 2 ^ w = (n : ℕ) := by
    have hlt : (n : ℤ) < 2 ^ w := by exact_mod_cast n.isLt
    unfold toSigned
    split
    next => exact Int.emod_eq_of_lt (Int.natCast_nonneg _) hlt
    next => rw [Int.sub_emod_right, Int.emod_eq_of_lt (Int.natCast_nonneg _) hlt]
  rw [bitsOf, hmod, Int.toNat_natCast]

/-- An object of its own holds the data of the entry, and `new Object()` does not. -/
theorem CpInfo.data_object_iff {e : CpInfo} :
    (e.object charset).data = e.data charset ↔ e.Kept := by
  cases e <;> simp [CpInfo.object, JObject.data, CpInfo.data, CpInfo.Kept, bitsOf_toSigned]

theorem reads_u2 {v : ℕ} (h : v < 2 ^ 16) : Reads readShort (toBytes 2 v) (toSigned 16 v) :=
  Reads.readSigned h

theorem reads_short (i : U2) : Reads readShort (toBytes 2 i) (toSigned 16 i) := reads_u2 i.2

theorem reads_int (i : U4) : Reads readInt (toBytes 4 i) (toSigned 32 i) :=
  Reads.readSigned i.2

theorem reads_long (i : U8) : Reads readLong (toBytes 8 i) (toSigned 64 i) :=
  Reads.readSigned i.2

/-- The branch of a readable entry reads it and adds its object. -/
theorem reads_parseEntry {e : CpInfo} (h : e.Readable) :
    Reads (parseEntry charset e.tag cp) e.info (cp.addEntry (e.object charset)) := by
  cases e with
  | classInfo i => exact (reads_short i).map
  | fieldRef c n => exact (reads_short c).bind (reads_short n).map
  | methodRef c n => exact (reads_short c).bind (reads_short n).map
  | interfaceMethodRef c n => exact (reads_short c).bind (reads_short n).map
  | string i => exact (reads_short i).map
  | integer b => exact (reads_int b).map
  | float b => exact (reads_int b).map
  | long b => exact (reads_long b).map
  | double b => exact (reads_long b).map
  | nameAndType n d => exact (reads_short n).bind (reads_short d).map
  | utf8 bs =>
      have hlen : toSigned 16 bs.1.length = bs.1.length := if_pos h
      have hnew : Reads (newArraySize (toSigned 16 bs.1.length)) [] bs.1.length := by
        rw [hlen]
        exact Reads.newArraySize _
      exact (reads_u2 bs.2).bind (hnew.bind (Reads.readArray bs.1).map)
  | methodHandle k i =>
      have hkind : Reads (readArray 1) (toBytes 1 k) (toBytes 1 k) := by
        have := Reads.readArray (toBytes 1 k)
        rwa [toBytes_length] at this
      exact hkind.bind (reads_short i).map
  | methodType d => exact absurd h id
  | invokeDynamic b n => exact (reads_short b).bind (reads_short n).map

theorem reads_tag (e : CpInfo) : Reads readByte (toBytes 1 e.tag.toNat) e.tag := by
  have htag : toSigned 8 e.tag.toNat = e.tag := by cases e <;> rfl
  have hlt : e.tag.toNat < 256 ^ 1 := by
    cases e <;>
      simp [CpInfo.tag, CLASS, FIELD_REF, METHOD_REF, INTERFACE_METHOD_REF, STRING, INTEGER,
        FLOAT, LONG, DOUBLE, NAME_AND_TYPE, UTF8, METHOD_HANDLE, METHOD_TYPE, INVOKE_DYNAMIC]
  have := Reads.readSigned hlt
  rwa [Nat.mul_one, htag] at this

/-- A branch of the switch adds one entry or none. -/
def AddsOne (cp cp' : JConstantPool) : Prop := cp' = cp ∨ ∃ x, cp' = cp.addEntry x

theorem yields_parseEntry (tag : ℤ) : Yields (parseEntry charset tag cp) (AddsOne cp) := by
  have hadd : ∀ x, AddsOne cp (cp.addEntry x) := fun x => .inr ⟨x, rfl⟩
  unfold parseEntry
  repeat' refine Yields.ite ?_ ?_
  all_goals
    first
    | exact Yields.pure (.inl rfl)
    | exact Yields.bind fun _ => Yields.pure (hadd _)
    | exact Yields.bind fun _ => Yields.bind fun _ => Yields.pure (hadd _)
    | exact Yields.bind fun _ => Yields.bind fun _ => Yields.bind fun _ => Yields.pure (hadd _)

theorem shrinks_parseEntry (tag : ℤ) : Shrinks (parseEntry charset tag cp) := by
  have hshort : ∀ {f : ℤ → JIO JConstantPool}, (∀ v, Shrinks (f v)) → Shrinks (readShort >>= f) :=
    fun hf => (Shrinks.readSigned 2).bind hf
  unfold parseEntry
  repeat' refine Shrinks.ite ?_ ?_
  all_goals
    first
    | exact Shrinks.pure _
    | exact (Shrinks.readSigned _).bind fun _ => Shrinks.pure _
    | exact hshort fun _ => hshort fun _ => Shrinks.pure _
    | exact (Shrinks.readArray _).bind fun _ => hshort fun _ => Shrinks.pure _
    | exact hshort fun _ => (Shrinks.newArraySize _).bind fun _ =>
        (Shrinks.readArray _).bind fun _ => Shrinks.pure _

end Entry

/-! ## The loop -/

section Loop

variable {charset : List UInt8 → String}

/-- The pool after the entries `es` were read. -/
def JConstantPool.addAll (charset : List UInt8 → String) (cp : JConstantPool)
    (es : List CpInfo) : JConstantPool :=
  ⟨cp.tagList ++ es.map CpInfo.tag, cp.entryList ++ es.map (CpInfo.object charset)⟩

/-- Readable entries are read one per turn. -/
theorem parseEntries_append {s : InputStream} (hs : s.FullReads) (k : ℕ) (r : List UInt8) :
    ∀ (es : List CpInfo) (cp : JConstantPool), (∀ e ∈ es, e.Readable) →
      parseEntries charset (es.length + k) cp { s with rest := entryBytes es ++ r } =
        parseEntries charset k (cp.addAll charset es) { s with rest := r }
  | [], cp, _ => by simp [entryBytes, JConstantPool.addAll]
  | e :: es, cp, h => by
      have hbytes : entryBytes (e :: es) ++ r =
          toBytes 1 e.tag.toNat ++ (e.info ++ (entryBytes es ++ r)) := by
        simp [entryBytes, CpInfo.encode]
      have htag := reads_tag e { s with rest := entryBytes (e :: es) ++ r } _ hs hbytes
      have hinfo := @reads_parseEntry charset (cp.addTag e.tag) e
        (h e List.mem_cons_self)
        { s with rest := e.info ++ (entryBytes es ++ r) } _ hs rfl
      have hlen : (e :: es).length + k = (es.length + k) + 1 := by
        simp only [List.length_cons]
        omega
      rw [hlen, parseEntries, JIO.bind_of_ok htag, JIO.bind_of_ok hinfo]
      rw [parseEntries_append hs k r es _ fun x hx => h x (List.mem_cons_of_mem _ hx)]
      simp [JConstantPool.addAll, JConstantPool.addTag, JConstantPool.addEntry]

/-- The loop adds a tag in each turn and an entry in some of them. -/
theorem parseEntries_adds :
    ∀ {n : ℕ} {cp cp' : JConstantPool} {s s' : InputStream},
      parseEntries charset n cp s = .ok (cp', s') →
      cp'.tagList.length = cp.tagList.length + n ∧
        ∃ xs, cp'.entryList = cp.entryList ++ xs ∧ xs.length ≤ n
  | 0, cp, cp', s, s', h => by
      cases h
      exact ⟨rfl, [], (List.append_nil _).symm, Nat.le_refl 0⟩
  | n + 1, cp, cp', s, s', h => by
      obtain ⟨tag, t, -, h⟩ := JIO.bind_eq_ok.1 h
      obtain ⟨cp₁, t₁, hentry, h⟩ := JIO.bind_eq_ok.1 h
      obtain ⟨htags, xs, hxs, hlen⟩ := parseEntries_adds h
      rcases yields_parseEntry _ tag _ _ _ hentry with rfl | ⟨x, rfl⟩
      · refine ⟨?_, xs, hxs, by omega⟩
        rw [htags, JConstantPool.addTag, List.length_append, List.length_singleton]
        omega
      · refine ⟨?_, x :: xs, ?_, ?_⟩
        · rw [htags, JConstantPool.addEntry, JConstantPool.addTag, List.length_append,
            List.length_singleton]
          omega
        · rw [hxs, JConstantPool.addEntry, JConstantPool.addTag, List.append_assoc]
          rfl
        · rw [List.length_cons]
          omega

/-- The tags never fall behind the entries. -/
theorem parseEntries_gap {n : ℕ} {cp cp' : JConstantPool} {s s' : InputStream}
    (h : parseEntries charset n cp s = .ok (cp', s')) :
    cp'.entryList.length + cp.tagList.length ≤ cp'.tagList.length + cp.entryList.length := by
  obtain ⟨htags, xs, hxs, hlen⟩ := parseEntries_adds h
  rw [htags, hxs, List.length_append]
  omega

theorem shrinks_parseEntries : ∀ (n : ℕ) (cp : JConstantPool), Shrinks (parseEntries charset n cp)
  | 0, cp => Shrinks.pure cp
  | n + 1, _ =>
      (Shrinks.readSigned 1).bind fun _ => (shrinks_parseEntry _ _).bind fun cp' =>
        shrinks_parseEntries n cp'

/-- A turn of the loop takes a byte off the stream. -/
theorem parseEntries_succ_lt {n : ℕ} {cp cp' : JConstantPool} {s s' : InputStream}
    (h : parseEntries charset (n + 1) cp s = .ok (cp', s')) :
    s'.rest.length < s.rest.length := by
  obtain ⟨tag, t, htag, h⟩ := JIO.bind_eq_ok.1 h
  have hlt := readSigned_lt (by omega) htag
  have hle := (shrinks_parseEntry _ _).bind (fun cp' => shrinks_parseEntries n cp') _ _ _ h
  omega

end Loop

/-! ## Loaded pools -/

theorem readShort_lt {s s' : InputStream} {v : ℤ} (h : readShort s = .ok (v, s')) :
    v < 2 ^ 15 := by
  obtain ⟨bs, t, hread, hpure⟩ := JIO.bind_eq_ok.1 h
  cases hpure
  unfold readFully at hread
  split at hread
  · cases hread
  · cases hread
    have hlt := ofBytes_lt (s.rest.take 2)
    rw [List.length_take_of_le (by omega)] at hlt
    unfold toSigned
    split <;> omega

/-- A pool that the parser has made. -/
def JConstantPool.Loaded (cp : JConstantPool) : Prop :=
  ∃ charset s s', parseConstantPool charset s = .ok (cp, s')

/-- A loaded pool starts with the placeholder, and its indices are positive
shorts. -/
theorem JConstantPool.Loaded.entryList {cp : JConstantPool} (h : cp.Loaded) :
    ∃ xs, cp.entryList = .object :: xs ∧ cp.entryList.length < 2 ^ 15 := by
  obtain ⟨charset, s, s', h⟩ := h
  obtain ⟨count, t, hcount, h⟩ := JIO.bind_eq_ok.1 h
  obtain ⟨-, xs, hxs, hlen⟩ := parseEntries_adds h
  have hlt := readShort_lt hcount
  refine ⟨xs, hxs, ?_⟩
  rw [hxs, List.length_append]
  simp only [JConstantPool.new, List.length_singleton]
  omega

/-! ## Indices -/

theorem poolSlots_ge (es : List CpInfo) : es.length ≤ poolSlots es := by
  induction es with
  | nil => simp [poolSlots]
  | cons e es ih =>
      have : 1 ≤ e.slots := by cases e <;> simp [CpInfo.slots]
      simp only [poolSlots, List.map_cons, List.sum_cons, List.length_cons] at ih ⊢
      omega

theorem poolSlots_of_single {es : List CpInfo} (h : ∀ e ∈ es, e.slots = 1) :
    poolSlots es = es.length := by
  induction es with
  | nil => simp [poolSlots]
  | cons e es ih =>
      have := h e List.mem_cons_self
      have := ih fun x hx => h x (List.mem_cons_of_mem _ hx)
      simp only [poolSlots, List.map_cons, List.sum_cons, List.length_cons] at this ⊢
      omega

/-- An entry that takes two indices makes the count exceed the entries. -/
theorem poolSlots_lt {es : List CpInfo} {e : CpInfo} (he : e ∈ es) (h : e.slots ≠ 1) :
    es.length < poolSlots es := by
  obtain ⟨pre, post, rfl⟩ := List.append_of_mem he
  have h1 := poolSlots_ge pre
  have h2 := poolSlots_ge post
  have h3 : 1 < e.slots := by
    cases e <;> simp [CpInfo.slots] at h ⊢
  simp only [poolSlots, List.map_append, List.map_cons, List.sum_append, List.sum_cons,
    List.length_append, List.length_cons] at h1 h2 ⊢
  omega

/-- When every entry takes one index, the indices count the entries. -/
theorem indexed_of_single {es : List CpInfo} (h : ∀ e ∈ es, e.slots = 1) :
    ∀ {k : ℕ} {ie : ℕ × CpInfo}, ie ∈ indexed k es → k ≤ ie.1 ∧ es[ie.1 - k]? = some ie.2 := by
  induction es with
  | nil => simp [indexed]
  | cons e es ih =>
      intro k ie hie
      rcases List.mem_cons.1 hie with rfl | hie
      · simp
      · rw [h e List.mem_cons_self] at hie
        obtain ⟨hle, hget⟩ := ih (fun x hx => h x (List.mem_cons_of_mem _ hx)) hie
        refine ⟨by omega, ?_⟩
        rwa [show ie.1 - k = (ie.1 - (k + 1)) + 1 by omega, List.getElem?_cons_succ]

/-! ## The pool -/

/-- The pools that the parser reads whole, with each object at its index. -/
structure Pool.Decodable (p : Pool) : Prop where
  count : poolSlots p.entries + 1 < 2 ^ 15
  readable : ∀ e ∈ p.entries, e.Readable
  single : ∀ e ∈ p.entries, e.slots = 1

section Pool

variable {charset : List UInt8 → String} {p : Pool} {rest : List UInt8}

/-- `parseConstantPool` runs its loop for the count read as signed. -/
theorem parseConstantPool_eq (p : Pool) (rest : List UInt8) :
    parseConstantPool charset (.ofBytes (p.bytes ++ rest)) =
      parseEntries charset (toSigned 16 (poolSlots p.entries + 1) - 1).toNat .new
        (.ofBytes (entryBytes p.entries ++ rest)) := by
  have hcount := reads_u2 p.count_lt (.ofBytes (p.bytes ++ rest))
    (entryBytes p.entries ++ rest) (InputStream.ofBytes_fullReads _)
    (by simp [InputStream.ofBytes, Pool.bytes])
  exact JIO.bind_of_ok hcount

/-- The first unreadable entry of a pool. -/
theorem exists_first_unreadable {es : List CpInfo} (h : ¬∀ e ∈ es, e.Readable) :
    ∃ pre e post, es = pre ++ e :: post ∧ (∀ x ∈ pre, x.Readable) ∧ ¬e.Readable := by
  induction es with
  | nil => simp at h
  | cons e es ih =>
      by_cases he : e.Readable
      · have hes : ¬∀ x ∈ es, x.Readable := fun hall => h (by simpa using ⟨he, hall⟩)
        obtain ⟨pre, x, post, rfl, hpre, hx⟩ := ih hes
        exact ⟨e :: pre, x, post, rfl, by simpa using ⟨he, hpre⟩, hx⟩
      · exact ⟨[], e, es, rfl, by simp, he⟩

theorem Decodes.count (h : Decodes charset p rest) : poolSlots p.entries + 1 < 2 ^ 15 := by
  obtain ⟨cp, s, hparse, hrest, -, -⟩ := h
  by_contra hge
  -- the count is read as a negative number, so the loop makes no turn
  have hneg : (toSigned 16 (poolSlots p.entries + 1) - 1).toNat = 0 := by
    have := p.count_lt
    unfold toSigned
    rw [if_neg hge]
    omega
  rw [parseConstantPool_eq, hneg] at hparse
  cases hparse
  have hbytes : entryBytes p.entries = [] := by
    simpa [InputStream.ofBytes] using hrest
  cases hes : p.entries with
  | nil => simp [hes, poolSlots] at hge
  | cons e es => simp [hes, entryBytes, CpInfo.encode, toBytes] at hbytes

/-- With a count that is read correctly, the loop gets past the readable
entries at the front. -/
theorem parseConstantPool_append {pre post : List CpInfo} (hp : p.entries = pre ++ post)
    (hcount : poolSlots p.entries + 1 < 2 ^ 15) (hpre : ∀ e ∈ pre, e.Readable) :
    parseConstantPool charset (.ofBytes (p.bytes ++ rest)) =
      parseEntries charset (poolSlots p.entries - pre.length) (JConstantPool.new.addAll charset pre)
        (.ofBytes (entryBytes post ++ rest)) := by
  have hn : (toSigned 16 (poolSlots p.entries + 1) - 1).toNat =
      pre.length + (poolSlots p.entries - pre.length) := by
    have h1 := poolSlots_ge p.entries
    rw [hp, List.length_append, ← hp] at h1
    have h2 : toSigned 16 (poolSlots p.entries + 1) = poolSlots p.entries + 1 := by
      unfold toSigned
      rw [if_pos hcount]
      simp
    omega
  have hbytes : entryBytes p.entries ++ rest = entryBytes pre ++ (entryBytes post ++ rest) := by
    simp [hp, entryBytes]
  rw [parseConstantPool_eq, hn, hbytes]
  exact parseEntries_append (InputStream.ofBytes_fullReads []) _ _ pre .new hpre

theorem Decodes.readable (h : Decodes charset p rest) : ∀ e ∈ p.entries, e.Readable := by
  by_contra hnot
  obtain ⟨pre, e, post, hp, hpre, he⟩ := exists_first_unreadable hnot
  have hcount := h.count
  obtain ⟨cp, s, hparse, -, -, hlen⟩ := h
  have hslots : pre.length + 1 ≤ poolSlots p.entries := by
    have := poolSlots_ge p.entries
    rw [hp] at this ⊢
    simp only [List.length_append, List.length_cons] at this
    omega
  obtain ⟨k, hk⟩ : ∃ k, poolSlots p.entries - pre.length = k + 1 :=
    ⟨poolSlots p.entries - pre.length - 1, by omega⟩
  rw [parseConstantPool_append hp hcount hpre, hk] at hparse
  have hbytes : entryBytes (e :: post) ++ rest =
      toBytes 1 e.tag.toNat ++ (e.info ++ (entryBytes post ++ rest)) := by
    simp [entryBytes, CpInfo.encode]
  have htag := reads_tag e (.ofBytes (entryBytes (e :: post) ++ rest)) _
    (InputStream.ofBytes_fullReads _) hbytes
  rw [parseEntries, JIO.bind_of_ok htag] at hparse
  obtain ⟨cp₁, t, hentry, hloop⟩ := JIO.bind_eq_ok.1 hparse
  cases e with
  | methodType d =>
      -- the tag is recorded and nothing is read for it
      cases hentry
      have hgap := parseEntries_gap hloop
      simp only [JConstantPool.addTag, JConstantPool.addAll, JConstantPool.new, List.length_append,
        List.length_map, List.length_singleton] at hgap
      omega
  | utf8 bs =>
      -- the length is read as a negative number
      have hlong : ¬bs.1.length < 2 ^ 15 := he
      obtain ⟨v, t₁, hshort, hnew⟩ := JIO.bind_eq_ok.1 hentry
      have hread := reads_u2 bs.2
        { InputStream.ofBytes (entryBytes (CpInfo.utf8 bs :: post) ++ rest) with
          rest := (CpInfo.utf8 bs).info ++ (entryBytes post ++ rest) }
        (bs.1 ++ (entryBytes post ++ rest)) (InputStream.ofBytes_fullReads _)
        (by simp [CpInfo.info])
      obtain ⟨rfl, rfl⟩ : toSigned 16 bs.1.length = v ∧ _ = t₁ := by
        simpa using hread.symm.trans hshort
      obtain ⟨n, t₂, hsize, -⟩ := JIO.bind_eq_ok.1 hnew
      have hneg : toSigned 16 bs.1.length < 0 := by
        have := bs.2
        unfold toSigned
        rw [if_neg hlong]
        omega
      rw [newArraySize, if_pos hneg] at hsize
      cases hsize
  | _ => exact he trivial

theorem Decodes.single (h : Decodes charset p rest) : ∀ e ∈ p.entries, e.slots = 1 := by
  intro e he
  by_contra hne
  have hlt := poolSlots_lt he hne
  have hcount := h.count
  have hread := h.readable
  obtain ⟨cp, s, hparse, hrest, -, -⟩ := h
  obtain ⟨k, hk⟩ : ∃ k, poolSlots p.entries - p.entries.length = k + 1 :=
    ⟨poolSlots p.entries - p.entries.length - 1, by omega⟩
  rw [parseConstantPool_append (List.append_nil _).symm hcount hread, hk] at hparse
  have := parseEntries_succ_lt hparse
  simp [hrest, InputStream.ofBytes, entryBytes] at this

/-- What the parser makes of a decodable pool. -/
theorem Pool.Decodable.parse (h : p.Decodable) :
    parseConstantPool charset (.ofBytes (p.bytes ++ rest)) =
      .ok (JConstantPool.new.addAll charset p.entries, .ofBytes rest) := by
  have hparse := @parseConstantPool_append charset p rest _ _ (List.append_nil p.entries).symm
    h.count h.readable
  rw [poolSlots_of_single h.single, Nat.sub_self] at hparse
  exact hparse

theorem Pool.Decodable.loaded (h : p.Decodable) :
    (JConstantPool.new.addAll charset p.entries).Loaded :=
  ⟨charset, _, _, @Pool.Decodable.parse charset p [] h⟩

/-- Each object is at the index of its entry. -/
theorem Pool.Decodable.objectAt (h : p.Decodable) {ie : ℕ × CpInfo}
    (hie : ie ∈ indexed 1 p.entries) :
    (JConstantPool.new.addAll charset p.entries).getConstantPoolEntry ie.1 =
      some (ie.2.object charset) := by
  obtain ⟨hle, hget⟩ := indexed_of_single h.single hie
  simp only [JConstantPool.getConstantPoolEntry, JConstantPool.addAll, JConstantPool.new,
    List.singleton_append]
  rw [show ie.1 = (ie.1 - 1) + 1 by omega, List.getElem?_cons_succ, List.getElem?_map, hget]
  rfl

theorem Pool.Decodable.gives_iff (h : p.Decodable) {ie : ℕ × CpInfo}
    (hie : ie ∈ indexed 1 p.entries) :
    (JConstantPool.new.addAll charset p.entries).Gives charset ie.1 ie.2 ↔ ie.2.Kept := by
  rw [JConstantPool.Gives, h.objectAt hie, Option.map_some, Option.some.injEq]
  exact CpInfo.data_object_iff

end Pool

/-- A charset that maps every byte to the character of its number. -/
def latin1 (bs : List UInt8) : String := String.ofList (bs.map fun b => Char.ofNat b.toNat)

end MyJavaExample.Jvm
