import Mathlib.Data.BitVec
import MyJavaExample.Jvm.ClassParser
import MyJavaExample.Jvm.ConstantPoolDecoding

/-!
# The code of a method

`MethodInfo` is a method as the class-file format defines it.  The attributes of
a method are read whole when their number and their lengths fit into signed
numbers.  The length of the code is put together by shifts of four bits from
signed bytes, which gives the stored number below 128 and no other number of two
bytes (`parseCode_iff`).
-/

namespace MyJavaExample.Jvm

open Java Lib

/-! ## The length of the code -/

section Length

variable {b : UInt8}

theorem signExtend_toNat (h : b.toNat < 128) : (b.toBitVec.signExtend 32).toNat = b.toNat := by
  have hmsb : b.toBitVec.msb = false := by
    rw [BitVec.msb_eq_false_iff_two_mul_lt]
    have : b.toBitVec.toNat = b.toNat := rfl
    omega
  rw [BitVec.signExtend_eq_setWidth_of_msb_false hmsb, BitVec.toNat_setWidth]
  exact Nat.mod_eq_of_lt (Nat.lt_trans b.toNat_lt (by decide))

theorem toBitVec_msb (h : 128 ≤ b.toNat) : b.toBitVec.msb = true := by
  rw [BitVec.msb_eq_true_iff_two_mul_ge]
  have : b.toBitVec.toNat = b.toNat := rfl
  omega

theorem signExtend_msb (h : 128 ≤ b.toNat) : (b.toBitVec.signExtend 32).msb = true := by
  rw [BitVec.msb_eq_getMsbD_zero, BitVec.getMsbD_signExtend]
  simp [toBitVec_msb h]

theorem signExtend_shift_msb (h : 128 ≤ b.toNat) :
    (b.toBitVec.signExtend 32 <<< 4).msb = true := by
  rw [BitVec.msb_eq_getMsbD_zero, BitVec.getMsbD_shiftLeft, BitVec.getMsbD_signExtend]
  simp [toBitVec_msb h]

theorem signExtend_shift_toNat (h : b.toNat < 128) :
    (b.toBitVec.signExtend 32 <<< 4).toNat = b.toNat * 16 := by
  rw [BitVec.toNat_shiftLeft, signExtend_toNat h, Nat.shiftLeft_eq]
  exact Nat.mod_eq_of_lt (by omega)

variable {L : ℕ}

/-- Only the last two bytes of the length are not zero. -/
theorem codeLength_toBytes (hL : L < 2 ^ 16) :
    codeLength (toBytes 4 L) =
      ((UInt8.ofNat (L / 256)).toBitVec.signExtend 32 <<< 4) |||
        (UInt8.ofNat L).toBitVec.signExtend 32 := by
  have h₃ : L / 16777216 = 0 := Nat.div_eq_of_lt (by omega)
  have h₂ : L / 65536 = 0 := Nat.div_eq_of_lt (by omega)
  simp [codeLength, toBytes, h₃, h₂]

/-- The length that is put together is the stored one below 128 only. -/
theorem codeLength_toInt_iff (hL : L < 2 ^ 16) :
    (codeLength (toBytes 4 L)).toInt = L ↔ L < 128 := by
  have hhigh : (UInt8.ofNat (L / 256)).toNat = L / 256 := by
    rw [UInt8.toNat_ofNat']
    omega
  have hlow : (UInt8.ofNat L).toNat = L % 256 := UInt8.toNat_ofNat' ..
  rw [codeLength_toBytes hL]
  by_cases hneg : 128 ≤ L / 256 ∨ 128 ≤ L % 256
  · -- a signed byte makes the number negative
    have hmsb : (((UInt8.ofNat (L / 256)).toBitVec.signExtend 32 <<< 4) |||
        (UInt8.ofNat L).toBitVec.signExtend 32).msb = true := by
      rw [BitVec.msb_or, Bool.or_eq_true]
      rcases hneg with h | h
      · exact .inl (signExtend_shift_msb (by rw [hhigh]; exact h))
      · exact .inr (signExtend_msb (by rw [hlow]; exact h))
    rw [BitVec.msb_eq_toInt, decide_eq_true_iff] at hmsb
    omega
  · rw [not_or, Nat.not_le, Nat.not_le] at hneg
    have hor : (((UInt8.ofNat (L / 256)).toBitVec.signExtend 32 <<< 4) |||
        (UInt8.ofNat L).toBitVec.signExtend 32).toNat = (L / 256 * 16) ||| (L % 256) := by
      rw [BitVec.toNat_or, signExtend_shift_toNat (by rw [hhigh]; exact hneg.1),
        signExtend_toNat (by rw [hlow]; exact hneg.2), hhigh, hlow]
    have hlt : (L / 256 * 16) ||| (L % 256) < 2 ^ 11 := Nat.or_lt_two_pow (by omega) (by omega)
    rw [BitVec.toInt_eq_toNat_of_lt (by rw [hor]; omega), hor]
    constructor
    · intro h
      rcases Nat.lt_or_ge (L / 256) 8 with hsmall | hlarge
      · have hlt : (L / 256 * 16) ||| (L % 256) < 2 ^ 7 := Nat.or_lt_two_pow (by omega) (by omega)
        omega
      · omega
    · intro h
      have hzero : L / 256 * 16 = 0 := by omega
      rw [hzero, Nat.zero_or]
      omega

end Length

variable {info : List UInt8} {L : ℕ}

/-- The code of a `Code` attribute is extracted when it is shorter than 128
bytes. -/
theorem parseCode_iff (hL : L < 2 ^ 16) (hstored : (info.drop 4).take 4 = toBytes 4 L)
    (hroom : 8 + L ≤ info.length) :
    parseCode info = .ok ((info.drop 8).take L) ↔ L < 128 := by
  rw [← codeLength_toInt_iff hL, parseCode, if_neg (by omega), hstored]
  generalize (codeLength (toBytes 4 L)).toInt = length
  constructor
  · intro h
    dsimp only at h
    split_ifs at h with hneg hlong
    have hlen := congrArg List.length (Except.ok.inj h)
    rw [List.length_take, List.length_take, List.length_drop] at hlen
    omega
  · rintro rfl
    dsimp only
    rw [if_neg (by omega), if_neg (by omega), Int.toNat_natCast]

/-! ## Methods in the class-file format -/

structure AttributeBytes where
  nameIndex : U2
  info : { bs : List UInt8 // bs.length < 2 ^ 32 }

def AttributeBytes.bytes (a : AttributeBytes) : List UInt8 :=
  toBytes 2 a.nameIndex ++ (toBytes 4 a.info.1.length ++ a.info.1)

/-- What `parseAttribute` makes of an attribute. -/
def AttributeBytes.parsed (a : AttributeBytes) : AttributeInfo :=
  ⟨toSigned 16 a.nameIndex, toSigned 32 a.info.1.length, a.info.1⟩

structure MethodInfo where
  accessFlags : U2
  nameIndex : U2
  descriptorIndex : U2
  attributes : List AttributeBytes
  count_lt : attributes.length < 2 ^ 16

/-- The bytes after the descriptor. -/
def attributesBytes (as : List AttributeBytes) : List UInt8 :=
  toBytes 2 as.length ++ as.flatMap AttributeBytes.bytes

def MethodInfo.bytes (m : MethodInfo) : List UInt8 :=
  toBytes 2 m.accessFlags ++ (toBytes 2 m.nameIndex ++
    (toBytes 2 m.descriptorIndex ++ attributesBytes m.attributes))

/-- The name of an attribute or of a method. -/
def Named (cp : JConstantPool) (index : U2) (name : String) : Prop :=
  cp.getConstantPoolEntry index = some (.string name)

/-- A method with one `Code` attribute, which stores the length `L`. -/
structure HasCode (cp : JConstantPool) (m : MethodInfo) (info : List UInt8) (L : ℕ) : Prop where
  loaded : cp.Loaded
  name : ∃ name, Named cp m.nameIndex name
  descriptor : ∃ des, Named cp m.descriptorIndex des
  attributes : ∃ before code after, m.attributes = before ++ code :: after ∧
    Named cp code.nameIndex "Code" ∧ code.info.1 = info ∧
    ∀ a ∈ before ++ after, ∃ name, Named cp a.nameIndex name ∧ name ≠ "Code"
  pos : 1 ≤ L
  lt : L < 2 ^ 16
  stored : (info.drop 4).take 4 = toBytes 4 L
  room : 8 + L ≤ info.length

/-- On the stream `parseMethod` consumes the bytes of the method and returns the
code. -/
def Extracts (cp : JConstantPool) (info : List UInt8) (L : ℕ) (s : InputStream) (r : List UInt8) :
    Prop :=
  ∃ method, parseMethod cp s = .ok (method, { s with rest := r }) ∧
    method.code = some ((info.drop 8).take L)

/-! ## Reading the attributes -/

/-- The attributes whose lengths are not negative as `int`. -/
theorem reads_parseAttributes {as : List AttributeBytes} (h : ∀ a ∈ as, a.info.1.length < 2 ^ 31) :
    Reads (parseAttributes as.length) (as.flatMap AttributeBytes.bytes)
      (as.map AttributeBytes.parsed) := by
  induction as with
  | nil => exact Reads.pure []
  | cons a as ih =>
      have hlen : toSigned 32 a.info.1.length = a.info.1.length := if_pos (h a List.mem_cons_self)
      have hint : Reads readInt (toBytes 4 a.info.1.length) (toSigned 32 a.info.1.length) :=
        Reads.readSigned a.info.2
      have hnew : Reads (newArraySize (toSigned 32 a.info.1.length)) [] a.info.1.length := by
        rw [hlen]
        exact Reads.newArraySize _
      have hrest := ih fun x hx => h x (List.mem_cons_of_mem a hx)
      have hbytes : (a :: as).flatMap AttributeBytes.bytes = toBytes 2 a.nameIndex ++
          (toBytes 4 a.info.1.length ++ ([] ++ (a.info.1 ++ as.flatMap AttributeBytes.bytes))) := by
        simp [AttributeBytes.bytes]
      rw [hbytes, List.length_cons, parseAttributes]
      exact (reads_short a.nameIndex).bind (hint.bind (hnew.bind
        ((Reads.readArray a.info.1).bind hrest.map)))

theorem reads_parseAttribute {as : List AttributeBytes} (hcount : as.length < 2 ^ 15)
    (h : ∀ a ∈ as, a.info.1.length < 2 ^ 31) :
    Reads parseAttribute (attributesBytes as) (as.map AttributeBytes.parsed) := by
  have hlen : (toSigned 16 as.length).toNat = as.length := by
    rw [toSigned, if_pos hcount, Int.toNat_natCast]
  refine (reads_u2 (show as.length < 2 ^ 16 by omega)).bind ?_
  rw [hlen]
  exact reads_parseAttributes h

/-- A negative count: no attribute is read. -/
theorem parseAttribute_negative {as : List AttributeBytes} (hlt : as.length < 2 ^ 16)
    (hcount : 2 ^ 15 ≤ as.length) {s : InputStream} {r : List UInt8} (hs : s.FullReads) :
    parseAttribute { s with rest := attributesBytes as ++ r } =
      .ok ([], { s with rest := as.flatMap AttributeBytes.bytes ++ r }) := by
  have hlen : (toSigned 16 as.length).toNat = 0 := by
    rw [toSigned, if_neg (by omega)]
    omega
  rw [attributesBytes, List.append_assoc, parseAttribute, (reads_u2 hlt).bind_eq hs, hlen]
  rfl

/-- An attribute whose length is negative as `int` throws. -/
theorem parseAttributes_error {as : List AttributeBytes} {a : AttributeBytes} (ha : a ∈ as)
    (hlong : 2 ^ 31 ≤ a.info.1.length) {s : InputStream} (hs : s.FullReads) (r : List UInt8) :
    parseAttributes as.length { s with rest := as.flatMap AttributeBytes.bytes ++ r } =
      .error .negativeArraySize := by
  induction as with
  | nil => cases ha
  | cons x as ih =>
      have hbytes : (x :: as).flatMap AttributeBytes.bytes ++ r = toBytes 2 x.nameIndex ++
          (toBytes 4 x.info.1.length ++ (x.info.1 ++ (as.flatMap AttributeBytes.bytes ++ r))) := by
        simp [AttributeBytes.bytes]
      have hint : Reads readInt (toBytes 4 x.info.1.length) (toSigned 32 x.info.1.length) :=
        Reads.readSigned x.info.2
      rw [hbytes, List.length_cons, parseAttributes, (reads_short x.nameIndex).bind_eq hs,
        hint.bind_eq hs]
      by_cases hx : x.info.1.length < 2 ^ 31
      · have hnew : newArraySize (toSigned 32 x.info.1.length) =
            newArraySize (x.info.1.length : ℤ) := by rw [toSigned, if_pos hx]
        have has : a ∈ as := by
          rcases List.mem_cons.1 ha with rfl | ha
          · omega
          · exact ha
        rw [hnew]
        refine ((Reads.newArraySize x.info.1.length).bind_eq hs _).trans ?_
        refine ((Reads.readArray x.info.1).bind_eq hs _).trans ?_
        exact JIO.bind_of_error (ih has)
      · have hneg : toSigned 32 x.info.1.length < 0 := by
          have hlt := x.info.2
          rw [toSigned, if_neg hx]
          omega
        exact JIO.bind_of_error (if_pos hneg)

theorem parseAttribute_error {as : List AttributeBytes} (hcount : as.length < 2 ^ 15)
    {a : AttributeBytes} (ha : a ∈ as) (hlong : 2 ^ 31 ≤ a.info.1.length) {s : InputStream}
    (hs : s.FullReads) (r : List UInt8) :
    parseAttribute { s with rest := attributesBytes as ++ r } = .error .negativeArraySize := by
  have hlen : (toSigned 16 as.length).toNat = as.length := by
    rw [toSigned, if_pos hcount, Int.toNat_natCast]
  rw [attributesBytes, List.append_assoc, parseAttribute,
    (reads_u2 (show as.length < 2 ^ 16 by omega)).bind_eq hs, hlen]
  exact parseAttributes_error ha hlong hs r

/-! ## Looking for the code -/

theorem Named.getString {cp : JConstantPool} {index : U2} {name : String} (hloaded : cp.Loaded)
    (h : Named cp index name) : cp.getString (toSigned 16 index) = .ok name := by
  obtain ⟨xs, -, hlen⟩ := hloaded.entryList
  obtain ⟨hindex, -⟩ := List.getElem?_eq_some_iff.1 h
  have hsigned : toSigned 16 index = (index : ℕ) := by
    rw [toSigned, if_pos (show (index : ℕ) < 2 ^ 15 by omega)]
  have hget : cp.get (toSigned 16 index) = .ok (.string name) := by
    rw [hsigned, JConstantPool.get, if_neg (by omega), Int.toNat_natCast, h]
  rw [JConstantPool.getString, hget]
  rfl

/-- The attributes that are not `Code` are passed over. -/
theorem findCode_skip {cp : JConstantPool} (hloaded : cp.Loaded) {as : List AttributeBytes}
    (h : ∀ a ∈ as, ∃ name, Named cp a.nameIndex name ∧ name ≠ "Code") (rest : List AttributeInfo)
    (codes : Option (List UInt8)) :
    findCode cp (as.map AttributeBytes.parsed ++ rest) codes = findCode cp rest codes := by
  induction as with
  | nil => rfl
  | cons a as ih =>
      obtain ⟨name, hname, hne⟩ := h a List.mem_cons_self
      have hget : cp.getString a.parsed.nameIndex = .ok name := hname.getString hloaded
      rw [List.map_cons, List.cons_append, findCode, hget]
      refine Eq.trans ?_ (ih fun x hx => h x (List.mem_cons_of_mem a hx))
      exact if_neg hne

/-- What the loop over the attributes finds. -/
theorem HasCode.findCode_eq {cp : JConstantPool} {m : MethodInfo} {info : List UInt8} {L : ℕ}
    (h : HasCode cp m info L) :
    findCode cp (m.attributes.map AttributeBytes.parsed) none = (parseCode info).map some := by
  obtain ⟨before, code, after, has, hcode, rfl, hothers⟩ := h.attributes
  have hget : cp.getString code.parsed.nameIndex = .ok "Code" := hcode.getString h.loaded
  have hbefore : ∀ a ∈ before, ∃ name, Named cp a.nameIndex name ∧ name ≠ "Code" :=
    fun a ha => hothers a (List.mem_append_left after ha)
  have hafter : ∀ a ∈ after, ∃ name, Named cp a.nameIndex name ∧ name ≠ "Code" :=
    fun a ha => hothers a (List.mem_append_right before ha)
  rw [has, List.map_append, List.map_cons, findCode_skip h.loaded hbefore, findCode, hget]
  change (parseCode code.info.1 >>= fun codes =>
    findCode cp (after.map AttributeBytes.parsed) (some codes)) = _
  cases parseCode code.info.1 with
  | error e => rfl
  | ok codes =>
      have hskip := findCode_skip h.loaded hafter [] (some codes)
      rw [List.append_nil] at hskip
      exact hskip

/-! ## The method -/

section Method

variable {cp : JConstantPool} {m : MethodInfo} {info : List UInt8} {L : ℕ} {s : InputStream}
  {r : List UInt8}

/-- What is left of `parseMethod` after the two names were read. -/
def methodRest (cp : JConstantPool) (name : String) (descriptorIndex : ℤ) : JIO JMethod := do
  let attributeInfoList ← parseAttribute
  let codes ← lookUp (findCode cp attributeInfoList none)
  let des ← lookUp (cp.getString descriptorIndex)
  pure ⟨codes, name, methodParam des, cp⟩

theorem parseMethod_names {name : String} (hloaded : cp.Loaded) (hname : Named cp m.nameIndex name)
    (hs : s.FullReads) :
    parseMethod cp { s with rest := m.bytes ++ r } =
      methodRest cp name (toSigned 16 m.descriptorIndex)
        { s with rest := attributesBytes m.attributes ++ r } := by
  rw [MethodInfo.bytes, List.append_assoc, List.append_assoc, List.append_assoc, parseMethod,
    (reads_short m.accessFlags).bind_eq hs, (reads_short m.nameIndex).bind_eq hs]
  refine ((Reads.lookUp (hname.getString hloaded)).bind_eq hs _).trans ?_
  exact (reads_short m.descriptorIndex).bind_eq hs _

/-- Attributes that are read whole. -/
theorem methodRest_ok {name des : String} {descriptorIndex : ℤ} {code : List UInt8}
    (hcount : m.attributes.length < 2 ^ 15) (hlens : ∀ a ∈ m.attributes, a.info.1.length < 2 ^ 31)
    (hcode : findCode cp (m.attributes.map AttributeBytes.parsed) none = .ok (some code))
    (hdes : cp.getString descriptorIndex = .ok des) (hs : s.FullReads) :
    methodRest cp name descriptorIndex { s with rest := attributesBytes m.attributes ++ r } =
      .ok (⟨some code, name, methodParam des, cp⟩, { s with rest := r }) := by
  rw [methodRest, (reads_parseAttribute hcount hlens).bind_eq hs]
  refine ((Reads.lookUp hcode).bind_eq hs _).trans ?_
  exact (Reads.lookUp hdes).bind_eq hs _

/-- What a method that was parsed says about its attributes. -/
theorem methodRest_inv {name : String} {descriptorIndex : ℤ} {method : JMethod} {s' : InputStream}
    (h : methodRest cp name descriptorIndex s = .ok (method, s')) :
    ∃ attributeInfoList t, parseAttribute s = .ok (attributeInfoList, t) ∧
      findCode cp attributeInfoList none = .ok method.code := by
  obtain ⟨attributeInfoList, t, hattributes, h⟩ := JIO.bind_eq_ok.1 h
  obtain ⟨codes, t₁, hcodes, h⟩ := JIO.bind_eq_ok.1 h
  obtain ⟨des, t₂, -, h⟩ := JIO.bind_eq_ok.1 h
  cases h
  refine ⟨attributeInfoList, t, hattributes, ?_⟩
  rw [lookUp] at hcodes
  cases hfind : findCode cp attributeInfoList none with
  | error e =>
      rw [hfind] at hcodes
      cases hcodes
  | ok found =>
      rw [hfind] at hcodes
      cases hcodes
      rfl

theorem parseMethod_eq {name : String} (hname : Named cp m.nameIndex name) (h : HasCode cp m info L)
    (hs : s.FullReads) (hr : s.rest = m.bytes ++ r) :
    parseMethod cp s = methodRest cp name (toSigned 16 m.descriptorIndex)
      { s with rest := attributesBytes m.attributes ++ r } := by
  rw [← parseMethod_names h.loaded hname hs, ← hr]

/-- What it takes for the code to be extracted. -/
theorem HasCode.of_extracts (h : HasCode cp m info L) (hs : s.FullReads)
    (hr : s.rest = m.bytes ++ r) (hextracts : Extracts cp info L s r) :
    L < 128 ∧ m.attributes.length < 2 ^ 15 ∧ ∀ a ∈ m.attributes, a.info.1.length < 2 ^ 31 := by
  obtain ⟨name, hname⟩ := h.name
  obtain ⟨method, hmethod, hcode⟩ := hextracts
  rw [parseMethod_eq hname h hs hr] at hmethod
  obtain ⟨attributeInfoList, t, hattributes, hfind⟩ := methodRest_inv hmethod
  rw [hcode] at hfind
  have hcount : m.attributes.length < 2 ^ 15 := by
    refine Nat.not_le.1 fun hcount => ?_
    rw [parseAttribute_negative m.count_lt hcount hs] at hattributes
    cases hattributes
    cases hfind
  have hlens : ∀ a ∈ m.attributes, a.info.1.length < 2 ^ 31 := by
    intro a ha
    refine Nat.not_le.1 fun hlong => ?_
    rw [parseAttribute_error hcount ha hlong hs] at hattributes
    cases hattributes
  have hread := reads_parseAttribute hcount hlens
    { s with rest := attributesBytes m.attributes ++ r } r hs rfl
  rw [hattributes] at hread
  cases hread
  rw [h.findCode_eq] at hfind
  refine ⟨(parseCode_iff h.lt h.stored h.room).1 ?_, hcount, hlens⟩
  cases hinfo : parseCode info with
  | error e =>
      rw [hinfo] at hfind
      cases hfind
  | ok codes =>
      rw [hinfo] at hfind
      cases hfind
      rfl

/-- `parseMethod` extracts the code of a method if and only if the code is
shorter than 128 bytes and no count and no length is negative as a signed
number. -/
theorem parseMethod_extracts_iff (h : HasCode cp m info L) (hs : s.FullReads)
    (hr : s.rest = m.bytes ++ r) :
    Extracts cp info L s r ↔
      L < 128 ∧ m.attributes.length < 2 ^ 15 ∧ ∀ a ∈ m.attributes, a.info.1.length < 2 ^ 31 := by
  refine ⟨h.of_extracts hs hr, ?_⟩
  rintro ⟨hlt, hcount, hlens⟩
  obtain ⟨name, hname⟩ := h.name
  obtain ⟨des, hdes⟩ := h.descriptor
  have hfind : findCode cp (m.attributes.map AttributeBytes.parsed) none =
      .ok (some ((info.drop 8).take L)) := by
    rw [h.findCode_eq, (parseCode_iff h.lt h.stored h.room).2 hlt]
    rfl
  rw [Extracts, parseMethod_eq hname h hs hr]
  exact ⟨_, methodRest_ok hcount hlens hfind (hdes.getString h.loaded) hs, rfl⟩

end Method

/-! ## A method with one attribute -/

/-- The names "Code", "f" and "()V". -/
def codePool : Pool where
  entries := [.utf8 ⟨[67, 111, 100, 101], by decide⟩, .utf8 ⟨[102], by decide⟩,
    .utf8 ⟨[40, 41, 86], by decide⟩]
  count_lt := by decide

theorem codePool_loaded : (JConstantPool.new.addAll latin1 codePool.entries).Loaded := by
  have hentries : ∀ e ∈ codePool.entries, e.Readable ∧ e.slots = 1 := by
    simp [codePool, CpInfo.Readable, CpInfo.slots]
  exact Pool.Decodable.loaded ⟨by decide, fun e he => (hentries e he).1,
    fun e he => (hentries e he).2⟩

/-- The attribute of a method with `L` bytes of code, all of them `RETURN`. -/
def returnsInfo (L : ℕ) : List UInt8 := [0, 1, 0, 1] ++ toBytes 4 L ++ List.replicate L 177

theorem returnsInfo_length (L : ℕ) : (returnsInfo L).length = 8 + L := by
  simp [returnsInfo]
  omega

def returnsMethod (L : ℕ) (h : L < 2 ^ 16) : MethodInfo where
  accessFlags := 0
  nameIndex := 2
  descriptorIndex := 3
  attributes := [⟨1, returnsInfo L, by rw [returnsInfo_length]; omega⟩]
  count_lt := Nat.one_lt_two_pow (by decide)

theorem returnsMethod_hasCode {L : ℕ} (hpos : 1 ≤ L) (h : L < 2 ^ 16) :
    HasCode (JConstantPool.new.addAll latin1 codePool.entries) (returnsMethod L h) (returnsInfo L) L where
  loaded := codePool_loaded
  name := ⟨"f", rfl⟩
  descriptor := ⟨"()V", rfl⟩
  attributes := ⟨[], _, [], rfl, rfl, rfl, by simp⟩
  pos := hpos
  lt := h
  stored := by
    have hdrop : (returnsInfo L).drop 4 = toBytes 4 L ++ List.replicate L 177 := rfl
    rw [hdrop, List.take_left' (toBytes_length 4 L)]
  room := (returnsInfo_length L).ge

theorem returnsMethod_extracts :
    Extracts (JConstantPool.new.addAll latin1 codePool.entries) (returnsInfo 1) 1
      (.ofBytes ((returnsMethod 1 (by decide)).bytes ++ [])) [] :=
  (parseMethod_extracts_iff (returnsMethod_hasCode le_rfl (by decide))
    (InputStream.ofBytes_fullReads _) rfl).2 ⟨by decide, by decide, by decide⟩

/-- The length 128 is put together to a negative number. -/
theorem returnsMethod_not_extracts :
    HasCode (JConstantPool.new.addAll latin1 codePool.entries) (returnsMethod 128 (by decide))
        (returnsInfo 128) 128 ∧
      ¬Extracts (JConstantPool.new.addAll latin1 codePool.entries) (returnsInfo 128) 128
        (.ofBytes ((returnsMethod 128 (by decide)).bytes ++ [])) [] := by
  have hcode := returnsMethod_hasCode (show 1 ≤ 128 by decide) (by decide)
  refine ⟨hcode, fun hextracts => ?_⟩
  have hlt := (hcode.of_extracts (InputStream.ofBytes_fullReads _) rfl hextracts).1
  exact absurd hlt (by decide)

end MyJavaExample.Jvm
