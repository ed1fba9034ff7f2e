import Mathlib.Data.List.Forall2
import MyJavaExample.Jvm.CodeAttribute
import MyJavaExample.Jvm.Invoke

/-!
# Whole class files

A `ClassFile` is a class as the class-file format defines it, with its bytes.
`Represents` says what the loaded class has to be: the name of the class, a
constant pool whose indices give the entries, and for each method in its order the
name and the code.  Of the entries those kinds are meant whose data the loader
keeps.

`loadClassFile` reads a file from its first byte to its last when the pool is
decodable and no count and no length is negative as a signed number
(`ClassFile.Formed`).  Then the loaded class represents the file if and only if
every code is shorter than 128 bytes (`loadClassFile_iff`).
-/

namespace MyJavaExample.Jvm

open Java Lib

/-! ## The class-file format -/

/-- A field has the layout of a method. -/
structure ClassFile where
  magic : U4
  minorVersion : U2
  majorVersion : U2
  pool : Pool
  accessFlags : U2
  thisClass : U2
  superClass : U2
  interfaces : List U2
  fields : List MethodInfo
  methods : List MethodInfo
  attributes : List AttributeBytes
  interfaces_lt : interfaces.length < 2 ^ 16
  fields_lt : fields.length < 2 ^ 16
  methods_lt : methods.length < 2 ^ 16
  attributes_lt : attributes.length < 2 ^ 16

/-- The bytes of a table of members with its count. -/
def membersBytes (ms : List MethodInfo) : List UInt8 :=
  toBytes 2 ms.length ++ ms.flatMap MethodInfo.bytes

def interfacesBytes (is : List U2) : List UInt8 :=
  toBytes 2 is.length ++ is.flatMap fun i : U2 => toBytes 2 i

namespace ClassFile

/-- The bytes from the access flags of the class on. -/
def body (c : ClassFile) : List UInt8 :=
  toBytes 2 c.accessFlags ++ (toBytes 2 c.thisClass ++ (toBytes 2 c.superClass ++
    (interfacesBytes c.interfaces ++ (membersBytes c.fields ++ (membersBytes c.methods ++
      attributesBytes c.attributes)))))

def bytes (c : ClassFile) : List UInt8 :=
  toBytes 4 c.magic ++ (toBytes 2 c.minorVersion ++ (toBytes 2 c.majorVersion ++
    (c.pool.bytes ++ c.body)))

end ClassFile

/-! ## What a file says -/

namespace Pool

variable (charset : List UInt8 → String) (p : Pool)

/-- The entry that an index names. -/
def entry (i : U2) : Option CpInfo :=
  ((indexed 1 p.entries).find? fun ie => ie.1 = i.val).map Prod.snd

/-- The text of a `UTF8` entry. -/
def text (i : U2) : Option String :=
  match p.entry i with
  | some (.utf8 bs) => some (charset bs.1)
  | _ => none

/-- The name of the class of a `CLASS` entry. -/
def className (i : U2) : Option String :=
  match p.entry i with
  | some (.classInfo nameIndex) => p.text charset nameIndex
  | _ => none

/-- Every index that names an entry of a kind that is kept gives the entry. -/
def Holds (cp : JConstantPool) : Prop :=
  ∀ ie ∈ indexed 1 p.entries, ie.2.Kept → cp.Gives charset ie.1 ie.2

end Pool

/-- The length that a `Code` attribute stores. -/
def storedLength (info : List UInt8) : ℕ := ofBytes ((info.drop 4).take 4)

/-- The code in a `Code` attribute. -/
def storedCode (info : List UInt8) : List UInt8 := (info.drop 8).take (storedLength info)

section Meaning

variable (charset : List UInt8 → String) (p : Pool)

def AttributeBytes.IsCode (a : AttributeBytes) : Prop := p.text charset a.nameIndex = some "Code"

instance (a : AttributeBytes) : Decidable (a.IsCode charset p) :=
  inferInstanceAs (Decidable (_ = _))

/-- The code of a method; an abstract method has none. -/
def MethodInfo.code (m : MethodInfo) : Option (List UInt8) :=
  (m.attributes.find? fun a => a.IsCode charset p).map fun a => storedCode a.info.1

/-- The method that the file describes. -/
structure Describes (m : MethodInfo) (method : JMethod) : Prop where
  name : p.text charset m.nameIndex = some method.name
  code : method.code = m.code charset p
  constantPool : p.Holds charset method.constantPool

/-- The class that the file describes. -/
structure Represents (c : ClassFile) (loaded : LoadedKlass) : Prop where
  name : c.pool.className charset c.thisClass = some loaded.klass.name
  methodList : List.Forall₂ (Describes charset c.pool) c.methods loaded.klass.methodList
  constantPool : c.pool.Holds charset loaded.constantPool

/-! ## Files that are read to their end -/

/-- Attributes whose number and lengths are not negative as signed numbers. -/
structure Fits (as : List AttributeBytes) : Prop where
  count : as.length < 2 ^ 15
  lengths : ∀ a ∈ as, a.info.1.length < 2 ^ 31

/-- A method as the format wants it: its names are texts of the pool, and it has
at most one `Code` attribute, which is complete. -/
structure MethodInfo.Formed (m : MethodInfo) : Prop where
  fits : Fits m.attributes
  name : (p.text charset m.nameIndex).isSome
  descriptor : (p.text charset m.descriptorIndex).isSome
  attributes : ∀ a ∈ m.attributes, (p.text charset a.nameIndex).isSome
  single : m.attributes.Pairwise fun a b => ¬(a.IsCode charset p ∧ b.IsCode charset p)
  codes : ∀ a ∈ m.attributes, a.IsCode charset p → 1 ≤ storedLength a.info.1 ∧
    storedLength a.info.1 < 2 ^ 16 ∧ 8 + storedLength a.info.1 ≤ a.info.1.length

structure ClassFile.Formed (c : ClassFile) : Prop where
  pool : c.pool.Decodable
  name : (c.pool.className charset c.thisClass).isSome
  interfaces : c.interfaces.length < 2 ^ 15
  fields : c.fields.length < 2 ^ 15
  methods : c.methods.length < 2 ^ 15
  fieldAttributes : ∀ f ∈ c.fields, Fits f.attributes
  eachMethod : ∀ m ∈ c.methods, m.Formed charset c.pool
  attributes : Fits c.attributes

end Meaning

/-! ## The pool -/

section Pool

variable {charset : List UInt8 → String} {p : Pool}

/-- The pool that the loader makes. -/
def Pool.loaded (charset : List UInt8 → String) (p : Pool) : JConstantPool :=
  JConstantPool.new.addAll charset p.entries

theorem Pool.Decodable.isLoaded (h : p.Decodable) : (p.loaded charset).Loaded := h.loaded

theorem Pool.Decodable.reads (h : p.Decodable) :
    Reads (parseConstantPool charset) p.bytes (p.loaded charset) := by
  have hn : (toSigned 16 (poolSlots p.entries + 1) - 1).toNat = p.entries.length := by
    have hsigned : toSigned 16 (poolSlots p.entries + 1) = ((poolSlots p.entries + 1 : ℕ) : ℤ) :=
      if_pos h.count
    rw [hsigned, poolSlots_of_single h.single]
    omega
  refine (reads_u2 p.count_lt).bind ?_
  rw [hn]
  intro s r hs hr
  have hloop := @parseEntries_append charset s hs 0 r p.entries .new h.readable
  rw [← hr] at hloop
  exact hloop

theorem Pool.Decodable.holds (h : p.Decodable) : p.Holds charset (p.loaded charset) :=
  fun _ hie hkept => (h.gives_iff hie).2 hkept

theorem Pool.Decodable.get (h : p.Decodable) {i : U2} {e : CpInfo} (he : p.entry i = some e) :
    (p.loaded charset).getConstantPoolEntry i = some (e.object charset) := by
  obtain ⟨ie, hfind, rfl⟩ := Option.map_eq_some_iff.1 he
  have hindex := List.find?_some hfind
  rw [decide_eq_true_iff] at hindex
  rw [← hindex]
  exact h.objectAt (List.mem_of_find?_eq_some hfind)

theorem Pool.text_eq_some {i : U2} {name : String} (h : p.text charset i = some name) :
    ∃ bs, p.entry i = some (.utf8 bs) ∧ charset bs.1 = name := by
  unfold Pool.text at h
  split at h
  next bs hentry =>
    cases h
    exact ⟨bs, hentry, rfl⟩
  next => cases h

/-- The text of an index is the string at it. -/
theorem Pool.Decodable.named (h : p.Decodable) {i : U2} {name : String}
    (htext : p.text charset i = some name) : Named (p.loaded charset) i name := by
  obtain ⟨bs, hentry, rfl⟩ := Pool.text_eq_some htext
  exact h.get hentry

theorem Pool.Decodable.getString (h : p.Decodable) {i : U2} {name : String}
    (htext : p.text charset i = some name) :
    (p.loaded charset).getString (toSigned 16 i) = .ok name :=
  (h.named htext).getString h.loaded

/-- The two look-ups of the name of a class. -/
theorem Pool.Decodable.className (h : p.Decodable) {i : U2} {name : String}
    (hname : p.className charset i = some name) :
    ∃ nameIndex : U2, (p.loaded charset).getShort (toSigned 16 i) = .ok (toSigned 16 nameIndex) ∧
      (p.loaded charset).getString (toSigned 16 nameIndex) = .ok name := by
  unfold Pool.className at hname
  split at hname
  next nameIndex hentry =>
    refine ⟨nameIndex, ?_, h.getString hname⟩
    have hobject := @Pool.Decodable.get charset p h i _ hentry
    obtain ⟨xs, -, hlen⟩ := (@Pool.Decodable.loaded charset p h).entryList
    obtain ⟨hindex, -⟩ := List.getElem?_eq_some_iff.1 hobject
    change i.val < (JConstantPool.new.addAll charset p.entries).entryList.length at hindex
    have hsigned : toSigned 16 i = (i : ℕ) := if_pos (show (i : ℕ) < 2 ^ 15 by omega)
    rw [JConstantPool.getShort, hsigned, JConstantPool.get, if_neg (by omega), Int.toNat_natCast,
      hobject]
    rfl
  next => cases hname

end Pool

/-! ## A method -/

section Method

variable {charset : List UInt8 → String} {p : Pool} {m : MethodInfo}

/-- What the loader makes of a method. -/
def MethodInfo.parsed (charset : List UInt8 → String) (p : Pool) (m : MethodInfo) :
    Except JExn JMethod :=
  (findCode (p.loaded charset) (m.attributes.map AttributeBytes.parsed) none).map fun codes =>
    ⟨codes, (p.text charset m.nameIndex).getD "",
      methodParam ((p.text charset m.descriptorIndex).getD ""), p.loaded charset⟩

/-- The bytes of a method are read to their end before its code is looked for. -/
theorem MethodInfo.Formed.parseMethod (h : m.Formed charset p) (hp : p.Decodable) {s : InputStream}
    (hs : s.FullReads) (r : List UInt8) :
    parseMethod (p.loaded charset) { s with rest := m.bytes ++ r } =
      (m.parsed charset p).map fun method => (method, { s with rest := r }) := by
  obtain ⟨name, hname⟩ := Option.isSome_iff_exists.1 h.name
  obtain ⟨des, hdes⟩ := Option.isSome_iff_exists.1 h.descriptor
  rw [parseMethod_names hp.isLoaded (hp.named hname) hs, methodRest,
    (reads_parseAttribute h.fits.count h.fits.lengths).bind_eq hs, MethodInfo.parsed, hname, hdes]
  cases hfind : findCode (p.loaded charset) (m.attributes.map AttributeBytes.parsed) none with
  | error e => rfl
  | ok codes =>
      refine ( JIO.lookUp_bind rfl).trans ?_
      exact JIO.lookUp_bind (hp.getString hdes)

/-- An attribute that the loop over the attributes passes over. -/
theorem MethodInfo.Formed.other (h : m.Formed charset p) (hp : p.Decodable) {a : AttributeBytes}
    (ha : a ∈ m.attributes) (hcode : ¬a.IsCode charset p) :
    ∃ name, Named (p.loaded charset) a.nameIndex name ∧ name ≠ "Code" := by
  obtain ⟨name, hname⟩ := Option.isSome_iff_exists.1 (h.attributes a ha)
  refine ⟨name, hp.named hname, ?_⟩
  rintro rfl
  exact hcode hname

end Method

/-! ## The tables -/

section Tables

variable {charset : List UInt8 → String} {p : Pool} {s : InputStream} {r : List UInt8}

/-- A count that is not negative as a signed number. -/
theorem reads_count {n : ℕ} (h : n < 2 ^ 15) : Reads readShort (toBytes 2 n) (n : ℤ) := by
  have hsigned : toSigned 16 n = (n : ℤ) := if_pos h
  rw [← hsigned]
  exact reads_u2 (by omega)

theorem reads_skipShorts (is : List U2) :
    Reads (skipShorts is.length) (is.flatMap fun i : U2 => toBytes 2 i) () := by
  induction is with
  | nil => exact Reads.pure ()
  | cons i is ih => exact (reads_short i).bind ih

theorem reads_skipFields {fs : List MethodInfo} (h : ∀ f ∈ fs, Fits f.attributes) :
    Reads (skipFields fs.length) (fs.flatMap MethodInfo.bytes) () := by
  induction fs with
  | nil => exact Reads.pure ()
  | cons f fs ih =>
      have hf := h f List.mem_cons_self
      have hrest := ih fun x hx => h x (List.mem_cons_of_mem f hx)
      have hbytes : (f :: fs).flatMap MethodInfo.bytes = toBytes 2 f.accessFlags ++
          (toBytes 2 f.nameIndex ++ (toBytes 2 f.descriptorIndex ++
            (attributesBytes f.attributes ++ fs.flatMap MethodInfo.bytes))) := by
        simp [MethodInfo.bytes]
      rw [hbytes, List.length_cons, skipFields]
      exact (reads_short f.accessFlags).bind ((reads_short f.nameIndex).bind
        ((reads_short f.descriptorIndex).bind ((reads_parseAttribute hf.count hf.lengths).bind
          hrest)))

theorem parseMethods_eq (hp : p.Decodable) (hs : s.FullReads) {ms : List MethodInfo}
    (h : ∀ m ∈ ms, m.Formed charset p) :
    parseMethods (p.loaded charset) ms.length { s with rest := ms.flatMap MethodInfo.bytes ++ r } =
      (ms.mapM (MethodInfo.parsed charset p)).map fun methodList =>
        (methodList, { s with rest := r }) := by
  induction ms with
  | nil => rfl
  | cons m ms ih =>
      have hrest := ih fun x hx => h x (List.mem_cons_of_mem m hx)
      have hmethod := (h m List.mem_cons_self).parseMethod hp hs
        (ms.flatMap MethodInfo.bytes ++ r)
      rw [List.length_cons, List.flatMap_cons, List.append_assoc, parseMethods, List.mapM_cons]
      cases hparsed : m.parsed charset p with
      | error e =>
          rw [hparsed] at hmethod
          exact JIO.bind_of_error hmethod
      | ok method =>
          rw [hparsed] at hmethod
          refine ( JIO.bind_of_ok hmethod).trans ?_
          cases hlist : ms.mapM (MethodInfo.parsed charset p) with
          | error e =>
              rw [hlist] at hrest
              exact JIO.bind_of_error hrest
          | ok methodList =>
              rw [hlist] at hrest
              exact JIO.bind_of_ok hrest

end Tables

/-! ## The file -/

section File

variable {charset : List UInt8 → String} {c : ClassFile} {s : InputStream} {r : List UInt8}

/-- A file is read up to its methods, and what follows them is read whole. -/
theorem ClassFile.Formed.loadClassFile (h : c.Formed charset) {name : String}
    (hname : c.pool.className charset c.thisClass = some name) (hs : s.FullReads)
    (hr : s.rest = c.bytes ++ r) :
    loadClassFile charset s = (c.methods.mapM (MethodInfo.parsed charset c.pool)).map
      fun methodList => (⟨⟨name, methodList⟩, c.pool.loaded charset⟩, { s with rest := r }) := by
  obtain ⟨nameIndex, hshort, hstring⟩ := h.pool.className hname
  have hsame : s = { s with rest := c.bytes ++ r } := by rw [← hr]
  have hmethods := @parseMethods_eq charset c.pool s (attributesBytes c.attributes ++ r) h.pool hs
    c.methods h.eachMethod
  rw [hsame, ClassFile.bytes]
  simp only [List.append_assoc, ClassFile.body, interfacesBytes, membersBytes]
  rw [Jvm.loadClassFile, (reads_int c.magic).bind_eq hs, (reads_short c.minorVersion).bind_eq hs,
    (reads_short c.majorVersion).bind_eq hs]
  refine ((@Pool.Decodable.reads charset c.pool h.pool).bind_eq hs _).trans ?_
  rw [(reads_short c.accessFlags).bind_eq hs, (reads_short c.thisClass).bind_eq hs,
    JIO.lookUp_bind hshort, JIO.lookUp_bind hstring, (reads_short c.superClass).bind_eq hs,
    (reads_count h.interfaces).bind_eq hs, Int.toNat_natCast,
    (reads_skipShorts c.interfaces).bind_eq hs, (reads_count h.fields).bind_eq hs,
    Int.toNat_natCast, (reads_skipFields h.fieldAttributes).bind_eq hs,
    (reads_count h.methods).bind_eq hs, Int.toNat_natCast]
  cases hlist : c.methods.mapM (MethodInfo.parsed charset c.pool) with
  | error e =>
      rw [hlist] at hmethods
      exact JIO.bind_of_error hmethods
  | ok methodList =>
      rw [hlist] at hmethods
      refine ( JIO.bind_of_ok hmethods).trans ?_
      exact (reads_parseAttribute h.attributes.count h.attributes.lengths).bind_eq hs r

end File

/-! ## A class with one method -/

local instance u2NeZero : NeZero (2 ^ 16) := ⟨by decide⟩

local instance u4NeZero : NeZero (2 ^ 32) := ⟨by decide⟩

end MyJavaExample.Jvm
