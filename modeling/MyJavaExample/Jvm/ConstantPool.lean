import MyJavaExample.Java.InputStream

/-!
# The constant pool: `ClassParser.parseConstantPool` and `JConstantPool`

The parser reads a signed 16-bit count and then one entry per index from 1 to
the count.  For each it records the tag and, in the branch of the tag, an
object.  Several kinds keep no data and are recorded as `new Object()`.  The
switch has no branch for `METHOD_TYPE` and no default branch.

`new String(bytes)` decodes by the default charset of the platform, which is a
parameter here.
-/

namespace MyJavaExample.Jvm

open Java

/-! ## `ConstantPoolTag` -/

namespace ConstantPoolTag

def CLASS : ℤ := 7
def FIELD_REF : ℤ := 9
def METHOD_REF : ℤ := 10
def INTERFACE_METHOD_REF : ℤ := 11
def STRING : ℤ := 8
def INTEGER : ℤ := 3
def FLOAT : ℤ := 4
def LONG : ℤ := 5
def DOUBLE : ℤ := 6
def NAME_AND_TYPE : ℤ := 12
def UTF8 : ℤ := 1
def METHOD_HANDLE : ℤ := 15
def METHOD_TYPE : ℤ := 16
def INVOKE_DYNAMIC : ℤ := 18

end ConstantPoolTag

open ConstantPoolTag

/-! ## `JConstantPool` -/

/-- The objects the parser puts into a pool.  A float or a double is kept by
the integer of its bits. -/
inductive JObject where
  /-- `new Object()`. -/
  | object
  | short (v : ℤ)
  | int (v : ℤ)
  | float (bits : ℤ)
  | long (v : ℤ)
  | double (bits : ℤ)
  | string (s : String)
  | methodRef (classIndex nameAndTypeIndex : ℤ)
  | nameAndType (nameIndex descriptorIndex : ℤ)
deriving DecidableEq, Repr

structure JConstantPool where
  tagList : List ℤ
  entryList : List JObject
deriving DecidableEq, Repr

namespace JConstantPool

/-- `new JConstantPool()`: index 0 is taken by a placeholder. -/
def new : JConstantPool := ⟨[0], [.object]⟩

def getConstantPoolEntry (cp : JConstantPool) (index : ℕ) : Option JObject := cp.entryList[index]?

def addTag (cp : JConstantPool) (tag : ℤ) : JConstantPool :=
  { cp with tagList := cp.tagList ++ [tag] }

def addEntry (cp : JConstantPool) (entry : JObject) : JConstantPool :=
  { cp with entryList := cp.entryList ++ [entry] }

end JConstantPool

/-! ## `parseConstantPool` -/

section Parse

variable (charset : List UInt8 → String)

/-- The branches of the switch: what is read and added for a tag. -/
def parseEntry (tag : ℤ) (cp : JConstantPool) : JIO JConstantPool := do
  if tag = CLASS then
    let nameIndex ← readShort
    pure (cp.addEntry (.short nameIndex))
  else if tag = FIELD_REF then
    let _ ← readShort
    let _ ← readShort
    pure (cp.addEntry .object)
  else if tag = METHOD_REF then
    let classIndex ← readShort
    let nameAndTypeIndex ← readShort
    pure (cp.addEntry (.methodRef classIndex nameAndTypeIndex))
  else if tag = INTERFACE_METHOD_REF then
    let _ ← readShort
    let _ ← readShort
    pure (cp.addEntry .object)
  else if tag = STRING then
    let stringIndex ← readShort
    pure (cp.addEntry (.short stringIndex))
  else if tag = INTEGER then
    let intValue ← readInt
    pure (cp.addEntry (.int intValue))
  else if tag = FLOAT then
    let f ← readInt
    pure (cp.addEntry (.float f))
  else if tag = LONG then
    let l ← readLong
    pure (cp.addEntry (.long l))
  else if tag = DOUBLE then
    let d ← readLong
    pure (cp.addEntry (.double d))
  else if tag = NAME_AND_TYPE then
    let nameIndex ← readShort
    let descriptorIndex ← readShort
    pure (cp.addEntry (.nameAndType nameIndex descriptorIndex))
  else if tag = UTF8 then
    let length ← readShort
    let n ← newArraySize length
    let bytes ← readArray n
    pure (cp.addEntry (.string (charset bytes)))
  else if tag = METHOD_HANDLE then
    let _ ← readArray 1
    let _ ← readShort
    pure (cp.addEntry .object)
  else if tag = INVOKE_DYNAMIC then
    let _ ← readShort
    let _ ← readShort
    pure (cp.addEntry .object)
  else pure cp

/-- The loop of `parseConstantPool`, for `n` remaining iterations. -/
def parseEntries : ℕ → JConstantPool → JIO JConstantPool
  | 0, cp => pure cp
  | n + 1, cp => do
      let tag ← readByte
      let cp ← parseEntry charset tag (cp.addTag tag)
      parseEntries n cp

def parseConstantPool : JIO JConstantPool := do
  let count ← readShort
  parseEntries charset (count - 1).toNat .new

end Parse

end MyJavaExample.Jvm
