import MyJavaExample.Java.Utf16
import MyJavaExample.Jvm.Interpreter

/-!
# Loading a class file: `ClassParser.loadClassFile`

The parts of a class file are read one after the other.  What is kept of a
method is its name, the code of its `Code` attribute, a string whose length is
taken for the number of its arguments, and the constant pool.  Fields, and the
attributes of a class, are read and dropped.

`parseMethod` finds the length of the code and the argument string by ad-hoc
means, `parseCode` and `methodParam` here.
-/

namespace MyJavaExample.Jvm

open Java

/-! ## `parseAttribute` -/

structure AttributeInfo where
  nameIndex : ℤ
  length : ℤ
  info : List UInt8

/-- The loop of `parseAttribute`, for `n` remaining iterations. -/
def parseAttributes : ℕ → JIO (List AttributeInfo)
  | 0 => pure []
  | n + 1 => do
      let nameIndex ← readShort
      let length ← readInt
      let size ← newArraySize length
      let bytes ← readArray size
      let attributeList ← parseAttributes n
      pure (⟨nameIndex, length, bytes⟩ :: attributeList)

def parseAttribute : JIO (List AttributeInfo) := do
  let count ← readShort
  parseAttributes count.toNat

/-! ## `parseMethod` -/

/-- The length of the code as `parseMethod` puts it together: by four bits for
each byte, and the bytes are signed. -/
def codeLength (bytes : List UInt8) : BitVec 32 :=
  bytes.foldl (fun codeLength b => (codeLength <<< 4) ||| b.toBitVec.signExtend 32) 0

/-- The code in the bytes of a `Code` attribute. -/
def parseCode (info : List UInt8) : Except JExn (List UInt8) :=
  if info.length < 8 then .error .arrayIndexOutOfBounds
  else
    let length := (codeLength ((info.drop 4).take 4)).toInt
    if length < 0 then .error .negativeArraySize
    else if 8 + length > info.length then .error .arrayIndexOutOfBounds
    else .ok ((info.drop 8).take length.toNat)

/-- The loop of `parseMethod` over the attributes. -/
def findCode (constantPool : JConstantPool) :
    List AttributeInfo → Option (List UInt8) → Except JExn (Option (List UInt8))
  | [], codes => .ok codes
  | attributeInfo :: attributeInfos, codes => do
      let codeName ← constantPool.getString attributeInfo.nameIndex
      if codeName = "Code" then
        let codes ← parseCode attributeInfo.info
        findCode constantPool attributeInfos (some codes)
      else findCode constantPool attributeInfos codes

/-- The characters that `.` does not match in a pattern. -/
def lineTerminator (c : Char) : Bool :=
  c.toNat = 0x0A ∨ c.toNat = 0x0D ∨ c.toNat = 0x85 ∨ c.toNat = 0x2028 ∨ c.toNat = 0x2029

/-- What the group of the first match of `(.*)` holds. -/
def findStr (des : List Char) : List Char := des.takeWhile fun c => !lineTerminator c

/-- The argument string of a method with this descriptor. -/
def methodParam (des : String) : String :=
  let findStr := findStr des.toList
  if (utf16 findStr).length > 2 then
    String.ofList (substring findStr 1 ((utf16 findStr).length - 2))
  else ""

def parseMethod (constantPool : JConstantPool) : JIO JMethod := do
  let _ ← readShort
  let nameIndex ← readShort
  let name ← lookUp (constantPool.getString nameIndex)
  let descriptorIndex ← readShort
  let attributeInfoList ← parseAttribute
  let codes ← lookUp (findCode constantPool attributeInfoList none)
  let des ← lookUp (constantPool.getString descriptorIndex)
  pure ⟨codes, name, methodParam des, constantPool⟩

/-! ## `loadClassFile` -/

/-- A class with its constant pool. -/
structure LoadedKlass where
  klass : JKlass
  constantPool : JConstantPool

def skipShorts : ℕ → JIO Unit
  | 0 => pure ()
  | n + 1 => do
      let _ ← readShort
      skipShorts n

/-- The loop over the fields. -/
def skipFields : ℕ → JIO Unit
  | 0 => pure ()
  | n + 1 => do
      let _ ← readShort
      let _ ← readShort
      let _ ← readShort
      let _ ← parseAttribute
      skipFields n

/-- The loop over the methods. -/
def parseMethods (constantPool : JConstantPool) : ℕ → JIO (List JMethod)
  | 0 => pure []
  | n + 1 => do
      let method ← parseMethod constantPool
      let methodList ← parseMethods constantPool n
      pure (method :: methodList)

def loadClassFile (charset : List UInt8 → String) : JIO LoadedKlass := do
  let _ ← readInt
  let _ ← readShort
  let _ ← readShort
  let constantPool ← parseConstantPool charset
  let _ ← readShort
  let thisClass ← readShort
  let classNameIndex ← lookUp (constantPool.getShort thisClass)
  let className ← lookUp (constantPool.getString classNameIndex)
  let _ ← readShort
  let interfaceCount ← readShort
  skipShorts interfaceCount.toNat
  let fieldCount ← readShort
  skipFields fieldCount.toNat
  let methodCount ← readShort
  let methodList ← parseMethods constantPool methodCount.toNat
  let _ ← parseAttribute
  pure ⟨⟨className, methodList⟩, constantPool⟩

end MyJavaExample.Jvm
