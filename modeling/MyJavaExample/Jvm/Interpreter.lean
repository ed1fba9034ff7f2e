import MyJavaExample.Jvm.ConstantPool

/-!
# The interpreter: `Interpreter.callMethod` and `executeCode`

The state is the list of frames, the current one first.  The source keeps it a
second time in `currentFrame`, which is assigned wherever the list changes and
so is always the first frame, or `null` when there is none.

An exception ends the whole run: nothing in the interpreter catches one.  The
instructions that call a method call `callMethod` again, so the depth of the
Java stack bounds the nesting.  `SystemDictionary` is a parameter.
-/

namespace MyJavaExample.Jvm

open Java

/-! ## `Code` -/

inductive Code where
  | aload0
  | invokevirtual
  | invokespecial
  | invokestatic
  | getstatic
  | ireturn
  | «return»
  | bipush
  | istore1
  | istore2
  | istore3
  | iadd
  | iload0
  | iload1
  | iload2
  | iload3
deriving DecidableEq, Repr

namespace Code

def id : Code → UInt8
  | aload0 => 42
  | invokevirtual => 182
  | invokespecial => 183
  | invokestatic => 184
  | getstatic => 178
  | ireturn => 172
  | «return» => 177
  | bipush => 16
  | istore1 => 60
  | istore2 => 61
  | istore3 => 62
  | iadd => 96
  | iload0 => 26
  | iload1 => 27
  | iload2 => 28
  | iload3 => 29

def len : Code → ℕ
  | invokevirtual => 3
  | invokespecial => 3
  | invokestatic => 3
  | getstatic => 3
  | bipush => 2
  | _ => 1

def values : List Code :=
  [aload0, invokevirtual, invokespecial, invokestatic, getstatic, ireturn, «return», bipush,
    istore1, istore2, istore3, iadd, iload0, iload1, iload2, iload3]

def parse (id : UInt8) : Option Code := values.find? fun value => value.id = id

theorem parse_id (code : Code) : parse code.id = some code := by
  cases code <;> rfl

end Code

/-- `InterpreterCode.parseOperand`.  The loop over the operands computes a
result that is not returned. -/
def parseOperand (_operands : List UInt8) : ℤ := 0

/-! ## Methods and classes -/

structure JMethod where
  code : Option (List UInt8)
  name : String
  param : String
  constantPool : JConstantPool

structure JKlass where
  name : String
  methodList : List JMethod

def JKlass.findMethod (klass : JKlass) (name : String) : Option JMethod :=
  klass.methodList.find? fun method => method.name = name

/-- `String.length()` counts UTF-16 code units. -/
def javaLength (s : String) : ℕ := (s.toList.map fun c => if c.toNat < 2 ^ 16 then 1 else 2).sum

/-! ## Values and frames -/

/-- The objects on an operand stack and in a local table. -/
inductive Value where
  | byte (b : UInt8)
  | integer (v : BitVec 32)
  | ref (o : JObject)
deriving DecidableEq, Repr

/-- The `int` that `IADD` takes a value for. -/
def Value.toInt : Value → Except JExn (BitVec 32)
  | byte b => .ok (b.toBitVec.signExtend 32)
  | integer v => .ok v
  | ref _ => .error .classCast

structure JFrame where
  operandStack : List Value
  localTable : List Value
  currentMethod : JMethod

namespace JFrame

def push (f : JFrame) (o : Value) : JFrame := { f with operandStack := o :: f.operandStack }

def pop (f : JFrame) : Except JExn (Value × JFrame) :=
  match f.operandStack with
  | [] => .error .noSuchElement
  | o :: operandStack => .ok (o, { f with operandStack })

/-- `ILOADn` and `ALOAD0`. -/
def load (index : ℕ) (f : JFrame) : Except JExn JFrame :=
  match f.localTable[index]? with
  | none => .error .indexOutOfBounds
  | some o => .ok (f.push o)

/-- `ISTOREn`.  A slot at or beyond the end of the table is appended. -/
def store (index : ℕ) (f : JFrame) : Except JExn JFrame := do
  let (o, f) ← f.pop
  if index ≥ f.localTable.length then
    return { f with localTable := f.localTable ++ [o] }
  else
    return { f with localTable := f.localTable.set index o }

def iadd (f : JFrame) : Except JExn JFrame := do
  let (v1, f) ← f.pop
  let (v2, f) ← f.pop
  let op1 ← v1.toInt
  let op2 ← v2.toInt
  return f.push (.integer (op1 + op2))

def bipush (operands : List UInt8) (f : JFrame) : Except JExn JFrame :=
  match operands with
  | [] => .error .arrayIndexOutOfBounds
  | b :: _ => .ok (f.push (.byte b))

/-- The arguments of a call, popped last one first. -/
def popParams : ℕ → JFrame → List Value → Except JExn (List Value × JFrame)
  | 0, f, paramList => .ok (paramList, f)
  | n + 1, f, paramList => do
      let (param, f) ← f.pop
      popParams n f (param :: paramList)

end JFrame

structure Interpreter where
  frameList : List JFrame
  /-- What was given to `println`. -/
  printed : List Value

namespace Interpreter

/-- An operation on the current frame. -/
def withFrame (s : Interpreter) (op : JFrame → Except JExn JFrame) : Except JExn Interpreter :=
  match s.frameList with
  | [] => .error .nullPointer
  | f :: fs => do
      let f ← op f
      return { s with frameList := f :: fs }

/-- `IRETURN` and `RETURN`: the whole operand stack moves to the caller. -/
def ret (s : Interpreter) : Except JExn Interpreter :=
  match s.frameList with
  | [] => .error .nullPointer
  | [f] => if f.operandStack = [] then .ok { s with frameList := [] } else .error .nullPointer
  | f :: g :: fs =>
      let g := { g with operandStack := f.operandStack.reverse ++ g.operandStack }
      .ok { s with frameList := g :: fs }

/-- The new frame of a called method. -/
def enter (s : Interpreter) (method : JMethod) (paramList : List Value) : Interpreter :=
  { s with frameList := ⟨[], paramList, method⟩ :: s.frameList }

end Interpreter

/-! ## Names in the constant pool -/

namespace JConstantPool

def get (cp : JConstantPool) (index : ℤ) : Except JExn JObject :=
  if index < 0 then .error .indexOutOfBounds
  else
    match cp.getConstantPoolEntry index.toNat with
    | none => .error .indexOutOfBounds
    | some o => .ok o

def getShort (cp : JConstantPool) (index : ℤ) : Except JExn ℤ := do
  match ← cp.get index with
  | .short v => return v
  | _ => .error .classCast

def getString (cp : JConstantPool) (index : ℤ) : Except JExn String := do
  match ← cp.get index with
  | .string s => return s
  | _ => .error .classCast

def getMethodRef (cp : JConstantPool) (index : ℤ) : Except JExn (ℤ × ℤ) := do
  match ← cp.get index with
  | .methodRef classIndex nameAndTypeIndex => return (classIndex, nameAndTypeIndex)
  | _ => .error .classCast

def getNameAndType (cp : JConstantPool) (index : ℤ) : Except JExn (ℤ × ℤ) := do
  match ← cp.get index with
  | .nameAndType nameIndex descriptorIndex => return (nameIndex, descriptorIndex)
  | _ => .error .classCast

/-- The class and the name of the method a call refers to. -/
def methodName (cp : JConstantPool) (index : ℤ) : Except JExn (String × String) := do
  let (classIndex, nameAndTypeIndex) ← cp.getMethodRef index
  let classNameIndex ← cp.getShort classIndex
  let className ← cp.getString classNameIndex
  let (nameIndex, _) ← cp.getNameAndType nameAndTypeIndex
  let methodName ← cp.getString nameIndex
  return (className, methodName)

end JConstantPool

/-! ## `executeCode` and `callMethod` -/

section Execute

variable (getKlass : String → Option JKlass)
variable (call : JMethod → List Value → Interpreter → Except JExn Interpreter)

/-- The three instructions that call a method. -/
def invoke (operands : List UInt8) (s : Interpreter) : Except JExn Interpreter :=
  match s.frameList with
  | [] => .error .nullPointer
  | f :: fs => do
      let (className, methodName) ← f.currentMethod.constantPool.methodName (parseOperand operands)
      if className = "java/io/PrintStream" ∧ methodName = "println" then
        let (param, f) ← f.pop
        return { frameList := f :: fs, printed := s.printed ++ [param] }
      else
        match getKlass className with
        | none => .error (.illegalState "Can't find klass by name")
        | some klass =>
            match klass.findMethod methodName with
            | none => .error .nullPointer
            | some method => do
                let (paramList, f) ← f.popParams (javaLength method.param) []
                call method paramList { s with frameList := f :: fs }

def executeCode (code : Code) (operands : List UInt8) (s : Interpreter) :
    Except JExn Interpreter :=
  match code with
  | .aload0 => s.withFrame (JFrame.load 0)
  | .invokevirtual => invoke getKlass call operands s
  | .invokespecial => invoke getKlass call operands s
  | .invokestatic => invoke getKlass call operands s
  | .getstatic => .ok s
  | .bipush => s.withFrame (JFrame.bipush operands)
  | .istore1 => s.withFrame (JFrame.store 1)
  | .istore2 => s.withFrame (JFrame.store 2)
  | .istore3 => s.withFrame (JFrame.store 3)
  | .iadd => s.withFrame JFrame.iadd
  | .iload0 => s.withFrame (JFrame.load 0)
  | .iload1 => s.withFrame (JFrame.load 1)
  | .iload2 => s.withFrame (JFrame.load 2)
  | .iload3 => s.withFrame (JFrame.load 3)
  | .ireturn => s.ret
  | .«return» => s.ret

/-- The loop of `callMethod` over the code that is left. -/
def runCode : ℕ → List UInt8 → Interpreter → Except JExn Interpreter
  | 0, _, s => .ok s
  | _ + 1, [], s => .ok s
  | fuel + 1, codeId :: codes, s =>
      match Code.parse codeId with
      | none => .error (.illegalState "Can't parse code from byte array")
      | some code =>
          if codes.length < code.len - 1 then .error .arrayIndexOutOfBounds
          else do
            let s ← executeCode getKlass call code (codes.take (code.len - 1)) s
            runCode fuel (codes.drop (code.len - 1)) s

end Execute

/-- `callMethod` with room for `depth` nested calls on the Java stack. -/
def callMethod (getKlass : String → Option JKlass) :
    ℕ → JMethod → List Value → Interpreter → Except JExn Interpreter
  | 0, _, _, _ => .error .stackOverflow
  | depth + 1, method, paramList, s =>
      match method.code with
      | none => .error .nullPointer
      | some codes =>
          runCode getKlass (callMethod getKlass depth) codes.length codes
            (s.enter method paramList)

end MyJavaExample.Jvm
