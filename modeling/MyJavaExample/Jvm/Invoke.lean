import MyJavaExample.Jvm.ConstantPoolDecoding
import MyJavaExample.Jvm.Interpreter

/-!
# Calling the referenced method

An instruction that calls a method has the index of a `METHOD_REF` in its two
operand bytes.  `parseOperand` puts that index together and then returns 0.
Index 0 of a loaded pool is taken by the placeholder, which is no `MethodRef`,
so each of the three instructions throws before it has looked for a class.
-/

namespace MyJavaExample.Jvm

open Java

/-- The `METHOD_REF` at `index` names the class, the method and its descriptor. -/
def Refers (cp : JConstantPool) (index : ℕ) (className methodName descriptor : String) : Prop :=
  ∃ classIndex classNameIndex nameAndTypeIndex nameIndex descriptorIndex : ℕ,
    cp.getConstantPoolEntry index = some (.methodRef classIndex nameAndTypeIndex) ∧
    cp.getConstantPoolEntry classIndex = some (.short classNameIndex) ∧
    cp.getConstantPoolEntry classNameIndex = some (.string className) ∧
    cp.getConstantPoolEntry nameAndTypeIndex = some (.nameAndType nameIndex descriptorIndex) ∧
    cp.getConstantPoolEntry nameIndex = some (.string methodName) ∧
    cp.getConstantPoolEntry descriptorIndex = some (.string descriptor)

section Call

variable (getKlass : String → Option JKlass)

/-- The method with the name and the descriptor of the `METHOD_REF` at the index
`b1 * 256 + b2`.  A `JMethod` does not know its descriptor; `declared` has those
of the class file beside the methods. -/
def Referenced (cp : JConstantPool) (b1 b2 : UInt8) (method : JMethod) : Prop :=
  ∃ className descriptor klass, ∃ declared : List (String × JMethod),
    Refers cp (b1.toNat * 256 + b2.toNat) className method.name descriptor ∧
    getKlass className = some klass ∧ klass.methodList = declared.map Prod.snd ∧
    (descriptor, method) ∈ declared

/-- The instruction ends with the call of the method, whatever `callMethod` does
then. -/
def Calls (code : Code) (operands : List UInt8) (s : Interpreter) (method : JMethod) : Prop :=
  ∃ paramList s', ∀ call, executeCode getKlass call code operands s = call method paramList s'

/-- The instruction calls the method it refers to. -/
def RunsReferenced (code : Code) (b1 b2 : UInt8) (f : JFrame) (s : Interpreter) : Prop :=
  ∃ method, Referenced getKlass f.currentMethod.constantPool b1 b2 method ∧
    Calls getKlass code [b1, b2] s method

variable {getKlass} {code : Code} {s : Interpreter} {f : JFrame} {fs : List JFrame}

/-- The cast of the placeholder fails. -/
theorem JConstantPool.Loaded.methodName_zero {cp : JConstantPool} (h : cp.Loaded) :
    cp.methodName 0 = .error .classCast := by
  obtain ⟨xs, hxs, -⟩ := h.entryList
  have hget : cp.get 0 = .ok .object := by
    simp [JConstantPool.get, JConstantPool.getConstantPoolEntry, hxs]
  unfold JConstantPool.methodName JConstantPool.getMethodRef
  rw [hget]
  rfl

theorem executeCode_invoke
    (call : JMethod → List Value → Interpreter → Except JExn Interpreter)
    (hcode : code = .invokevirtual ∨ code = .invokespecial ∨ code = .invokestatic)
    (operands : List UInt8) (s : Interpreter) :
    executeCode getKlass call code operands s = invoke getKlass call operands s := by
  rcases hcode with rfl | rfl | rfl <;> rfl

theorem invoke_classCast (call : JMethod → List Value → Interpreter → Except JExn Interpreter)
    (hs : s.frameList = f :: fs) (hloaded : f.currentMethod.constantPool.Loaded)
    (operands : List UInt8) : invoke getKlass call operands s = .error .classCast := by
  unfold invoke
  simp only [hs, parseOperand, hloaded.methodName_zero]
  rfl

/-- No method is called, and so not the one that is referenced. -/
theorem not_calls
    (hcode : code = .invokevirtual ∨ code = .invokespecial ∨ code = .invokestatic)
    (hs : s.frameList = f :: fs) (hloaded : f.currentMethod.constantPool.Loaded)
    (operands : List UInt8) (method : JMethod) : ¬Calls getKlass code operands s method := by
  rintro ⟨paramList, s', hcall⟩
  have hok := hcall fun _ _ s => .ok s
  rw [executeCode_invoke _ hcode, invoke_classCast _ hs hloaded] at hok
  cases hok

/-- With a loaded pool no instruction calls the method it refers to. -/
theorem invoke_never_runs
    (hcode : code = .invokevirtual ∨ code = .invokespecial ∨ code = .invokestatic)
    (hs : s.frameList = f :: fs) (hloaded : f.currentMethod.constantPool.Loaded) (b1 b2 : UInt8) :
    ¬RunsReferenced getKlass code b1 b2 f s := by
  rintro ⟨method, -, hcalls⟩
  exact not_calls hcode hs hloaded _ method hcalls

end Call

/-! ## A class with one method -/

local instance u2_neZero : NeZero (2 ^ 16) := ⟨by decide⟩

theorem className_length : ([65] : List UInt8).length < 2 ^ 16 := by decide

theorem methodName_length : ([102] : List UInt8).length < 2 ^ 16 := by decide

theorem descriptor_length : ([40, 41, 86] : List UInt8).length < 2 ^ 16 := by decide

/-- The pool of a class "A" with a reference to its method "f" at index 6. -/
def selfEntries : Pool where
  entries := [.utf8 ⟨[65], className_length⟩, .classInfo 1, .utf8 ⟨[102], methodName_length⟩,
    .utf8 ⟨[40, 41, 86], descriptor_length⟩, .nameAndType 3 4, .methodRef 2 5]
  count_lt := by decide

def selfPool : JConstantPool := JConstantPool.new.addAll latin1 selfEntries.entries

theorem selfPool_loaded : selfPool.Loaded := by
  have hentries : ∀ e ∈ selfEntries.entries, e.Readable ∧ e.slots = 1 := by
    simp [selfEntries, CpInfo.Readable, CpInfo.slots]
  exact Pool.Decodable.loaded ⟨by decide, fun e he => (hentries e he).1,
    fun e he => (hentries e he).2⟩

/-- The method has the one instruction `RETURN`. -/
def selfMethod : JMethod := ⟨some [177], "f", "", selfPool⟩

def selfKlass (name : String) : Option JKlass :=
  if name = "A" then some ⟨"A", [selfMethod]⟩ else none

def selfState : Interpreter := ⟨[⟨[], [], selfMethod⟩], []⟩

theorem selfState_not_runs :
    ¬RunsReferenced selfKlass .invokestatic 0 6 ⟨[], [], selfMethod⟩ selfState :=
  invoke_never_runs (.inr (.inr rfl)) rfl selfPool_loaded 0 6

/-- The method is referenced and is not called. -/
theorem selfMethod_not_called :
    selfPool.Loaded ∧ Referenced selfKlass selfPool 0 6 selfMethod ∧
      ¬Calls selfKlass .invokestatic [0, 6] selfState selfMethod := by
  refine ⟨selfPool_loaded, ?_, not_calls (.inr (.inr rfl)) rfl selfPool_loaded _ _⟩
  exact ⟨"A", "()V", ⟨"A", [selfMethod]⟩, [("()V", selfMethod)],
    ⟨2, 1, 5, 3, 4, rfl, rfl, rfl, rfl, rfl, rfl⟩, rfl, rfl, List.mem_singleton_self _⟩

end MyJavaExample.Jvm
