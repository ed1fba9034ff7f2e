import Mathlib.Data.Fintype.Basic
import Mathlib.Tactic.FinCases
import MyJavaExample.Jvm.Interpreter

/-!
# Straight-line `int` code: the interpreter and the JVM

The JVM keeps its local variables in numbered slots and returns one value.  The
interpreter keeps them in a list that `ISTOREn` appends to when `n` is not an
index of it, and returns the whole operand stack.  So the two agree exactly on
the code in which every store goes to a slot of the list or the one right after
it (`Dense`), and in which one operand is left at the end.
-/

namespace MyJavaExample.Jvm

open Java

/-! ## The JVM -/

/-- An instruction of the subset.  The stores are to slots 1 to 3. -/
inductive Instr where
  | bipush (b : UInt8)
  | iload (n : Fin 4)
  | istore (n : Fin 3)
  | iadd
deriving DecidableEq, Repr

structure JvmState where
  stack : List (BitVec 32)
  locals : ℕ → Option (BitVec 32)

namespace JvmState

/-- A method starts with its arguments in the first slots. -/
def init (args : List (BitVec 32)) : JvmState := ⟨[], fun n => args[n]?⟩

end JvmState

namespace Instr

/-- The effect of an instruction by the JVM specification; `none` when it is not
valid in the state. -/
def exec : Instr → JvmState → Option JvmState
  | bipush b, j => some { j with stack := b.toBitVec.signExtend 32 :: j.stack }
  | iload n, j => (j.locals n).map fun v => { j with stack := v :: j.stack }
  | istore n, ⟨v :: stack, locals⟩ => some ⟨stack, Function.update locals (n + 1) (some v)⟩
  | iadd, ⟨v1 :: v2 :: stack, locals⟩ => some ⟨(v1 + v2) :: stack, locals⟩
  | _, _ => none

def code : Instr → Code
  | bipush _ => .bipush
  | iload 0 => .iload0
  | iload 1 => .iload1
  | iload 2 => .iload2
  | iload 3 => .iload3
  | istore 0 => .istore1
  | istore 1 => .istore2
  | istore 2 => .istore3
  | iadd => .iadd

def operands : Instr → List UInt8
  | bipush b => [b]
  | _ => []

def encode (i : Instr) : List UInt8 := i.code.id :: i.operands

/-- What an instruction adds to the depth of the stack. -/
def effect : Instr → ℤ
  | bipush _ => 1
  | iload _ => 1
  | istore _ => -1
  | iadd => -1

/-- The length of the local table after an instruction. -/
def slots (size : ℕ) : Instr → ℕ
  | istore n => max size (n + 2)
  | _ => size

/-- A store is to a slot of the table or to the one right after it. -/
def InOrder (size : ℕ) : Instr → Prop
  | istore n => n + 1 ≤ size
  | _ => True

instance (size : ℕ) : (i : Instr) → Decidable (i.InOrder size)
  | istore _ => inferInstanceAs (Decidable (_ ≤ _))
  | bipush _ => inferInstanceAs (Decidable True)
  | iload _ => inferInstanceAs (Decidable True)
  | iadd => inferInstanceAs (Decidable True)

end Instr

def jvmRun (is : List Instr) (j : JvmState) : Option JvmState := is.foldlM (fun j i => i.exec j) j

/-- The value the JVM returns for the instructions and a final `IRETURN`. -/
def jvmResult (args : List (BitVec 32)) (is : List Instr) : Option (BitVec 32) :=
  (jvmRun is (.init args)).bind fun j => j.stack.head?

/-- The code of a method body: the instructions and a final `IRETURN`. -/
def methodBody (is : List Instr) : List UInt8 := is.flatMap Instr.encode ++ [Code.ireturn.id]

/-! ## Agreement -/

/-- Every store is in order, for a local table of `size` slots at the start. -/
def Dense : ℕ → List Instr → Prop
  | _, [] => True
  | size, i :: is => i.InOrder size ∧ Dense (i.slots size) is

instance : (size : ℕ) → (is : List Instr) → Decidable (Dense size is)
  | _, [] => inferInstanceAs (Decidable True)
  | size, i :: is =>
      have : Decidable (Dense (i.slots size) is) := instDecidableDense (i.slots size) is
      inferInstanceAs (Decidable (_ ∧ _))

def stackEffect (is : List Instr) : ℤ := (is.map Instr.effect).sum

section Agreement

variable (getKlass : String → Option JKlass)
variable (call : JMethod → List Value → Interpreter → Except JExn Interpreter)

/-- The interpreter executes the instructions one after the other. -/
def executeAll (is : List Instr) (s : Interpreter) : Except JExn Interpreter :=
  is.foldlM (fun s i => executeCode getKlass call i.code i.operands s) s

/-- `ILOADn` pushes the value `v`. -/
def Loads (s : Interpreter) (n : Fin 4) (v : BitVec 32) : Prop :=
  ∃ f fs o, executeCode getKlass call (Instr.iload n).code [] s = .ok ⟨f :: fs, s.printed⟩ ∧
    f.operandStack.head? = some o ∧ o.toInt = .ok v

/-- A call of the method agrees with the JVM.  At every step a load of a slot
that has a value yields it, and the call pushes the value of the JVM, and
nothing else, onto the operand stack of the caller. -/
def Agrees (depth : ℕ) (method : JMethod) (args : List Value) (vs : List (BitVec 32))
    (is : List Instr) (caller : JFrame) (fs : List JFrame) (printed : List Value) : Prop :=
  (∀ is₁ is₂ j n v, is = is₁ ++ is₂ → jvmRun is₁ (.init vs) = some j → j.locals n.val = some v →
    ∃ s, executeAll getKlass (callMethod getKlass depth) is₁
        ((⟨caller :: fs, printed⟩ : Interpreter).enter method args) = .ok s ∧
      Loads getKlass (callMethod getKlass depth) s n v) ∧
  ∀ v, jvmResult vs is = some v →
    ∃ o, o.toInt = .ok v ∧
      callMethod getKlass (depth + 1) method args ⟨caller :: fs, printed⟩ =
        .ok ⟨caller.push o :: fs, printed⟩

end Agreement

/-! ## The loop over the code -/

section Loop

variable {getKlass : String → Option JKlass}
variable {call : JMethod → List Value → Interpreter → Except JExn Interpreter}

theorem Instr.operands_length (i : Instr) : i.operands.length = i.code.len - 1 := by
  cases i with
  | bipush b => rfl
  | iload n => fin_cases n <;> rfl
  | istore n => fin_cases n <;> rfl
  | iadd => rfl

theorem runCode_encode (i : Instr) (fuel : ℕ) (codes : List UInt8) (s : Interpreter) :
    runCode getKlass call (fuel + 1) (i.encode ++ codes) s =
      (executeCode getKlass call i.code i.operands s).bind (runCode getKlass call fuel codes) := by
  have hlen : ¬(i.operands ++ codes).length < i.code.len - 1 := by
    rw [List.length_append, i.operands_length]
    omega
  rw [Instr.encode, List.cons_append, runCode]
  simp only [Code.parse_id, if_neg hlen]
  rw [← i.operands_length, List.take_left, List.drop_left]
  rfl

theorem runCode_executeAll {is : List Instr} {fuel : ℕ} {codes : List UInt8}
    (h : is.length ≤ fuel) (s : Interpreter) :
    runCode getKlass call fuel (is.flatMap Instr.encode ++ codes) s =
      (executeAll getKlass call is s).bind (runCode getKlass call (fuel - is.length) codes) := by
  induction is generalizing fuel s with
  | nil => rfl
  | cons i is ih =>
      obtain ⟨fuel, rfl⟩ : ∃ n, fuel = n + 1 := ⟨fuel - 1, by rw [List.length_cons] at h; omega⟩
      rw [List.flatMap_cons, List.append_assoc, runCode_encode, executeAll, List.foldlM_cons]
      cases executeCode getKlass call i.code i.operands s with
      | error e => rfl
      | ok s' =>
          rw [List.length_cons] at h ⊢
          rw [Nat.add_sub_add_right]
          exact ih (Nat.le_of_succ_le_succ h) s'

theorem length_le_methodBody (is : List Instr) :
    is.length + 1 ≤ (methodBody is).length := by
  have hone : ∀ i : Instr, 1 ≤ i.encode.length := fun i => by simp [Instr.encode]
  have hsum : is.length ≤ (is.flatMap Instr.encode).length := by
    induction is with
    | nil => exact le_rfl
    | cons i is ih =>
        rw [List.flatMap_cons, List.length_append, List.length_cons]
        have := hone i
        omega
  rw [methodBody, List.length_append, List.length_singleton]
  omega

/-- A call runs the instructions in a new frame and returns from it. -/
theorem callMethod_methodBody {method : JMethod} {is : List Instr}
    (hcode : method.code = some (methodBody is)) (depth : ℕ) (args : List Value)
    (s : Interpreter) :
    callMethod getKlass (depth + 1) method args s =
      (executeAll getKlass (callMethod getKlass depth) is (s.enter method args)).bind
        Interpreter.ret := by
  have hfuel := length_le_methodBody is
  rw [callMethod, hcode]
  dsimp only
  generalize hn : (methodBody is).length = fuel at hfuel ⊢
  rw [methodBody, runCode_executeAll (by omega)]
  congr 1
  funext s'
  obtain ⟨k, hk⟩ : ∃ k, fuel - is.length = k + 1 := ⟨fuel - is.length - 1, by omega⟩
  rw [hk, runCode]
  simp only [Code.parse_id]
  rw [if_neg (show ¬([] : List UInt8).length < Code.ireturn.len - 1 by decide)]
  have hnil : ∀ s, runCode getKlass (callMethod getKlass depth) k [] s = .ok s := by
    intro s
    cases k <;> rfl
  change (s'.ret >>= runCode getKlass (callMethod getKlass depth) k []) = s'.ret
  cases s'.ret with
  | error e => rfl
  | ok t => exact hnil t

end Loop

/-! ## Simulation -/

section Simulation

variable (getKlass : String → Option JKlass)
variable (call : JMethod → List Value → Interpreter → Except JExn Interpreter)

/-- The frame represents the state of the JVM. -/
structure Sim (f : JFrame) (j : JvmState) : Prop where
  stack : f.operandStack.map Value.toInt = j.stack.map Except.ok
  locals : ∀ n, f.localTable[n]?.map Value.toInt = (j.locals n).map Except.ok

theorem Sim.init {args : List Value} {vs : List (BitVec 32)}
    (h : args.map Value.toInt = vs.map Except.ok) (method : JMethod) :
    Sim ⟨[], args, method⟩ (.init vs) where
  stack := rfl
  locals n := by simpa [JvmState.init] using congrArg (fun l => l[n]?) h

/-- The object that represents the top of the stack. -/
theorem Sim.pop {f : JFrame} {v : BitVec 32} {stack : List (BitVec 32)}
    {locals : ℕ → Option (BitVec 32)} (h : Sim f ⟨v :: stack, locals⟩) :
    ∃ o operandStack, f.pop = .ok (o, { f with operandStack }) ∧ o.toInt = .ok v ∧
      Sim { f with operandStack } ⟨stack, locals⟩ := by
  obtain ⟨operandStack, localTable, method⟩ := f
  have hstack := h.stack
  cases operandStack with
  | nil => cases hstack
  | cons o operandStack =>
      obtain ⟨ho, hrest⟩ := List.cons.inj hstack
      exact ⟨o, operandStack, rfl, ho, hrest, h.locals⟩

theorem Sim.push {f : JFrame} {j : JvmState} (h : Sim f j) {o : Value} {v : BitVec 32}
    (ho : o.toInt = .ok v) : Sim (f.push o) { j with stack := v :: j.stack } where
  stack := by
    simp only [JFrame.push, List.map_cons, ho, h.stack]
  locals := h.locals

theorem Sim.load {f : JFrame} {j : JvmState} (h : Sim f j) {n : ℕ} {v : BitVec 32}
    (hv : j.locals n = some v) :
    ∃ o, f.load n = .ok (f.push o) ∧ o.toInt = .ok v := by
  have hn := h.locals n
  rw [hv, Option.map_some] at hn
  obtain ⟨o, ho, hov⟩ := Option.map_eq_some_iff.1 hn
  exact ⟨o, by rw [JFrame.load, ho], hov⟩

/-- A store in order is to the slot it names. -/
theorem Sim.store {f : JFrame} {v : BitVec 32} {stack : List (BitVec 32)}
    {locals : ℕ → Option (BitVec 32)} (h : Sim f ⟨v :: stack, locals⟩) {n : ℕ}
    (hn : n ≤ f.localTable.length) :
    ∃ f', f.store n = .ok f' ∧ Sim f' ⟨stack, Function.update locals n (some v)⟩ ∧
      f'.localTable.length = max f.localTable.length (n + 1) := by
  obtain ⟨o, operandStack, hpop, ho, hsim⟩ := h.pop
  have hlocals := hsim.locals
  dsimp only at hlocals
  unfold JFrame.store
  simp only [hpop]
  by_cases hlen : n = f.localTable.length
  · refine ⟨{ f with operandStack, localTable := f.localTable ++ [o] }, ?_, ⟨hsim.stack, ?_⟩, ?_⟩
    · exact if_pos hlen.ge
    · intro m
      by_cases hm : m = n
      · subst hm
        simp [hlen, ho]
      · dsimp only
        rw [Function.update_of_ne hm, ← hlocals m]
        rcases Nat.lt_or_ge m f.localTable.length with hlt | hge
        · simp [List.getElem?_append_left hlt]
        · have hout : (f.localTable ++ [o]).length ≤ m := by
            simp
            omega
          simp [List.getElem?_eq_none hge, List.getElem?_eq_none hout]
    · simp
      omega
  · have hlt : n < f.localTable.length := by omega
    refine ⟨{ f with operandStack, localTable := f.localTable.set n o }, ?_, ⟨hsim.stack, ?_⟩, ?_⟩
    · exact if_neg (by simpa using hlt)
    · intro m
      by_cases hm : m = n
      · subst hm
        simp [hlt, ho]
      · dsimp only
        rw [Function.update_of_ne hm, ← hlocals m]
        simp [List.getElem?_set_ne (Ne.symm hm)]
    · simp
      omega

theorem executeCode_iload (n : Fin 4) (s : Interpreter) :
    executeCode getKlass call (Instr.iload n).code [] s = s.withFrame (JFrame.load n) := by
  fin_cases n <;> rfl

theorem executeCode_istore (n : Fin 3) (s : Interpreter) :
    executeCode getKlass call (Instr.istore n).code [] s = s.withFrame (JFrame.store (n + 1)) := by
  fin_cases n <;> rfl

/-- One instruction, for a store in order. -/
theorem Sim.step {f : JFrame} {j j' : JvmState} (h : Sim f j) {i : Instr}
    (hexec : i.exec j = some j') (horder : i.InOrder f.localTable.length)
    (fs : List JFrame) (printed : List Value) :
    ∃ f', executeCode getKlass call i.code i.operands ⟨f :: fs, printed⟩ =
        .ok ⟨f' :: fs, printed⟩ ∧ Sim f' j' ∧
      f'.localTable.length = i.slots f.localTable.length := by
  cases i with
  | bipush b =>
      cases hexec
      exact ⟨f.push (.byte b), rfl, h.push rfl, rfl⟩
  | iload n =>
      obtain ⟨v, hv, rfl⟩ := Option.map_eq_some_iff.1 hexec
      obtain ⟨o, hload, ho⟩ := h.load hv
      refine ⟨f.push o, ?_, h.push ho, rfl⟩
      change executeCode getKlass call (Instr.iload n).code [] _ = _
      rw [executeCode_iload]
      simp only [Interpreter.withFrame, hload]
      rfl
  | istore n =>
      obtain ⟨stack, locals⟩ := j
      cases stack with
      | nil => cases hexec
      | cons v stack =>
          cases hexec
          obtain ⟨f', hstore, hsim, hlen⟩ := h.store horder
          refine ⟨f', ?_, hsim, hlen⟩
          change executeCode getKlass call (Instr.istore n).code [] _ = _
          rw [executeCode_istore]
          simp only [Interpreter.withFrame, hstore]
          rfl
  | iadd =>
      obtain ⟨stack, locals⟩ := j
      match stack, h, hexec with
      | v1 :: v2 :: stack, h, hexec =>
          cases hexec
          obtain ⟨o1, st1, hpop1, ho1, hsim1⟩ := h.pop
          obtain ⟨o2, st2, hpop2, ho2, hsim2⟩ := hsim1.pop
          refine ⟨JFrame.push { f with operandStack := st2 } (.integer (v1 + v2)), ?_,
            hsim2.push rfl, rfl⟩
          have hiadd : f.iadd =
              .ok (JFrame.push { f with operandStack := st2 } (.integer (v1 + v2))) := by
            simp only [JFrame.iadd, hpop1, hpop2, ho1, ho2, bind, Except.bind, pure, Except.pure]
          simp only [executeCode, Instr.code, Interpreter.withFrame, hiadd]
          rfl

/-- The length of the local table after the instructions. -/
def slotsAfter (size : ℕ) (is : List Instr) : ℕ := is.foldl Instr.slots size

/-- Any number of instructions. -/
theorem Sim.run {f : JFrame} {j j' : JvmState} (h : Sim f j) {is : List Instr}
    (hrun : jvmRun is j = some j') (hdense : Dense f.localTable.length is)
    (fs : List JFrame) (printed : List Value) :
    ∃ f', executeAll getKlass call is ⟨f :: fs, printed⟩ = .ok ⟨f' :: fs, printed⟩ ∧ Sim f' j' ∧
      f'.localTable.length = slotsAfter f.localTable.length is := by
  induction is generalizing f j with
  | nil =>
      cases hrun
      exact ⟨f, rfl, h, rfl⟩
  | cons i is ih =>
      rw [jvmRun, List.foldlM_cons] at hrun
      obtain ⟨j₁, hexec, hrun⟩ := Option.bind_eq_some_iff.1 hrun
      obtain ⟨f₁, hstep, hsim, hlen⟩ := h.step getKlass call hexec hdense.1 fs printed
      obtain ⟨f', hall, hsim', hlen'⟩ := ih hsim hrun (hlen ▸ hdense.2)
      refine ⟨f', ?_, hsim', ?_⟩
      · rw [executeAll, List.foldlM_cons, hstep]
        exact hall
      · rw [hlen', hlen]
        rfl

theorem Sim.loads {f : JFrame} {j : JvmState} (h : Sim f j) {n : Fin 4} {v : BitVec 32}
    (hv : j.locals n = some v) (fs : List JFrame) (printed : List Value) :
    Loads getKlass call ⟨f :: fs, printed⟩ n v := by
  obtain ⟨o, hload, ho⟩ := h.load hv
  refine ⟨f.push o, fs, o, ?_, rfl, ho⟩
  rw [executeCode_iload]
  simp only [Interpreter.withFrame, hload]
  rfl

/-- The slot of a store that is not in order cannot be read. -/
theorem not_loads_of_length_le {f : JFrame} {n : Fin 4} (h : f.localTable.length ≤ n)
    (v : BitVec 32) (fs : List JFrame) (printed : List Value) :
    ¬Loads getKlass call ⟨f :: fs, printed⟩ n v := by
  rintro ⟨f', fs', o, hload, -, -⟩
  rw [executeCode_iload] at hload
  simp only [Interpreter.withFrame, JFrame.load, List.getElem?_eq_none h] at hload
  cases hload

/-- After a store that is not in order its slot cannot be read. -/
theorem Sim.not_loads {f : JFrame} {j j' : JvmState} (h : Sim f j) {n : Fin 3}
    (hexec : (Instr.istore n).exec j = some j') (hn : f.localTable.length ≤ n)
    (fs : List JFrame) (printed : List Value) :
    ∃ v s, j'.locals n.succ = some v ∧
      executeAll getKlass call [.istore n] ⟨f :: fs, printed⟩ = .ok s ∧
      ¬Loads getKlass call s n.succ v := by
  obtain ⟨_ | ⟨v, stack⟩, locals⟩ := j
  · cases hexec
  · cases hexec
    obtain ⟨o, operandStack, hpop, -, -⟩ := h.pop
    have hstore : f.store (n + 1) =
        .ok { f with operandStack, localTable := f.localTable ++ [o] } := by
      unfold JFrame.store
      simp only [hpop]
      exact if_pos (Nat.le_succ_of_le hn)
    refine ⟨v, ⟨{ f with operandStack, localTable := f.localTable ++ [o] } :: fs, printed⟩, ?_, ?_, ?_⟩
    · simp
    · change (executeCode getKlass call (Instr.istore n).code [] _ >>= pure) = _
      rw [executeCode_istore]
      simp only [Interpreter.withFrame, hstore]
      rfl
    · refine not_loads_of_length_le getKlass call ?_ v fs printed
      simpa using hn

theorem executeAll_append {is₁ is₂ : List Instr} {s s₁ : Interpreter}
    (h : executeAll getKlass call is₁ s = .ok s₁) :
    executeAll getKlass call (is₁ ++ is₂) s = executeAll getKlass call is₂ s₁ := by
  unfold executeAll at h ⊢
  rw [List.foldlM_append, h]
  rfl

end Simulation

/-! ## Prefixes of the code -/

theorem jvmRun_append {is₁ is₂ : List Instr} {j j' : JvmState}
    (h : jvmRun (is₁ ++ is₂) j = some j') :
    ∃ j₁, jvmRun is₁ j = some j₁ ∧ jvmRun is₂ j₁ = some j' := by
  rw [jvmRun, List.foldlM_append] at h
  exact Option.bind_eq_some_iff.1 h

theorem Dense.left {size : ℕ} {is₁ is₂ : List Instr} (h : Dense size (is₁ ++ is₂)) :
    Dense size is₁ := by
  induction is₁ generalizing size with
  | nil => trivial
  | cons i is₁ ih => exact ⟨h.1, ih h.2⟩

/-- The first store that is not in order. -/
theorem exists_of_not_dense {size : ℕ} {is : List Instr} (h : ¬Dense size is) :
    ∃ is₁ n is₂, is = is₁ ++ Instr.istore n :: is₂ ∧ Dense size is₁ ∧
      slotsAfter size is₁ < n + 1 := by
  induction is generalizing size with
  | nil => exact absurd trivial h
  | cons i is ih =>
      by_cases horder : i.InOrder size
      · obtain ⟨is₁, n, is₂, rfl, hdense, hlt⟩ := ih fun hdense => h ⟨horder, hdense⟩
        exact ⟨i :: is₁, n, is₂, rfl, ⟨horder, hdense⟩, hlt⟩
      · cases i with
        | istore n => exact ⟨[], n, is, rfl, trivial, Nat.not_le.1 horder⟩
        | bipush b => exact absurd trivial horder
        | iload n => exact absurd trivial horder
        | iadd => exact absurd trivial horder

theorem Instr.exec_length {i : Instr} {j j' : JvmState} (h : i.exec j = some j') :
    (j'.stack.length : ℤ) = j.stack.length + i.effect := by
  obtain ⟨stack, locals⟩ := j
  cases i with
  | bipush b =>
      cases h
      simp [effect]
  | iload n =>
      obtain ⟨v, -, rfl⟩ := Option.map_eq_some_iff.1 h
      simp [effect]
  | istore n =>
      match stack, h with
      | v :: stack, h =>
          cases h
          simp [effect]
  | iadd =>
      match stack, h with
      | v1 :: v2 :: stack, h =>
          cases h
          simp [effect]

theorem jvmRun_length {is : List Instr} {j j' : JvmState} (h : jvmRun is j = some j') :
    (j'.stack.length : ℤ) = j.stack.length + stackEffect is := by
  induction is generalizing j with
  | nil =>
      cases h
      simp [stackEffect]
  | cons i is ih =>
      rw [jvmRun, List.foldlM_cons] at h
      obtain ⟨j₁, hexec, hrun⟩ := Option.bind_eq_some_iff.1 h
      rw [ih hrun, Instr.exec_length hexec]
      simp [stackEffect]
      omega

/-! ## Agreement with the JVM -/

section Main

variable {getKlass : String → Option JKlass} {depth : ℕ} {method : JMethod} {args : List Value}
  {vs : List (BitVec 32)} {is : List Instr} {caller : JFrame} {fs : List JFrame}
  {printed : List Value}

theorem Sim.result {f : JFrame} {j : JvmState} (h : Sim f j) {v : BitVec 32}
    (hlen : j.stack.length = 1) (hv : j.stack.head? = some v) :
    ∃ o, o.toInt = .ok v ∧ f.operandStack = [o] := by
  obtain ⟨stack, locals⟩ := j
  match stack, hlen with
  | [w], _ =>
      cases hv
      obtain ⟨o, operandStack, hpop, ho, hsim⟩ := h.pop
      have hnil : operandStack = [] := List.map_eq_nil_iff.1 hsim.stack
      subst hnil
      refine ⟨o, ho, ?_⟩
      have hstack := h.stack
      obtain ⟨operandStack, localTable, currentMethod⟩ := f
      cases operandStack with
      | nil => cases hpop
      | cons o' operandStack =>
          cases hpop
          rfl

/-- The new frame when all stores were in order. -/
theorem executeAll_dense (hargs : args.map Value.toInt = vs.map Except.ok)
    (hdense : Dense vs.length is) {j : JvmState} (hrun : jvmRun is (.init vs) = some j) :
    ∃ f, executeAll getKlass (callMethod getKlass depth) is
        ((⟨caller :: fs, printed⟩ : Interpreter).enter method args) =
          .ok ⟨f :: caller :: fs, printed⟩ ∧
      Sim f j ∧ f.localTable.length = slotsAfter vs.length is := by
  have hlen : args.length = vs.length := by simpa using congrArg List.length hargs
  obtain ⟨f, hall, hsim, hslots⟩ := (Sim.init hargs method).run getKlass
    (callMethod getKlass depth) hrun (hlen ▸ hdense) (caller :: fs) printed
  exact ⟨f, hall, hsim, hlen ▸ hslots⟩

/-- If every load agrees, all stores are in order. -/
theorem Agrees.dense (h : Agrees getKlass depth method args vs is caller fs printed)
    (hargs : args.map Value.toInt = vs.map Except.ok) {j : JvmState}
    (hrun : jvmRun is (.init vs) = some j) : Dense vs.length is := by
  by_contra hno
  obtain ⟨is₁, n, is₂, his, hdense, hlt⟩ := exists_of_not_dense hno
  rw [List.append_cons] at his
  subst his
  obtain ⟨j₂, hrun₂, -⟩ := jvmRun_append hrun
  obtain ⟨j₁, hrun₁, hstore⟩ := jvmRun_append hrun₂
  have hexec : (Instr.istore n).exec j₁ = some j₂ := by
    simpa [jvmRun] using hstore
  obtain ⟨f, hall, hsim, hslots⟩ := @executeAll_dense getKlass depth method args vs is₁ caller fs
    printed hargs hdense j₁ hrun₁
  obtain ⟨v, s, hv, hs, hnot⟩ := hsim.not_loads getKlass (callMethod getKlass depth) hexec
    (by rw [hslots]; exact Nat.le_of_lt_succ hlt) (caller :: fs) printed
  obtain ⟨s', hs', hloads⟩ := h.1 _ is₂ j₂ n.succ v rfl hrun₂ hv
  rw [executeAll_append getKlass _ hall, hs] at hs'
  cases hs'
  exact hnot hloads

/-- The call when all stores are in order. -/
theorem callMethod_dense (hcode : method.code = some (methodBody is))
    (hargs : args.map Value.toInt = vs.map Except.ok) (hdense : Dense vs.length is)
    {j : JvmState} (hrun : jvmRun is (.init vs) = some j) :
    ∃ f, Sim f j ∧ callMethod getKlass (depth + 1) method args ⟨caller :: fs, printed⟩ =
      .ok ⟨{ caller with operandStack := f.operandStack.reverse ++ caller.operandStack } :: fs,
        printed⟩ := by
  obtain ⟨f, hall, hsim, -⟩ := @executeAll_dense getKlass depth method args vs is caller fs
    printed hargs hdense j hrun
  refine ⟨f, hsim, ?_⟩
  rw [callMethod_methodBody hcode, hall]
  rfl

/-- A method body of the subset that is valid code agrees with the JVM if and
only if every store is in order and one operand is left at the end. -/
theorem callMethod_agrees_iff (hcode : method.code = some (methodBody is))
    (hargs : args.map Value.toInt = vs.map Except.ok) (hvalid : jvmResult vs is ≠ none) :
    Agrees getKlass depth method args vs is caller fs printed ↔
      Dense vs.length is ∧ stackEffect is = 1 := by
  obtain ⟨v, hv⟩ := Option.ne_none_iff_exists'.1 hvalid
  obtain ⟨j, hrun, hhead⟩ := Option.bind_eq_some_iff.1 hv
  have hdepth : (j.stack.length : ℤ) = stackEffect is := by
    simpa [JvmState.init] using jvmRun_length hrun
  constructor
  · intro h
    have hdense := h.dense hargs hrun
    refine ⟨hdense, ?_⟩
    obtain ⟨f, hsim, hcall⟩ := @callMethod_dense getKlass depth method args vs is caller fs printed
      hcode hargs hdense j hrun
    obtain ⟨o, -, hcall'⟩ := h.2 v hv
    rw [hcall] at hcall'
    injection hcall' with hstate
    injection hstate with hframes
    injection hframes with hframe
    have hstack := congrArg (fun f => f.operandStack.length) hframe
    have hlength := congrArg List.length hsim.stack
    simp only [JFrame.push, List.length_append, List.length_reverse, List.length_cons,
      List.length_map] at hstack hlength
    omega
  · rintro ⟨hdense, heffect⟩
    constructor
    · intro is₁ is₂ j₁ n w his hrun₁ hw
      subst his
      obtain ⟨f, hall, hsim, -⟩ := @executeAll_dense getKlass depth method args vs is₁ caller fs
        printed hargs hdense.left j₁ hrun₁
      exact ⟨_, hall, hsim.loads getKlass _ hw _ _⟩
    · intro w hw
      cases hv.symm.trans hw
      obtain ⟨f, hsim, hcall⟩ := @callMethod_dense getKlass depth method args vs is caller fs printed
        hcode hargs hdense j hrun
      obtain ⟨o, ho, hstack⟩ := hsim.result (by omega) hhead
      refine ⟨o, ho, ?_⟩
      rw [hcall, hstack]
      rfl

end Main

/-- A method with the body of the instructions. -/
def methodOf (is : List Instr) : JMethod := ⟨some (methodBody is), "f", "", .new⟩

theorem callMethod_agrees_iff_test :
    Agrees (fun _ => none) 0 (methodOf [.bipush 255, .istore 1, .iload 0, .iload 1, .iadd, .iload 2,
      .iadd]) [.byte 3, .integer 4] [3, 4] [.bipush 255, .istore 1, .iload 0, .iload 1, .iadd,
      .iload 2, .iadd] ⟨[], [], methodOf []⟩ [] [] :=
  (callMethod_agrees_iff rfl rfl (by decide)).2 (by decide)

/-- `BIPUSH 5; ISTORE1; ILOAD1; IRETURN` without arguments is valid code of value
5, but the interpreter stores the 5 in slot 0 and throws at the load. -/
theorem sparse_store_not_agrees :
    jvmResult [] [.bipush 5, .istore 0, .iload 1] = some 5 ∧
      ¬Agrees (fun _ => none) 0 (methodOf [.bipush 5, .istore 0, .iload 1]) [] []
        [.bipush 5, .istore 0, .iload 1] ⟨[], [], methodOf []⟩ [] [] := by
  refine ⟨by decide, fun h => ?_⟩
  obtain ⟨o, -, hcall⟩ := h.2 5 (by decide)
  have herror : callMethod (fun _ => none) 1 (methodOf [.bipush 5, .istore 0, .iload 1]) []
      ⟨[⟨[], [], methodOf []⟩], []⟩ = .error .indexOutOfBounds := rfl
  rw [herror] at hcall
  cases hcall

end MyJavaExample.Jvm
