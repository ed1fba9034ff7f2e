import MyJavaExample.Jvm.ClassParser
import MyJavaExample.Jvm.Invoke
import MyJavaExample.Lib.Outcome

/-!
# Running a class: `MyJava.init`

`init` loads a class, puts it into the system dictionary and calls its `main`.
All frames of the run are of methods with the loaded pool, and there an
instruction that calls a method throws.  So a run that ends normally has called
no method but `main` and has printed nothing, whatever the class file was, and
the room on the Java stack makes no difference (`init_calls_nothing`).
-/

namespace MyJavaExample.Jvm

open Java Lib

/-! ## `MyJava.init` -/

/-- `SystemDictionary.getKlass` after `addKlass` of one class. -/
def addKlass (klass : JKlass) (dictionary : String → Option JKlass) (name : String) :
    Option JKlass :=
  if name = klass.name then some klass else dictionary name

/-- `args` is the array of strings that `main` gets, and `depth` the room for
nested calls. -/
def MyJava.init (charset : List UInt8 → String) (dictionary : String → Option JKlass) (depth : ℕ)
    (args : JObject) : JIO Interpreter := do
  let loaded ← loadClassFile charset
  match loaded.klass.findMethod "main" with
  | none => lookUp (.error .nullPointer)
  | some method =>
      lookUp (callMethod (addKlass loaded.klass dictionary) depth method [.ref args] ⟨[], []⟩)

/-! ## The pools of the methods -/

/-- The methods of a class have its pool, which is a loaded one. -/
structure LoadedKlass.Sound (loaded : LoadedKlass) : Prop where
  pool : loaded.constantPool.Loaded
  methods : ∀ method ∈ loaded.klass.methodList, method.constantPool = loaded.constantPool

theorem yields_parseMethod (cp : JConstantPool) :
    Yields (parseMethod cp) fun method => method.constantPool = cp :=
  Yields.bind fun _ => Yields.bind fun _ => Yields.bind fun _ => Yields.bind fun _ =>
    Yields.bind fun _ => Yields.bind fun _ => Yields.bind fun _ => Yields.pure rfl

theorem yields_parseMethods (cp : JConstantPool) :
    ∀ n, Yields (parseMethods cp n) fun ms => ∀ method ∈ ms, method.constantPool = cp
  | 0 => Yields.pure fun _ hmethod => (nomatch hmethod)
  | n + 1 =>
      (yields_parseMethod cp).andThen fun _ hmethod =>
        (yields_parseMethods cp n).andThen fun _ hrest =>
          Yields.pure (List.forall_mem_cons.2 ⟨hmethod, hrest⟩)

theorem yields_parseConstantPool (charset : List UInt8 → String) :
    Yields (parseConstantPool charset) JConstantPool.Loaded :=
  fun s _ s' h => ⟨charset, s, s', h⟩

theorem yields_loadClassFile (charset : List UInt8 → String) :
    Yields (loadClassFile charset) LoadedKlass.Sound :=
  Yields.bind fun _ => Yields.bind fun _ => Yields.bind fun _ =>
    (yields_parseConstantPool charset).andThen fun cp hpool =>
      Yields.bind fun _ => Yields.bind fun _ => Yields.bind fun _ => Yields.bind fun _ =>
        Yields.bind fun _ => Yields.bind fun _ => Yields.bind fun _ => Yields.bind fun _ =>
          Yields.bind fun _ => Yields.bind fun count =>
            (yields_parseMethods cp count.toNat).andThen fun _ hmethods =>
              Yields.bind fun _ => Yields.pure ⟨hpool, hmethods⟩

/-! ## Runs -/

/-- Every frame is of a method with a loaded pool, and nothing was printed. -/
structure Silent (s : Interpreter) : Prop where
  pools : ∀ f ∈ s.frameList, f.currentMethod.constantPool.Loaded
  printed : s.printed = []

/-- An operation on a frame that leaves its method. -/
def KeepsMethod (op : JFrame → Except JExn JFrame) : Prop :=
  ∀ f f', op f = .ok f' → f'.currentMethod = f.currentMethod

section Operations

theorem JFrame.pop_method {f f' : JFrame} {o : Value} (h : f.pop = .ok (o, f')) :
    f'.currentMethod = f.currentMethod := by
  unfold JFrame.pop at h
  split at h
  · cases h
  · cases h
    rfl

theorem keepsMethod_load (index : ℕ) : KeepsMethod (JFrame.load index) := by
  intro f f' h
  unfold JFrame.load at h
  split at h
  · cases h
  · cases h
    rfl

theorem keepsMethod_bipush (operands : List UInt8) : KeepsMethod (JFrame.bipush operands) := by
  intro f f' h
  unfold JFrame.bipush at h
  split at h
  · cases h
  · cases h
    rfl

theorem keepsMethod_store (index : ℕ) : KeepsMethod (JFrame.store index) := by
  intro f f' h
  obtain ⟨⟨o, g⟩, hpop, h⟩ := bind_eq_ok h
  have hmethod := JFrame.pop_method hpop
  dsimp only at h
  split at h
  · cases h
    exact hmethod
  · cases h
    exact hmethod

theorem keepsMethod_iadd : KeepsMethod JFrame.iadd := by
  intro f f' h
  obtain ⟨⟨v1, g1⟩, hpop1, h⟩ := bind_eq_ok h
  obtain ⟨⟨v2, g2⟩, hpop2, h⟩ := bind_eq_ok h
  obtain ⟨op1, -, h⟩ := bind_eq_ok h
  obtain ⟨op2, -, h⟩ := bind_eq_ok h
  cases h
  exact (JFrame.pop_method hpop2).trans (JFrame.pop_method hpop1)

theorem Silent.withFrame {s s' : Interpreter} (h : Silent s) {op : JFrame → Except JExn JFrame}
    (hop : KeepsMethod op) (hs' : s.withFrame op = .ok s') : Silent s' := by
  unfold Interpreter.withFrame at hs'
  split at hs'
  next => cases hs'
  next f fs hframes =>
    obtain ⟨g, hg, hs'⟩ := bind_eq_ok hs'
    cases hs'
    have hpools := h.pools
    rw [hframes, List.forall_mem_cons] at hpools
    refine ⟨List.forall_mem_cons.2 ⟨?_, hpools.2⟩, h.printed⟩
    rw [hop f g hg]
    exact hpools.1

theorem Silent.ret {s s' : Interpreter} (h : Silent s) (hs' : s.ret = .ok s') : Silent s' := by
  unfold Interpreter.ret at hs'
  split at hs'
  next => cases hs'
  next f hframes =>
    split at hs'
    · cases hs'
      exact ⟨fun _ hf => (nomatch hf), h.printed⟩
    · cases hs'
  next f g fs hframes =>
    cases hs'
    have hpools := h.pools
    rw [hframes, List.forall_mem_cons, List.forall_mem_cons] at hpools
    exact ⟨List.forall_mem_cons.2 hpools.2, h.printed⟩

end Operations

section Run

variable {getKlass getKlass' : String → Option JKlass}
  {call call' : JMethod → List Value → Interpreter → Except JExn Interpreter} {s s' : Interpreter}

/-- A call throws before it uses the dictionary. -/
theorem Silent.invoke_error (h : Silent s) (operands : List UInt8) :
    ∃ e, ∀ getKlass call, invoke getKlass call operands s = .error e := by
  cases hframes : s.frameList with
  | nil =>
      refine ⟨.nullPointer, fun getKlass call => ?_⟩
      unfold invoke
      rw [hframes]
  | cons f fs =>
      have hpool := h.pools f (by rw [hframes]; exact List.mem_cons_self)
      exact ⟨.classCast, fun getKlass call => invoke_classCast call hframes hpool operands⟩

/-- An instruction that does not throw is none that calls a method. -/
theorem Silent.executeCode (h : Silent s) (code : Code) (operands : List UInt8) :
    executeCode getKlass call code operands s = executeCode getKlass' call' code operands s ∧
      ∀ s', executeCode getKlass call code operands s = .ok s' → Silent s' := by
  obtain ⟨e, herror⟩ := h.invoke_error operands
  have hinvoke : ∀ c : Code, (c = .invokevirtual ∨ c = .invokespecial ∨ c = .invokestatic) →
      Jvm.executeCode getKlass call c operands s =
          Jvm.executeCode getKlass' call' c operands s ∧
        ∀ s', Jvm.executeCode getKlass call c operands s = .ok s' → Silent s' := by
    intro c hc
    rw [executeCode_invoke call hc, executeCode_invoke call' hc, herror, herror]
    exact ⟨rfl, fun s' hs' => (nomatch hs')⟩
  have hframe : ∀ op, KeepsMethod op → ∀ s', s.withFrame op = .ok s' → Silent s' :=
    fun op hop s' hs' => h.withFrame hop hs'
  cases code with
  | invokevirtual => exact hinvoke _ (.inl rfl)
  | invokespecial => exact hinvoke _ (.inr (.inl rfl))
  | invokestatic => exact hinvoke _ (.inr (.inr rfl))
  | getstatic =>
      refine ⟨rfl, fun s' hs' => ?_⟩
      cases hs'
      exact h
  | ireturn => exact ⟨rfl, fun s' hs' => h.ret hs'⟩
  | «return» => exact ⟨rfl, fun s' hs' => h.ret hs'⟩
  | bipush => exact ⟨rfl, hframe _ (keepsMethod_bipush operands)⟩
  | iadd => exact ⟨rfl, hframe _ keepsMethod_iadd⟩
  | istore1 => exact ⟨rfl, hframe _ (keepsMethod_store 1)⟩
  | istore2 => exact ⟨rfl, hframe _ (keepsMethod_store 2)⟩
  | istore3 => exact ⟨rfl, hframe _ (keepsMethod_store 3)⟩
  | aload0 => exact ⟨rfl, hframe _ (keepsMethod_load 0)⟩
  | iload0 => exact ⟨rfl, hframe _ (keepsMethod_load 0)⟩
  | iload1 => exact ⟨rfl, hframe _ (keepsMethod_load 1)⟩
  | iload2 => exact ⟨rfl, hframe _ (keepsMethod_load 2)⟩
  | iload3 => exact ⟨rfl, hframe _ (keepsMethod_load 3)⟩

theorem Silent.runCode {fuel : ℕ} {codes : List UInt8} (h : Silent s) :
    runCode getKlass call fuel codes s = runCode getKlass' call' fuel codes s ∧
      ∀ s', runCode getKlass call fuel codes s = .ok s' → Silent s' := by
  induction fuel generalizing codes s with
  | zero =>
      refine ⟨rfl, fun s' hs' => ?_⟩
      cases hs'
      exact h
  | succ fuel ih =>
      cases codes with
      | nil =>
          refine ⟨rfl, fun s' hs' => ?_⟩
          cases hs'
          exact h
      | cons codeId codes =>
          unfold Jvm.runCode
          cases Code.parse codeId with
          | none => exact ⟨rfl, fun s' hs' => (nomatch hs')⟩
          | some code =>
              dsimp only
              split
              · exact ⟨rfl, fun s' hs' => (nomatch hs')⟩
              · obtain ⟨heq, hsilent⟩ := @Silent.executeCode getKlass getKlass' call call' s h code
                  (codes.take (code.len - 1))
                rw [← heq]
                cases hexec : Jvm.executeCode getKlass call code (codes.take (code.len - 1)) s with
                | error e => exact ⟨rfl, fun s' hs' => (nomatch hs')⟩
                | ok t => exact ih (hsilent t hexec)

end Run

/-! ## The whole run -/

/-- Whatever class file is run, the outcome does not depend on what other classes
the dictionary has or how deep calls may nest, and a run that ends normally has
printed nothing. -/
theorem init_calls_nothing (charset : List UInt8 → String)
    (dictionary dictionary' : String → Option JKlass) (depth depth' : ℕ) (args : JObject)
    (s : InputStream) :
    MyJava.init charset dictionary (depth + 1) args s =
        MyJava.init charset dictionary' (depth' + 1) args s ∧
      ∀ t s', MyJava.init charset dictionary (depth + 1) args s = .ok (t, s') → t.printed = [] := by
  unfold MyJava.init
  cases hload : loadClassFile charset s with
  | error e =>
      rw [ JIO.bind_of_error hload, JIO.bind_of_error hload]
      exact ⟨rfl, fun t s' hs' => (nomatch hs')⟩
  | ok x =>
      obtain ⟨loaded, s₁⟩ := x
      have hsound := yields_loadClassFile charset _ _ _ hload
      rw [ JIO.bind_of_ok hload, JIO.bind_of_ok hload]
      cases hmain : loaded.klass.findMethod "main" with
      | none => exact ⟨rfl, fun t s' hs' => (nomatch hs')⟩
      | some method =>
          have hmem := List.mem_of_find?_eq_some hmain
          have hpool : method.constantPool.Loaded := by
            rw [hsound.methods method hmem]
            exact hsound.pool
          dsimp only
          unfold callMethod
          cases method.code with
          | none => exact ⟨rfl, fun t s' hs' => (nomatch hs')⟩
          | some codes =>
              have hsilent : Silent (Interpreter.enter ⟨[], []⟩ method [.ref args]) :=
                ⟨fun f hf => by cases List.mem_singleton.1 hf; exact hpool, rfl⟩
              obtain ⟨heq, hkeep⟩ := @Silent.runCode (addKlass loaded.klass dictionary)
                (addKlass loaded.klass dictionary')
                (callMethod (addKlass loaded.klass dictionary) depth)
                (callMethod (addKlass loaded.klass dictionary') depth') _ codes.length codes hsilent
              dsimp only
              rw [← heq]
              refine ⟨rfl, fun t s' hs' => ?_⟩
              exact (hkeep t (lookUp_eq_ok.1 hs').1).printed

end MyJavaExample.Jvm
