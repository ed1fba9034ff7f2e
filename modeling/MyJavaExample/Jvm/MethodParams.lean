import Mathlib.Data.List.Induction
import Mathlib.Data.List.TakeWhile
import MyJavaExample.Jvm.ClassParser

/-!
# The argument string of a method

`parseMethod` means to cut the parameters out of the descriptor.  The
parentheses of its pattern group and do not match, so the group holds the whole
descriptor, or what there is of it before a line terminator; and cutting one
character off the front and two off the end leaves the parameters, their closing
parenthesis and all of the return type but its last two characters.  What the
interpreter uses of the string is its length (`methodParam_length`).
-/

namespace MyJavaExample.Jvm

open Java

/-! ## Descriptors -/

inductive BaseType where
  | byte
  | char
  | double
  | float
  | int
  | long
  | short
  | boolean
deriving DecidableEq

def BaseType.letter : BaseType → Char
  | .byte => 'B'
  | .char => 'C'
  | .double => 'D'
  | .float => 'F'
  | .int => 'I'
  | .long => 'J'
  | .short => 'S'
  | .boolean => 'Z'

inductive FieldType where
  | base (t : BaseType)
  | object (className : List Char)
  | array (t : FieldType)

namespace FieldType

def text : FieldType → List Char
  | base t => [t.letter]
  | object className => 'L' :: (className ++ [';'])
  | array t => '[' :: t.text

/-- The type is written with one character. -/
def IsBase : FieldType → Prop
  | base _ => True
  | _ => False

theorem text_ne_nil (t : FieldType) : t.text ≠ [] := by
  cases t <;> simp [text]

end FieldType

/-- A method descriptor; the return type `none` is `void`. -/
structure Descriptor where
  params : List FieldType
  ret : Option FieldType

namespace Descriptor

def retText (d : Descriptor) : List Char :=
  match d.ret with
  | none => ['V']
  | some t => t.text

def text (d : Descriptor) : List Char :=
  '(' :: (d.params.flatMap FieldType.text ++ ')' :: d.retText)

/-- Every parameter is written with one character, and so is what is returned. -/
def Plain (d : Descriptor) : Prop :=
  (∀ t ∈ d.params, t.IsBase) ∧ ∀ t, d.ret = some t → t.IsBase

/-- A class name has a line terminator, and it comes where a plain descriptor
with as many parameters would end. -/
def CutOff (d : Descriptor) : Prop :=
  (∃ c ∈ d.text, lineTerminator c) ∧ (utf16 (findStr d.text)).length = d.params.length + 3

end Descriptor

/-- The string has a character for each parameter, so that a call pops the
arguments and passes them in their order. -/
structure Counts (d : Descriptor) (param : String) : Prop where
  length : javaLength param = d.params.length
  pops : ∀ (f : JFrame) (args stack : List Value), args.length = d.params.length →
    f.operandStack = args.reverse ++ stack →
    f.popParams (javaLength param) [] = .ok (args, { f with operandStack := stack })

/-! ## The length of the string -/

theorem javaLength_eq (s : String) : javaLength s = (utf16 s.toList).length := by
  rw [javaLength, utf16, List.length_flatMap]
  congr 1
  refine List.map_congr_left fun c _ => ?_
  unfold charUnits
  split <;> rfl

/-- Three characters less than the group of the match. -/
theorem methodParam_length (des : String) :
    javaLength (methodParam des) = (utf16 (findStr des.toList)).length - 3 := by
  unfold methodParam
  simp only
  split
  · rw [javaLength_eq, String.toList_ofList, substring_length]
    omega
  · have hzero : javaLength "" = 0 := rfl
    omega

theorem findStr_of_plain {cs : List Char} (h : ∀ c ∈ cs, ¬lineTerminator c) : findStr cs = cs :=
  List.takeWhile_eq_self_iff.2 fun c hc => by simpa using h c hc

theorem findStr_cons {c : Char} (cs : List Char) (h : ¬lineTerminator c) :
    findStr (c :: cs) = c :: findStr cs :=
  List.takeWhile_cons_of_pos (by simpa using h)

theorem utf16_cons (c : Char) (cs : List Char) :
    (utf16 (c :: cs)).length = (charUnits c).length + (utf16 cs).length := by
  rw [utf16, List.flatMap_cons, List.length_append]
  rfl

theorem utf16_length_pos {cs : List Char} (h : cs ≠ []) : 0 < (utf16 cs).length := by
  cases cs with
  | nil => exact absurd rfl h
  | cons c cs =>
      have hpos := charUnits_length_pos c
      rw [utf16_cons]
      omega

namespace FieldType

/-- A type is one character long if and only if it is a base type. -/
theorem text_length (t : FieldType) :
    1 ≤ (utf16 t.text).length ∧ ((utf16 t.text).length = 1 ↔ t.IsBase) := by
  cases t with
  | base t => cases t <;> exact ⟨le_rfl, iff_of_true rfl trivial⟩
  | object className =>
      have hrest := utf16_length_pos (List.append_ne_nil_of_right_ne_nil className
        (List.cons_ne_nil ';' []))
      have hfirst := charUnits_length_pos 'L'
      rw [text, utf16_cons]
      exact ⟨by omega, iff_of_false (by omega) id⟩
  | array t =>
      have hrest := utf16_length_pos t.text_ne_nil
      have hfirst := charUnits_length_pos '['
      rw [text, utf16_cons]
      exact ⟨by omega, iff_of_false (by omega) id⟩

theorem flatMap_text_length (ts : List FieldType) :
    ts.length ≤ (utf16 (ts.flatMap text)).length ∧
      ((utf16 (ts.flatMap text)).length = ts.length ↔ ∀ t ∈ ts, t.IsBase) := by
  induction ts with
  | nil => simp [utf16]
  | cons t ts ih =>
      obtain ⟨hle, hiff⟩ := ih
      obtain ⟨hle', hiff'⟩ := t.text_length
      rw [List.flatMap_cons, utf16_append, List.length_append, List.length_cons,
        List.forall_mem_cons, ← hiff, ← hiff']
      omega

end FieldType

namespace Descriptor

theorem retText_length (d : Descriptor) :
    1 ≤ (utf16 d.retText).length ∧
      ((utf16 d.retText).length = 1 ↔ ∀ t, d.ret = some t → t.IsBase) := by
  unfold retText
  cases d.ret with
  | none => exact ⟨le_rfl, iff_of_true rfl nofun⟩
  | some t => simpa using t.text_length

theorem text_length (d : Descriptor) :
    (utf16 d.text).length =
      (utf16 (d.params.flatMap FieldType.text)).length + (utf16 d.retText).length + 2 := by
  have hopen : (charUnits '(').length = 1 := rfl
  have hclose : (charUnits ')').length = 1 := rfl
  rw [text, utf16_cons, utf16_append, List.length_append, utf16_cons, hopen, hclose]
  omega

/-- The return type starts with a character that `.` matches. -/
theorem retText_cons (d : Descriptor) : ∃ c cs, d.retText = c :: cs ∧ ¬lineTerminator c := by
  unfold retText
  cases d.ret with
  | none => exact ⟨'V', [], rfl, by decide⟩
  | some t =>
      cases t with
      | base t => cases t <;> exact ⟨_, [], rfl, by decide⟩
      | object className => exact ⟨'L', _, rfl, by decide⟩
      | array t => exact ⟨'[', _, rfl, by decide⟩

theorem Plain.not_lineTerminator {d : Descriptor} (h : d.Plain) :
    ∀ c ∈ d.text, ¬lineTerminator c := by
  have hbase : ∀ t : FieldType, t.IsBase → ∀ c ∈ t.text, ¬lineTerminator c := by
    intro t ht c hc
    cases t with
    | base t =>
        rw [List.mem_singleton.1 hc]
        cases t <;> decide
    | object className => exact ht.elim
    | array t => exact ht.elim
  intro c hc
  rcases List.mem_cons.1 hc with rfl | hc
  · decide
  rcases List.mem_append.1 hc with hc | hc
  · obtain ⟨t, ht, hc⟩ := List.mem_flatMap.1 hc
    exact hbase t (h.1 t ht) c hc
  rcases List.mem_cons.1 hc with rfl | hc
  · decide
  unfold retText at hc
  cases hret : d.ret with
  | none =>
      rw [hret, List.mem_singleton] at hc
      rw [hc]
      decide
  | some t =>
      rw [hret] at hc
      exact hbase t (h.2 t hret) c hc

/-- Without parameters the match has at least three characters. -/
theorem three_le_findStr {d : Descriptor} (h : d.params = []) :
    3 ≤ (utf16 (findStr d.text)).length := by
  obtain ⟨c, cs, hret, hc⟩ := d.retText_cons
  have htext : d.text = '(' :: ')' :: c :: cs := by
    rw [text, h, hret]
    rfl
  have hopen := charUnits_length_pos '('
  have hclose := charUnits_length_pos ')'
  have hfirst := charUnits_length_pos c
  rw [htext, findStr_cons _ (by decide), findStr_cons _ (by decide), findStr_cons _ hc, utf16_cons,
    utf16_cons, utf16_cons]
  omega

theorem length_iff_of_plain {d : Descriptor} (h : ∀ c ∈ d.text, ¬lineTerminator c) :
    (utf16 (findStr d.text)).length - 3 = d.params.length ↔ d.Plain := by
  obtain ⟨hparams, hparams'⟩ := FieldType.flatMap_text_length d.params
  obtain ⟨hret, hret'⟩ := d.retText_length
  rw [findStr_of_plain h, text_length, Plain, ← hparams', ← hret']
  omega

end Descriptor

/-- The string that `parseMethod` gives to a method is that of a descriptor in
the pool. -/
theorem parseMethod_param {cp : JConstantPool} {method : JMethod} {s s' : InputStream}
    (h : parseMethod cp s = .ok (method, s')) :
    ∃ descriptorIndex des, cp.getString descriptorIndex = .ok des ∧
      method.param = methodParam des := by
  obtain ⟨_, _, -, h⟩ := JIO.bind_eq_ok.1 h
  obtain ⟨nameIndex, _, -, h⟩ := JIO.bind_eq_ok.1 h
  obtain ⟨name, _, -, h⟩ := JIO.bind_eq_ok.1 h
  obtain ⟨descriptorIndex, _, -, h⟩ := JIO.bind_eq_ok.1 h
  obtain ⟨attributeInfoList, _, -, h⟩ := JIO.bind_eq_ok.1 h
  obtain ⟨codes, _, -, h⟩ := JIO.bind_eq_ok.1 h
  obtain ⟨des, _, hdes, h⟩ := JIO.bind_eq_ok.1 h
  cases h
  refine ⟨descriptorIndex, des, ?_, rfl⟩
  rw [lookUp] at hdes
  cases hget : cp.getString descriptorIndex with
  | error e =>
      rw [hget] at hdes
      cases hdes
  | ok found =>
      rw [hget] at hdes
      cases hdes
      rfl

/-! ## Popping the arguments -/

/-- As many pops as there are arguments. -/
theorem popParams_args (f : JFrame) (args stack acc : List Value)
    (hstack : f.operandStack = args.reverse ++ stack) :
    f.popParams args.length acc = .ok (args ++ acc, { f with operandStack := stack }) := by
  induction args using List.reverseRecOn generalizing f acc with
  | nil =>
      rw [List.reverse_nil, List.nil_append] at hstack
      subst hstack
      rfl
  | append_singleton args a ih =>
      rw [List.reverse_append, List.reverse_singleton, List.singleton_append, List.cons_append]
        at hstack
      have hpop : f.pop = .ok (a, { f with operandStack := args.reverse ++ stack }) := by
        unfold JFrame.pop
        rw [hstack]
      rw [List.length_append, List.length_singleton, JFrame.popParams, hpop]
      refine (ih { f with operandStack := args.reverse ++ stack } (a :: acc) rfl).trans ?_
      rw [List.append_assoc]
      rfl

theorem Counts.of_length {d : Descriptor} {param : String}
    (h : javaLength param = d.params.length) : Counts d param := by
  refine ⟨h, fun f args stack hargs hstack => ?_⟩
  rw [h, ← hargs, popParams_args f args stack [] hstack, List.append_nil]

/-- The string counts the parameters if and only if all types are written with
one character, or a line terminator cuts the descriptor off at the right place. -/
theorem methodParam_counts_iff (d : Descriptor) :
    Counts d (methodParam (String.ofList d.text)) ↔ d.Plain ∨ d.CutOff := by
  have hlength : javaLength (methodParam (String.ofList d.text)) =
      (utf16 (findStr d.text)).length - 3 := by
    rw [methodParam_length, String.toList_ofList]
  have hiff : Counts d (methodParam (String.ofList d.text)) ↔
      (utf16 (findStr d.text)).length - 3 = d.params.length :=
    ⟨fun h => hlength.symm.trans h.length, fun h => Counts.of_length (hlength.trans h)⟩
  rw [hiff]
  by_cases hline : ∃ c ∈ d.text, lineTerminator c
  · have hplain : ¬d.Plain := fun h =>
      let ⟨c, hc, hterm⟩ := hline
      h.not_lineTerminator c hc hterm
    rw [Descriptor.CutOff, and_iff_right hline, or_iff_right hplain]
    rcases Nat.eq_zero_or_pos d.params.length with hzero | hpos
    · have hthree := Descriptor.three_le_findStr (List.length_eq_zero_iff.1 hzero)
      omega
    · omega
  · have hnone : ∀ c ∈ d.text, ¬lineTerminator c := fun c hc hterm => hline ⟨c, hc, hterm⟩
    rw [Descriptor.length_iff_of_plain hnone, or_iff_left fun h => hline h.1]

/-- The descriptor of `main`. -/
def mainDescriptor : Descriptor := ⟨[.array (.object "java/lang/String".toList)], none⟩

/-- The one parameter counts as 19. -/
theorem main_not_counts :
    ¬Counts mainDescriptor (methodParam (String.ofList mainDescriptor.text)) := by
  intro h
  have hlength := h.length
  rw [methodParam_length, String.toList_ofList] at hlength
  revert hlength
  decide

end MyJavaExample.Jvm
