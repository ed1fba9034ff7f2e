import MyJavaExample.Java.ReadCalls
import MyJavaExample.Jvm.ClassParser
import MyJavaExample.Jvm.ConstantPoolDecoding

/-!
# Loading a class from two streams

A class file is loaded from two streams that deliver the same bytes in chunks of
their own.  The strings of the constant pool and the attributes are read by
`read(byte[])`, which may return early.  `fileCalls` goes along the bytes, with as
many for each string and attribute as the stream delivers, and lists the places of
these calls; the last attribute of the class is left out, as nothing that is read
after it or kept depends on it.

When the two streams deliver as much at each of these places, the loads end alike.
When they do not at one of them, and the first such place is a string whose text
changes or the code of a method, no class comes out of both (`loadClassFile_same`).
-/

namespace MyJavaExample.Jvm

open Java ConstantPoolTag

/-- Both loads end with an exception, or they give the same class: its name, its
constant pool, and the names, codes and argument strings of its methods. -/
inductive SameClass : Except JExn (LoadedKlass × InputStream) →
    Except JExn (LoadedKlass × InputStream) → Prop where
  | ok (klass : LoadedKlass) (s₁ s₂ : InputStream) : SameClass (.ok (klass, s₁)) (.ok (klass, s₂))
  | error (e₁ e₂ : JExn) : SameClass (.error e₁) (.error e₂)

theorem sameClass_iff {r₁ r₂ : Except JExn (LoadedKlass × InputStream)} :
    SameClass r₁ r₂ ↔ SameValue r₁ r₂ := by
  constructor
  · rintro (⟨klass, s₁, s₂⟩ | ⟨e₁, e₂⟩) <;> rfl
  · intro h
    cases r₁ with
    | error e₁ =>
        cases r₂ with
        | error e₂ => exact .error e₁ e₂
        | ok x₂ => cases h
    | ok x₁ =>
        cases r₂ with
        | error e₂ => cases h
        | ok x₂ =>
            obtain ⟨klass, s₁⟩ := x₁
            obtain ⟨klass₂, s₂⟩ := x₂
            obtain rfl : klass = klass₂ := Option.some.inj h
            exact .ok klass s₁ s₂

/-! ## Where `read(byte[])` is called -/

/-- What is kept of an array. -/
inductive ReadKind where
  /-- The text of a `UTF8` entry. -/
  | string
  /-- The code in the last attribute of a method. -/
  | code
  | dropped
deriving DecidableEq

/-- What is kept of the two arrays is not the same. -/
def ReadKind.changes (charset : List UInt8 → String) : ReadKind → List UInt8 → List UInt8 → Prop
  | string, x, y => charset x ≠ charset y
  | code, x, y => parseCode x ≠ parseCode y
  | dropped, _, _ => False

section Walks

variable (charset : List UInt8 → String)

def walkEntry (tag : ℤ) (cp : JConstantPool) : Walk ReadKind JConstantPool :=
  if tag = UTF8 then do
    let length ← Walk.lift readShort
    let n ← Walk.lift (newArraySize length)
    let bytes ← Walk.call .string n
    pure (cp.addEntry (.string (charset bytes)))
  else Walk.lift (parseEntry charset tag cp)

def walkEntries : ℕ → JConstantPool → Walk ReadKind JConstantPool
  | 0, cp => pure cp
  | n + 1, cp => do
      let tag ← Walk.lift readByte
      let cp ← walkEntry charset tag (cp.addTag tag)
      walkEntries n cp

/-- Attributes, the last of which is of the kind `last` of its name. -/
def walkAttributes (last : ℤ → ReadKind) : ℕ → Walk ReadKind (List AttributeInfo)
  | 0 => pure []
  | n + 1 => do
      let nameIndex ← Walk.lift readShort
      let length ← Walk.lift readInt
      let size ← Walk.lift (newArraySize length)
      let bytes ← Walk.call (if n = 0 then last nameIndex else .dropped) size
      let attributeList ← walkAttributes last n
      pure (⟨nameIndex, length, bytes⟩ :: attributeList)

def walkAttribute (last : ℤ → ReadKind) : Walk ReadKind (List AttributeInfo) := do
  let count ← Walk.lift readShort
  walkAttributes last count.toNat

def attributeKind (cp : JConstantPool) (nameIndex : ℤ) : ReadKind :=
  if cp.getString nameIndex = .ok "Code" then .code else .dropped

def walkMethod (cp : JConstantPool) : Walk ReadKind JMethod := do
  let _ ← Walk.lift readShort
  let nameIndex ← Walk.lift readShort
  let name ← Walk.lift (lookUp (cp.getString nameIndex))
  let descriptorIndex ← Walk.lift readShort
  let attributeInfoList ← walkAttribute (attributeKind cp)
  let codes ← Walk.lift (lookUp (findCode cp attributeInfoList none))
  let des ← Walk.lift (lookUp (cp.getString descriptorIndex))
  pure ⟨codes, name, methodParam des, cp⟩

def walkMethods (cp : JConstantPool) : ℕ → Walk ReadKind (List JMethod)
  | 0 => pure []
  | n + 1 => do
      let method ← walkMethod cp
      let methodList ← walkMethods cp n
      pure (method :: methodList)

def walkFields : ℕ → Walk ReadKind Unit
  | 0 => pure ()
  | n + 1 => do
      let _ ← Walk.lift readShort
      let _ ← Walk.lift readShort
      let _ ← Walk.lift readShort
      let _ ← walkAttribute fun _ => .dropped
      walkFields n

/-- The attributes of the class, without the array of the last one. -/
def walkClassAttributes : ℕ → Walk ReadKind Unit
  | 0 => pure ()
  | n + 1 => do
      let _ ← Walk.lift readShort
      let length ← Walk.lift readInt
      let size ← Walk.lift (newArraySize length)
      if n = 0 then pure ()
      else do
        let _ ← Walk.call .dropped size
        walkClassAttributes n

/-- The class file behind the constant pool. -/
def walkBody (constantPool : JConstantPool) : Walk ReadKind Unit := do
  let _ ← Walk.lift readShort
  let thisClass ← Walk.lift readShort
  let classNameIndex ← Walk.lift (lookUp (constantPool.getShort thisClass))
  let _ ← Walk.lift (lookUp (constantPool.getString classNameIndex))
  let _ ← Walk.lift readShort
  let interfaceCount ← Walk.lift readShort
  let _ ← Walk.lift (skipShorts interfaceCount.toNat)
  let fieldCount ← Walk.lift readShort
  let _ ← walkFields fieldCount.toNat
  let methodCount ← Walk.lift readShort
  let _ ← walkMethods constantPool methodCount.toNat
  let count ← Walk.lift readShort
  walkClassAttributes count.toNat

def walkClass : Walk ReadKind Unit := do
  let _ ← Walk.lift readInt
  let _ ← Walk.lift readShort
  let _ ← Walk.lift readShort
  let count ← Walk.lift readShort
  let constantPool ← walkEntries charset (count - 1).toNat .new
  walkBody constantPool

/-- The places where the bytes of the stream have a string or an attribute, but for the
last attribute of the class. -/
def fileCalls (s : InputStream) : List (Call ReadKind) := (walkClass charset s).1

end Walks

variable {charset : List UInt8 → String}

/-- `loadClassFile` behind the constant pool. -/
def loadBody (constantPool : JConstantPool) : JIO LoadedKlass := do
  let _ ← readShort
  let thisClass ← readShort
  let classNameIndex ← lookUp (constantPool.getShort thisClass)
  let className ← lookUp (constantPool.getString classNameIndex)
  let _ ← readShort
  let interfaceCount ← readShort
  skipShorts interfaceCount.toNat
  let fieldCount ← readShort
  skipFields fieldCount.toNat
  let methodCount ← readShort
  let methodList ← parseMethods constantPool methodCount.toNat
  let _ ← parseAttribute
  pure ⟨⟨className, methodList⟩, constantPool⟩

theorem loadClassFile_eq : loadClassFile charset = (do
    let _ ← readInt
    let _ ← readShort
    let _ ← readShort
    let constantPool ← parseConstantPool charset
    loadBody constantPool) := rfl

/-! ## The walks track the parser -/

section Tracks

theorem tracks_short : Tracks (κ := ReadKind) readShort (.lift readShort) :=
  .lift (Steady.readSigned 2)

theorem tracks_int : Tracks (κ := ReadKind) readInt (.lift readInt) := .lift (Steady.readSigned 4)

theorem tracks_lookUp {α : Type} (x : Except JExn α) :
    Tracks (κ := ReadKind) (lookUp x) (.lift (lookUp x)) :=
  .lift (Steady.lookUp x)

theorem tracks_newArraySize (n : ℤ) :
    Tracks (κ := ReadKind) (newArraySize n) (.lift (newArraySize n)) :=
  .lift (Steady.newArraySize n)

/-- Only strings are read by a call that may return early. -/
theorem steady_parseEntry {tag : ℤ} (h : tag ≠ UTF8) (cp : JConstantPool) :
    Steady (parseEntry charset tag cp) := by
  have hshort : ∀ {f : ℤ → JIO JConstantPool}, (∀ v, Steady (f v)) → Steady (readShort >>= f) :=
    fun hf => (Steady.readSigned 2).bind hf
  unfold parseEntry
  repeat' refine Steady.ite (fun _ => ?_) fun _ => ?_
  all_goals
    first
    | exact absurd ‹_› h
    | exact Steady.pure _
    | exact (Steady.readSigned _).bind fun _ => Steady.pure _
    | exact hshort fun _ => hshort fun _ => Steady.pure _
    | exact Steady.readArray_one.bind fun _ => hshort fun _ => Steady.pure _

theorem parseEntry_UTF8 (cp : JConstantPool) : parseEntry charset UTF8 cp = (do
    let length ← readShort
    let n ← newArraySize length
    let bytes ← readArray n
    pure (cp.addEntry (.string (charset bytes)))) := rfl

theorem tracks_parseEntry (tag : ℤ) (cp : JConstantPool) :
    Tracks (parseEntry charset tag cp) (walkEntry charset tag cp) := by
  unfold walkEntry
  split
  next h =>
    subst h
    rw [parseEntry_UTF8]
    exact tracks_short.bind fun _ => (tracks_newArraySize _).bind fun _ =>
      (Tracks.call ReadKind.string _).bind fun _ => .pure _
  next h => exact .lift (steady_parseEntry h cp)

theorem tracks_parseEntries : ∀ (n : ℕ) (cp : JConstantPool),
    Tracks (parseEntries charset n cp) (walkEntries charset n cp)
  | 0, cp => .pure cp
  | n + 1, _ =>
      (Tracks.lift (Steady.readSigned 1)).bind fun _ => (tracks_parseEntry _ _).bind fun cp' =>
        tracks_parseEntries n cp'

variable (last : ℤ → ReadKind)

theorem tracks_parseAttributes : ∀ n : ℕ, Tracks (parseAttributes n) (walkAttributes last n)
  | 0 => .pure []
  | n + 1 =>
      tracks_short.bind fun _ => tracks_int.bind fun _ => (tracks_newArraySize _).bind fun _ =>
        (Tracks.call _ _).bind fun _ => (tracks_parseAttributes n).bind fun _ => .pure _

theorem tracks_parseAttribute : Tracks parseAttribute (walkAttribute last) :=
  tracks_short.bind fun _ => tracks_parseAttributes last _

theorem tracks_parseMethod (cp : JConstantPool) : Tracks (parseMethod cp) (walkMethod cp) :=
  tracks_short.bind fun _ => tracks_short.bind fun _ => (tracks_lookUp _).bind fun _ =>
    tracks_short.bind fun _ => (tracks_parseAttribute _).bind fun _ =>
      (tracks_lookUp _).bind fun _ => (tracks_lookUp _).bind fun _ => .pure _

theorem tracks_parseMethods (cp : JConstantPool) :
    ∀ n : ℕ, Tracks (parseMethods cp n) (walkMethods cp n)
  | 0 => .pure []
  | n + 1 =>
      (tracks_parseMethod cp).bind fun _ => (tracks_parseMethods cp n).bind fun _ => .pure _

theorem tracks_skipFields : ∀ n : ℕ, Tracks (skipFields n) (walkFields n)
  | 0 => .pure ()
  | n + 1 =>
      tracks_short.bind fun _ => tracks_short.bind fun _ => tracks_short.bind fun _ =>
        (tracks_parseAttribute _).bind fun _ => tracks_skipFields n

theorem steady_skipShorts : ∀ n : ℕ, Steady (skipShorts n)
  | 0 => .pure ()
  | n + 1 => (Steady.readSigned 2).bind fun _ => steady_skipShorts n

end Tracks

/-! ## Calls that are served alike -/

/-- After the last attribute of the class nothing is read. -/
theorem settles_parseAttributes {α : Type} (a : α) :
    ∀ n : ℕ, Settles (parseAttributes n >>= fun _ => pure a) (walkClassAttributes n)
  | 0 => fun _ _ _ _ => rfl
  | n + 1 => by
      simp only [parseAttributes, bind_assoc, pure_bind]
      refine .bind tracks_short fun _ => .bind tracks_int fun _ =>
        .bind (tracks_newArraySize _) fun size => ?_
      cases n with
      | zero =>
          intro s t hrest _
          obtain ⟨s', hs⟩ := Departs.readArray_eq ReadKind.dropped size s
          obtain ⟨t', ht⟩ := Departs.readArray_eq ReadKind.dropped size t
          rw [ JIO.bind_of_ok hs, JIO.bind_of_ok ht]
          rfl
      | succ n => exact .bind (Tracks.call _ _) fun _ => settles_parseAttributes a (n + 1)

theorem settles_loadBody (cp : JConstantPool) : Settles (loadBody cp) (walkBody cp) := by
  refine .bind tracks_short fun _ => .bind tracks_short fun _ => .bind (tracks_lookUp _) fun _ =>
    .bind (tracks_lookUp _) fun _ => .bind tracks_short fun _ => .bind tracks_short fun _ => ?_
  refine .bind (.lift (steady_skipShorts _)) fun _ => .bind tracks_short fun _ =>
    .bind (tracks_skipFields _) fun _ => .bind tracks_short fun _ =>
      .bind (tracks_parseMethods _ _) fun methodList => ?_
  unfold parseAttribute
  simp only [bind_assoc]
  exact .bind tracks_short fun _ => settles_parseAttributes _ _

theorem settles_loadClassFile : Settles (loadClassFile charset) (walkClass charset) := by
  rw [loadClassFile_eq]
  refine .bind tracks_int fun _ => .bind tracks_short fun _ => .bind tracks_short fun _ => ?_
  unfold parseConstantPool
  simp only [bind_assoc]
  exact .bind tracks_short fun _ => .bind (tracks_parseEntries _ _) fun cp => settles_loadBody cp

/-! ## The first call that is not served alike -/

/-- The pools have different entries at some index. -/
def PoolsDiffer (cp cp' : JConstantPool) : Prop :=
  ∃ (i : ℕ) (x x' : JObject), cp.entryList[i]? = some x ∧ cp'.entryList[i]? = some x' ∧ x ≠ x'

theorem departs_parseEntry (tag : ℤ) (cp : JConstantPool) :
    Departs (ReadKind.changes charset) (parseEntry charset tag cp) (walkEntry charset tag cp)
      PoolsDiffer := by
  unfold walkEntry
  split
  next h =>
    subst h
    rw [parseEntry_UTF8]
    refine .skip tracks_short .lift fun _ => .skip (tracks_newArraySize _) .lift fun _ =>
      .bind (Tracks.call ReadKind.string _) (.call fun x y hxy => hxy) ?_ fun _ => .pure _
    rintro a b hab s x s' t y t' hx hy
    cases hx
    cases hy
    have hlast : ∀ bs, (cp.addEntry (.string (charset bs))).entryList[cp.entryList.length]? =
        some (.string (charset bs)) := fun bs => List.getElem?_concat_length
    exact ⟨cp.entryList.length, _, _, hlast a, hlast b, fun heq => hab (JObject.string.inj heq)⟩
  next => exact .lift

theorem departs_parseEntries : ∀ (n : ℕ) (cp : JConstantPool),
    Departs (ReadKind.changes charset) (parseEntries charset n cp) (walkEntries charset n cp)
      PoolsDiffer
  | 0, cp => .pure cp
  | n + 1, cp => by
      refine .skip (.lift (Steady.readSigned 1)) .lift fun tag =>
        .bind (tracks_parseEntry _ _) (departs_parseEntry _ _) ?_ fun cp' =>
          departs_parseEntries n cp'
      -- the loop adds entries behind those there are
      rintro a b ⟨i, x, x', hx, hx', hne⟩ s cp₁ s' t cp₂ t' h₁ h₂
      obtain ⟨-, xs, hxs, -⟩ := parseEntries_adds h₁
      obtain ⟨-, ys, hys, -⟩ := parseEntries_adds h₂
      refine ⟨i, x, x', ?_, ?_, hne⟩
      · rw [hxs, List.getElem?_append_left (List.getElem?_eq_some_iff.1 hx).1, hx]
      · rw [hys, List.getElem?_append_left (List.getElem?_eq_some_iff.1 hx').1, hx']

/-- The last attributes have the name `Code` and not the same code. -/
def CodesDiffer (cp : JConstantPool) (l l' : List AttributeInfo) : Prop :=
  ∃ pre x x', l = pre ++ [x] ∧ l' = pre ++ [x'] ∧ x.nameIndex = x'.nameIndex ∧
    cp.getString x.nameIndex = .ok "Code" ∧ parseCode x.info ≠ parseCode x'.info

theorem departs_dropped {n : ℕ} {Q : List UInt8 → List UInt8 → Prop} :
    Departs (ReadKind.changes charset) (readArray n) (.call .dropped n) Q :=
  .call fun _ _ h => h.elim

theorem departs_parseAttributes (cp : JConstantPool) : ∀ n : ℕ,
    Departs (ReadKind.changes charset) (parseAttributes n) (walkAttributes (attributeKind cp) n)
      (CodesDiffer cp)
  | 0 => .pure []
  | n + 1 => by
      refine .skip tracks_short .lift fun nameIndex => .skip tracks_int .lift fun length =>
        .skip (tracks_newArraySize _) .lift fun size => ?_
      have hcons : ∀ x : AttributeInfo, Departs (ReadKind.changes charset)
          (parseAttributes n >>= fun attributeList => pure (x :: attributeList))
          (walkAttributes (attributeKind cp) n >>= fun attributeList => pure (x :: attributeList))
          (CodesDiffer cp) := by
        intro x
        refine .bind (tracks_parseAttributes _ n) (departs_parseAttributes cp n) ?_ fun _ => .pure _
        rintro _ _ ⟨pre, y, y', rfl, rfl, hname, hcode, hne⟩ s l s' t l' t' hl hl'
        cases hl
        cases hl'
        exact ⟨x :: pre, y, y', rfl, rfl, hname, hcode, hne⟩
      cases n with
      | zero =>
          refine .bind (Q := fun x y => cp.getString nameIndex = .ok "Code" ∧
            parseCode x ≠ parseCode y) (Tracks.call _ _) (.call fun x y hxy => ?_) ?_
            fun bytes => hcons _
          · rw [if_pos rfl, attributeKind] at hxy
            split at hxy
            next hcode => exact ⟨hcode, hxy⟩
            next => exact hxy.elim
          · rintro a b ⟨hcode, hne⟩ s l s' t l' t' hl hl'
            cases hl
            cases hl'
            exact ⟨[], _, _, rfl, rfl, rfl, hcode, hne⟩
      | succ n => exact .skip (Tracks.call _ _) departs_dropped fun bytes => hcons _

/-- The last attribute decides on the code. -/
theorem findCode_append {cp : JConstantPool} {pre : List AttributeInfo} {x : AttributeInfo}
    (hname : cp.getString x.nameIndex = .ok "Code") {codes result : Option (List UInt8)}
    (h : findCode cp (pre ++ [x]) codes = .ok result) :
    ∃ code, parseCode x.info = .ok code ∧ result = some code := by
  induction pre generalizing codes with
  | nil =>
      simp only [List.nil_append, findCode, hname] at h
      cases hcode : parseCode x.info with
      | error e =>
          rw [hcode] at h
          cases h
      | ok code =>
          rw [hcode] at h
          cases h
          exact ⟨code, rfl, rfl⟩
  | cons y pre ih =>
      rw [List.cons_append, findCode] at h
      cases hy : cp.getString y.nameIndex with
      | error e =>
          rw [hy] at h
          cases h
      | ok codeName =>
          rw [hy] at h
          change (if codeName = "Code" then _ else _) = _ at h
          split at h
          next =>
            cases hcode : parseCode y.info with
            | error e =>
                rw [hcode] at h
                cases h
            | ok code =>
                rw [hcode] at h
                exact ih h
          next => exact ih h

theorem departs_parseMethod (cp : JConstantPool) :
    Departs (ReadKind.changes charset) (parseMethod cp) (walkMethod cp) (· ≠ ·) := by
  refine .skip tracks_short .lift fun _ => .skip tracks_short .lift fun nameIndex =>
    .skip (tracks_lookUp _) .lift fun name => .skip tracks_short .lift fun descriptorIndex => ?_
  have hattributes : Departs (ReadKind.changes charset) parseAttribute
      (walkAttribute (attributeKind cp)) (CodesDiffer cp) :=
    .skip tracks_short .lift fun _ => departs_parseAttributes cp _
  refine .bind (tracks_parseAttribute _) hattributes ?_ fun _ =>
    .skip (tracks_lookUp _) .lift fun _ => .skip (tracks_lookUp _) .lift fun _ => .pure _
  rintro _ _ ⟨pre, x, x', rfl, rfl, hname, hcode, hne⟩ s m s' t m' t' hm hm' heq
  have hparsed : ∀ {y : AttributeInfo} {u u' : InputStream} {method : JMethod},
      cp.getString y.nameIndex = .ok "Code" →
      (lookUp (findCode cp (pre ++ [y]) none) >>= fun codes =>
        lookUp (cp.getString descriptorIndex) >>= fun des =>
          pure (⟨codes, name, methodParam des, cp⟩ : JMethod)) u = .ok (method, u') →
      ∃ code, parseCode y.info = .ok code ∧ method.code = some code := by
    intro y u u' method hy hrun
    obtain ⟨codes, v, hcodes, hrun⟩ := JIO.bind_eq_ok.1 hrun
    obtain ⟨des, v', -, hrun⟩ := JIO.bind_eq_ok.1 hrun
    obtain ⟨hfind, -⟩ := lookUp_eq_ok.1 hcodes
    obtain ⟨code, hparse, rfl⟩ := findCode_append hy hfind
    cases hrun
    exact ⟨code, hparse, rfl⟩
  obtain ⟨code, hparse, hcodes⟩ := hparsed hcode hm
  obtain ⟨code', hparse', hcodes'⟩ := hparsed (hname ▸ hcode) hm'
  rw [heq, hcodes'] at hcodes
  cases hcodes
  exact hne (hparse.trans hparse'.symm)

theorem departs_parseMethods (cp : JConstantPool) : ∀ n : ℕ,
    Departs (ReadKind.changes charset) (parseMethods cp n) (walkMethods cp n) (· ≠ ·)
  | 0 => .pure []
  | n + 1 => by
      refine .bind (tracks_parseMethod cp) (departs_parseMethod cp) ?_ fun method => ?_
      · rintro a b hab s l s' t l' t' hl hl' rfl
        obtain ⟨ms, u, -, hl⟩ := JIO.bind_eq_ok.1 hl
        obtain ⟨ms', u', -, hl'⟩ := JIO.bind_eq_ok.1 hl'
        cases hl
        cases hl'
        exact hab rfl
      · refine .bind (tracks_parseMethods cp n) (departs_parseMethods cp n) ?_ fun _ => .pure _
        rintro a b hab s l s' t l' t' hl hl' rfl
        cases hl
        cases hl'
        exact hab rfl

theorem departs_skipFields : ∀ n : ℕ,
    Departs (ReadKind.changes charset) (skipFields n) (walkFields n) fun _ _ => False
  | 0 => .pure ()
  | n + 1 => by
      have hattributes : ∀ m : ℕ, Departs (ReadKind.changes charset) (parseAttributes m)
          (walkAttributes (fun _ => .dropped) m) fun _ _ => False := by
        intro m
        induction m with
        | zero => exact .pure []
        | succ m ih =>
            refine .skip tracks_short .lift fun _ => .skip tracks_int .lift fun _ =>
              .skip (tracks_newArraySize _) .lift fun _ => ?_
            rw [ite_self]
            exact .skip (Tracks.call _ _) departs_dropped fun _ =>
              .skip (tracks_parseAttributes _ m) ih fun _ => .pure _
      exact .skip tracks_short .lift fun _ => .skip tracks_short .lift fun _ =>
        .skip tracks_short .lift fun _ =>
          .skip (tracks_parseAttribute _) (.skip tracks_short .lift fun _ => hattributes _)
            fun _ => departs_skipFields n

theorem departs_parseClassAttributes {α : Type} (a : α) {R : α → α → Prop} : ∀ n : ℕ,
    Departs (ReadKind.changes charset) (parseAttributes n >>= fun _ => pure a)
      (walkClassAttributes n) R
  | 0 => .pure a
  | n + 1 => by
      simp only [parseAttributes, bind_assoc, pure_bind]
      refine .skip tracks_short .lift fun _ => .skip tracks_int .lift fun _ =>
        .skip (tracks_newArraySize _) .lift fun size => ?_
      cases n with
      | zero => exact fun _ _ _ h => h.elim
      | succ n =>
          exact .skip (Tracks.call _ _) departs_dropped fun _ => departs_parseClassAttributes a (n + 1)

/-- The loaded class has the pool. -/
theorem yields_loadBody (cp : JConstantPool) :
    Yields (loadBody cp) fun loaded => loaded.constantPool = cp :=
  .bind fun _ => .bind fun _ => .bind fun _ => .bind fun _ => .bind fun _ => .bind fun _ =>
    .bind fun _ => .bind fun _ => .bind fun _ => .bind fun _ => .bind fun _ => .bind fun _ =>
      .pure rfl

theorem departs_loadBody (cp : JConstantPool) :
    Departs (ReadKind.changes charset) (loadBody cp) (walkBody cp) (· ≠ ·) := by
  refine .skip tracks_short .lift fun _ => .skip tracks_short .lift fun _ =>
    .skip (tracks_lookUp _) .lift fun _ => .skip (tracks_lookUp _) .lift fun className =>
      .skip tracks_short .lift fun _ => .skip tracks_short .lift fun _ => ?_
  refine .skip (.lift (steady_skipShorts _)) .lift fun _ => .skip tracks_short .lift fun _ =>
    .skip (tracks_skipFields _) (departs_skipFields _) fun _ => .skip tracks_short .lift fun _ => ?_
  refine .bind (tracks_parseMethods _ _) (departs_parseMethods _ _) ?_ fun methodList => ?_
  · have hlist : ∀ ms : List JMethod, Yields (parseAttribute >>= fun _ =>
        pure (⟨⟨className, ms⟩, cp⟩ : LoadedKlass)) fun loaded => loaded.klass.methodList = ms :=
      fun ms => .bind fun _ => .pure rfl
    rintro a b hab s x s' t y t' hx hy rfl
    exact hab ((hlist a _ _ _ hx).symm.trans (hlist b _ _ _ hy))
  · unfold parseAttribute
    simp only [bind_assoc]
    exact .skip tracks_short .lift fun _ => departs_parseClassAttributes _ _

theorem departs_loadClassFile :
    Departs (ReadKind.changes charset) (loadClassFile charset) (walkClass charset) (· ≠ ·) := by
  rw [loadClassFile_eq]
  refine .skip tracks_int .lift fun _ => .skip tracks_short .lift fun _ =>
    .skip tracks_short .lift fun _ => ?_
  unfold parseConstantPool
  simp only [bind_assoc]
  refine .skip tracks_short .lift fun _ => .bind (tracks_parseEntries _ _)
    (departs_parseEntries _ _) ?_ fun cp => departs_loadBody cp
  rintro a b ⟨i, v, v', hv, hv', hne⟩ s x s' t y t' hx hy rfl
  obtain rfl : a = b := (yields_loadBody a _ _ _ hx).symm.trans (yields_loadBody b _ _ _ hy)
  exact hne (Option.some.inj (hv.symm.trans hv'))

/-! ## The result -/

/-- Two loads of the same bytes give the same class when each string and each attribute of
`fileCalls` is delivered alike.  Where the first of them that is not is a string or a
code that changes, no class is given by both. -/
theorem loadClassFile_same {s₁ s₂ : InputStream} (hrest : s₁.rest = s₂.rest) :
    (ServedAlike s₁ s₂ (fileCalls charset s₁) →
      SameClass (loadClassFile charset s₁) (loadClassFile charset s₂)) ∧
    (Changed (ReadKind.changes charset) s₁ s₂ (fileCalls charset s₁) →
      SameClass (loadClassFile charset s₁) (loadClassFile charset s₂) →
        ∃ e₁ e₂, loadClassFile charset s₁ = .error e₁ ∧ loadClassFile charset s₂ = .error e₂) := by
  refine ⟨fun hserved => sameClass_iff.2 (settles_loadClassFile s₁ s₂ hrest hserved),
    fun hchanged hsame => ?_⟩
  cases h₁ : loadClassFile charset s₁ with
  | error e₁ =>
      cases h₂ : loadClassFile charset s₂ with
      | error e₂ => exact ⟨e₁, e₂, rfl, rfl⟩
      | ok x =>
          rw [h₁, h₂] at hsame
          cases hsame
  | ok x =>
      cases h₂ : loadClassFile charset s₂ with
      | error e₂ =>
          rw [h₁, h₂] at hsame
          cases hsame
      | ok y =>
          rw [h₁, h₂] at hsame
          cases hsame with
          | ok klass t₁ t₂ =>
              exact absurd rfl (departs_loadClassFile s₁ s₂ hrest hchanged klass t₁ klass t₂ h₁ h₂)

/-- Streams that serve every read in full give the same class. -/
theorem loadClassFile_fullReads {s₁ s₂ : InputStream} (hrest : s₁.rest = s₂.rest)
    (h₁ : s₁.FullReads) (h₂ : s₂.FullReads) :
    SameClass (loadClassFile charset s₁) (loadClassFile charset s₂) :=
  sameClass_iff.2 (settles_loadClassFile s₁ s₂ hrest (servedAlike_of_fullReads h₁ h₂ _))

/-! ## Short reads -/

/-- A stream that delivers one byte at a time. -/
def singly (bs : List UInt8) : InputStream := ⟨bs, fun _ _ => 1, id⟩

/-- A stream that delivers three bytes at once when it is asked for three, and else one. -/
def threeAtOnce (bs : List UInt8) : InputStream := ⟨bs, fun _ len => if len = 3 then 3 else 1, id⟩

/-- A class with one method and an attribute of three bytes.  Of the two bytes of its
string the second one is the tag of the next entry when only one is delivered. -/
def shortClass : List UInt8 :=
  [202, 254, 186, 190, 0, 0, 0, 52, 0, 3, 1, 0, 2, 65, 7, 0, 1, 0, 33, 0, 2, 0, 0, 0, 0, 0, 0,
    0, 1, 0, 1, 0, 1, 0, 1, 0, 0, 0, 1, 0, 1, 0, 0, 0, 3, 8, 9, 10]

/-- Both streams deliver one of the two bytes of the string.  Of the attribute of the class
one delivers a byte and the other all. -/
theorem shortClass_same :
    (loadClassFile latin1 (singly shortClass)).toBool = true ∧
      SameClass (loadClassFile latin1 (singly shortClass))
        (loadClassFile latin1 (threeAtOnce shortClass)) :=
  ⟨by decide +kernel,
    (@loadClassFile_same latin1 (singly shortClass) (threeAtOnce shortClass) rfl).1
      (by decide +kernel)⟩

/-- The class "AB". -/
def emptyClass : List UInt8 :=
  [202, 254, 186, 190, 0, 0, 0, 52, 0, 3, 1, 0, 2, 65, 66, 7, 0, 1, 0, 33, 0, 2, 0, 0, 0, 0, 0, 0,
    0, 0, 0, 0]

/-- Of the two bytes of the name only one is read. -/
theorem emptyClass_not_same :
    ¬SameClass (loadClassFile latin1 (.ofBytes emptyClass))
      (loadClassFile latin1 (singly emptyClass)) := by
  intro h
  have hloads : ∀ {r₁ r₂}, SameClass r₁ r₂ → r₁.toBool = r₂.toBool := by
    rintro _ _ (⟨klass, t₁, t₂⟩ | ⟨e₁, e₂⟩) <;> rfl
  have hsame := hloads h
  revert hsame
  decide +kernel

end MyJavaExample.Jvm
