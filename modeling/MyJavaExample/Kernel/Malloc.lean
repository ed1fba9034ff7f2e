import Mathlib.Data.List.FinRange
import Mathlib.Data.Nat.Notation
import MyJavaExample.Lib.LinkedList
import MyJavaExample.Lib.Run

/-!
# The kernel's memory allocator: `lib/malloc.c`

A page holds objects of one size.  The free objects of a page are linked through
their own first words, and a bucket descriptor has the head of this list and the
number of objects in use.  The descriptors of the pages with one size of objects
are a chain; unused descriptors are in a pool, and lie in pages of their own
which are never given back.

A word of an object is read as a pointer, `none` for 0.  The links of the
descriptors are kept apart from their other fields.  Addresses are below `2 ^ 32`,
so no sum of an address of a page and a size wraps.

`held` are the pages that `get_free_page` has returned and that were not given
back, `descPages` those of them with descriptors, `freed` those given back, and
`live` the objects in use, with the lengths that were asked for.
-/

namespace MyJavaExample.Kernel

open Lib

def PAGE_SIZE : ℕ := 4096

/-- `sizeof(struct bucket_desc)`. -/
def DESC_SIZE : ℕ := 16

/-- An entry of `bucket_dir` before the end marker. -/
abbrev Bucket := Fin 9

/-- `bucket_dir[i].size`. -/
def Bucket.size (i : Bucket) : ℕ := [16, 32, 64, 128, 256, 512, 1024, 2048, 4096].get i

/-- The first entry of `bucket_dir` whose size is enough. -/
def bucketFor (len : ℕ) : Option Bucket := (List.finRange 9).find? fun i => len ≤ i.size

/-- `struct bucket_desc`, without its link. -/
structure BucketDesc where
  page : ℕ
  freeptr : Option ℕ
  refcnt : UInt16
  bucketSize : UInt16

/-- An object in use. -/
structure Object where
  obj : ℕ
  len : ℕ
deriving DecidableEq

/-- The bytes that an object has. -/
def Object.size (o : Object) : ℕ := ((bucketFor o.len).map Bucket.size).getD 0

/-- `obj & 0xfffff000`. -/
def pageOf (a : ℕ) : ℕ := a - a % PAGE_SIZE

structure Allocator where
  word : ℕ → Option ℕ
  desc : ℕ → BucketDesc
  next : ℕ → Option ℕ
  /-- `bucket_dir[i].chain`. -/
  chain : Bucket → Option ℕ
  freeBucketDesc : Option ℕ
  held : List ℕ
  descPages : List ℕ
  freed : List ℕ
  live : List Object

namespace Allocator

variable (s : Allocator)

/-- There are no more descriptors than this, so a chain that ends is passed in
at most so many steps. -/
def descCount : ℕ := PAGE_SIZE / DESC_SIZE * s.descPages.length

def setDesc (b : ℕ) (d : BucketDesc) : Allocator := { s with desc := Function.update s.desc b d }

/-! ## Pages -/

def inPage (p a : ℕ) : Bool := p ≤ a && a < p + PAGE_SIZE

/-- `get_free_page` returns `p`, filled with zeros; 0 if there is no page. -/
def getFreePage (p : ℕ) : Allocator :=
  if p = 0 then s
  else
    { s with
      word := fun a => if inPage p a then none else s.word a
      desc := fun a => if inPage p a then ⟨0, none, 0, 0⟩ else s.desc a
      next := fun a => if inPage p a then none else s.next a
      held := p :: s.held }

def freePage (p : ℕ) : Allocator := { s with held := s.held.erase p, freed := s.freed ++ [p] }

/-! ## `malloc` -/

/-- `init_bucket_desc` with the page `p`. -/
def initBucketDesc (p : ℕ) : Except String Allocator :=
  let s := s.getFreePage p
  if p = 0 then throw "Out of memory in init_bucket_desc()"
  else
    let run := linkRun DESC_SIZE (PAGE_SIZE / DESC_SIZE - 1) s.next p
    pure { s with
      next := Function.update run.1 run.2 s.freeBucketDesc
      freeBucketDesc := some p
      descPages := p :: s.descPages }

/-- The first descriptor of a chain with a free object. -/
def findFree : ℕ → Option ℕ → Except String (Option ℕ)
  | _, none => pure none
  | 0, some _ => throw "chain without end"
  | fuel + 1, some b =>
      if (s.desc b).freeptr.isSome then pure (some b) else findFree fuel (s.next b)

/-- The descriptor `b` is set up for the page `p` and linked into its chain. -/
def newBucket (i : Bucket) (b p : ℕ) : Except String Allocator :=
  let s := { s with freeBucketDesc := s.next b }
  let s := s.setDesc b { s.desc b with refcnt := 0, bucketSize := UInt16.ofNat i.size }
  let s := s.getFreePage p
  let s := s.setDesc b { s.desc b with page := p, freeptr := if p = 0 then none else some p }
  if p = 0 then throw "Out of memory in kernel malloc()"
  else
    let run := linkRun i.size (PAGE_SIZE / i.size - 1) s.word p
    let s := { s with word := Function.update run.1 run.2 none }
    pure { s with
      next := Function.update s.next b (s.chain i)
      chain := Function.update s.chain i (some b) }

/-- The first free object of the page is taken. -/
def takeObject (b : ℕ) : Except String (ℕ × Allocator) :=
  match (s.desc b).freeptr with
  | none => throw "null pointer"
  | some retval =>
      let d := s.desc b
      pure (retval, s.setDesc b { d with freeptr := s.word retval, refcnt := d.refcnt + 1 })

/-- `malloc`, where `get_free_page` returns `p` to `init_bucket_desc` and `q` to
`malloc` if they ask for a page. -/
def malloc (len p q : ℕ) : Except String (ℕ × Allocator) :=
  match bucketFor len with
  | none => throw "malloc: bad arg"
  | some i => do
      match ← s.findFree s.descCount (s.chain i) with
      | some bdesc => s.takeObject bdesc
      | none =>
          let s ← if s.freeBucketDesc.isNone then s.initBucketDesc p else pure s
          match s.freeBucketDesc with
          | none => throw "null pointer"
          | some bdesc =>
              let s ← s.newBucket i bdesc q
              s.takeObject bdesc

/-! ## `free_s` -/

/-- The loop over one chain: the descriptor of the page and the one before it. -/
def findPage (page : ℕ) : ℕ → Option ℕ → Option ℕ → Except String (Option (ℕ × Option ℕ))
  | _, none, _ => pure none
  | 0, some _, _ => throw "chain without end"
  | fuel + 1, some b, prev =>
      if (s.desc b).page = page then pure (some (b, prev)) else findPage page fuel (s.next b) (some b)

/-- The loop over `bucket_dir`. -/
def findBucket (page size : ℕ) : List Bucket → Except String (Option (Bucket × ℕ × Option ℕ))
  | [] => pure none
  | i :: is =>
      if i.size < size then findBucket page size is
      else do
        match ← s.findPage page s.descCount (s.chain i) none with
        | some (b, prev) => pure (some (i, b, prev))
        | none => findBucket page size is

/-- The loop that looks for the predecessor again. -/
def findPrev (b : ℕ) : ℕ → Option ℕ → Except String (Option ℕ)
  | _, none => pure none
  | 0, some _ => throw "chain without end"
  | fuel + 1, some prev => if s.next prev = some b then pure (some prev) else findPrev b fuel (s.next prev)

/-- `prev` is no longer accurate. -/
def stale (i : Bucket) (b : ℕ) : Option ℕ → Bool
  | some prev => s.next prev ≠ some b
  | none => s.chain i ≠ some b

/-- A descriptor is taken out of its chain. -/
def unlinkDesc (i : Bucket) (b : ℕ) : Option ℕ → Except String Allocator
  | some prev => pure { s with next := Function.update s.next prev (s.next b) }
  | none =>
      if s.chain i ≠ some b then throw "malloc bucket chains corrupted"
      else pure { s with chain := Function.update s.chain i (s.next b) }

/-- The part of `free_s` for a page without objects in use. -/
def releaseBucket (i : Bucket) (b : ℕ) (prev : Option ℕ) : Except String Allocator := do
  let prev ← if s.stale i b prev then s.findPrev b s.descCount (s.chain i) else pure prev
  let s ← s.unlinkDesc i b prev
  let s := s.freePage (s.desc b).page
  pure { s with next := Function.update s.next b s.freeBucketDesc, freeBucketDesc := some b }

/-- The object becomes the first free one of its page. -/
def putObject (b obj : ℕ) : Allocator :=
  let d := s.desc b
  { s with word := Function.update s.word obj d.freeptr }.setDesc b
    { d with freeptr := some obj, refcnt := d.refcnt - 1 }

def freeS (obj size : ℕ) : Except String Allocator := do
  match ← s.findBucket (pageOf obj) size (List.finRange 9) with
  | none => throw "Bad address passed to kernel free_s()"
  | some (i, b, prev) =>
      let s := s.putObject b obj
      if (s.desc b).refcnt = 0 then s.releaseBucket i b prev else pure s

end Allocator

/-! ## Runs -/

inductive MallocAction where
  /-- `malloc(len)`; `p` and `q` are the pages for it. -/
  | malloc (len p q : ℕ)
  | free (obj size : ℕ)
  /-- The user of an object writes into it. -/
  | write (a : ℕ) (w : Option ℕ)

namespace Allocator

def act (s : Allocator) : MallocAction → Except String Allocator
  | .malloc len p q => do
      let (obj, s) ← s.malloc len p q
      pure { s with live := ⟨obj, len⟩ :: s.live }
  | .free obj size => do
      let s ← s.freeS obj size
      pure { s with live := s.live.filter fun o => o.obj ≠ obj }
  | .write a w => pure { s with word := Function.update s.word a w }

/-- After a panic nothing happens any more. -/
def step (r : Except String Allocator) (a : MallocAction) : Except String Allocator := do
  (← r).act a

def init : Allocator where
  word := fun _ => none
  desc := fun _ => ⟨0, none, 0, 0⟩
  next := fun _ => none
  chain := fun _ => none
  freeBucketDesc := none
  held := []
  descPages := []
  freed := []
  live := []

/-- A page that is not in use. -/
def Fresh (s : Allocator) (p : ℕ) : Prop :=
  p % PAGE_SIZE = 0 ∧ p ≠ 0 ∧ p ∉ s.held

instance (s : Allocator) (p : ℕ) : Decidable (s.Fresh p) := inferInstanceAs (Decidable (_ ∧ _))

/-- `malloc(len)` finds no free object. -/
def full (s : Allocator) (len : ℕ) : Bool :=
  match bucketFor len with
  | none => false
  | some i =>
      match s.findFree s.descCount (s.chain i) with
      | .ok none => true
      | _ => false

/-- What the users of the allocator and `get_free_page` are to keep to: objects
of at most a page are asked for, the pages are not in use, objects in use are
freed, with no size or the one asked for, and written to within their lengths. -/
def Allowed (s : Allocator) : MallocAction → Prop
  | .malloc len p q => len ≤ PAGE_SIZE ∧
      (s.full len → s.Fresh q ∧ (s.freeBucketDesc.isNone → s.Fresh p ∧ p ≠ q))
  | .free obj size => ∃ o ∈ s.live, o.obj = obj ∧ (size = 0 ∨ size = o.len)
  | .write a _ => a % 4 = 0 ∧ ∃ o ∈ s.live, o.obj ≤ a ∧ a < o.obj + o.len

instance (s : Allocator) : ∀ a, Decidable (s.Allowed a)
  | .malloc _ _ _ => inferInstanceAs (Decidable (_ ∧ _))
  | .free _ _ => inferInstanceAs (Decidable (∃ o ∈ s.live, _))
  | .write _ _ => inferInstanceAs (Decidable (_ ∧ _))

/-- The addresses of the objects of a page. -/
def slots (i : Bucket) (page : ℕ) : List ℕ := strided i.size (PAGE_SIZE / i.size) page

/-- The descriptor counts the objects in use on its page and lists the others,
each once. -/
def Describes (s : Allocator) (i : Bucket) (b : ℕ) : Prop :=
  (s.desc b).refcnt.toNat = s.live.countP (fun o => pageOf o.obj = (s.desc b).page) ∧
    ∃ l, Seg s.word (s.desc b).freeptr l none ∧ l.Nodup ∧
      ∀ a, a ∈ l ↔ a ∈ slots i (s.desc b).page ∧ a ∉ s.live.map Object.obj

/-- The objects in use are apart from each other and within pages of their size,
and every descriptor in a chain is right about its page. -/
structure Consistent (s : Allocator) : Prop where
  disjoint : s.live.Pairwise fun o o' => o.obj + o.size ≤ o'.obj ∨ o'.obj + o'.size ≤ o.obj
  enough : ∀ o ∈ s.live, o.len ≤ o.size
  chains : ∃ c : Bucket → List ℕ, (∀ i, Seg s.next (s.chain i) (c i) none) ∧
    (∀ i, ∀ b ∈ c i, s.Describes i b) ∧
    ∀ o ∈ s.live, ∃ i, ∃ b ∈ c i,
      (s.desc b).page ≤ o.obj ∧ o.obj + o.size ≤ (s.desc b).page + PAGE_SIZE

/-- The pages that an action should give back: that of the last object in use on
it. -/
def emptied (s : Allocator) : MallocAction → List ℕ
  | .free obj _ =>
      if ∀ o ∈ s.live, pageOf o.obj = pageOf obj → o.obj = obj then [pageOf obj] else []
  | _ => []

end Allocator

end MyJavaExample.Kernel
