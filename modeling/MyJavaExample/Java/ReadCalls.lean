import MyJavaExample.Java.InputStream

/-!
# The calls of `read(byte[])`

`DataInputStream` reads its numbers to the end; a call of `read(byte[])` returns what
the stream delivers at once.  A `Walk` goes along the bytes of a stream and lists the
places of these calls, each with a kind that says what is kept of its array.

A computation that a walk tracks does the same on two streams that serve the listed
calls alike (`Tracks`).  Where they serve the first one differently and what is kept
of it changes, the results differ (`Departs`).
-/

namespace MyJavaExample.Java

variable {κ α β γ : Type}

/-- A call of `read(byte[])`. -/
structure Call (κ : Type) where
  kind : κ
  /-- The bytes that remain. -/
  rest : List UInt8
  length : ℕ

namespace Call

/-- The stream at the place of the call. -/
def stream (c : Call κ) (s : InputStream) : InputStream := { s with rest := c.rest }

def delivered (c : Call κ) (s : InputStream) : ℕ := (c.stream s).delivered c.length

/-- The array after the call. -/
def array (c : Call κ) (s : InputStream) : List UInt8 :=
  match ((c.stream s).read c.length).1 with
  | none => List.replicate c.length 0
  | some bs => bs ++ List.replicate (c.length - bs.length) 0

end Call

/-- Both streams deliver as much at each of the calls. -/
def ServedAlike (s t : InputStream) (l : List (Call κ)) : Prop :=
  ∀ c ∈ l, c.delivered s = c.delivered t

instance (s t : InputStream) (l : List (Call κ)) : Decidable (ServedAlike s t l) :=
  inferInstanceAs (Decidable (∀ c ∈ l, c.delivered s = c.delivered t))

/-- The first of the calls that is not served alike changes what is kept. -/
def Changed (changes : κ → List UInt8 → List UInt8 → Prop) (s t : InputStream) :
    List (Call κ) → Prop
  | [] => False
  | c :: l =>
      changes c.kind (c.array s) (c.array t) ∨
        c.delivered s = c.delivered t ∧ Changed changes s t l

theorem changed_append {changes : κ → List UInt8 → List UInt8 → Prop} {s t : InputStream}
    {l₁ l₂ : List (Call κ)} :
    Changed changes s t (l₁ ++ l₂) ↔
      Changed changes s t l₁ ∨ ServedAlike s t l₁ ∧ Changed changes s t l₂ := by
  induction l₁ with
  | nil => simp [Changed, ServedAlike]
  | cons c l ih =>
      simp only [List.cons_append, Changed, ih, ServedAlike, List.forall_mem_cons]
      tauto

/-! ## Walks -/

/-- The calls on the way, and the outcome. -/
def Walk (κ α : Type) : Type := InputStream → List (Call κ) × Except JExn (α × InputStream)

namespace Walk

def bind (w : Walk κ α) (f : α → Walk κ β) : Walk κ β := fun s =>
  match w s with
  | (l, .error e) => (l, .error e)
  | (l, .ok (a, t)) => (l ++ (f a t).1, (f a t).2)

instance : Monad (Walk κ) where
  pure a := fun s => ([], .ok (a, s))
  bind := bind

/-- A computation without such a call. -/
def lift (p : JIO α) : Walk κ α := fun s => ([], p s)

/-- `read(b)` for an array `b` of `n` zero bytes. -/
def call (kind : κ) (n : ℕ) : Walk κ (List UInt8) := fun s => ([⟨kind, s.rest, n⟩], readArray n s)

theorem bind_of_error {w : Walk κ α} {f : α → Walk κ β} {s : InputStream} {e : JExn}
    (h : (w s).2 = .error e) : (w >>= f) s = ((w s).1, .error e) := by
  change bind w f s = _
  unfold bind
  rcases hw : w s with ⟨l, r⟩
  rw [hw] at h
  subst h
  rfl

theorem bind_of_ok {w : Walk κ α} {f : α → Walk κ β} {s t : InputStream} {a : α}
    (h : (w s).2 = .ok (a, t)) : (w >>= f) s = ((w s).1 ++ (f a t).1, (f a t).2) := by
  change bind w f s = _
  unfold bind
  rcases hw : w s with ⟨l, r⟩
  rw [hw] at h
  subst h
  rfl

end Walk

/-! ## Computations that do not depend on the stream -/

/-- The outcome on another stream, of which the same bytes are left. -/
def onStream (t : InputStream) (r : Except JExn (α × InputStream)) : Except JExn (α × InputStream) :=
  r.map fun x => (x.1, { t with rest := x.2.rest })

/-- The computation does the same on every stream with the same bytes. -/
def Steady (p : JIO α) : Prop :=
  ∀ s t : InputStream, s.rest = t.rest → p t = onStream t (p s)

theorem eq_of_rest {s t : InputStream} (h : s.rest = t.rest) : { t with rest := s.rest } = t := by
  rw [h]

namespace Steady

theorem lookUp (x : Except JExn α) : Steady (lookUp x) := by
  intro s t h
  cases x with
  | error e => rfl
  | ok a => exact congrArg (fun u => Except.ok (a, u)) (eq_of_rest h).symm

theorem pure (a : α) : Steady (Pure.pure a) := lookUp (.ok a)

theorem readFully (k : ℕ) : Steady (readFully k) := by
  intro s t h
  unfold Java.readFully
  rw [h]
  split <;> rfl

theorem newArraySize (n : ℤ) : Steady (newArraySize n) := by
  intro s t h
  unfold Java.newArraySize
  split
  next => rfl
  next => exact congrArg (fun u => Except.ok (n.toNat, u)) (eq_of_rest h).symm

theorem bind {p : JIO α} {f : α → JIO β} (hp : Steady p) (hf : ∀ a, Steady (f a)) :
    Steady (p >>= f) := by
  intro s t h
  have hpt := hp s t h
  cases hs : p s with
  | error e =>
      rw [hs] at hpt
      rw [ JIO.bind_of_error hs, JIO.bind_of_error (e := e) hpt]
      rfl
  | ok x =>
      obtain ⟨a, s'⟩ := x
      rw [hs] at hpt
      rw [ JIO.bind_of_ok hs, JIO.bind_of_ok hpt, hf a s' { t with rest := s'.rest } rfl]
      rfl

theorem readSigned (k : ℕ) : Steady (readSigned k) := (readFully k).bind fun _ => pure _

/-- A single byte is delivered or none is left. -/
theorem readArray_one : Steady (readArray 1) := by
  intro s t h
  have hone : ∀ u : InputStream, u.delivered 1 = 1 := by
    intro u
    unfold InputStream.delivered
    omega
  unfold Java.readArray InputStream.read
  rw [hone, hone, h]
  split_ifs <;> simp [onStream, Except.map, eq_of_rest h]

theorem ite {p q : JIO α} {c : Prop} [Decidable c] (hp : c → Steady p) (hq : ¬c → Steady q) :
    Steady (if c then p else q) := by
  split
  next h => exact hp h
  next h => exact hq h

end Steady

/-! ## Tracking -/

/-- The walk lists the calls of the computation; with these served alike it does the same
on both streams. -/
structure Tracks (p : JIO α) (w : Walk κ α) : Prop where
  eq : ∀ s, (w s).2 = p s
  same : ∀ s t, s.rest = t.rest → ServedAlike s t (w s).1 → p t = onStream t (p s)

namespace Tracks

variable {p : JIO α} {w : Walk κ α} {f : α → JIO β} {g : α → Walk κ β}

theorem lift (h : Steady p) : Tracks (κ := κ) p (.lift p) :=
  ⟨fun _ => rfl, fun s t hrest _ => h s t hrest⟩

theorem pure (a : α) : Tracks (κ := κ) (Pure.pure a) (Pure.pure a) :=
  ⟨fun _ => rfl, fun s t hrest _ => Steady.pure a s t hrest⟩

/-- The stream keeps its ways. -/
theorem keeps (h : Tracks p w) {s s' : InputStream} {a : α} (hs : p s = .ok (a, s')) :
    s' = { s with rest := s'.rest } := by
  have hsame := h.same s s rfl fun _ _ => rfl
  rw [hs] at hsame
  exact (Prod.mk.inj (Except.ok.inj hsame)).2

theorem call (kind : κ) (n : ℕ) : Tracks (readArray n) (.call kind n) := by
  refine ⟨fun _ => rfl, fun s t h hserved => ?_⟩
  have hdelivered : s.delivered n = t.delivered n := by
    have hcall := hserved _ List.mem_cons_self
    simp only [Call.delivered, Call.stream] at hcall
    rwa [eq_of_rest h] at hcall
  unfold Java.readArray InputStream.read
  rw [hdelivered, h]
  split_ifs <;> simp [onStream, Except.map, eq_of_rest h]

theorem served_of_keeps {s s' t t' : InputStream} {l : List (Call κ)}
    (hs : s' = { s with rest := s'.rest }) (ht : t' = { t with rest := t'.rest })
    (h : ServedAlike s t l) : ServedAlike s' t' l := by
  intro c hc
  have hcall := h c hc
  rw [hs, ht]
  exact hcall

/-- With all calls served alike both streams fail in `p`, or what follows starts on both
with the same value and bytes. -/
theorem through (hp : Tracks p w) {h : α → Walk κ γ} {s t : InputStream} (hrest : s.rest = t.rest)
    (hserved : ServedAlike s t ((w >>= h) s).1) :
    (∃ e, p s = .error e ∧ p t = .error e) ∨
      ∃ a s', p s = .ok (a, s') ∧ p t = .ok (a, { t with rest := s'.rest }) ∧
        ServedAlike s' { t with rest := s'.rest } (h a s').1 := by
  have heq := hp.eq s
  cases hs : p s with
  | error e =>
      rw [hs] at heq
      rw [Walk.bind_of_error heq] at hserved
      have ht := hp.same s t hrest hserved
      rw [hs] at ht
      exact .inl ⟨e, rfl, ht⟩
  | ok x =>
      obtain ⟨a, s'⟩ := x
      rw [hs] at heq
      rw [Walk.bind_of_ok heq] at hserved
      have ht := hp.same s t hrest fun c hc => hserved c (List.mem_append_left _ hc)
      rw [hs] at ht
      exact .inr ⟨a, s', rfl, ht,
        served_of_keeps (hp.keeps hs) rfl fun c hc => hserved c (List.mem_append_right _ hc)⟩

theorem bind (hp : Tracks p w) (hf : ∀ a, Tracks (f a) (g a)) : Tracks (p >>= f) (w >>= g) := by
  refine ⟨fun s => ?_, fun s t hrest hserved => ?_⟩
  · have heq := hp.eq s
    cases hs : p s with
    | error e =>
        rw [hs] at heq
        rw [Walk.bind_of_error heq, JIO.bind_of_error hs]
    | ok x =>
        obtain ⟨a, s'⟩ := x
        rw [hs] at heq
        rw [Walk.bind_of_ok heq, JIO.bind_of_ok hs]
        exact (hf a).eq s'
  · rcases hp.through hrest hserved with ⟨e, hs, ht⟩ | ⟨a, s', hs, ht, htail⟩
    · rw [ JIO.bind_of_error hs, JIO.bind_of_error ht]
      rfl
    · rw [ JIO.bind_of_ok hs, JIO.bind_of_ok ht, (hf a).same s' { t with rest := s'.rest } rfl htail]
      rfl

theorem ite {p q : JIO α} {v w : Walk κ α} {c : Prop} [Decidable c] (hp : c → Tracks p v)
    (hq : ¬c → Tracks q w) : Tracks (if c then p else q) (if c then v else w) := by
  split
  next h => exact hp h
  next h => exact hq h

end Tracks

/-! ## The value alone -/

/-- Both runs end with an exception, or they have the same value. -/
def SameValue (r₁ r₂ : Except JExn (α × InputStream)) : Prop :=
  r₁.toOption.map Prod.fst = r₂.toOption.map Prod.fst

/-- With the calls of the walk served alike the computation has the same value on both
streams. -/
def Settles (p : JIO α) (w : Walk κ β) : Prop :=
  ∀ s t, s.rest = t.rest → ServedAlike s t (w s).1 → SameValue (p s) (p t)

theorem Settles.bind {p : JIO α} {w : Walk κ α} {f : α → JIO β} {g : α → Walk κ γ}
    (hp : Tracks p w) (hf : ∀ a, Settles (f a) (g a)) : Settles (p >>= f) (w >>= g) := by
  intro s t hrest hserved
  rcases hp.through hrest hserved with ⟨e, hs, ht⟩ | ⟨a, s', hs, ht, htail⟩
  · rw [ JIO.bind_of_error hs, JIO.bind_of_error ht]
    rfl
  · rw [ JIO.bind_of_ok hs, JIO.bind_of_ok ht]
    exact hf a s' _ rfl htail

/-! ## Departures -/

section Departs

variable {changes : κ → List UInt8 → List UInt8 → Prop}

/-- Where the first call that is not served alike changes what is kept, the values differ
as `Q` says. -/
def Departs (changes : κ → List UInt8 → List UInt8 → Prop) (p : JIO α) (w : Walk κ β)
    (Q : α → α → Prop) : Prop :=
  ∀ s t, s.rest = t.rest → Changed changes s t (w s).1 →
    ∀ a s' b t', p s = .ok (a, s') → p t = .ok (b, t') → Q a b

/-- Different values before make different values after. -/
def Separates (f : α → JIO β) (Q : α → α → Prop) (R : β → β → Prop) : Prop :=
  ∀ a b, Q a b → ∀ s x s' t y t', f a s = .ok (x, s') → f b t = .ok (y, t') → R x y

namespace Departs

variable {p : JIO α} {w : Walk κ α} {f : α → JIO β} {g : α → Walk κ γ} {Q : α → α → Prop}
  {R : β → β → Prop}

theorem lift : Departs changes p (.lift p) Q := fun _ _ _ h => h.elim

theorem pure (a : α) : Departs changes (Pure.pure a) (Pure.pure a : Walk κ α) Q :=
  fun _ _ _ h => h.elim

theorem readArray_eq (kind : κ) (n : ℕ) (s : InputStream) :
    ∃ s', readArray n s = .ok ((⟨kind, s.rest, n⟩ : Call κ).array s, s') := by
  unfold Java.readArray Call.array
  change ∃ s', _ = Except.ok ((match (s.read n).1 with
    | none => List.replicate n 0
    | some bs => bs ++ List.replicate (n - bs.length) 0), s')
  rcases s.read n with ⟨_ | bs, s'⟩ <;> exact ⟨s', rfl⟩

theorem call {kind : κ} {n : ℕ} {Q : List UInt8 → List UInt8 → Prop}
    (h : ∀ x y, changes kind x y → Q x y) : Departs changes (readArray n) (.call kind n) Q := by
  intro s t hrest hchanged a s' b t' hs ht
  obtain ⟨u, hu⟩ := readArray_eq kind n s
  obtain ⟨v, hv⟩ := readArray_eq kind n t
  obtain ⟨rfl, rfl⟩ := Prod.mk.inj (Except.ok.inj (hu.symm.trans hs))
  obtain ⟨rfl, rfl⟩ := Prod.mk.inj (Except.ok.inj (hv.symm.trans ht))
  rcases hchanged with hchange | ⟨-, hnone⟩
  · rw [← hrest]
    exact h _ _ hchange
  · exact hnone.elim

theorem changed_of_keeps {s s' t t' : InputStream} {l : List (Call κ)}
    (hs : s' = { s with rest := s'.rest }) (ht : t' = { t with rest := t'.rest })
    (h : Changed changes s t l) : Changed changes s' t' l := by
  induction l with
  | nil => exact h
  | cons c l ih =>
      rw [hs, ht] at ih ⊢
      exact h.imp_right fun hl => ⟨hl.1, ih hl.2⟩

theorem bind (hp : Tracks p w) (hd : Departs changes p w Q) (hsep : Separates f Q R)
    (hf : ∀ a, Departs changes (f a) (g a) R) : Departs changes (p >>= f) (w >>= g) R := by
  intro s t hrest hchanged x s' y t' hs ht
  obtain ⟨a, u, hps, hfs⟩ := JIO.bind_eq_ok.1 hs
  obtain ⟨b, v, hpt, hft⟩ := JIO.bind_eq_ok.1 ht
  have heq := hp.eq s
  rw [hps] at heq
  rw [Walk.bind_of_ok heq] at hchanged
  rcases changed_append.1 hchanged with hhead | ⟨hserved, htail⟩
  · exact hsep a b (hd s t hrest hhead a u b v hps hpt) u x s' v y t' hfs hft
  -- the departure is behind `p`
  · have hsame := hp.same s t hrest hserved
    rw [hps, hpt] at hsame
    obtain ⟨rfl, rfl⟩ := Prod.mk.inj (Except.ok.inj hsame)
    exact hf b u { t with rest := u.rest } rfl (changed_of_keeps (hp.keeps hps) rfl htail)
      x s' y t' hfs hft

/-- Nothing is kept of the calls of `p`. -/
theorem skip (hp : Tracks p w) (hd : Departs changes p w fun _ _ => False)
    (hf : ∀ a, Departs changes (f a) (g a) R) : Departs changes (p >>= f) (w >>= g) R :=
  hd.bind hp (fun _ _ h => h.elim) hf

end Departs

end Departs

/-! ## Streams that serve every read in full -/

theorem servedAlike_of_fullReads {s t : InputStream} (hs : s.FullReads) (ht : t.FullReads)
    (l : List (Call κ)) : ServedAlike s t l := by
  intro c _
  have h₁ := hs c.rest.length c.length
  have h₂ := ht c.rest.length c.length
  unfold Call.delivered Call.stream InputStream.delivered
  dsimp only
  omega

end MyJavaExample.Java
