import StackTrace.Base.CText

/-!
# Byte buffers and little-endian integers

A buffer is the list of its bytes and a pointer into it an offset. `memcpy`
into or out of a buffer fails outside its bounds. Integers lie in memory with
the low byte first; an `int` has four bytes in two's complement.
-/

namespace StackTrace

/-- `z` is a value of type `int`. -/
def IsInt (z : ℤ) : Prop := -2 ^ 31 ≤ z ∧ z < 2 ^ 31

instance (z : ℤ) : Decidable (IsInt z) := inferInstanceAs (Decidable (_ ∧ _))

namespace Buffer

/-! ## Integers -/

/-- The low `w` bytes of `n`. -/
def leBytes : (w : ℕ) → (n : ℕ) → Bytes
  | 0, _ => []
  | w + 1, n => (n % 256).toUInt8 :: leBytes w (n / 256)

/-- The number that the bytes make. -/
def leNat : Bytes → ℕ
  | [] => 0
  | b :: bs => b.toNat + 256 * leNat bs

@[simp] theorem length_leBytes (w n : ℕ) : (leBytes w n).length = w := by
  induction w generalizing n with
  | zero => rfl
  | succ w ih => rw [leBytes, List.length_cons, ih]

@[simp] theorem leNat_leBytes (w n : ℕ) : leNat (leBytes w n) = n % 256 ^ w := by
  induction w generalizing n with
  | zero => simp [leBytes, leNat, Nat.mod_one]
  | succ w ih =>
    have hb : (n % 256).toUInt8.toNat = n % 256 := by
      simp
    rw [leBytes, leNat, ih, hb, Nat.pow_succ', Nat.mod_mul]

/-- The bytes of an `int`: its residue modulo `2 ^ 32`. -/
def intBytes (z : ℤ) : Bytes := leBytes 4 (z % 4294967296).toNat

/-- The `int` with these bytes. -/
def intOfBytes (b : Bytes) : ℤ := (leNat b : ℤ).bmod 4294967296

@[simp] theorem length_intBytes (z : ℤ) : (intBytes z).length = 4 := by
  unfold intBytes
  exact length_leBytes 4 _

theorem bmod_of_isInt {z : ℤ} (hz : IsInt z) : z.bmod 4294967296 = z := by
  obtain ⟨h1, h2⟩ := hz
  exact Int.bmod_eq_of_le (by norm_num; omega) (by norm_num; omega)

theorem intOfBytes_intBytes {z : ℤ} (hz : IsInt z) : intOfBytes (intBytes z) = z := by
  have hnat : (leNat (intBytes z) : ℤ) = z % (4294967296 : ℕ) := by
    unfold intBytes
    rw [leNat_leBytes]
    omega
  unfold intOfBytes
  rw [hnat, Int.emod_bmod, bmod_of_isInt hz]

/-! ## Reading and writing -/

/-- `memcpy( ptr, src, n )` where `ptr` points into `buf` and `src` to `n` bytes. -/
def write (buf : Bytes) (ptr : ℕ) (src : Bytes) : Option Bytes :=
  if ptr + src.length ≤ buf.length then
    some (buf.take ptr ++ src ++ buf.drop (ptr + src.length))
  else none

/-- `memcpy( dst, ptr, n )` where `ptr` points into `buf`. -/
def read (buf : Bytes) (ptr n : ℕ) : Option Bytes :=
  if ptr + n ≤ buf.length then some ((buf.drop ptr).take n) else none

/-- The bytes that are written replace as many. -/
theorem write_split {old src : Bytes} (pre post : Bytes) (h : old.length = src.length) :
    write (pre ++ old ++ post) pre.length src = some (pre ++ src ++ post) := by
  have hle : pre.length + src.length ≤ (pre ++ old ++ post).length := by
    simp only [List.length_append]
    omega
  unfold write
  rw [if_pos hle, ← h, List.append_assoc pre old post, List.take_left, ← List.drop_drop,
    List.drop_left, List.drop_left]

theorem write_one (pre post : Bytes) (a b : UInt8) :
    write (pre ++ a :: post) pre.length [b] = some (pre ++ b :: post) := by
  have h : write (pre ++ [a] ++ post) pre.length [b] = some (pre ++ [b] ++ post) :=
    write_split pre post rfl
  simpa using h

theorem read_split {src : Bytes} {n : ℕ} (pre post : Bytes) (h : src.length = n) :
    read (pre ++ src ++ post) pre.length n = some src := by
  have hle : pre.length + n ≤ (pre ++ src ++ post).length := by
    simp only [List.length_append]
    omega
  unfold read
  rw [if_pos hle, List.append_assoc, List.drop_left, ← h, List.take_left]

theorem read_bound {buf b : Bytes} {ptr n : ℕ} (h : read buf ptr n = some b) :
    ptr + n ≤ buf.length := by
  unfold read at h
  split_ifs at h with hle
  exact hle

/-! ## Self-delimiting images -/

/-- `f` writes `img` at its pointer, over as many bytes, and moves behind it. -/
def Writes (f : Bytes → ℕ → Option (Bytes × ℕ)) (img : Bytes) : Prop :=
  ∀ pre old post, old.length = img.length →
    f (pre ++ old ++ post) pre.length = some (pre ++ img ++ post, pre.length + img.length)

/-- The bytes `img` lie in the buffer at `ptr`. -/
def LiesAt (img buf : Bytes) (ptr : ℕ) : Prop :=
  ∃ pre post, buf = pre ++ img ++ post ∧ ptr = pre.length

theorem Writes.nil : Writes (fun buf ptr => some (buf, ptr)) [] := by
  intro pre old post h
  rw [List.length_nil, List.length_eq_zero_iff] at h
  rw [h]
  rfl

/-- Writing one image and then another one. -/
theorem Writes.bind {f g : Bytes → ℕ → Option (Bytes × ℕ)} {a b : Bytes} (hf : Writes f a)
    (hg : Writes g b) :
    Writes (fun buf ptr => do let (buf, ptr) ← f buf ptr; g buf ptr) (a ++ b) := by
  intro pre old post h
  rw [List.length_append] at h
  have hf := hf pre (old.take a.length) (old.drop a.length ++ post) (by simp; omega)
  have hg := hg (pre ++ a) (old.drop a.length) post (by simp; omega)
  have hold : pre ++ old ++ post = pre ++ old.take a.length ++ (old.drop a.length ++ post) := by
    rw [← List.append_assoc, List.append_assoc pre (old.take _), List.take_append_drop]
  rw [List.length_append] at hg
  show ((f (pre ++ old ++ post) pre.length).bind fun r => g r.1 r.2) = _
  rw [hold, hf, Option.bind_some, ← List.append_assoc, hg]
  simp [Nat.add_assoc]

theorem LiesAt.append {a b buf : Bytes} {ptr : ℕ} (h : LiesAt (a ++ b) buf ptr) :
    LiesAt a buf ptr ∧ LiesAt b buf (ptr + a.length) := by
  obtain ⟨pre, post, rfl, rfl⟩ := h
  exact ⟨⟨pre, b ++ post, by simp, rfl⟩, ⟨pre ++ a, post, by simp, by simp⟩⟩

theorem LiesAt.read {img buf : Bytes} {ptr n : ℕ} (h : LiesAt img buf ptr) (hn : img.length = n) :
    read buf ptr n = some img := by
  obtain ⟨pre, post, rfl, rfl⟩ := h
  exact read_split pre post hn

theorem LiesAt.length_le {img buf : Bytes} {ptr : ℕ} (h : LiesAt img buf ptr) :
    ptr + img.length ≤ buf.length := by
  obtain ⟨pre, post, rfl, rfl⟩ := h
  simp

/-- `memcpy( ptr, &z, sizeof( int ) ); ptr += sizeof( int )`. -/
def writeInt (z : ℤ) (buf : Bytes) (ptr : ℕ) : Option (Bytes × ℕ) := do
  let buf ← write buf ptr (intBytes z)
  some (buf, ptr + 4)

/-- `memcpy( &z, ptr, sizeof( int ) ); ptr += sizeof( int )`. -/
def readInt (buf : Bytes) (ptr : ℕ) : Option (ℤ × ℕ) := do
  let b ← read buf ptr 4
  some (intOfBytes b, ptr + 4)

theorem writes_writeInt (z : ℤ) : Writes (writeInt z) (intBytes z) := by
  intro pre old post h
  unfold writeInt
  rw [write_split pre post h, length_intBytes]
  rfl

theorem readInt_ptr {buf : Bytes} {ptr : ℕ} {r : ℤ × ℕ} (h : readInt buf ptr = some r) :
    r.2 = ptr + 4 ∧ ptr + 4 ≤ buf.length := by
  unfold readInt at h
  obtain ⟨b, hb, hr⟩ := Option.bind_eq_some_iff.mp h
  obtain rfl := Option.some.inj hr
  exact ⟨rfl, read_bound hb⟩

theorem readInt_of_liesAt {z : ℤ} (hz : IsInt z) {buf : Bytes} {ptr : ℕ}
    (h : LiesAt (intBytes z) buf ptr) : readInt buf ptr = some (z, ptr + 4) := by
  unfold readInt
  rw [h.read (length_intBytes z)]
  show some (intOfBytes (intBytes z), ptr + 4) = _
  rw [intOfBytes_intBytes hz]

end Buffer

end StackTrace
