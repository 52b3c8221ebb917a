import StackTrace.Base.Buffer
import StackTrace.Tree.Basic

/-!
# Packing a tree into bytes and back

`StackTrace.cpp`, lines 381–391 and 524–557. A frame is copied as it lies in
memory, 512 bytes with the four bytes of padding; a node is `N`, the frame, the
number of children and the children. `unpack` reads into an object that may
hold any tree already: `children.resize` keeps its first children, and they are
read into.

* `unpack_pack`: `pack` writes `size` bytes and `unpack` reads them back,
  whatever the object held before and whatever follows in the buffer.
* `framesIn_unpackPacked`: whatever the size of the tree, the frames that are read are
  frames that were written.
* `unpack_eq`: the bound on the depth in the definition of `unpack` changes
  nothing, since every call reads 520 bytes.
-/

namespace StackTrace

open Buffer

/-! ## Frames -/

namespace StackInfo

/-- `sizeof( stack_info )`, which `stack_info::size` returns (line 381). -/
def size : ℕ := 512

/-- The object representation of a frame. -/
def toBytes (s : StackInfo) : Bytes :=
  leBytes 4 s.line.toNat ++ s.pad.toList ++ leBytes 8 s.address.toNat ++
    leBytes 8 s.address2.toNat ++ s.object.toList ++ s.objectPath.toList ++ s.filename.toList ++
    s.filenamePath.toList ++ s.function.toList

/-- The frame that lies in memory as `b`. -/
def ofBytes (b : Bytes) : StackInfo :=
  { line := UInt32.ofNat (leNat (b.take 4))
    pad := .ofText 4 (b.drop 4)
    address := UInt64.ofNat (leNat ((b.drop 8).take 8))
    address2 := UInt64.ofNat (leNat ((b.drop 16).take 8))
    object := .ofText 56 (b.drop 24)
    objectPath := .ofText 48 (b.drop 80)
    filename := .ofText 64 (b.drop 128)
    filenamePath := .ofText 64 (b.drop 192)
    function := .ofText 256 (b.drop 256) }

/-- `stack_info::pack` (lines 382–386). -/
def pack (s : StackInfo) (buf : Bytes) (ptr : ℕ) : Option (Bytes × ℕ) := do
  let buf ← write buf ptr s.toBytes
  some (buf, ptr + size)

/-- `stack_info::unpack` (lines 387–391). -/
def unpack (buf : Bytes) (ptr : ℕ) : Option (StackInfo × ℕ) := do
  let b ← read buf ptr size
  some (ofBytes b, ptr + size)

@[simp] theorem length_toBytes (s : StackInfo) : s.toBytes.length = size := by
  simp [toBytes, size, CharArray.length_toList]

theorem ofText_toList {n : ℕ} (a : CharArray n) (rest : Bytes) :
    CharArray.ofText n (a.toList ++ rest) = a := by
  obtain ⟨l, hl⟩ := a
  simp only [CharArray.ofText, CharArray.mk.injEq, List.append_assoc]
  rw [← hl, List.take_left]

theorem ofBytes_toBytes (s : StackInfo) : ofBytes s.toBytes = s := by
  obtain ⟨line, pad, address, address2, object, objectPath, filename, filenamePath, function⟩ := s
  have hfunction : CharArray.ofText 256 function.toList = function := by
    simpa using ofText_toList function []
  simp only [ofBytes, toBytes, List.append_assoc, List.drop_append, List.take_append]
  simp [CharArray.length_toList, List.drop_of_length_le, List.take_of_length_le, ofText_toList,
    hfunction]

theorem writes_pack (s : StackInfo) : Writes s.pack s.toBytes := by
  intro pre old post h
  unfold pack
  rw [write_split pre post h, s.length_toBytes]
  rfl

theorem unpack_of_liesAt {s : StackInfo} {buf : Bytes} {ptr : ℕ} (h : LiesAt s.toBytes buf ptr) :
    unpack buf ptr = some (s, ptr + size) := by
  unfold unpack
  rw [h.read s.length_toBytes]
  show some (ofBytes s.toBytes, ptr + size) = _
  rw [ofBytes_toBytes]

end StackInfo

/-! ## Trees -/

namespace MultiStackInfo

mutual

/-- `multi_stack_info::size` (lines 524–530). -/
def size : MultiStackInfo → ℕ
  | ⟨_, _, children⟩ => sizeLoop (2 * 4 + StackInfo.size) children

/-- Its loop over the children. -/
def sizeLoop : (bytes : ℕ) → List MultiStackInfo → ℕ
  | bytes, [] => bytes
  | bytes, tmp :: cs => sizeLoop (bytes + tmp.size) cs

end

mutual

/-- `multi_stack_info::pack` (lines 531–543). -/
def pack : MultiStackInfo → (buf : Bytes) → (ptr : ℕ) → Option (Bytes × ℕ)
  | ⟨N, stack, children⟩, buf, ptr => do
    let (buf, ptr) ← writeInt N buf ptr
    let (buf, ptr) ← stack.pack buf ptr
    let (buf, ptr) ← writeInt children.length buf ptr
    packLoop children buf ptr

/-- Its loop over the children. -/
def packLoop : List MultiStackInfo → (buf : Bytes) → (ptr : ℕ) → Option (Bytes × ℕ)
  | [], buf, ptr => some (buf, ptr)
  | tmp :: cs, buf, ptr => do
    let (buf, ptr) ← tmp.pack buf ptr
    packLoop cs buf ptr

end

/-- `children.resize( Nc )`: the first children stay, new ones are default
    constructed. A negative `Nc` is a huge `size_t`, for which `resize` throws. -/
def resize (children : List MultiStackInfo) (Nc : ℤ) : Option (List MultiStackInfo) :=
  if Nc < 0 then none
  else some (children.take Nc.toNat ++ List.replicate (Nc.toNat - children.length) init)

/-- The loop of `unpack` over the children; `rec` is the recursive call. -/
def unpackLoop (rec : MultiStackInfo → Bytes → ℕ → Option (MultiStackInfo × ℕ)) :
    List MultiStackInfo → (buf : Bytes) → (ptr : ℕ) → Option (List MultiStackInfo × ℕ)
  | [], _, ptr => some ([], ptr)
  | tmp :: cs, buf, ptr => do
    let (tmp, ptr) ← rec tmp buf ptr
    let (cs, ptr) ← unpackLoop rec cs buf ptr
    some (tmp :: cs, ptr)

/-- `multi_stack_info::unpack` (lines 544–557), to a depth of `fuel`. -/
def unpackFuel : (fuel : ℕ) → MultiStackInfo → (buf : Bytes) → (ptr : ℕ) →
    Option (MultiStackInfo × ℕ)
  | 0, _, _, _ => none
  | fuel + 1, u, buf, ptr => do
    let (N2, ptr) ← readInt buf ptr
    let (stack, ptr) ← StackInfo.unpack buf ptr
    let (Nc, ptr) ← readInt buf ptr
    let children ← resize u.children Nc
    let (children, ptr) ← unpackLoop (unpackFuel fuel) children buf ptr
    some (⟨N2, stack, children⟩, ptr)

/-- `multi_stack_info::unpack`. Every call reads 520 bytes, so the length of the
    buffer bounds the depth. -/
def unpack (u : MultiStackInfo) (buf : Bytes) (ptr : ℕ) : Option (MultiStackInfo × ℕ) :=
  unpackFuel (buf.length + 1) u buf ptr

/-! ## The image of a tree -/

mutual

/-- The bytes that `pack` writes. -/
def image : MultiStackInfo → Bytes
  | ⟨N, stack, children⟩ =>
    intBytes N ++ (stack.toBytes ++ (intBytes children.length ++ forestImage children))

def forestImage : List MultiStackInfo → Bytes
  | [] => []
  | c :: cs => c.image ++ forestImage cs

end

theorem image_eq (t : MultiStackInfo) : t.image =
    intBytes t.N ++
      (t.stack.toBytes ++ (intBytes t.children.length ++ forestImage t.children)) := by
  cases t; rw [image]

theorem sizeLoop_eq (bytes : ℕ) (cs : List MultiStackInfo) :
    sizeLoop bytes cs = bytes + (forestImage cs).length := by
  induction cs using forest_induction generalizing bytes with
  | nil => simp [sizeLoop, forestImage]
  | cons c cs ihc ihcs =>
    have hc : c.size = c.image.length := by
      cases c
      rw [size, ihc, image]
      simp
      omega
    rw [sizeLoop, ihcs, hc, forestImage, List.length_append]
    omega

theorem length_image (t : MultiStackInfo) : t.image.length = t.size := by
  cases t
  rw [size, sizeLoop_eq, image]
  simp
  omega

theorem writes_pack_of_loop {t : MultiStackInfo}
    (h : Writes (packLoop t.children) (forestImage t.children)) : Writes t.pack t.image := by
  cases t with
  | mk N stack children =>
    exact (writes_writeInt N).bind
      (stack.writes_pack.bind ((writes_writeInt children.length).bind h))

theorem writes_packLoop (cs : List MultiStackInfo) : Writes (packLoop cs) (forestImage cs) := by
  induction cs using forest_induction with
  | nil => exact Writes.nil
  | cons c cs ihc ihcs => exact (writes_pack_of_loop ihc).bind ihcs

theorem writes_pack (t : MultiStackInfo) : Writes t.pack t.image :=
  writes_pack_of_loop (writes_packLoop t.children)

/-! ## Reading the image -/

/-- What `pack` needs of a tree: its numbers are values of type `int`. For `N`
    this is its type. -/
def Fits (t : MultiStackInfo) : Prop :=
  ∀ n ∈ t :: preorder t.children, IsInt n.N ∧ n.children.length < 2 ^ 31

theorem Fits.child {t c : MultiStackInfo} (h : Fits t) (hc : c ∈ t.children) : Fits c := by
  intro n hn
  refine h n (List.mem_cons_of_mem t (mem_preorder.mpr ⟨c, hc, ?_⟩))
  exact List.mem_cons.mp hn

/-- `resize` leaves as many children as it is told, whatever they hold. -/
theorem exists_resize (children : List MultiStackInfo) (n : ℕ) :
    ∃ l, resize children n = some l ∧ l.length = n := by
  refine ⟨_, if_neg (by omega), ?_⟩
  simp
  omega

theorem unpackLoop_of_liesAt {rec : MultiStackInfo → Bytes → ℕ → Option (MultiStackInfo × ℕ)}
    {cs l : List MultiStackInfo} {buf : Bytes} {ptr : ℕ} (hlen : l.length = cs.length)
    (hrec : ∀ c ∈ cs, ∀ u p, LiesAt c.image buf p → rec u buf p = some (c, p + c.image.length))
    (h : LiesAt (forestImage cs) buf ptr) :
    unpackLoop rec l buf ptr = some (cs, ptr + (forestImage cs).length) := by
  induction cs generalizing l ptr with
  | nil =>
    obtain rfl := List.length_eq_zero_iff.mp hlen
    rfl
  | cons c cs ih =>
    cases l with
    | nil => simp at hlen
    | cons u l =>
      obtain ⟨hc, hcs⟩ := h.append
      have hhead := hrec c (by simp) u ptr hc
      have htail := ih (l := l) (by simpa using hlen) (fun d hd => hrec d (by simp [hd])) hcs
      simp only [unpackLoop, hhead, Option.bind_eq_bind, Option.bind_some, htail, forestImage,
        List.length_append, Nat.add_assoc]

theorem unpackFuel_of_liesAt {t : MultiStackInfo} {fuel : ℕ} (hfuel : t.height < fuel)
    (hfits : Fits t) (u : MultiStackInfo) {buf : Bytes} {ptr : ℕ} (h : LiesAt t.image buf ptr) :
    unpackFuel fuel u buf ptr = some (t, ptr + t.image.length) := by
  induction fuel generalizing t u ptr with
  | zero => omega
  | succ fuel ih =>
    obtain ⟨hN, hc⟩ := hfits t (by simp)
    have hNc : IsInt t.children.length := ⟨by omega, by omega⟩
    rw [image_eq] at h ⊢
    obtain ⟨hN', h⟩ := h.append
    obtain ⟨hstack, h⟩ := h.append
    obtain ⟨hNc', hchildren⟩ := h.append
    rw [length_intBytes] at hstack hNc' hchildren
    rw [StackInfo.length_toBytes] at hNc' hchildren
    rw [length_intBytes] at hchildren
    obtain ⟨l, hl, hlen⟩ := exists_resize u.children t.children.length
    have hchild : ∀ c ∈ t.children, ∀ u p, LiesAt c.image buf p →
        unpackFuel fuel u buf p = some (c, p + c.image.length) := by
      intro c hct u p hp
      have := height_lt_of_mem hct
      exact ih (by omega) (hfits.child hct) u hp
    have hloop := unpackLoop_of_liesAt hlen hchild hchildren
    simp only [unpackFuel, readInt_of_liesAt hN hN', StackInfo.unpack_of_liesAt hstack,
      readInt_of_liesAt hNc hNc', hl, hloop, Option.bind_eq_bind, Option.bind_some]
    cases t
    simp only [List.length_append, length_intBytes, StackInfo.length_toBytes, Nat.add_assoc]

theorem forestHeight_le_length (cs : List MultiStackInfo) :
    forestHeight cs ≤ (forestImage cs).length := by
  induction cs using forest_induction with
  | nil => exact le_rfl
  | cons c cs ihc ihcs =>
    have hc : c.image.length = 520 + (forestImage c.children).length := by
      rw [image_eq]
      simp [StackInfo.size]
      omega
    rw [forestHeight, forestImage, List.length_append, height_eq]
    omega

/-! ## The bound on the depth -/

/-- The two calls agree behind `ptr`, and `rec` does not move back. -/
theorem unpackLoop_congr {rec rec' : MultiStackInfo → Bytes → ℕ → Option (MultiStackInfo × ℕ)}
    {buf : Bytes} {ptr : ℕ} (h : ∀ u, ∀ p ≥ ptr, rec u buf p = rec' u buf p)
    (hmono : ∀ u p r, rec u buf p = some r → p ≤ r.2) (l : List MultiStackInfo) :
    unpackLoop rec l buf ptr = unpackLoop rec' l buf ptr := by
  induction l generalizing ptr with
  | nil => rfl
  | cons u l ih =>
    unfold unpackLoop
    rw [← h u ptr le_rfl]
    refine Option.bind_congr fun r hu => ?_
    have hr := hmono u ptr r hu
    show (unpackLoop rec l buf r.2).bind _ = (unpackLoop rec' l buf r.2).bind _
    rw [@ih r.2 fun u p hp => h u p (by omega)]

theorem unpackLoop_mono {rec : MultiStackInfo → Bytes → ℕ → Option (MultiStackInfo × ℕ)}
    {buf : Bytes} (hmono : ∀ u p r, rec u buf p = some r → p ≤ r.2) {l : List MultiStackInfo}
    {ptr : ℕ} {r : List MultiStackInfo × ℕ} (h : unpackLoop rec l buf ptr = some r) :
    ptr ≤ r.2 := by
  induction l generalizing ptr r with
  | nil =>
    obtain rfl := Option.some.inj h
    exact le_rfl
  | cons u l ih =>
    obtain ⟨r₁, hu, h⟩ := Option.bind_eq_some_iff.mp h
    obtain ⟨r₂, hl, h⟩ := Option.bind_eq_some_iff.mp h
    have hle := (hmono u ptr r₁ hu).trans (ih hl)
    obtain rfl := Option.some.inj h
    exact hle

theorem stackUnpack_ptr {buf : Bytes} {ptr : ℕ} {r : StackInfo × ℕ}
    (h : StackInfo.unpack buf ptr = some r) : r.2 = ptr + StackInfo.size := by
  unfold StackInfo.unpack at h
  obtain ⟨b, -, hr⟩ := Option.bind_eq_some_iff.mp h
  obtain rfl := Option.some.inj hr
  rfl

/-- What a call that succeeds has read. -/
theorem unpackFuel_succ {fuel ptr : ℕ} {u : MultiStackInfo} {buf : Bytes}
    {r : MultiStackInfo × ℕ} (h : unpackFuel (fuel + 1) u buf ptr = some r) :
    ∃ N ptr₁ stack ptr₂ Nc ptr₃ l cs ptr₄, readInt buf ptr = some (N, ptr₁) ∧
      StackInfo.unpack buf ptr₁ = some (stack, ptr₂) ∧ readInt buf ptr₂ = some (Nc, ptr₃) ∧
      resize u.children Nc = some l ∧
      unpackLoop (unpackFuel fuel) l buf ptr₃ = some (cs, ptr₄) ∧ r = (⟨N, stack, cs⟩, ptr₄) := by
  obtain ⟨⟨N, ptr₁⟩, hN, h⟩ := Option.bind_eq_some_iff.mp h
  obtain ⟨⟨stack, ptr₂⟩, hs, h⟩ := Option.bind_eq_some_iff.mp h
  obtain ⟨⟨Nc, ptr₃⟩, hNc, h⟩ := Option.bind_eq_some_iff.mp h
  obtain ⟨l, hl, h⟩ := Option.bind_eq_some_iff.mp h
  obtain ⟨⟨cs, ptr₄⟩, hloop, h⟩ := Option.bind_eq_some_iff.mp h
  exact ⟨N, ptr₁, stack, ptr₂, Nc, ptr₃, l, cs, ptr₄, hN, hs, hNc, hl, hloop,
    (Option.some.inj h).symm⟩

theorem unpackFuel_mono {fuel ptr : ℕ} {u : MultiStackInfo} {buf : Bytes} {r : MultiStackInfo × ℕ}
    (h : unpackFuel fuel u buf ptr = some r) : ptr ≤ r.2 := by
  induction fuel generalizing u ptr r with
  | zero => cases h
  | succ fuel ih =>
    obtain ⟨N, ptr₁, stack, ptr₂, Nc, ptr₃, l, cs, ptr₄, hN, hs, hNc, -, hloop, rfl⟩ :=
      unpackFuel_succ h
    have hle := unpackLoop_mono (fun u p r hr => ih hr) hloop
    have h₁ := (readInt_ptr hN).1
    have h₂ := stackUnpack_ptr hs
    have h₃ := (readInt_ptr hNc).1
    simp only at h₁ h₂ h₃ hle ⊢
    omega

/-- A call outside the buffer fails. -/
theorem unpackFuel_eq_none {ptr : ℕ} {buf : Bytes} (h : buf.length < ptr) (fuel : ℕ)
    (u : MultiStackInfo) : unpackFuel fuel u buf ptr = none := by
  cases fuel with
  | zero => rfl
  | succ fuel =>
    have hread : readInt buf ptr = none := by
      by_contra hne
      obtain ⟨r, hr⟩ := Option.ne_none_iff_exists'.mp hne
      have := (readInt_ptr hr).2
      omega
    simp only [unpackFuel, hread, Option.bind_eq_bind, Option.bind_none]

/-- Fuel beyond what is left of the buffer makes no difference. -/
theorem unpackFuel_eq {fuel fuel' ptr : ℕ} {buf : Bytes} (u : MultiStackInfo)
    (h : buf.length < fuel + ptr) (h' : buf.length < fuel' + ptr) :
    unpackFuel fuel u buf ptr = unpackFuel fuel' u buf ptr := by
  induction fuel generalizing fuel' u ptr with
  | zero => rw [unpackFuel_eq_none (by omega), unpackFuel_eq_none (by omega)]
  | succ fuel ih =>
    cases fuel' with
    | zero => rw [unpackFuel_eq_none (by omega), unpackFuel_eq_none (by omega)]
    | succ fuel' =>
      unfold unpackFuel
      refine Option.bind_congr fun r₁ hN => ?_
      refine Option.bind_congr fun r₂ hs => ?_
      refine Option.bind_congr fun r₃ hNc => ?_
      refine Option.bind_congr fun l hl => ?_
      have h₁ := (readInt_ptr hN).1
      have h₂ := stackUnpack_ptr hs
      have h₃ := (readInt_ptr hNc).1
      have hrec : ∀ u, ∀ p ≥ r₃.2, unpackFuel fuel u buf p = unpackFuel fuel' u buf p :=
        fun u p hp => ih u (by omega) (by omega)
      show (unpackLoop (unpackFuel fuel) l buf r₃.2).bind _ =
        (unpackLoop (unpackFuel fuel') l buf r₃.2).bind _
      rw [unpackLoop_congr hrec fun u p r hr => unpackFuel_mono hr]

/-- `unpack` calls itself for every child. -/
theorem unpack_eq (u : MultiStackInfo) (buf : Bytes) (ptr : ℕ) :
    u.unpack buf ptr = (do
      let (N2, ptr) ← readInt buf ptr
      let (stack, ptr) ← StackInfo.unpack buf ptr
      let (Nc, ptr) ← readInt buf ptr
      let children ← resize u.children Nc
      let (children, ptr) ← unpackLoop unpack children buf ptr
      some (⟨N2, stack, children⟩, ptr)) := by
  have hfuel : u.unpack buf ptr = unpackFuel (buf.length + 1 + 1) u buf ptr :=
    unpackFuel_eq u (by omega) (by omega)
  have hloop : ∀ (l : List MultiStackInfo) (p : ℕ),
      unpackLoop (unpackFuel (buf.length + 1)) l buf p = unpackLoop unpack l buf p := by
    intro l p
    have hrec : ∀ u, ∀ q ≥ p, unpackFuel (buf.length + 1) u buf q = unpack u buf q :=
      fun _ _ _ => rfl
    exact unpackLoop_congr hrec (fun u p r hr => unpackFuel_mono hr) l
  rw [hfuel, unpackFuel]
  simp only [hloop]

/-! ## Into a buffer and back -/

/-- The bytes of a node without its children. -/
def record (n : MultiStackInfo) : Bytes :=
  intBytes n.N ++ (n.stack.toBytes ++ intBytes n.children.length)

theorem length_record (n : MultiStackInfo) : n.record.length = 520 := by
  simp [record, StackInfo.size]

theorem forestImage_eq (cs : List MultiStackInfo) :
    forestImage cs = (preorder cs).flatMap record := by
  induction cs using forest_induction with
  | nil => rfl
  | cons c cs ihc ihcs =>
    rw [forestImage, image_eq, ihc, ihcs, preorder_cons]
    simp [record]

theorem image_eq_records (t : MultiStackInfo) :
    t.image = (t :: preorder t.children).flatMap record := by
  rw [image_eq, forestImage_eq]
  simp [record]

/-- The bytes of the `k`-th node. -/
theorem liesAt_record {ns : List MultiStackInfo} {k : ℕ} (hk : k < ns.length) :
    LiesAt (ns[k]).record (ns.flatMap record) (520 * k) := by
  refine ⟨(ns.take k).flatMap record, (ns.drop (k + 1)).flatMap record, ?_, ?_⟩
  · have hsplit : ns = ns.take k ++ [ns[k]] ++ ns.drop (k + 1) := by simp
    have h := congrArg (fun l => l.flatMap record) hsplit
    simp only [List.flatMap_append, List.flatMap_singleton] at h
    exact h
  · rw [List.length_flatMap]
    simp only [length_record, List.map_const', List.sum_replicate, List.length_take, smul_eq_mul]
    rw [min_eq_left hk.le]
    omega

section Records

variable {F : Set StackInfo} {ns : List MultiStackInfo}

theorem unpackLoop_framesIn
    {rec : MultiStackInfo → Bytes → ℕ → Option (MultiStackInfo × ℕ)} {buf : Bytes}
    (hrec : ∀ u k r, rec u buf (520 * k) = some r →
      r.1.stack ∈ F ∧ FramesIn F r.1.children ∧ ∃ m, r.2 = 520 * m)
    {l : List MultiStackInfo} {k : ℕ} {r : List MultiStackInfo × ℕ}
    (h : unpackLoop rec l buf (520 * k) = some r) : FramesIn F r.1 ∧ ∃ m, r.2 = 520 * m := by
  induction l generalizing k r with
  | nil =>
    obtain rfl := Option.some.inj h
    exact ⟨framesIn_nil F, k, rfl⟩
  | cons u l ih =>
    obtain ⟨⟨c, ptr⟩, hu, h⟩ := Option.bind_eq_some_iff.mp h
    obtain ⟨⟨cs, ptr'⟩, hl, h⟩ := Option.bind_eq_some_iff.mp h
    obtain rfl := Option.some.inj h
    obtain ⟨hc, hsub, m, rfl⟩ := hrec u k _ hu
    obtain ⟨hcs, hm⟩ := ih hl
    refine ⟨framesIn_iff.mpr fun d hd => ?_, hm⟩
    obtain rfl | hd := List.mem_cons.mp hd
    · exact ⟨hc, hsub⟩
    · exact framesIn_iff.mp hcs d hd

/-- A read that begins with a node finds frames of nodes only. -/
theorem unpackFuel_framesIn (hns : ∀ n ∈ ns, n.stack ∈ F) {fuel k : ℕ} {u : MultiStackInfo}
    {r : MultiStackInfo × ℕ} (h : unpackFuel fuel u (ns.flatMap record) (520 * k) = some r) :
    r.1.stack ∈ F ∧ FramesIn F r.1.children ∧ ∃ m, r.2 = 520 * m := by
  induction fuel generalizing u k r with
  | zero => cases h
  | succ fuel ih =>
    obtain ⟨N, ptr₁, stack, ptr₂, Nc, ptr₃, l, cs, ptr₄, hN, hs, hNc, -, hloop, rfl⟩ :=
      unpackFuel_succ h
    obtain ⟨rfl, hbound⟩ := readInt_ptr hN
    have hk : k < ns.length := by
      rw [List.length_flatMap] at hbound
      simp only [length_record, List.map_const', List.sum_replicate, smul_eq_mul] at hbound
      omega
    have hmem : (ns[k]).stack ∈ F := hns _ (List.getElem_mem hk)
    have hlies := (liesAt_record hk).append.2.append.1
    rw [length_intBytes] at hlies
    have hread := StackInfo.unpack_of_liesAt hlies
    obtain ⟨rfl, rfl⟩ := Prod.ext_iff.mp (Option.some.inj (hs.symm.trans hread))
    obtain ⟨rfl, -⟩ := readInt_ptr hNc
    have hptr : 520 * k + 4 + StackInfo.size + 4 = 520 * (k + 1) := by
      unfold StackInfo.size
      omega
    simp only [hptr] at hloop
    obtain ⟨hcs, hm⟩ := unpackLoop_framesIn (fun u k r hr => ih hr) hloop
    exact ⟨hmem, hcs, hm⟩

end Records

/-- `pack` into a buffer of `size()` bytes, and `unpack` from its start into `u`. -/
def unpackPacked (t u : MultiStackInfo) : Option MultiStackInfo := do
  let (buf, _) ← t.pack (List.replicate t.size 0) 0
  let (u, _) ← u.unpack buf 0
  some u

theorem unpackPacked_eq_some {t u v : MultiStackInfo} (h : unpackPacked t u = some v) :
    ∃ ptr, u.unpack t.image 0 = some (v, ptr) := by
  have hpack : t.pack (List.replicate t.size 0) 0 = some (t.image, t.image.length) := by
    have h := t.writes_pack [] (List.replicate t.size 0) [] (by simp [length_image])
    simpa using h
  unfold unpackPacked at h
  simp only [hpack, Option.bind_eq_bind, Option.bind_some] at h
  obtain ⟨⟨w, ptr⟩, hw, h⟩ := Option.bind_eq_some_iff.mp h
  obtain rfl := Option.some.inj h
  exact ⟨ptr, hw⟩

/-- The frames that are read are frames that were written. -/
theorem framesIn_unpackPacked {F : Set StackInfo} {t u v : MultiStackInfo} (ht : t.stack ∈ F)
    (hsub : FramesIn F t.children) (h : unpackPacked t u = some v) :
    v.stack ∈ F ∧ FramesIn F v.children := by
  obtain ⟨ptr, hread⟩ := unpackPacked_eq_some h
  have hns : ∀ n ∈ t :: preorder t.children, n.stack ∈ F := by
    intro n hn
    obtain rfl | hn := List.mem_cons.mp hn
    · exact ht
    · exact hsub n hn
  unfold unpack at hread
  rw [image_eq_records] at hread
  obtain ⟨hv, hchildren, -⟩ := unpackFuel_framesIn (k := 0) hns hread
  exact ⟨hv, hchildren⟩

/-- The root that is read has the `N` that was written, and no children if there were
    none. -/
theorem unpackPacked_root {t u v : MultiStackInfo} (hN : IsInt t.N)
    (h : unpackPacked t u = some v) : v.N = t.N ∧ (t.children = [] → v.children = []) := by
  obtain ⟨ptr, hread⟩ := unpackPacked_eq_some h
  have hlies : LiesAt t.image t.image 0 := ⟨[], [], by simp, rfl⟩
  have hparts := hlies
  rw [image_eq t] at hparts
  obtain ⟨hN', hparts⟩ := hparts.append
  obtain ⟨-, hparts⟩ := hparts.append
  obtain ⟨hNc', -⟩ := hparts.append
  rw [← image_eq t] at hN' hNc'
  rw [length_intBytes, StackInfo.length_toBytes] at hNc'
  unfold unpack unpackFuel at hread
  simp only [readInt_of_liesAt hN hN', Option.bind_eq_bind, Option.bind_some] at hread
  obtain ⟨⟨stack, ptr₂⟩, hs, hread⟩ := Option.bind_eq_some_iff.mp hread
  obtain ⟨⟨Nc, ptr₃⟩, hNc, hread⟩ := Option.bind_eq_some_iff.mp hread
  obtain ⟨l, hl, hread⟩ := Option.bind_eq_some_iff.mp hread
  obtain ⟨⟨cs, ptr₄⟩, hloop, hread⟩ := Option.bind_eq_some_iff.mp hread
  obtain ⟨rfl, -⟩ := Prod.ext_iff.mp (Option.some.inj hread)
  refine ⟨rfl, fun hleaf => ?_⟩
  have hptr : ptr₂ = 0 + 4 + StackInfo.size := stackUnpack_ptr hs
  rw [hleaf] at hNc'
  have hzero : IsInt (([] : List MultiStackInfo).length : ℤ) := ⟨by simp, by simp⟩
  simp only [hptr, readInt_of_liesAt hzero hNc'] at hNc
  obtain ⟨rfl, -⟩ := Prod.ext_iff.mp (Option.some.inj hNc)
  obtain rfl : [] = l := by simpa [resize] using hl
  obtain ⟨rfl, -⟩ := Prod.ext_iff.mp (Option.some.inj hloop)
  rfl

/-! ## Main result -/

/-- `pack` writes exactly `size` bytes and returns the pointer behind them, and
    `unpack` of these bytes, whatever stands behind them, makes any object `u`
    equal to `t` and returns the same pointer. -/
theorem unpack_pack {t : MultiStackInfo} (h : Fits t) :
    ∃ image : Bytes, image.length = t.size ∧
      (∀ pre old post : Bytes, old.length = t.size →
        t.pack (pre ++ old ++ post) pre.length =
          some (pre ++ image ++ post, pre.length + t.size)) ∧
      ∀ (u : MultiStackInfo) (pre rest : Bytes),
        u.unpack (pre ++ image ++ rest) pre.length = some (t, pre.length + t.size) := by
  refine ⟨t.image, t.length_image, fun pre old post hold => ?_, fun u pre rest => ?_⟩
  · rw [← t.length_image] at hold ⊢
    exact t.writes_pack pre old post hold
  · have hlies : LiesAt t.image (pre ++ t.image ++ rest) pre.length := ⟨pre, rest, rfl, rfl⟩
    have hheight : t.height ≤ t.image.length := by
      have := forestHeight_le_length t.children
      rw [height_eq, image_eq]
      simp only [List.length_append]
      omega
    have hbuf := hlies.length_le
    rw [← t.length_image]
    exact unpackFuel_of_liesAt (by omega) h u hlies

/-- A node with one child, read over a tree with two. -/
theorem unpack_pack_stale :
    let leaf : MultiStackInfo := ⟨1, .ofFields 0x401000 0x1000 (ascii "a.out") (ascii "f") [], []⟩
    let t : MultiStackInfo := ⟨1, .init, [leaf]⟩
    ∃ image : Bytes, image.length = 1040 ∧
      unpack ⟨7, .init, [t, leaf]⟩ (image ++ [1, 2, 3]) 0 = some (t, 1040) := by
  intro leaf t
  have hfits : Fits t := by
    intro n hn
    obtain rfl | rfl : n = t ∨ n = leaf := by
      simpa [t, leaf, preorder, descendants] using hn
    · exact ⟨⟨by decide, by decide⟩, by decide⟩
    · exact ⟨⟨by decide, by decide⟩, by decide⟩
  obtain ⟨image, hsize, -, hunpack⟩ := unpack_pack hfits
  exact ⟨image, hsize, hunpack ⟨7, .init, [t, leaf]⟩ [] [1, 2, 3]⟩

end MultiStackInfo

end StackTrace
