import StackTrace.Base.Buffer

/-!
# Numerals

What `sprintf` writes for an integer, and `strtol`, which reads it. A numeral is
its digits with the highest first; `strtol` passes over white space, takes a
sign and as many digits as there are, and stops at the first other byte.

* `strtol_numeral`: a numeral, with any number of zeros before it, is read back.
* `stoi_printInt`: so is an `int` in the format `%i`.
* `strtol_append`: what stands behind the byte that ends a number is not looked at.
-/

namespace StackTrace

/-! ## Digits -/

/-- The digit `d`, with lower-case letters from ten on. -/
def digitChar (d : ℕ) : UInt8 := (if d < 10 then 48 + d else 87 + d).toUInt8

/-- The value of a digit in any base up to 36. -/
def digitVal (c : UInt8) : Option ℕ :=
  if 48 ≤ c ∧ c ≤ 57 then some (c.toNat - 48)
  else if 97 ≤ c ∧ c ≤ 122 then some (c.toNat - 87)
  else if 65 ≤ c ∧ c ≤ 90 then some (c.toNat - 55)
  else none

/-- The byte is a digit in base `b`. -/
def isDigit (b : ℕ) (c : UInt8) : Bool := (digitVal c).any fun d => decide (d < b)

/-- The number that the digits make. -/
def digitsVal (b : ℕ) (s : Bytes) : ℕ := s.foldl (fun acc c => acc * b + (digitVal c).getD 0) 0

/-- `%u` in base ten and `%llx` in base sixteen. -/
def numeral (b n : ℕ) : Bytes := if n = 0 then [48] else ((Nat.digits b n).reverse).map digitChar

/-- `%i`. -/
def printInt (z : ℤ) : Bytes := if z < 0 then 45 :: numeral 10 z.natAbs else numeral 10 z.natAbs

/-- `s` at the end of a field of width `w`, after as many `c` as are missing. -/
def padLeft (c : UInt8) (w : ℕ) (s : Bytes) : Bytes := List.replicate (w - s.length) c ++ s

theorem length_padLeft (c : UInt8) (w : ℕ) (s : Bytes) :
    (padLeft c w s).length = max w s.length := by
  unfold padLeft
  rw [List.length_append, List.length_replicate]
  omega

/-- `%*s`, or `%0*x` where `c` is `0`: with a negative width the blanks come behind. -/
def field (c : UInt8) (w : ℤ) (s : Bytes) : Bytes :=
  if 0 ≤ w then padLeft c w.toNat s else s ++ List.replicate (w.natAbs - s.length) 32

theorem field_natCast (c : UInt8) (w : ℕ) (s : Bytes) : field c w s = padLeft c w s :=
  if_pos (Int.natCast_nonneg w)

theorem length_field (c : UInt8) (w : ℤ) (s : Bytes) :
    (field c w s).length = max w.natAbs s.length := by
  unfold field
  split_ifs
  · rw [length_padLeft]
    omega
  · rw [List.length_append, List.length_replicate]
    omega

theorem mem_field {c b : UInt8} {w : ℤ} {s : Bytes} (h : b ∈ field c w s) :
    b = c ∨ b = 32 ∨ b ∈ s := by
  unfold field padLeft at h
  split_ifs at h
  · rcases List.mem_append.mp h with h | h
    · exact .inl (List.eq_of_mem_replicate h)
    · exact .inr (.inr h)
  · rcases List.mem_append.mp h with h | h
    · exact .inr (.inr h)
    · exact .inr (.inl (List.eq_of_mem_replicate h))

theorem digitVal_digitChar : ∀ d < 16, digitVal (digitChar d) = some d := by decide

theorem isDigit_digitChar {b d : ℕ} (hb : b ≤ 16) (hd : d < b) :
    isDigit b (digitChar d) = true := by
  unfold isDigit
  rw [digitVal_digitChar d (by omega)]
  simpa using hd

theorem digitsVal_snoc (b : ℕ) (s : Bytes) (c : UInt8) :
    digitsVal b (s ++ [c]) = digitsVal b s * b + (digitVal c).getD 0 := by
  unfold digitsVal
  rw [List.foldl_append]
  rfl

theorem digitsVal_zeros (b k : ℕ) (s : Bytes) :
    digitsVal b (List.replicate k 48 ++ s) = digitsVal b s := by
  have hzeros : (List.replicate k (48 : UInt8)).foldl
      (fun acc c => acc * b + (digitVal c).getD 0) 0 = 0 := by
    induction k with
    | zero => rfl
    | succ k ih =>
      rw [List.replicate_succ, List.foldl_cons]
      simpa [digitVal] using ih
  unfold digitsVal
  rw [List.foldl_append, hzeros]

theorem digitsVal_numeral {b : ℕ} (hb : 1 < b) (hb' : b ≤ 16) (n : ℕ) :
    digitsVal b (numeral b n) = n := by
  unfold numeral
  split_ifs with hn
  · rw [hn]
    simp [digitsVal, digitVal]
  · have hdigits : ∀ ds : List ℕ, (∀ d ∈ ds, d < b) →
        digitsVal b (ds.reverse.map digitChar) = Nat.ofDigits b ds := by
      intro ds hds
      induction ds with
      | nil => rfl
      | cons d ds ih =>
        have hd : d < b := hds d (by simp)
        rw [List.reverse_cons, List.map_append, List.map_singleton, digitsVal_snoc,
          ih fun e he => hds e (by simp [he]), digitVal_digitChar d (by omega), Nat.ofDigits_cons]
        show _ * b + d = d + b * _
        rw [mul_comm, add_comm]
    rw [hdigits _ fun d hd => Nat.digits_lt_base hb hd, Nat.ofDigits_digits]

theorem isDigit_of_mem_numeral {b : ℕ} (hb : 1 < b) (hb' : b ≤ 16) (n : ℕ) :
    ∀ c ∈ numeral b n, isDigit b c = true := by
  unfold numeral
  split_ifs with hn
  · intro c hc
    obtain rfl := (List.mem_singleton.mp hc).symm
    exact isDigit_digitChar (d := 0) hb' (by omega)
  · intro c hc
    obtain ⟨d, hd, rfl⟩ := List.mem_map.mp hc
    exact isDigit_digitChar hb' (Nat.digits_lt_base hb (List.mem_reverse.mp hd))

theorem numeral_ne_nil (b n : ℕ) : numeral b n ≠ [] := by
  unfold numeral
  split_ifs with hn
  · simp
  · simpa using Nat.digits_ne_nil_iff_ne_zero.mpr hn

theorem length_numeral_le {b n k : ℕ} (hb : 1 < b) (hk : 0 < k) (hn : n < b ^ k) :
    (numeral b n).length ≤ k := by
  unfold numeral
  split_ifs with h0
  · exact hk
  · rw [List.length_map, List.length_reverse]
    exact (Nat.digits_length_le_iff hb n).mpr hn

theorem length_printInt_le {z : ℤ} (hz : IsInt z) : (printInt z).length ≤ 11 := by
  obtain ⟨hlo, hhi⟩ := hz
  have hlen : (numeral 10 z.natAbs).length ≤ 10 :=
    length_numeral_le (by norm_num) (by norm_num) (by omega)
  unfold printInt
  split_ifs
  · rw [List.length_cons]
    omega
  · omega

/-! ## `strtol` -/

/-- `isspace` in the C locale. -/
def isspace (c : UInt8) : Bool := c = 32 ∨ (9 ≤ c ∧ c ≤ 13)

/-- An optional sign, and whether it is a minus. -/
def takeSign : Bytes → Bool × Bytes
  | [] => (false, [])
  | c :: s => if c = 45 then (true, s) else if c = 43 then (false, s) else (false, c :: s)

/-- In base sixteen `0x` may stand before a digit. It fails where it would read
    behind the last byte. -/
def skipHexMark (b : ℕ) : Bytes → Option Bytes
  | c :: x :: s =>
    if b = 16 ∧ c = 48 ∧ (x = 120 ∨ x = 88) then
      match s with
      | [] => none
      | d :: s => if isDigit 16 d then some (d :: s) else some (c :: x :: d :: s)
    else some (c :: x :: s)
  | s => some s

/-- `strtol( s, &end, b )` where `s` are the bytes from the pointer to the end of
    its array: the number, which is a `long` of 64 bits and stays at its bounds, and
    how many digits there were; with none of them nothing has been converted. It
    fails if the number goes on behind the last byte of the array. -/
def strtol (b : ℕ) (s : Bytes) : Option (ℤ × ℕ) := do
  let (minus, s) := takeSign (s.dropWhile isspace)
  let s ← skipHexMark b s
  let digits := s.takeWhile (isDigit b)
  if digits.length = s.length then none
  else
    let value : ℤ := if minus then -digitsVal b digits else digitsVal b digits
    some (max (-2 ^ 63) (min (2 ^ 63 - 1) value), digits.length)

/-- `std::stoi`: it throws if nothing has been converted and if the number is not
    an `int`. -/
def stoi (s : Bytes) : Option ℤ := do
  let (value, digits) ← strtol 10 (cstr s ++ [0])
  if digits = 0 then none
  else if -2 ^ 31 ≤ value ∧ value < 2 ^ 31 then some value
  else none

/-- `atoi` of a C string: `strtol` converted to `int`. -/
def atoi (s : Bytes) : ℤ := (((strtol 10 (s ++ [0])).map Prod.fst).getD 0).bmod 4294967296

theorem digitVal_isSome {c : UInt8} (h : (digitVal c).isSome = true) :
    c ≠ 0 ∧ isspace c = false ∧ c ≠ 43 ∧ c ≠ 45 := by
  revert c
  decide +kernel

theorem isDigit_sixteen {c : UInt8} (h : isDigit 16 c = true) : c ≠ 120 ∧ c ≠ 88 ∧ c ≠ 58 := by
  revert c
  decide +kernel

theorem digitVal_isSome_of_isDigit {b : ℕ} {c : UInt8} (h : isDigit b c = true) :
    (digitVal c).isSome = true := by
  unfold isDigit at h
  cases hc : digitVal c with
  | none => simp [hc] at h
  | some d => rfl

theorem not_isDigit_zero (b : ℕ) : isDigit b 0 = false := by
  by_contra h
  exact (digitVal_isSome (digitVal_isSome_of_isDigit (Bool.of_not_eq_false h))).1 rfl

theorem skipHexMark_digits {b : ℕ} {s rest : Bytes} {c : UInt8}
    (hs : ∀ d ∈ s, isDigit b d = true) (hne : s ≠ []) (hc : c ≠ 120 ∧ c ≠ 88) :
    skipHexMark b (s ++ c :: rest) = some (s ++ c :: rest) := by
  obtain _ | ⟨d, _ | ⟨e, s⟩⟩ := s
  · exact absurd rfl hne
  · simp [skipHexMark, hc.1, hc.2]
  · have hx : ¬(b = 16 ∧ d = 48 ∧ (e = 120 ∨ e = 88)) := by
      rintro ⟨rfl, -, he⟩
      have := isDigit_sixteen (hs e (by simp))
      tauto
    simp only [List.cons_append, skipHexMark, if_neg hx]

/-- Digits and then another byte, after white space and a sign. -/
theorem strtol_of_takeSign {b : ℕ} {t s rest : Bytes} {c : UInt8} {minus : Bool}
    (ht : takeSign (t.dropWhile isspace) = (minus, s ++ c :: rest))
    (hs : ∀ d ∈ s, isDigit b d = true) (hne : s ≠ []) (hc : isDigit b c = false)
    (hx : c ≠ 120 ∧ c ≠ 88) :
    strtol b t = some (max (-2 ^ 63) (min (2 ^ 63 - 1)
      (if minus then -(digitsVal b s : ℤ) else digitsVal b s)), s.length) := by
  have htake : (s ++ c :: rest).takeWhile (isDigit b) = s := by
    rw [List.takeWhile_append_of_pos hs, List.takeWhile_cons_of_neg (by simp [hc]),
      List.append_nil]
  unfold strtol
  rw [ht]
  simp only [skipHexMark_digits hs hne hx, Option.bind_eq_bind, Option.bind_some, htake]
  rw [if_neg (by simp)]

theorem takeSign_digits {b : ℕ} {s rest : Bytes} (hs : ∀ d ∈ s, isDigit b d = true)
    (hne : s ≠ []) : takeSign ((s ++ rest).dropWhile isspace) = (false, s ++ rest) := by
  obtain _ | ⟨d, s⟩ := s
  · exact absurd rfl hne
  · obtain ⟨-, hspace, hplus, hminus⟩ :=
      digitVal_isSome (digitVal_isSome_of_isDigit (hs d (by simp)))
    rw [List.cons_append, List.dropWhile_cons_of_neg (by simp [hspace]), takeSign, if_neg hminus,
      if_neg hplus]

/-- A numeral is read with any number of zeros before it, up to the greatest `long`. -/
theorem strtol_numeral_min {b : ℕ} (hb : 1 < b) (hb' : b ≤ 16) (n k : ℕ) {rest : Bytes} {c : UInt8}
    (hc : isDigit b c = false) (hx : c ≠ 120 ∧ c ≠ 88) :
    strtol b (List.replicate k 48 ++ numeral b n ++ c :: rest) =
      some (((min n (2 ^ 63 - 1) : ℕ) : ℤ), k + (numeral b n).length) := by
  have hs : ∀ d ∈ List.replicate k 48 ++ numeral b n, isDigit b d = true := by
    intro d hd
    rcases List.mem_append.mp hd with hd | hd
    · rw [List.eq_of_mem_replicate hd]
      exact isDigit_digitChar (d := 0) hb' (by omega)
    · exact isDigit_of_mem_numeral hb hb' n d hd
  have hne : List.replicate k 48 ++ numeral b n ≠ [] := by simp [numeral_ne_nil]
  rw [strtol_of_takeSign (takeSign_digits hs hne) hs hne hc hx, digitsVal_zeros,
    digitsVal_numeral hb hb', List.length_append, List.length_replicate]
  norm_num
  omega

/-- A numeral is read back. -/
theorem strtol_numeral {b n : ℕ} (hb : 1 < b) (hb' : b ≤ 16) (hn : n < 2 ^ 63) (k : ℕ)
    {rest : Bytes} {c : UInt8} (hc : isDigit b c = false) (hx : c ≠ 120 ∧ c ≠ 88) :
    strtol b (List.replicate k 48 ++ numeral b n ++ c :: rest) =
      some ((n : ℤ), k + (numeral b n).length) := by
  rw [strtol_numeral_min hb hb' n k hc hx, min_eq_left (by omega)]

/-- `atoi` reads a numeral back. -/
theorem atoi_numeral {n : ℕ} (hn : n < 2 ^ 31) : atoi (numeral 10 n) = n := by
  have h : strtol 10 (List.replicate 0 48 ++ numeral 10 n ++ [0]) = _ :=
    strtol_numeral (by norm_num) (by norm_num) (show n < 2 ^ 63 by omega) 0 (not_isDigit_zero 10)
      (by decide)
  rw [List.replicate_zero, List.nil_append] at h
  unfold atoi
  rw [h]
  exact Int.bmod_eq_of_le (by norm_num) (by norm_num; omega)

theorem mem_printInt {z : ℤ} {c : UInt8} (hc : c ∈ printInt z) : c = 45 ∨ isDigit 10 c = true := by
  have hdigit := isDigit_of_mem_numeral (b := 10) (by norm_num) (by norm_num) z.natAbs c
  unfold printInt at hc
  split_ifs at hc
  · exact (List.mem_cons.mp hc).imp_right hdigit
  · exact .inr (hdigit hc)

theorem zero_notMem_printInt (z : ℤ) : 0 ∉ printInt z := by
  intro h0
  rcases mem_printInt h0 with h | h
  · exact absurd h (by decide)
  · exact absurd h (by simp [not_isDigit_zero])

/-- `%i` is read back by `std::stoi`. -/
theorem stoi_printInt {z : ℤ} (hz : IsInt z) : stoi (printInt z) = some z := by
  obtain ⟨hlo, hhi⟩ := hz
  have hs := isDigit_of_mem_numeral (b := 10) (by norm_num) (by norm_num) z.natAbs
  have hne := numeral_ne_nil 10 z.natAbs
  have hsign : takeSign ((printInt z ++ [0]).dropWhile isspace) =
      (decide (z < 0), numeral 10 z.natAbs ++ [0]) := by
    unfold printInt
    split_ifs with hneg
    · rw [List.cons_append, List.dropWhile_cons_of_neg (by decide)]
      simp [takeSign, hneg]
    · rw [takeSign_digits hs hne]
      simp [hneg]
  have hvalue : max (-2 ^ 63) (min (2 ^ 63 - 1)
      (if decide (z < 0) = true then -(z.natAbs : ℤ) else z.natAbs)) = z := by
    by_cases hneg : z < 0
    · rw [if_pos (by simpa using hneg)]
      omega
    · rw [if_neg (by simpa using hneg)]
      omega
  unfold stoi
  rw [cstr_eq_self (zero_notMem_printInt z),
    strtol_of_takeSign hsign hs hne (not_isDigit_zero 10) (by decide),
    digitsVal_numeral (by norm_num) (by norm_num), hvalue]
  show (if (numeral 10 z.natAbs).length = 0 then none
    else if -2 ^ 31 ≤ z ∧ z < 2 ^ 31 then some z else none) = some z
  rw [if_neg (by simpa using hne), if_pos ⟨hlo, hhi⟩]

theorem zero_mem_takeSign {s : Bytes} (h : 0 ∈ s) : 0 ∈ (takeSign s).2 := by
  obtain _ | ⟨c, s⟩ := s
  · exact h
  · have htail : ∀ d : UInt8, c = d → d ≠ 0 → 0 ∈ s := by
      rintro d rfl hd
      exact (List.mem_cons.mp h).resolve_left fun h0 => hd h0.symm
    show 0 ∈ (if c = 45 then (true, s) else if c = 43 then (false, s) else (false, c :: s)).2
    split_ifs with hminus hplus
    · exact htail 45 hminus (by decide)
    · exact htail 43 hplus (by decide)
    · exact h

theorem exists_skipHexMark (b : ℕ) {s : Bytes} (h : 0 ∈ s) :
    ∃ t, skipHexMark b s = some t ∧ 0 ∈ t := by
  obtain _ | ⟨c, _ | ⟨x, s⟩⟩ := s
  · simp at h
  · exact ⟨[c], rfl, h⟩
  · by_cases hmark : b = 16 ∧ c = 48 ∧ (x = 120 ∨ x = 88)
    · have h0 : 0 ∈ s := by
        obtain ⟨-, rfl, rfl | rfl⟩ := hmark <;> simpa using h
      obtain _ | ⟨d, s⟩ := s
      · simp at h0
      · by_cases hd : isDigit 16 d = true
        · exact ⟨d :: s, by simp [skipHexMark, hmark, hd], h0⟩
        · exact ⟨c :: x :: d :: s, by simp [skipHexMark, hmark, hd], h⟩
    · exact ⟨c :: x :: s, by simp only [skipHexMark, if_neg hmark], h⟩

/-- `strtol` does not leave an array that holds a NUL. -/
theorem strtol_isSome {b : ℕ} {s : Bytes} (h : 0 ∈ s) : (strtol b s).isSome = true := by
  have hspace : 0 ∈ s.dropWhile isspace := by
    rw [← List.takeWhile_append_dropWhile (p := isspace) (l := s)] at h
    refine (List.mem_append.mp h).resolve_left fun h0 => ?_
    exact absurd (List.mem_takeWhile_imp h0) (by decide)
  obtain ⟨t, ht, h0⟩ := exists_skipHexMark b (zero_mem_takeSign hspace)
  have hlen : (t.takeWhile (isDigit b)).length ≠ t.length := by
    intro hlen
    have hall := (List.takeWhile_prefix (isDigit b) (l := t)).eq_of_length hlen
    have hdigit := List.mem_takeWhile_imp (hall.symm ▸ h0)
    rw [not_isDigit_zero] at hdigit
    exact absurd hdigit (by simp)
  unfold strtol
  simp [ht, hlen]

/-! ## Where a number ends -/

/-- What is left of `s` when `atoi` has passed over a number: it begins with the byte that
    ends it, and is empty if the number may go on behind `s`. -/
def behindNumber (s : Bytes) : Bytes :=
  (takeSign (s.dropWhile isspace)).2.dropWhile (isDigit 10)

/-- How many bytes stand before the one that ends the number. -/
def numberLength (s : Bytes) : ℕ := s.length - (behindNumber s).length

theorem takeSign_append {s : Bytes} (hs : s ≠ []) (rest : Bytes) :
    takeSign (s ++ rest) = ((takeSign s).1, (takeSign s).2 ++ rest) := by
  obtain _ | ⟨c, s⟩ := s
  · exact absurd rfl hs
  · rw [List.cons_append, takeSign, takeSign]
    split_ifs <;> rfl

theorem dropWhile_append_of_ne_nil {p : UInt8 → Bool} {s : Bytes} (hs : s.dropWhile p ≠ [])
    (rest : Bytes) : (s ++ rest).dropWhile p = s.dropWhile p ++ rest := by
  rw [List.dropWhile_append, if_neg (by simpa using hs)]

theorem dropWhile_append_of_eq_nil {p : UInt8 → Bool} {s : Bytes} (hs : s.dropWhile p = [])
    (rest : Bytes) : (s ++ rest).dropWhile p = rest.dropWhile p := by
  rw [List.dropWhile_append, if_pos (by simp [hs])]

theorem dropWhile_isspace_ne_nil {s : Bytes} (hs : behindNumber s ≠ []) :
    s.dropWhile isspace ≠ [] := by
  intro hnil
  apply hs
  unfold behindNumber
  rw [hnil]
  rfl

/-- The byte that ends the number is in `s`: what stands behind `s` is not looked at. -/
theorem behindNumber_append {s : Bytes} (hs : behindNumber s ≠ []) (rest : Bytes) :
    behindNumber (s ++ rest) = behindNumber s ++ rest := by
  have hspace := dropWhile_isspace_ne_nil hs
  unfold behindNumber at hs ⊢
  rw [dropWhile_append_of_ne_nil hspace, takeSign_append hspace, dropWhile_append_of_ne_nil hs]

theorem numberLength_append {s : Bytes} (hs : behindNumber s ≠ []) (rest : Bytes) :
    numberLength (s ++ rest) = numberLength s := by
  unfold numberLength
  rw [behindNumber_append hs, List.length_append, List.length_append, Nat.add_sub_add_right]

theorem takeSign_suffix (s : Bytes) : (takeSign s).2 <:+ s := by
  obtain _ | ⟨c, s⟩ := s
  · exact List.suffix_rfl
  · rw [takeSign]
    split_ifs
    · exact List.suffix_cons c s
    · exact List.suffix_cons c s
    · exact List.suffix_rfl

theorem behindNumber_suffix (s : Bytes) : behindNumber s <:+ s := by
  unfold behindNumber
  exact (List.dropWhile_suffix _).trans ((takeSign_suffix _).trans (List.dropWhile_suffix _))

/-- The number goes on behind `s`. -/
theorem behindNumber_suffix_of_eq_nil {s : Bytes} (hs : behindNumber s = []) (rest : Bytes) :
    behindNumber (s ++ rest) <:+ rest := by
  by_cases hspace : s.dropWhile isspace = []
  · have hrest : behindNumber (s ++ rest) = behindNumber rest := by
      unfold behindNumber
      rw [dropWhile_append_of_eq_nil hspace]
    rw [hrest]
    exact behindNumber_suffix rest
  · unfold behindNumber at hs ⊢
    rw [dropWhile_append_of_ne_nil hspace, takeSign_append hspace, dropWhile_append_of_eq_nil hs]
    exact List.dropWhile_suffix _

/-- `strtol` in base ten. -/
theorem strtol_ten (s : Bytes) :
    strtol 10 s = if behindNumber s = [] then none else
      let digits := (takeSign (s.dropWhile isspace)).2.takeWhile (isDigit 10)
      let value : ℤ := if (takeSign (s.dropWhile isspace)).1 then -digitsVal 10 digits
        else digitsVal 10 digits
      some (max (-2 ^ 63) (min (2 ^ 63 - 1) value), digits.length) := by
  have hmark : ∀ t : Bytes, skipHexMark 10 t = some t := by
    intro t
    obtain _ | ⟨c, _ | ⟨x, t⟩⟩ := t
    · rfl
    · rfl
    · simp [skipHexMark]
  have hlength : ∀ t : Bytes, (t.takeWhile (isDigit 10)).length = t.length ↔
      t.dropWhile (isDigit 10) = [] := by
    intro t
    have hsplit := congrArg List.length (List.takeWhile_append_dropWhile (p := isDigit 10) (l := t))
    rw [List.length_append] at hsplit
    rw [← List.length_eq_zero_iff]
    omega
  unfold strtol behindNumber
  simp only [hmark, Option.bind_eq_bind, Option.bind_some, hlength]

/-- Behind the byte that ends the number anything may stand. -/
theorem strtol_append {s : Bytes} (hs : behindNumber s ≠ []) (rest : Bytes) :
    strtol 10 (s ++ rest) = strtol 10 s := by
  have hspace := dropWhile_isspace_ne_nil hs
  have htake : ((takeSign (s.dropWhile isspace)).2 ++ rest).takeWhile (isDigit 10) =
      (takeSign (s.dropWhile isspace)).2.takeWhile (isDigit 10) := by
    rw [List.takeWhile_append, if_neg]
    intro hlen
    apply hs
    have hall := (List.takeWhile_prefix (isDigit 10)).eq_of_length hlen
    unfold behindNumber
    rw [List.dropWhile_eq_nil_iff]
    exact List.takeWhile_eq_self_iff.mp hall
  rw [strtol_ten, strtol_ten, behindNumber_append hs, if_neg (by simp [hs]), if_neg hs,
    dropWhile_append_of_ne_nil hspace, takeSign_append hspace, htake]

theorem strtol_isSome_iff {s : Bytes} : (strtol 10 s).isSome = true ↔ behindNumber s ≠ [] := by
  by_cases h : behindNumber s = []
  · simp [strtol_ten, h]
  · simp [strtol_ten, h]

end StackTrace
