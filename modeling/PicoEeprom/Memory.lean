import PicoEeprom.Layout

/-! Byte memory and its little-endian half-word view. `WordBuf` and `DataBuf` alias one
buffer in the source; here the bytes are primary and a half-word is two adjacent bytes,
as on the little-endian RP2040. The bit facts at the end are those the write-log codec
needs about its masks and shifts on 16-bit values. -/
namespace PicoEeprom

/-- Byte memory: `DataBuf` together with what follows it, or a caller's buffer. -/
abbrev Memory := Nat → UInt8

/-- `*(uint16_t *)(&buf[a])`. -/
def wordAt (buf : Memory) (a : Nat) : Nat := (buf a).toNat + 256 * (buf (a + 1)).toNat

/-- `*(uint16_t *)(&buf[a]) = value`. -/
def storeWord (buf : Memory) (a value : Nat) : Memory :=
  Function.update (Function.update buf a (UInt8.ofNat value)) (a + 1) (UInt8.ofNat (value / 256))

/-- The emulated EEPROM: the first `FEE_DENSITY_BYTES` bytes of `DataBuf`. -/
def Config.image (c : Config) (buf : Memory) : List UInt8 := (List.range c.FEE_DENSITY_BYTES).map buf

theorem Config.image_eq_iff (c : Config) (X Y : Memory) :
    c.image X = c.image Y ↔ ∀ i < c.FEE_DENSITY_BYTES, X i = Y i := by
  simp [Config.image]

theorem toNat_ofNat_uint8 (n : Nat) : (UInt8.ofNat n).toNat = n % 256 := BitVec.toNat_ofNat _ _

theorem toNat_ofNat_uint16 (n : Nat) : (UInt16.ofNat n).toNat = n % 65536 := BitVec.toNat_ofNat _ _

theorem uint8_eq_iff (a b : UInt8) : a = b ↔ a.toNat = b.toNat :=
  ⟨congrArg _, UInt8.toNat.inj⟩

theorem uint16_eq_iff (a b : UInt16) : a = b ↔ a.toNat = b.toNat :=
  ⟨congrArg _, UInt16.toNat.inj⟩

theorem wordAt_lt (buf : Memory) (a : Nat) : wordAt buf a < 65536 := by
  have := (buf a).toNat_lt_size
  have := (buf (a + 1)).toNat_lt_size
  simp only [wordAt, UInt8.size] at *
  omega

theorem wordAt_eq_zero_iff (buf : Memory) (a : Nat) : wordAt buf a = 0 ↔ buf a = 0 ∧ buf (a + 1) = 0 := by
  simp only [wordAt, uint8_eq_iff, UInt8.toNat_zero]
  omega

theorem storeWord_apply (buf : Memory) (a value i : Nat) :
    storeWord buf a value i =
      if i = a + 1 then UInt8.ofNat (value / 256) else if i = a then UInt8.ofNat value else buf i := by
  simp only [storeWord, Function.update_apply]

theorem storeWord_of_ne (buf : Memory) {a i : Nat} (value : Nat) (low : i ≠ a) (high : i ≠ a + 1) :
    storeWord buf a value i = buf i := by
  simp [storeWord_apply, low, high]

theorem wordAt_storeWord (buf : Memory) (a value : Nat) (h : value < 65536) :
    wordAt (storeWord buf a value) a = value := by
  simp only [wordAt, storeWord_apply, if_neg (show a ≠ a + 1 by omega), if_true,
    toNat_ofNat_uint8]
  omega

theorem storeWord_wordAt (buf : Memory) (a : Nat) : storeWord buf a (wordAt buf a) = buf := by
  funext i
  have := (buf a).toNat_lt_size
  have := (buf (a + 1)).toNat_lt_size
  simp only [storeWord_apply, wordAt, UInt8.size] at *
  split_ifs with h1 h2
  · subst h1
    apply UInt8.toNat.inj
    rw [toNat_ofNat_uint8]
    omega
  · subst h2
    apply UInt8.toNat.inj
    rw [toNat_ofNat_uint8]
    omega
  · rfl

/-- A masked constant above bit `n` only sees the bits of `e` above bit `n`. -/
theorem land_mul_two_pow_add (q r k n : Nat) (hr : r < 2 ^ n) :
    (2 ^ n * q + r) &&& (2 ^ n * k) = 2 ^ n * (q &&& k) := by
  apply Nat.eq_of_testBit_eq
  intro j
  simp only [Nat.testBit_and, Nat.testBit_mul_pow_two_add _ hr, Nat.testBit_mul_pow_two]
  split
  · simp [show ¬ j ≥ n by omega]
  · simp [show j ≥ n by omega]

/-- The masks of the write-log encoding read the top three bits of a half-word. -/
theorem land_high (e k : Nat) : e &&& (0x2000 * k) = 0x2000 * (e / 0x2000 &&& k) := by
  have split := Nat.div_add_mod e (2 ^ 13)
  have low := Nat.mod_lt e (show 2 ^ 13 > 0 by decide)
  conv_lhs => rw [← split]
  exact land_mul_two_pow_add _ _ k 13 low

theorem land_low (e : Nat) : e &&& 0x1FFF = e % 0x2000 :=
  Nat.and_pow_two_sub_one_eq_mod e 13

/-- Disjoint bit fields add: `2^n * q | r` with `r < 2^n`. -/
theorem or_eq_add (q r n : Nat) (hr : r < 2 ^ n) : 2 ^ n * q ||| r = 2 ^ n * q + r :=
  (Nat.mul_add_lt_is_or hr q).symm

theorem or_shiftLeft_eq_add {x : Nat} (y n : Nat) (low : x < 2 ^ n) :
    x ||| y <<< n = x + 2 ^ n * y := by
  rw [Nat.shiftLeft_eq, Nat.lor_comm, Nat.mul_comm, or_eq_add _ _ n low, Nat.add_comm]

theorem ofNat_wordAt (mem : Memory) (a : Nat) : UInt8.ofNat (wordAt mem a) = mem a := by
  have := (mem a).toNat_lt_size
  apply UInt8.toNat.inj
  simp only [toNat_ofNat_uint8, wordAt, UInt8.size] at *
  omega

theorem ofNat_wordAt_div (mem : Memory) (a : Nat) : UInt8.ofNat (wordAt mem a / 256) = mem (a + 1) := by
  have := (mem a).toNat_lt_size
  have := (mem (a + 1)).toNat_lt_size
  apply UInt8.toNat.inj
  simp only [toNat_ofNat_uint8, wordAt, UInt8.size] at *
  omega

theorem storeWord_of_wordAt (buf mem : Memory) (dest a : Nat) :
    storeWord buf dest (wordAt mem a) =
      Function.update (Function.update buf dest (mem a)) (dest + 1) (mem (a + 1)) := by
  rw [storeWord, ofNat_wordAt, ofNat_wordAt_div]

end PicoEeprom
