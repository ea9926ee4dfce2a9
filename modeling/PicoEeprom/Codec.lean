import PicoEeprom.Engine

/-! The write-log codec. `Slot.ofEntry` reads a log half-word by range, as the table in
the comment of `eeprom.c` lists them; the reserved tail `0xFFC0 ... 0xFFFE` is read as
Word-Next, as the replay loop's masks do. The mask lemmas show that the replay loop's
bit tests select exactly these ranges, and the encoder lemmas that every entry the two
log-append functions program reads back as the mutation it records. -/
namespace PicoEeprom

/-- A write-log half-word, by range. -/
inductive Slot where
  | empty
  | byte (address : Nat) (value : UInt8)
  | word (address value : Nat)
  | reserved
  | next (address : Nat)
  deriving DecidableEq, Repr

def Slot.ofEntry (e : Nat) : Slot :=
  if e = 0xFFFF then .empty
  else if e < 0x8000 then .byte (e / 256) (UInt8.ofNat e)
  else if e < 0xC000 then .word (e % 0x2000 * 2) (e / 0x2000 % 2)
  else if e < 0xE000 then .reserved
  else .next (e % 0x2000 * 2 + FEE_BYTE_RANGE)

theorem Slot.ofEntry_eq_empty {e : Nat} : Slot.ofEntry e = .empty ↔ e = 0xFFFF := by
  unfold Slot.ofEntry
  split_ifs <;> simp_all

section Masks

variable {e : Nat}

private theorem top_bits (h : e < 0x10000) : e / 0x2000 < 8 := by omega

private theorem small_and (q : Nat) (h : q < 8) :
    q &&& 4 = 4 * (q / 4) ∧ q &&& 3 = q % 4 ∧ q &&& 2 = 2 * (q / 2 % 2) ∧ q &&& 1 = q % 2 := by
  revert q
  decide

theorem word_encoding_eq_zero (h : e < 0x10000) : e &&& FEE_WORD_ENCODING = 0 ↔ e < 0x8000 := by
  have mask := land_high e 4
  rw [(small_and _ (top_bits h)).1] at mask
  simp only [FEE_WORD_ENCODING, show (0x2000 * 4 : Nat) = 0x8000 from rfl] at mask ⊢
  omega

theorem value_next_eq (h : e < 0x10000) : e &&& FEE_VALUE_NEXT = FEE_VALUE_NEXT ↔ e % 0x8000 ≥ 0x6000 := by
  have mask := land_high e 3
  rw [(small_and _ (top_bits h)).2.1] at mask
  simp only [FEE_VALUE_NEXT, show (0x2000 * 3 : Nat) = 0x6000 from rfl] at mask ⊢
  omega

theorem value_reserved_ne (h : e < 0x10000) : e &&& FEE_VALUE_RESERVED ≠ 0 ↔ e % 0x8000 ≥ 0x4000 := by
  have mask := land_high e 2
  rw [(small_and _ (top_bits h)).2.2.1] at mask
  simp only [FEE_VALUE_RESERVED, show (0x2000 * 2 : Nat) = 0x4000 from rfl] at mask ⊢
  omega

theorem value_encoded_bit (h : e < 0x10000) : (e &&& FEE_VALUE_ENCODED) >>> 13 = e / 0x2000 % 2 := by
  have mask := land_high e 1
  rw [(small_and _ (top_bits h)).2.2.2] at mask
  simp only [FEE_VALUE_ENCODED, show (0x2000 * 1 : Nat) = 0x2000 from rfl] at mask ⊢
  rw [mask, Nat.shiftRight_eq_div_pow]
  omega

theorem address_bits (e : Nat) : (e &&& 0x1FFF) <<< 1 = e % 0x2000 * 2 := by
  rw [land_low, Nat.shiftLeft_eq]

end Masks

section Encoders

theorem byte_entry_eq (A : Nat) (b : UInt8) : (A <<< 8) ||| b.toNat = 256 * A + b.toNat := by
  rw [Nat.shiftLeft_eq, Nat.mul_comm]
  exact or_eq_add A b.toNat 8 b.toNat_lt_size

/-- A byte entry `(Address << 8) | value` reads back as that byte. -/
theorem ofEntry_byte_entry {A : Nat} (b : UInt8) (range : A < FEE_BYTE_RANGE) :
    Slot.ofEntry ((A <<< 8) ||| b.toNat) = .byte A b := by
  have := b.toNat_lt_size
  simp only [FEE_BYTE_RANGE, UInt8.size] at range this
  rw [byte_entry_eq, Slot.ofEntry, if_neg (by omega), if_pos (by omega)]
  congr 1
  · omega
  · rw [uint8_eq_iff, toNat_ofNat_uint8]
    omega

theorem word_entry_eq {A v : Nat} (bit : v ≤ 1) (range : A < 0x4000) :
    (A >>> 1) ||| (FEE_WORD_ENCODING ||| v <<< 13) = 0x2000 * (4 + v) + A / 2 := by
  have tag : FEE_WORD_ENCODING ||| v <<< 13 = 2 ^ 13 * (4 + v) := by
    obtain rfl | rfl : v = 0 ∨ v = 1 := by omega
    all_goals rfl
  rw [tag, Nat.lor_comm, Nat.shiftRight_eq_div_pow, or_eq_add _ _ 13 (by omega)]
  rfl

/-- A Word-Encoded entry `(Address >> 1) | 0x8000 | value << 13` reads back as that word. -/
theorem ofEntry_word_entry {A v : Nat} (bit : v ≤ 1) (even : A % 2 = 0) (range : A < 0x4000) :
    Slot.ofEntry ((A >>> 1) ||| (FEE_WORD_ENCODING ||| v <<< 13)) = .word A v := by
  rw [word_entry_eq bit range, Slot.ofEntry, if_neg (by omega), if_neg (by omega), if_pos (by omega)]
  congr 1 <;> omega

theorem next_entry_eq {A : Nat} (range : A < 0x4000) :
    (A >>> 1) ||| (FEE_WORD_ENCODING ||| FEE_VALUE_NEXT) = 0xE000 + A / 2 := by
  have tag : FEE_WORD_ENCODING ||| FEE_VALUE_NEXT = 2 ^ 13 * 7 := rfl
  rw [tag, Nat.lor_comm, Nat.shiftRight_eq_div_pow, or_eq_add _ _ 13 (by omega)]
  rfl

/-- The primary word of a Word-Next entry, programmed with `Address - 0x80` in 16 bits,
reads back as Word-Next for `Address`. -/
theorem ofEntry_next_entry {A : Nat} (even : A % 2 = 0) (low : FEE_BYTE_RANGE ≤ A) (range : A < 0x4000) :
    Slot.ofEntry ((((A + 0x10000 - FEE_BYTE_RANGE) % 0x10000) >>> 1) |||
      (FEE_WORD_ENCODING ||| FEE_VALUE_NEXT)) = .next A := by
  simp only [FEE_BYTE_RANGE] at low ⊢
  rw [next_entry_eq (show (A + 65536 - 128) % 65536 < 0x4000 by omega), Slot.ofEntry, if_neg (by omega), if_neg (by omega),
    if_neg (by omega), if_neg (by omega), FEE_BYTE_RANGE]
  congr 1
  omega

end Encoders

/-- What one applied write-log entry does to the RAM image. -/
inductive LogEntry where
  | byte (address : Nat) (value : UInt8)
  | word (address value : Nat)
  deriving DecidableEq, Repr

section Decode

variable (c : Config)

def LogEntry.apply : LogEntry → Memory → Memory
  | .byte address value, buf => Function.update buf address value
  | .word address value, buf => setDataWord c buf address value

def applyEntries (entries : List LogEntry) (buf : Memory) : Memory :=
  entries.foldl (fun buf e => e.apply c buf) buf

/-- The entries the replay loop applies, reading `n` slots of `f` from `log_addr` on, and
the slot where it stops. Reserved entries and torn Word-Next entries (value word still
erased) apply nothing. -/
def decodeLog (f : Flash) : (n log_addr : Nat) → List LogEntry × Nat
  | 0, log_addr => ([], log_addr)
  | n + 1, log_addr =>
    match Slot.ofEntry (f log_addr).toNat, n with
    | .empty, _ => ([], log_addr)
    | .byte a v, n => Prod.map (List.cons (.byte a v)) id (decodeLog f n (log_addr + 2))
    | .word a v, n => Prod.map (List.cons (.word a v)) id (decodeLog f n (log_addr + 2))
    | .reserved, n => decodeLog f n (log_addr + 2)
    | .next _, 0 => ([], log_addr + 2)
    | .next a, n + 1 =>
      let wvalue := 0xFFFF - (f (log_addr + 2)).toNat
      if wvalue = 0 then decodeLog f n (log_addr + 4)
      else Prod.map (List.cons (.word a wvalue)) id (decodeLog f n (log_addr + 4))

@[simp] theorem applyEntries_nil (buf : Memory) : applyEntries c [] buf = buf := rfl

@[simp] theorem applyEntries_cons (e : LogEntry) (entries : List LogEntry) (buf : Memory) :
    applyEntries c (e :: entries) buf = applyEntries c entries (e.apply c buf) := rfl

theorem applyEntries_append (xs ys : List LogEntry) (buf : Memory) :
    applyEntries c (xs ++ ys) buf = applyEntries c ys (applyEntries c xs buf) :=
  List.foldl_append _ _ _ _

end Decode

end PicoEeprom
