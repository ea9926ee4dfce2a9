import PicoEeprom.Api

/-! What the writes do to `DataBuf`, the RAM image. The engine updates the image before it
persists anything, and the persistence functions never write it, so a write's effect on
the image is fixed by its address and value alone, whatever path it takes to flash. The
first lemmas split `EEPROM_WriteDataByte` and `EEPROM_WriteDataWord` into their early
returns and the cascade after them; later proofs cite these and never unfold the writes. -/
namespace PicoEeprom

section Cache

variable (c : Config)

/-- The persistence cascade of `EEPROM_WriteDataByte` once `DataBuf` holds the new byte. -/
def persistByte (buf : Memory) (Address : Nat) (d : Device) : Option FLASH_Status × Device :=
  let direct := eeprom_write_direct_entry c buf Address d
  if direct.1 = none then
    if Address < FEE_BYTE_RANGE then eeprom_write_log_byte_entry c buf Address direct.2
    else eeprom_write_log_word_entry c buf (Address &&& 0xFFFE) direct.2
  else direct

/-- The persistence cascade of `EEPROM_WriteDataWord` at an even address. -/
def persistWord (oldValue : Nat) (DataWord : UInt16) (buf : Memory) (Address : Nat) (d : Device) :
    Option FLASH_Status × Device :=
  let direct := eeprom_write_direct_entry c buf Address d
  if direct.1 = none then
    if Address < FEE_BYTE_RANGE then
      let low :=
        if oldValue % 256 ≠ DataWord.toNat % 256 then
          eeprom_write_log_byte_entry c buf Address direct.2
        else (some .FLASH_COMPLETE, direct.2)
      let high :=
        if oldValue >>> 8 ≠ DataWord.toNat >>> 8 then
          eeprom_write_log_byte_entry c buf (Address + 1) low.2
        else (some .FLASH_COMPLETE, low.2)
      (if high.1 ≠ some .FLASH_COMPLETE then high.1 else low.1, high.2)
    else eeprom_write_log_word_entry c buf Address direct.2
  else direct

variable {c}

theorem writeDataByte_of_ge {Address : Nat} (v : UInt8) (m : Machine)
    (range : c.FEE_DENSITY_BYTES ≤ Address) :
    EEPROM_WriteDataByte c Address v m = (some .FLASH_BAD_ADDRESS, m) := by
  unfold EEPROM_WriteDataByte
  rw [if_pos range]

theorem writeDataByte_of_same {Address : Nat} {v : UInt8} {m : Machine}
    (range : Address < c.FEE_DENSITY_BYTES) (same : m.DataBuf Address = v) :
    EEPROM_WriteDataByte c Address v m = (none, m) := by
  unfold EEPROM_WriteDataByte
  rw [if_neg (Nat.not_le.mpr range), if_pos same]

theorem writeDataByte_of_ne {Address : Nat} {v : UInt8} {m : Machine}
    (range : Address < c.FEE_DENSITY_BYTES) (changed : m.DataBuf Address ≠ v) :
    EEPROM_WriteDataByte c Address v m =
      let buf := Function.update m.DataBuf Address v
      ((persistByte c buf Address m.dev).1, ⟨buf, (persistByte c buf Address m.dev).2⟩) := by
  unfold EEPROM_WriteDataByte
  rw [if_neg (Nat.not_le.mpr range), if_neg changed]
  rfl

theorem writeDataWord_of_ge {Address : Nat} (v : UInt16) (m : Machine)
    (range : c.FEE_DENSITY_BYTES ≤ Address) :
    EEPROM_WriteDataWord c Address v m = (some .FLASH_BAD_ADDRESS, m) := by
  unfold EEPROM_WriteDataWord
  rw [if_pos range]

theorem writeDataWord_of_odd {Address : Nat} (v : UInt16) (m : Machine)
    (range : Address < c.FEE_DENSITY_BYTES) (odd : Address % 2 = 1) :
    EEPROM_WriteDataWord c Address v m =
      let low := EEPROM_WriteDataByte c Address (UInt8.ofNat v.toNat) m
      let high := EEPROM_WriteDataByte c (Address + 1) (UInt8.ofNat (v.toNat >>> 8)) low.2
      (if high.1 ≠ some .FLASH_COMPLETE then high.1 else low.1, high.2) := by
  unfold EEPROM_WriteDataWord
  rw [if_neg (Nat.not_le.mpr range), if_pos odd]

theorem writeDataWord_of_same {Address : Nat} {v : UInt16} {m : Machine}
    (range : Address < c.FEE_DENSITY_BYTES) (even : Address % 2 = 0)
    (same : wordAt m.DataBuf Address = v.toNat) :
    EEPROM_WriteDataWord c Address v m = (none, m) := by
  unfold EEPROM_WriteDataWord
  rw [if_neg (Nat.not_le.mpr range), if_neg (by omega)]
  exact if_pos same

theorem writeDataWord_of_ne {Address : Nat} {v : UInt16} {m : Machine}
    (range : Address < c.FEE_DENSITY_BYTES) (even : Address % 2 = 0)
    (changed : wordAt m.DataBuf Address ≠ v.toNat) :
    EEPROM_WriteDataWord c Address v m =
      let buf := storeWord m.DataBuf Address v.toNat
      let persisted := persistWord c (wordAt m.DataBuf Address) v buf Address m.dev
      (persisted.1, ⟨buf, persisted.2⟩) := by
  unfold EEPROM_WriteDataWord
  rw [if_neg (Nat.not_le.mpr range), if_neg (by omega)]
  exact if_neg changed

theorem EEPROM_WriteDataByte_DataBuf (Address : Nat) (v : UInt8) (m : Machine) :
    (EEPROM_WriteDataByte c Address v m).2.DataBuf =
      if Address < c.FEE_DENSITY_BYTES then Function.update m.DataBuf Address v else m.DataBuf := by
  by_cases range : Address < c.FEE_DENSITY_BYTES
  · rw [if_pos range]
    by_cases same : m.DataBuf Address = v
    · rw [writeDataByte_of_same range same, ← same, Function.update_eq_self]
    · rw [writeDataByte_of_ne range same]
  · rw [if_neg range, writeDataByte_of_ge v m (by omega)]

theorem storeWord_eq_update (buf : Memory) (a : Nat) (v : UInt16) :
    storeWord buf a v.toNat =
      Function.update (Function.update buf a (UInt8.ofNat v.toNat)) (a + 1)
        (UInt8.ofNat (v.toNat >>> 8)) := by
  simp only [storeWord, Nat.shiftRight_eq_div_pow]

/-- An in-range word write stores both bytes little-endian, at odd and even addresses. -/
theorem EEPROM_WriteDataWord_DataBuf (Address : Nat) (v : UInt16) (m : Machine)
    (range : Address + 1 < c.FEE_DENSITY_BYTES) :
    (EEPROM_WriteDataWord c Address v m).2.DataBuf = storeWord m.DataBuf Address v.toNat := by
  by_cases odd : Address % 2 = 1
  · rw [writeDataWord_of_odd v m (by omega) odd]
    simp only [EEPROM_WriteDataByte_DataBuf, if_pos range,
      if_pos (show Address < c.FEE_DENSITY_BYTES by omega), storeWord_eq_update]
  · by_cases same : wordAt m.DataBuf Address = v.toNat
    · rw [writeDataWord_of_same (by omega) (by omega) same, ← same, storeWord_wordAt]
    · rw [writeDataWord_of_ne (by omega) (by omega) same]

/-- At the last byte of the store a word write writes that byte, then answers
`FLASH_BAD_ADDRESS` for the byte past the end. -/
theorem writeDataWord_last_byte (m : Machine) (v : UInt16) (nonempty : 0 < c.FEE_DENSITY_BYTES) :
    (EEPROM_WriteDataWord c (c.FEE_DENSITY_BYTES - 1) v m).1 = some .FLASH_BAD_ADDRESS ∧
      (EEPROM_WriteDataWord c (c.FEE_DENSITY_BYTES - 1) v m).2.DataBuf =
        Function.update m.DataBuf (c.FEE_DENSITY_BYTES - 1) (UInt8.ofNat v.toNat) := by
  have odd : (c.FEE_DENSITY_BYTES - 1) % 2 = 1 := by have := c.density_even; omega
  rw [writeDataWord_of_odd v m (by omega) odd]
  constructor
  · simp only [writeDataByte_of_ge _ _ (show c.FEE_DENSITY_BYTES ≤ c.FEE_DENSITY_BYTES - 1 + 1 by omega),
      ne_eq, Option.some.injEq, reduceCtorEq, not_false_eq_true, if_true]
  · simp only [writeDataByte_of_ge _ _ (show c.FEE_DENSITY_BYTES ≤ c.FEE_DENSITY_BYTES - 1 + 1 by omega),
      EEPROM_WriteDataByte_DataBuf, if_pos (show c.FEE_DENSITY_BYTES - 1 < c.FEE_DENSITY_BYTES by omega)]

end Cache

end PicoEeprom

namespace PicoEeprom

theorem writeDataWord_last_byte_small :
    0 < Config.small.FEE_DENSITY_BYTES ∧
      ((EEPROM_WriteDataWord Config.small (Config.small.FEE_DENSITY_BYTES - 1) 0x0101
        Machine.erased).1 = some .FLASH_BAD_ADDRESS ∧
      (EEPROM_WriteDataWord Config.small (Config.small.FEE_DENSITY_BYTES - 1) 0x0101
        Machine.erased).2.DataBuf = Function.update Machine.erased.DataBuf
          (Config.small.FEE_DENSITY_BYTES - 1) (UInt8.ofNat (0x0101 : UInt16).toNat)) :=
  ⟨by decide, writeDataWord_last_byte Machine.erased 0x0101 (by decide)⟩

end PicoEeprom
