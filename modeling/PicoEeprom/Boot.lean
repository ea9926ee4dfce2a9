import PicoEeprom.Replay

/-! What `EEPROM_Init` establishes on any flash. With the magic in place it replays the
flash and leaves it alone, so a second boot changes nothing. Without the magic it erases
the region, but it loaded the snapshot before the check and never reloads it: the image
left behind is the complement of the old snapshot, not the erased store. And the replay
stores byte entries at their 7-bit address without comparing it with the density. -/
namespace PicoEeprom

variable (c : Config)

theorem two_mul_half_density : 2 * (c.FEE_DENSITY_BYTES / 2) = c.FEE_DENSITY_BYTES := by
  have := c.density_even
  omega

/-- The image of the loaded snapshot is all zero exactly when the snapshot is erased. -/
theorem image_loadSnapshot_eq_zero_iff (f : Flash) (buf : Memory) :
    c.image (loadSnapshot f (c.FEE_DENSITY_BYTES / 2) c.FEE_COMPACTED_BASE_ADDRESS 0 buf) =
        c.image (fun _ => 0) ↔
      ∀ j < c.FEE_DENSITY_BYTES / 2, f (c.FEE_COMPACTED_BASE_ADDRESS + 2 * j) = FEE_EMPTY_WORD := by
  have whole := two_mul_half_density c
  rw [Config.image_eq_iff]
  constructor
  · intro zero j hj
    have word := wordAt_loadSnapshot f c.FEE_COMPACTED_BASE_ADDRESS 0 buf hj
    rw [Nat.zero_add, (wordAt_eq_zero_iff _ _).2 ⟨zero _ (by omega), zero _ (by omega)⟩] at word
    have := (f (c.FEE_COMPACTED_BASE_ADDRESS + 2 * j)).toNat_lt_size
    simp only [UInt16.size] at this
    rw [uint16_eq_iff, show FEE_EMPTY_WORD.toNat = 65535 from rfl]
    omega
  · intro erased i hi
    have word := wordAt_loadSnapshot f c.FEE_COMPACTED_BASE_ADDRESS 0 buf
      (show i / 2 < c.FEE_DENSITY_BYTES / 2 by omega)
    rw [erased _ (by omega), Nat.zero_add] at word
    obtain ⟨low, high⟩ := (wordAt_eq_zero_iff _ _).1 word
    rcases Nat.mod_two_eq_zero_or_one i with even | odd
    · rwa [show i = 2 * (i / 2) by omega]
    · rwa [show i = 2 * (i / 2) + 1 by omega]

/-- On flash that carries the magic, a second boot reproduces the first one's image and
empty slot, and the flash is untouched. -/
theorem EEPROM_Init_idempotent (m : Machine)
    (magic : readWord c c.FEE_WRITE_LOG_BASE_ADDRESS m.dev = FEE_MAGIC_DWORD) :
    c.image (EEPROM_Init c (EEPROM_Init c m).2).2.DataBuf = c.image (EEPROM_Init c m).2.DataBuf ∧
    (EEPROM_Init c (EEPROM_Init c m).2).2.dev.empty_slot = (EEPROM_Init c m).2.dev.empty_slot := by
  obtain ⟨image, stop, same⟩ := EEPROM_Init_of_magic c m magic
  obtain ⟨image', stop', -⟩ := EEPROM_Init_of_magic c _ ((readWord_congr c _ same).trans magic)
  rw [same] at image' stop'
  refine ⟨(Config.image_eq_iff c _ _).2 fun i hi => ?_, stop'.trans stop.symm⟩
  rw [image', image]
  refine applyEntries_agree c (· < c.FEE_DENSITY_BYTES) _ (fun i hi => ?_) i hi
  exact loadSnapshot_agree _ _ _ _ _ _ i ⟨Nat.zero_le _, by rwa [two_mul_half_density, Nat.zero_add]⟩

/-- After `eeprom_clear` the log holds no entry. -/
theorem decodeLog_eeprom_clear (d : Device) :
    decodeLog ((eeprom_clear c d).flash c) c.logSlots c.firstSlot = ([], c.firstSlot) := by
  have inside := c.log_last_le_region_end
  simp only [Config.logSlots, Config.firstSlot, Config.FEE_WRITE_LOG_LAST_ADDRESS] at inside ⊢
  generalize hn : (c.FEE_WRITE_LOG_BASE_ADDRESS + c.FEE_WRITE_LOG_BYTES -
    (c.FEE_WRITE_LOG_BASE_ADDRESS + 4)) / 2 = n
  cases n with
  | zero => rfl
  | succ n =>
    apply decodeLog_of_empty
    rw [flash_eeprom_clear_of_ne c d (by omega) (by omega), if_pos]
    · rfl
    · simp only [Config.FEE_WRITE_LOG_BASE_ADDRESS, Config.FEE_COMPACTED_LAST_ADDRESS,
        Config.FEE_COMPACTED_BASE_ADDRESS] at hn inside ⊢
      omega

/-- Without the magic, `EEPROM_Init` leaves the region erased but for the magic, the empty
slot at the first slot, and the complement of the snapshot it loaded before the erase. -/
theorem EEPROM_Init_without_magic (m : Machine)
    (noMagic : readWord c c.FEE_WRITE_LOG_BASE_ADDRESS m.dev ≠ FEE_MAGIC_DWORD) :
    (∀ a, c.FEE_PAGE_BASE_ADDRESS ≤ a → a < c.regionEnd → a ≠ c.FEE_WRITE_LOG_BASE_ADDRESS →
      a ≠ c.FEE_WRITE_LOG_BASE_ADDRESS + 2 → (EEPROM_Init c m).2.dev.flash c a = FEE_EMPTY_WORD) ∧
    (EEPROM_Init c m).2.dev.empty_slot = c.firstSlot ∧
    (EEPROM_Init c m).2.DataBuf = loadSnapshot (m.dev.flash c) (c.FEE_DENSITY_BYTES / 2)
      c.FEE_COMPACTED_BASE_ADDRESS 0 m.DataBuf := by
  obtain ⟨d, -, image, stop, flash⟩ := EEPROM_Init_of_no_magic c m noMagic
  rw [decodeLog_eeprom_clear] at image stop
  refine ⟨fun a low high base magic => ?_, stop, image⟩
  rw [flash, flash_eeprom_clear_of_ne c d base magic, if_pos ⟨low, high⟩]
  rfl

/-- `EEPROM_Init` on any flash. With the magic it replays the flash and leaves it alone, and
a second boot reproduces the image and the empty slot. Without it the region is erased but
for the magic, the empty slot is the first slot, and the image is the complement of the
snapshot as it was before the erase: all zero exactly when that snapshot was erased. -/
theorem EEPROM_Init_on_any_flash (m : Machine) :
    (readWord c c.FEE_WRITE_LOG_BASE_ADDRESS m.dev = FEE_MAGIC_DWORD →
      (EEPROM_Init c m).2.dev.flash c = m.dev.flash c ∧
      (EEPROM_Init c m).2.DataBuf = (replayImage c (m.dev.flash c) m.DataBuf).1 ∧
      (EEPROM_Init c m).2.dev.empty_slot = (replayImage c (m.dev.flash c) m.DataBuf).2 ∧
      c.image (EEPROM_Init c (EEPROM_Init c m).2).2.DataBuf = c.image (EEPROM_Init c m).2.DataBuf ∧
      (EEPROM_Init c (EEPROM_Init c m).2).2.dev.empty_slot = (EEPROM_Init c m).2.dev.empty_slot) ∧
    (readWord c c.FEE_WRITE_LOG_BASE_ADDRESS m.dev ≠ FEE_MAGIC_DWORD →
      (∀ a, c.FEE_PAGE_BASE_ADDRESS ≤ a → a < c.regionEnd → a ≠ c.FEE_WRITE_LOG_BASE_ADDRESS →
        a ≠ c.FEE_WRITE_LOG_BASE_ADDRESS + 2 → (EEPROM_Init c m).2.dev.flash c a = FEE_EMPTY_WORD) ∧
      (EEPROM_Init c m).2.dev.empty_slot = c.firstSlot ∧
      c.image (EEPROM_Init c m).2.DataBuf = c.image (loadSnapshot (m.dev.flash c)
        (c.FEE_DENSITY_BYTES / 2) c.FEE_COMPACTED_BASE_ADDRESS 0 m.DataBuf) ∧
      (c.image (EEPROM_Init c m).2.DataBuf = c.image (fun _ => 0) ↔
        ∀ j < c.FEE_DENSITY_BYTES / 2,
          m.dev.flash c (c.FEE_COMPACTED_BASE_ADDRESS + 2 * j) = FEE_EMPTY_WORD)) := by
  refine ⟨fun magic => ?_, fun noMagic => ?_⟩
  · obtain ⟨image, stop, same⟩ := EEPROM_Init_of_magic c m magic
    exact ⟨same, image, stop, EEPROM_Init_idempotent c m magic⟩
  · obtain ⟨erased, stop, image⟩ := EEPROM_Init_without_magic c m noMagic
    rw [image]
    exact ⟨erased, stop, rfl, image_loadSnapshot_eq_zero_iff c _ _⟩

/-- A flash without the magic whose first snapshot word is programmed to `0x0000`: the first
boot clears the region but leaves `0xFF` in the image, and a second boot reads `0`. -/
theorem EEPROM_Init_keeps_stale_snapshot :
    (EEPROM_Init Config.small ⟨fun _ => 0,
      ⟨fun a => if a = 0 then 0 else 0xFFFF, [], fun _ => .FLASH_COMPLETE, 0⟩⟩).2.DataBuf 0 = 0xFF ∧
    (EEPROM_Init Config.small (EEPROM_Init Config.small ⟨fun _ => 0,
      ⟨fun a => if a = 0 then 0 else 0xFFFF, [], fun _ => .FLASH_COMPLETE, 0⟩⟩).2).2.DataBuf 0 = 0 := by
  decide

/-- The replay applies a byte entry at its 7-bit address, whatever the density. -/
theorem replay_stores_byte_entry (m : Machine) {A : Nat} (v : UInt8) (range : A < FEE_BYTE_RANGE)
    (magic : readWord c c.FEE_WRITE_LOG_BASE_ADDRESS m.dev = FEE_MAGIC_DWORD)
    (room : 0 < c.logSlots)
    (entry : m.dev.flash c c.firstSlot = UInt16.ofNat ((A <<< 8) ||| v.toNat))
    (next : m.dev.flash c (c.firstSlot + 2) = FEE_EMPTY_WORD) :
    (EEPROM_Init c m).2.DataBuf A = v := by
  have lt : (A <<< 8) ||| v.toNat < 65536 := by
    have := v.toNat_lt_size
    simp only [FEE_BYTE_RANGE, UInt8.size] at range this
    rw [byte_entry_eq]
    omega
  have slot : Slot.ofEntry (m.dev.flash c c.firstSlot).toNat = .byte A v := by
    rw [entry, toNat_ofNat_uint16, Nat.mod_eq_of_lt lt, ofEntry_byte_entry v range]
  obtain ⟨n, hn⟩ := Nat.exists_eq_add_of_lt room
  have rest : decodeLog (m.dev.flash c) n (c.firstSlot + 2) = ([], c.firstSlot + 2) := by
    cases n with
    | zero => rfl
    | succ n => exact decodeLog_of_empty _ n next
  rw [(EEPROM_Init_of_magic c m magic).1, replayImage, hn, Nat.zero_add,
    decodeLog_of_byte _ n slot, rest]
  simp [LogEntry.apply]

/-- A log carrying the magic and the byte entry `0x7F5A` on the 4-byte store: the replay
writes `DataBuf[127]`. -/
theorem replay_stores_byte_entry_small :
    Config.small.FEE_DENSITY_BYTES ≤ 127 ∧
    (EEPROM_Init Config.small ⟨fun _ => 0, ⟨fun a => if a = 4 then 0x0FEE else if a = 6 then 0x2040
      else if a = 8 then 0x7F5A else 0xFFFF, [], fun _ => .FLASH_COMPLETE, 0⟩⟩).2.DataBuf 127 = 0x5A :=
  ⟨by decide, replay_stores_byte_entry Config.small _ 0x5A (by decide) (by decide) (by decide)
    (by decide) (by decide)⟩

end PicoEeprom
