import PicoEeprom.Boot

/-! Compaction. `eeprom_compact` clears the region, which programs the magic at the log
base, and rewrites the snapshot below it; but `eeprom_clear` points `empty_slot` at the log
base itself, not at the first slot after the magic. The next log append then programs the
magic half-word, the next boot finds no magic and clears the store, and every write since
the compaction is lost. -/
namespace PicoEeprom

variable (c : Config)

/-- The rewrite loop programs only the `n` half-words from `dest` on. -/
theorem compactLoop_frame (buf : Memory) : ∀ (n src dest : Nat) (s : FLASH_Status) (d : Device),
    (compactLoop buf n src dest s d).2.empty_slot = d.empty_slot ∧
    (compactLoop buf n src dest s d).2.driver = d.driver ∧
    ∀ a, (a < dest ∨ dest + 2 * n ≤ a) → (compactLoop buf n src dest s d).2.flash c a = d.flash c a
  | 0, _, _, _, d => ⟨rfl, rfl, fun _ _ => rfl⟩
  | n + 1, src, dest, s, d => by
    rw [compactLoop]
    split
    · obtain ⟨slot, driver, frame⟩ := compactLoop_frame buf n (src + 2) (dest + 2) _
        (FLASH_ProgramHalfWord dest (UInt16.ofNat (0xFFFF - wordAt buf src)) d).2
      refine ⟨slot, driver, fun a out => ?_⟩
      rw [frame a (by omega), FLASH_ProgramHalfWord, Device.flash_record,
        FlashOp.apply_program_of_ne _ _ _ _ (by omega)]
    · obtain ⟨slot, driver, frame⟩ := compactLoop_frame buf n (src + 2) (dest + 2) s d
      exact ⟨slot, driver, fun a out => frame a (by omega)⟩

/-- The erase loop of `eeprom_clear` leaves both half-words of the magic erased. -/
theorem erasePages_magic_erased (d : Device) (room : 4 ≤ c.FEE_WRITE_LOG_BYTES) {a : Nat}
    (magic : a = c.FEE_WRITE_LOG_BASE_ADDRESS ∨ a = c.FEE_WRITE_LOG_BASE_ADDRESS + 2) :
    (erasePages c c.FEE_PAGE_COUNT 0 (FLASH_Unlock d)).flash c a = 0xFFFF := by
  have inside := c.log_last_le_region_end
  rw [flash_erasePages, if_pos]
  simp only [Config.regionEnd, Config.FEE_DENSITY_MAX_SIZE, Config.FEE_WRITE_LOG_LAST_ADDRESS,
    Config.FEE_WRITE_LOG_BASE_ADDRESS, Config.FEE_COMPACTED_LAST_ADDRESS,
    Config.FEE_COMPACTED_BASE_ADDRESS, Nat.zero_mul, Nat.zero_add] at inside magic ⊢
  omega

section Magic

variable {c} (d : Device) (complete : ∀ i, d.driver i = .FLASH_COMPLETE)
  (room : 4 ≤ c.FEE_WRITE_LOG_BYTES)
include complete room

/-- With a driver that completes, `eeprom_clear` leaves the magic at the log base. -/
theorem flash_eeprom_clear_magic :
    (eeprom_clear c d).flash c c.FEE_WRITE_LOG_BASE_ADDRESS = 0x0FEE ∧
    (eeprom_clear c d).flash c (c.FEE_WRITE_LOG_BASE_ADDRESS + 2) = 0x2040 := by
  simp only [flash_eeprom_clear, flash_lock, FLASH_ProgramHalfWord,
    Device.flash_record, Device.driver_record, driver_erasePages, driver_unlock, complete, FlashOp.apply_program_complete,
    Function.update_apply, if_true, if_neg (show c.FEE_WRITE_LOG_BASE_ADDRESS ≠
      c.FEE_WRITE_LOG_BASE_ADDRESS + 2 by omega), if_neg (show c.FEE_WRITE_LOG_BASE_ADDRESS + 2 ≠
      c.FEE_WRITE_LOG_BASE_ADDRESS by omega)]
  rw [erasePages_magic_erased c d room (.inl rfl), erasePages_magic_erased c d room (.inr rfl)]
  exact ⟨by decide, by decide⟩

end Magic

section Compact

variable (buf : Memory) (d : Device)

theorem empty_slot_eeprom_compact :
    (eeprom_compact c buf d).2.empty_slot = c.FEE_WRITE_LOG_BASE_ADDRESS := by
  simp only [eeprom_compact, empty_slot_lock, (compactLoop_frame c buf _ _ _ _ _).1, empty_slot_unlock]
  rfl

/-- The rewrite stays below the log base, so the log is what `eeprom_clear` left. -/
theorem flash_eeprom_compact_of_ge {a : Nat} (above : c.FEE_WRITE_LOG_BASE_ADDRESS ≤ a) :
    (eeprom_compact c buf d).2.flash c a = (eeprom_clear c d).flash c a := by
  have whole := two_mul_half_density c
  simp only [Config.FEE_WRITE_LOG_BASE_ADDRESS, Config.FEE_COMPACTED_LAST_ADDRESS] at above
  simp only [eeprom_compact, flash_lock]
  rw [(compactLoop_frame c buf _ 0 c.FEE_COMPACTED_BASE_ADDRESS _ _).2.2 a (.inr (by omega)),
    flash_unlock]

end Compact

/-- After a compaction whose driver calls complete, `empty_slot` is the log base, which holds
the low half-word of the magic, and the next byte-entry append programs it. -/
theorem compaction_leaves_slot_on_magic (buf buf' : Memory) (A : Nat) (d : Device)
    (complete : ∀ i, d.driver i = .FLASH_COMPLETE) (room : 4 ≤ c.FEE_WRITE_LOG_BYTES) :
    (eeprom_compact c buf d).2.empty_slot = c.FEE_WRITE_LOG_BASE_ADDRESS ∧
    (eeprom_compact c buf d).2.flash c c.FEE_WRITE_LOG_BASE_ADDRESS = 0x0FEE ∧
    ∃ value status, FlashOp.programHalfWord c.FEE_WRITE_LOG_BASE_ADDRESS value status ∈
      (eeprom_write_log_byte_entry c buf' A (eeprom_compact c buf d).2).2.trace := by
  have slot := empty_slot_eeprom_compact c buf d
  refine ⟨slot, ?_, ?_⟩
  · rw [flash_eeprom_compact_of_ge c buf d (Nat.le_refl _)]
    exact (flash_eeprom_clear_magic d complete room).1
  · have below : ¬ c.FEE_WRITE_LOG_BASE_ADDRESS ≥ c.FEE_WRITE_LOG_LAST_ADDRESS := by
      simp only [Config.FEE_WRITE_LOG_LAST_ADDRESS]
      omega
    simp only [eeprom_write_log_byte_entry, slot, if_neg below, FLASH_Lock, FLASH_ProgramHalfWord,
      FLASH_Unlock, Device.trace_record, Device.empty_slot_record, List.append_assoc,
      List.mem_append, List.mem_cons]
    exact ⟨_, _, .inr (.inr (.inl (.inl rfl)))⟩

theorem compaction_leaves_slot_on_magic_small :
    (eeprom_compact Config.small (fun _ => 1) Machine.erased.dev).2.empty_slot = 4 ∧
    (eeprom_compact Config.small (fun _ => 1) Machine.erased.dev).2.flash Config.small 4 = 0x0FEE ∧
    ∃ value status, FlashOp.programHalfWord 4 value status ∈ (eeprom_write_log_byte_entry
      Config.small (fun _ => 2) 0 (eeprom_compact Config.small (fun _ => 1) Machine.erased.dev).2).2.trace :=
  compaction_leaves_slot_on_magic Config.small _ _ 0 _ (fun _ => rfl) (by decide)

/-- From the erased 4-byte store, seven writes of address 0: a snapshot write, four byte
entries that fill the log, a compaction, and a byte entry that lands on the magic. The
image holds 7, but a reboot finds no magic, clears the store and yields 6. -/
theorem reboot_after_compaction_loses_write :
    ([(1 : UInt8), 2, 3, 4, 5, 6, 7].foldl (fun m v => (EEPROM_WriteDataByte Config.small 0 v m).2)
      (EEPROM_Erase Config.small Machine.erased)).DataBuf 0 = 7 ∧
    (EEPROM_Init Config.small ([(1 : UInt8), 2, 3, 4, 5, 6, 7].foldl
      (fun m v => (EEPROM_WriteDataByte Config.small 0 v m).2)
      (EEPROM_Erase Config.small Machine.erased))).2.DataBuf 0 = 6 := by
  decide

end PicoEeprom
