import PicoEeprom.Compaction

/-! Where the engine's flash accesses land. `EEPROM_Init` always loads the 32-bit magic at
the log base, and `eeprom_clear` always programs its two half-words there. The checks admit a
store that fills the whole region (they only warn), or one that leaves a log of fewer than
four bytes, and then the magic runs past the end of the region. -/
namespace PicoEeprom

variable (c : Config) {op : FlashOp}

theorem Device.Loads.mem {d d' : Device} (h : d.Loads d') (old : op ∈ d.trace) : op ∈ d'.trace := by
  obtain ⟨-, -, -, reads, trace, -⟩ := h
  rw [trace]
  exact List.mem_append_left _ old

theorem mem_trace_erasePages : ∀ (n page_num : Nat) (d : Device), op ∈ d.trace →
    op ∈ (erasePages c n page_num d).trace
  | 0, _, _, old => old
  | n + 1, _, _, old => mem_trace_erasePages n _ _ (by simp [FLASH_ErasePage, old])

theorem mem_trace_eeprom_clear (d : Device) (old : op ∈ d.trace) : op ∈ (eeprom_clear c d).trace := by
  have erased : op ∈ (erasePages c c.FEE_PAGE_COUNT 0 (FLASH_Unlock d)).trace :=
    mem_trace_erasePages c _ _ _ (by simp [FLASH_Unlock, old])
  simp only [eeprom_clear, FLASH_Lock, FLASH_ProgramHalfWord, Device.trace_record, List.mem_append]
  exact .inl (.inl (.inl erased))

/-- `eeprom_clear` programs the high magic half-word. -/
theorem magic_program_eeprom_clear (d : Device) :
    ∃ value status, FlashOp.programHalfWord (c.FEE_WRITE_LOG_BASE_ADDRESS + 2) value status ∈
      (eeprom_clear c d).trace := by
  simp only [eeprom_clear, FLASH_Lock, FLASH_ProgramHalfWord, Device.trace_record,
    List.mem_append, List.mem_singleton]
  exact ⟨_, _, .inl (.inr rfl)⟩

/-- `EEPROM_Init` keeps the trace it started from and loads the magic at the log base. -/
theorem mem_trace_EEPROM_Init (m : Machine)
    (h : op ∈ m.dev.trace ∨ op = .read c.FEE_WRITE_LOG_BASE_ADDRESS 4) :
    op ∈ (EEPROM_Init c m).2.dev.trace := by
  simp only [EEPROM_Init]
  generalize hL : loadCompacted c (c.FEE_DENSITY_BYTES / 2) c.FEE_COMPACTED_BASE_ADDRESS 0
    m.DataBuf m.dev = L
  have loaded : op ∈ (load c.FEE_WRITE_LOG_BASE_ADDRESS 4 L.2).trace := by
    simp only [load, Device.trace_record, List.mem_append, List.mem_singleton]
    rcases h with old | rfl
    · exact .inl ((hL ▸ (loadCompacted_spec c _ _ _ m.DataBuf m.dev).2).mem old)
    · exact .inr rfl
  have checked : op ∈ (if readWord c c.FEE_WRITE_LOG_BASE_ADDRESS L.2 ≠ FEE_MAGIC_DWORD then
      eeprom_clear c (load c.FEE_WRITE_LOG_BASE_ADDRESS 4 L.2)
      else load c.FEE_WRITE_LOG_BASE_ADDRESS 4 L.2).trace := by
    split
    exacts [mem_trace_eeprom_clear c _ loaded, loaded]
  exact (replayWriteLog_spec c _ _ _ _).2.2.mem checked

/-- When the store leaves less than four bytes of the region after it, the 32-bit magic at
the log base runs past the region's end: `EEPROM_Init` loads it there, and `EEPROM_Erase`
programs its high half-word there. -/
theorem magic_access_past_region (m : Machine)
    (tight : c.FEE_DENSITY_MAX_SIZE < c.FEE_DENSITY_BYTES + 4) :
    c.regionEnd < c.FEE_WRITE_LOG_BASE_ADDRESS + 4 ∧
    FlashOp.read c.FEE_WRITE_LOG_BASE_ADDRESS 4 ∈ (EEPROM_Init c m).2.dev.trace ∧
    ∃ value status, FlashOp.programHalfWord (c.FEE_WRITE_LOG_BASE_ADDRESS + 2) value status ∈
      (EEPROM_Erase c m).dev.trace := by
  refine ⟨?_, mem_trace_EEPROM_Init c m (.inr rfl), ?_⟩
  · simp only [Config.regionEnd, Config.FEE_WRITE_LOG_BASE_ADDRESS,
      Config.FEE_COMPACTED_LAST_ADDRESS, Config.FEE_COMPACTED_BASE_ADDRESS]
    omega
  · obtain ⟨value, status, programmed⟩ := magic_program_eeprom_clear c m.dev
    exact ⟨value, status, mem_trace_EEPROM_Init c _ (.inl programmed)⟩

theorem magic_access_past_region_noLog :
    Config.noLog.FEE_DENSITY_MAX_SIZE < Config.noLog.FEE_DENSITY_BYTES + 4 ∧
    (Config.noLog.regionEnd < 4 + 4 ∧
    FlashOp.read 4 4 ∈ (EEPROM_Init Config.noLog Machine.erased).2.dev.trace ∧
    ∃ value status, FlashOp.programHalfWord (4 + 2) value status ∈
      (EEPROM_Erase Config.noLog Machine.erased).dev.trace) :=
  ⟨by decide, magic_access_past_region Config.noLog Machine.erased (by decide)⟩

end PicoEeprom
