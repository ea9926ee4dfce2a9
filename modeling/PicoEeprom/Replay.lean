import PicoEeprom.Codec

/-! What `EEPROM_Init` computes. Its two loops only load from flash: the first leaves the
complement of the snapshot region in the RAM image (`loadSnapshot`), the second applies
the entries `decodeLog` reads from the write log and stops where it does. With the magic
in place the flash is left as it was; without it `eeprom_clear` erases the region first. -/
namespace PicoEeprom

/-- `d'` is `d` after flash loads only. -/
structure Device.Loads (d d' : Device) : Prop where
  initial : d'.initial = d.initial
  driver : d'.driver = d.driver
  empty_slot : d'.empty_slot = d.empty_slot
  reads : ∃ reads, d'.trace = d.trace ++ reads ∧ ∀ op ∈ reads, ∃ a w, op = .read a w

namespace Device.Loads

variable {d d' d'' : Device}

theorem refl (d : Device) : d.Loads d := ⟨rfl, rfl, rfl, [], by simp, by simp⟩

theorem trans (first : d.Loads d') (second : d'.Loads d'') : d.Loads d'' := by
  obtain ⟨i₁, r₁, e₁, xs, t₁, h₁⟩ := first
  obtain ⟨i₂, r₂, e₂, ys, t₂, h₂⟩ := second
  refine ⟨i₂.trans i₁, r₂.trans r₁, e₂.trans e₁, xs ++ ys, by rw [t₂, t₁, List.append_assoc], ?_⟩
  intro op mem
  rcases List.mem_append.mp mem with h | h
  exacts [h₁ op h, h₂ op h]

theorem load (d : Device) (addr width : Nat) : d.Loads (PicoEeprom.load addr width d) :=
  ⟨rfl, rfl, rfl, [.read addr width], rfl, by simp⟩

private theorem foldl_reads (c : Config) (f : Flash) :
    ∀ reads : List FlashOp, (∀ op ∈ reads, ∃ a w, op = .read a w) →
      reads.foldl (fun f op => op.apply c f) f = f
  | [], _ => rfl
  | op :: reads, h => by
    obtain ⟨a, w, rfl⟩ := h op (List.mem_cons_self _ _)
    exact foldl_reads c f reads fun op mem => h op (List.mem_cons_of_mem _ mem)

theorem flash (h : d.Loads d') (c : Config) : d'.flash c = d.flash c := by
  obtain ⟨initial, -, -, reads, trace, only⟩ := h
  simp only [Device.flash, trace, initial, List.foldl_append]
  exact foldl_reads c _ reads only

end Device.Loads

@[simp] theorem flash_load (c : Config) (addr width : Nat) (d : Device) :
    (load addr width d).flash c = d.flash c :=
  (Device.Loads.load d addr width).flash c

section Replay

variable (c : Config)

/-- One iteration of the replay loop, by the kind of slot it read. -/
def replaySlot : Slot → (n log_addr : Nat) → Memory → Device → Nat × Memory × Device
  | .empty, _, log_addr, buf, d => (log_addr, buf, d)
  | .byte a v, n, log_addr, buf, d => replayWriteLog c n (log_addr + 2) (Function.update buf a v) d
  | .word a v, n, log_addr, buf, d => replayWriteLog c n (log_addr + 2) (setDataWord c buf a v) d
  | .reserved, n, log_addr, buf, d => replayWriteLog c n (log_addr + 2) buf d
  | .next _, 0, log_addr, buf, d => (log_addr + 2, buf, d)
  | .next a, n + 1, log_addr, buf, d =>
    let wvalue := 0xFFFF - (d.flash c (log_addr + 2)).toNat
    let d := load (log_addr + 2) 2 d
    if wvalue = 0 then replayWriteLog c n (log_addr + 4) buf d
    else replayWriteLog c n (log_addr + 4) (setDataWord c buf a wvalue) d

/-- The replay loop's bit tests select the slot kinds of `Slot.ofEntry`. -/
theorem replayWriteLog_succ (n log_addr : Nat) (buf : Memory) (d : Device) :
    replayWriteLog c (n + 1) log_addr buf d =
      replaySlot c (Slot.ofEntry (d.flash c log_addr).toNat) n log_addr buf (load log_addr 2 d) := by
  have lt : (d.flash c log_addr).toNat < 0x10000 := (d.flash c log_addr).toNat_lt_size
  rw [replayWriteLog.eq_def]
  dsimp only
  generalize (d.flash c log_addr).toNat = e at lt ⊢
  unfold Slot.ofEntry
  by_cases empty : e = 0xFFFF
  · simp [empty, FEE_EMPTY_WORD, replaySlot]
  rw [if_neg (by simpa [FEE_EMPTY_WORD] using empty), if_neg empty]
  by_cases byte : e < 0x8000
  · rw [if_pos ((word_encoding_eq_zero lt).2 byte), if_pos byte, replaySlot,
      Nat.shiftRight_eq_div_pow]
  rw [if_neg (by rwa [word_encoding_eq_zero lt]), if_neg byte]
  by_cases next : 0xE000 ≤ e
  · rw [if_pos ((value_next_eq lt).2 (by omega)), if_neg (by omega), if_neg (by omega), address_bits]
    cases n <;> rfl
  rw [if_neg (by rw [value_next_eq lt]; omega)]
  by_cases reserved : 0xC000 ≤ e
  · rw [if_pos ((value_reserved_ne lt).2 (by omega)), if_neg (by omega), if_pos (by omega)]
    rfl
  rw [if_neg (by rw [value_reserved_ne lt]; omega), if_pos (by omega), replaySlot, address_bits,
    value_encoded_bit lt]

/-- The replay loop applies the entries `decodeLog` reads, stops where it stops, and only
loads from flash. -/
theorem replayWriteLog_spec : ∀ (n log_addr : Nat) (buf : Memory) (d : Device),
    (replayWriteLog c n log_addr buf d).1 = (decodeLog (d.flash c) n log_addr).2 ∧
    (replayWriteLog c n log_addr buf d).2.1 =
      applyEntries c (decodeLog (d.flash c) n log_addr).1 buf ∧
    d.Loads (replayWriteLog c n log_addr buf d).2.2
  | 0, _, _, d => ⟨rfl, rfl, .refl d⟩
  | n + 1, log_addr, buf, d => by
    have loaded := Device.Loads.load d log_addr 2
    rw [replayWriteLog_succ, decodeLog.eq_def]
    dsimp only
    generalize Slot.ofEntry (d.flash c log_addr).toNat = s
    cases s with
    | empty => exact ⟨rfl, rfl, loaded⟩
    | byte a v =>
      obtain ⟨stop, image, loads⟩ := replayWriteLog_spec n (log_addr + 2) (Function.update buf a v) _
      rw [flash_load] at stop image
      exact ⟨stop, image, loaded.trans loads⟩
    | word a v =>
      obtain ⟨stop, image, loads⟩ := replayWriteLog_spec n (log_addr + 2) (setDataWord c buf a v) _
      rw [flash_load] at stop image
      exact ⟨stop, image, loaded.trans loads⟩
    | reserved =>
      obtain ⟨stop, image, loads⟩ := replayWriteLog_spec n (log_addr + 2) buf _
      rw [flash_load] at stop image
      exact ⟨stop, image, loaded.trans loads⟩
    | next a =>
      cases n with
      | zero => exact ⟨rfl, rfl, loaded⟩
      | succ n =>
        have value := loaded.trans (Device.Loads.load _ (log_addr + 2) 2)
        simp only [replaySlot, flash_load]
        split
        · obtain ⟨stop, image, loads⟩ := replayWriteLog_spec n (log_addr + 4) buf
            (load (log_addr + 2) 2 (load log_addr 2 d))
          simp only [flash_load] at stop image
          exact ⟨stop, image, value.trans loads⟩
        · obtain ⟨stop, image, loads⟩ := replayWriteLog_spec n (log_addr + 4)
            (setDataWord c buf a (0xFFFF - (d.flash c (log_addr + 2)).toNat))
            (load (log_addr + 2) 2 (load log_addr 2 d))
          simp only [flash_load] at stop image
          exact ⟨stop, image, value.trans loads⟩

end Replay

section Decode

variable (c : Config) (f : Flash)

@[simp] theorem decodeLog_zero (log_addr : Nat) : decodeLog f 0 log_addr = ([], log_addr) := rfl

theorem decodeLog_of_empty {log_addr : Nat} (n : Nat) (empty : f log_addr = FEE_EMPTY_WORD) :
    decodeLog f (n + 1) log_addr = ([], log_addr) := by
  rw [decodeLog.eq_def]
  simp only [empty]
  rfl

theorem decodeLog_of_byte {log_addr a : Nat} {v : UInt8} (n : Nat)
    (byte : Slot.ofEntry (f log_addr).toNat = .byte a v) :
    decodeLog f (n + 1) log_addr = Prod.map (List.cons (.byte a v)) id (decodeLog f n (log_addr + 2)) := by
  rw [decodeLog.eq_def]
  simp only [byte]

theorem decodeLog_of_word {log_addr a v : Nat} (n : Nat)
    (word : Slot.ofEntry (f log_addr).toNat = .word a v) :
    decodeLog f (n + 1) log_addr = Prod.map (List.cons (.word a v)) id (decodeLog f n (log_addr + 2)) := by
  rw [decodeLog.eq_def]
  simp only [word]

theorem decodeLog_of_reserved {log_addr : Nat} (n : Nat)
    (reserved : Slot.ofEntry (f log_addr).toNat = .reserved) :
    decodeLog f (n + 1) log_addr = decodeLog f n (log_addr + 2) := by
  rw [decodeLog.eq_def]
  simp only [reserved]

theorem decodeLog_of_next_last {log_addr a : Nat}
    (next : Slot.ofEntry (f log_addr).toNat = .next a) :
    decodeLog f 1 log_addr = ([], log_addr + 2) := by
  rw [decodeLog.eq_def]
  simp only [next]

theorem decodeLog_of_next {log_addr a : Nat} (n : Nat)
    (next : Slot.ofEntry (f log_addr).toNat = .next a) :
    decodeLog f (n + 1 + 1) log_addr =
      if 0xFFFF - (f (log_addr + 2)).toNat = 0 then decodeLog f n (log_addr + 4)
      else Prod.map (List.cons (.word a (0xFFFF - (f (log_addr + 2)).toNat))) id
        (decodeLog f n (log_addr + 4)) := by
  rw [decodeLog.eq_def]
  simp only [next]

/-- Entries change the image only where they write: memories that agree on `S` still do. -/
theorem LogEntry.apply_agree (S : Nat → Prop) {X Y : Memory} (agree : ∀ i, S i → X i = Y i)
    (e : LogEntry) : ∀ i, S i → e.apply c X i = e.apply c Y i := by
  intro i hi
  cases e with
  | byte a v => simp only [LogEntry.apply, Function.update_apply, agree i hi]
  | word a v =>
    simp only [LogEntry.apply, setDataWord]
    split
    · simp only [storeWord_apply, agree i hi]
    · exact agree i hi

theorem applyEntries_agree (S : Nat → Prop) :
    ∀ (entries : List LogEntry) {X Y : Memory}, (∀ i, S i → X i = Y i) →
      ∀ i, S i → applyEntries c entries X i = applyEntries c entries Y i
  | [], _, _, agree => agree
  | e :: entries, _, _, agree => applyEntries_agree S entries (LogEntry.apply_agree c S agree e)

end Decode

section Snapshot

variable (c : Config) (f : Flash)

/-- What `EEPROM_Init`'s first loop leaves: `n` half-words from `dest` on, each the
complement of the snapshot half-word at the same offset from `src`. -/
def loadSnapshot : (n src dest : Nat) → Memory → Memory
  | 0, _, _, buf => buf
  | n + 1, src, dest, buf =>
    loadSnapshot n (src + 2) (dest + 2) (storeWord buf dest (0xFFFF - (f src).toNat))

/-- The byte the complemented snapshot gives at `i`, for `i` at or above `dest`. -/
def snapshotByte (src dest i : Nat) : UInt8 :=
  let word := 0xFFFF - (f (src + (i - dest) / 2 * 2)).toNat
  if (i - dest) % 2 = 0 then UInt8.ofNat word else UInt8.ofNat (word / 256)

theorem loadCompacted_spec : ∀ (n src dest : Nat) (buf : Memory) (d : Device),
    (loadCompacted c n src dest buf d).1 = loadSnapshot (d.flash c) n src dest buf ∧
    d.Loads (loadCompacted c n src dest buf d).2
  | 0, _, _, _, d => ⟨rfl, .refl d⟩
  | n + 1, src, dest, buf, d => by
    obtain ⟨image, loads⟩ := loadCompacted_spec n (src + 2) (dest + 2)
      (storeWord buf dest (0xFFFF - (d.flash c src).toNat)) (load src 2 d)
    rw [flash_load] at image
    exact ⟨image, (Device.Loads.load d src 2).trans loads⟩

theorem loadSnapshot_apply : ∀ (n src dest : Nat) (buf : Memory) (i : Nat),
    loadSnapshot f n src dest buf i =
      if dest ≤ i ∧ i < dest + 2 * n then snapshotByte f src dest i else buf i
  | 0, _, dest, _, i => by rw [loadSnapshot, if_neg (by omega)]
  | n + 1, src, dest, buf, i => by
    rw [loadSnapshot, loadSnapshot_apply n, storeWord_apply]
    by_cases upper : dest + 2 ≤ i ∧ i < dest + 2 + 2 * n
    · rw [if_pos upper, if_pos (by omega), snapshotByte, snapshotByte]
      simp only [show (i - (dest + 2)) % 2 = (i - dest) % 2 by omega,
        show src + 2 + (i - (dest + 2)) / 2 * 2 = src + (i - dest) / 2 * 2 by omega]
    rw [if_neg upper]
    by_cases high : i = dest + 1
    · rw [if_pos high, if_pos (by omega), high]
      simp [snapshotByte]
    by_cases low : i = dest
    · rw [if_neg high, if_pos low, if_pos (by omega), low]
      simp [snapshotByte]
    rw [if_neg high, if_neg low, if_neg (by omega)]

theorem wordAt_loadSnapshot {n j : Nat} (src dest : Nat) (buf : Memory) (h : j < n) :
    wordAt (loadSnapshot f n src dest buf) (dest + 2 * j) = 0xFFFF - (f (src + 2 * j)).toNat := by
  have lt := (f (src + 2 * j)).toNat_lt_size
  simp only [UInt16.size] at lt
  rw [wordAt, loadSnapshot_apply, loadSnapshot_apply, if_pos (by omega), if_pos (by omega),
    snapshotByte, snapshotByte]
  simp only [show dest + 2 * j + 1 - dest = 2 * j + 1 by omega, Nat.add_sub_cancel_left,
    show (2 * j + 1) / 2 * 2 = 2 * j by omega, show 2 * j / 2 * 2 = 2 * j by omega,
    Nat.mul_mod_right, show (2 * j + 1) % 2 = 1 by omega, if_true, if_neg Nat.one_ne_zero,
    toNat_ofNat_uint8]
  omega

/-- Over `[dest, dest + 2 n)` the loaded snapshot does not depend on the RAM it overwrote. -/
theorem loadSnapshot_agree (n src dest : Nat) (X Y : Memory) :
    ∀ i, dest ≤ i ∧ i < dest + 2 * n →
      loadSnapshot f n src dest X i = loadSnapshot f n src dest Y i := by
  intro i inside
  rw [loadSnapshot_apply, loadSnapshot_apply, if_pos inside, if_pos inside]

end Snapshot

section Clear

variable (c : Config)

theorem flash_erasePages : ∀ (n page_num : Nat) (d : Device) (a : Nat),
    (erasePages c n page_num d).flash c a =
      if c.FEE_PAGE_BASE_ADDRESS + page_num * c.FEE_PAGE_SIZE ≤ a ∧
          a < c.FEE_PAGE_BASE_ADDRESS + (page_num + n) * c.FEE_PAGE_SIZE
      then 0xFFFF else d.flash c a
  | 0, page_num, d, a => by rw [erasePages, Nat.add_zero, if_neg (by omega)]
  | n + 1, page_num, d, a => by
    rw [erasePages, flash_erasePages n, FLASH_ErasePage, Device.flash_record,
      FlashOp.apply_erasePage]
    simp only [Nat.add_mul, Nat.one_mul]
    split_ifs <;> first | rfl | omega

@[simp] theorem driver_erasePages : ∀ (n page_num : Nat) (d : Device),
    (erasePages c n page_num d).driver = d.driver
  | 0, _, _ => rfl
  | n + 1, _, d => by rw [erasePages, driver_erasePages n]; rfl

theorem flash_eeprom_clear (d : Device) :
    (eeprom_clear c d).flash c =
      (FLASH_Lock (FLASH_ProgramHalfWord (c.FEE_WRITE_LOG_BASE_ADDRESS + 2)
        (UInt16.ofNat (FEE_MAGIC_DWORD >>> 16)) (FLASH_ProgramHalfWord c.FEE_WRITE_LOG_BASE_ADDRESS
          (UInt16.ofNat (FEE_MAGIC_DWORD &&& 0xffff))
            (erasePages c c.FEE_PAGE_COUNT 0 (FLASH_Unlock d))).2).2).flash c := rfl

/-- `eeprom_clear` erases the whole region; only the two magic half-words are programmed. -/
theorem flash_eeprom_clear_of_ne (d : Device) {a : Nat} (low : a ≠ c.FEE_WRITE_LOG_BASE_ADDRESS)
    (high : a ≠ c.FEE_WRITE_LOG_BASE_ADDRESS + 2) :
    (eeprom_clear c d).flash c a =
      if c.FEE_PAGE_BASE_ADDRESS ≤ a ∧ a < c.regionEnd then 0xFFFF else d.flash c a := by
  simp only [eeprom_clear, Device.flash_with_slot, FLASH_Lock, FLASH_ProgramHalfWord,
    Device.flash_record, FlashOp.apply_lock, FlashOp.apply_program_of_ne _ _ _ _ high,
    FlashOp.apply_program_of_ne _ _ _ _ low, flash_erasePages, FLASH_Unlock, FlashOp.apply_unlock,
    Nat.zero_mul, Nat.add_zero, Nat.zero_add, Config.regionEnd, Config.FEE_DENSITY_MAX_SIZE]

end Clear

section Init

variable (c : Config)

/-- The RAM image and the empty slot that replaying flash `f` gives over RAM contents
`buf`: the complemented snapshot, then the decoded log. -/
def replayImage (f : Flash) (buf : Memory) : Memory × Nat :=
  (applyEntries c (decodeLog f c.logSlots c.firstSlot).1
      (loadSnapshot f (c.FEE_DENSITY_BYTES / 2) c.FEE_COMPACTED_BASE_ADDRESS 0 buf),
    (decodeLog f c.logSlots c.firstSlot).2)

theorem readWord_congr {d d' : Device} (addr : Nat) (same : d'.flash c = d.flash c) :
    readWord c addr d' = readWord c addr d := by
  simp only [readWord, same]

/-- On flash that carries the magic, `EEPROM_Init` replays the flash and leaves it alone. -/
theorem EEPROM_Init_of_magic (m : Machine)
    (magic : readWord c c.FEE_WRITE_LOG_BASE_ADDRESS m.dev = FEE_MAGIC_DWORD) :
    (EEPROM_Init c m).2.DataBuf = (replayImage c (m.dev.flash c) m.DataBuf).1 ∧
    (EEPROM_Init c m).2.dev.empty_slot = (replayImage c (m.dev.flash c) m.DataBuf).2 ∧
    (EEPROM_Init c m).2.dev.flash c = m.dev.flash c := by
  simp only [EEPROM_Init]
  generalize hL : loadCompacted c (c.FEE_DENSITY_BYTES / 2) c.FEE_COMPACTED_BASE_ADDRESS 0
    m.DataBuf m.dev = L
  obtain ⟨image, loads⟩ := hL ▸ loadCompacted_spec c (c.FEE_DENSITY_BYTES / 2)
    c.FEE_COMPACTED_BASE_ADDRESS 0 m.DataBuf m.dev
  have same := loads.flash c
  have magic' := (readWord_congr c c.FEE_WRITE_LOG_BASE_ADDRESS same).trans magic
  obtain ⟨stop, replayed, loads'⟩ :=
    replayWriteLog_spec c c.logSlots c.firstSlot L.1 (load c.FEE_WRITE_LOG_BASE_ADDRESS 4 L.2)
  rw [flash_load, same] at stop replayed
  simp only [magic', ne_eq, not_true_eq_false, if_false, replayImage]
  exact ⟨replayed.trans (by rw [image]), stop,
    (loads'.flash c).trans ((flash_load c _ _ _).trans same)⟩

/-- Without the magic, `EEPROM_Init` clears the region after it has loaded the snapshot, and
replays the cleared log over the snapshot it loaded. -/
theorem EEPROM_Init_of_no_magic (m : Machine)
    (noMagic : readWord c c.FEE_WRITE_LOG_BASE_ADDRESS m.dev ≠ FEE_MAGIC_DWORD) :
    ∃ d, m.dev.Loads d ∧
      (EEPROM_Init c m).2.DataBuf =
        applyEntries c (decodeLog ((eeprom_clear c d).flash c) c.logSlots c.firstSlot).1
          (loadSnapshot (m.dev.flash c) (c.FEE_DENSITY_BYTES / 2) c.FEE_COMPACTED_BASE_ADDRESS 0
            m.DataBuf) ∧
      (EEPROM_Init c m).2.dev.empty_slot =
        (decodeLog ((eeprom_clear c d).flash c) c.logSlots c.firstSlot).2 ∧
      (EEPROM_Init c m).2.dev.flash c = (eeprom_clear c d).flash c := by
  simp only [EEPROM_Init]
  generalize hL : loadCompacted c (c.FEE_DENSITY_BYTES / 2) c.FEE_COMPACTED_BASE_ADDRESS 0
    m.DataBuf m.dev = L
  obtain ⟨image, loads⟩ := hL ▸ loadCompacted_spec c (c.FEE_DENSITY_BYTES / 2)
    c.FEE_COMPACTED_BASE_ADDRESS 0 m.DataBuf m.dev
  have noMagic' : readWord c c.FEE_WRITE_LOG_BASE_ADDRESS L.2 ≠ FEE_MAGIC_DWORD := by
    rwa [readWord_congr c _ (loads.flash c)]
  obtain ⟨stop, replayed, loads'⟩ := replayWriteLog_spec c c.logSlots c.firstSlot L.1
    (eeprom_clear c (load c.FEE_WRITE_LOG_BASE_ADDRESS 4 L.2))
  simp only [noMagic', ne_eq, not_false_eq_true, if_true]
  exact ⟨_, loads.trans (.load _ _ _), replayed.trans (by rw [image]), stop, loads'.flash c⟩

end Init

end PicoEeprom
