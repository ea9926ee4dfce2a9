import PicoEeprom.Flash

/-! The persistence engine of `eeprom.c`, one definition per C function under its own
name. The RAM image `DataBuf` is passed to the persistence functions, which read it and
never write it; they change only the flash side. A load reads `d.flash c addr` and
records the access. Loops run over iteration counts taken from their bounds, and
`uint16_t` arithmetic stays below `2^16` except in `Address -= FEE_BYTE_RANGE`, which
is reduced modulo `2^16`. -/
namespace PicoEeprom

/-- The engine's state: `DataBuf` (and the memory after it) and the flash side. -/
structure Machine where
  DataBuf : Memory
  dev : Device

/-- The state after reset on an erased flash whose driver completes every call: static
RAM is zero and `empty_slot` is null. -/
def Machine.erased : Machine := ⟨fun _ => 0, ⟨fun _ => 0xFFFF, [], fun _ => .FLASH_COMPLETE, 0⟩⟩

namespace Config

variable (c : Config)

/-- The number of write-log slots after the magic word. -/
def logSlots : Nat := (c.FEE_WRITE_LOG_LAST_ADDRESS - c.firstSlot) / 2

end Config

section Engine

variable (c : Config)

/-- The page loop of `eeprom_clear`. -/
def erasePages : (n page_num : Nat) → Device → Device
  | 0, _, d => d
  | n + 1, page_num, d =>
    erasePages n (page_num + 1)
      (FLASH_ErasePage (c.FEE_PAGE_BASE_ADDRESS + page_num * c.FEE_PAGE_SIZE) d)

/-- Erase every page, program the magic at the log base, and point `empty_slot` at the
log base. The statuses of both programs are dropped. -/
def eeprom_clear (d : Device) : Device :=
  let d := erasePages c c.FEE_PAGE_COUNT 0 (FLASH_Unlock d)
  let d := (FLASH_ProgramHalfWord c.FEE_WRITE_LOG_BASE_ADDRESS
    (UInt16.ofNat (FEE_MAGIC_DWORD &&& 0xffff)) d).2
  let d := (FLASH_ProgramHalfWord (c.FEE_WRITE_LOG_BASE_ADDRESS + 2)
    (UInt16.ofNat (FEE_MAGIC_DWORD >>> 16)) d).2
  { FLASH_Lock d with empty_slot := c.FEE_WRITE_LOG_BASE_ADDRESS }

/-- The compacted-area load of `EEPROM_Init`: `*dest = ~*src`, one half-word at a time. -/
def loadCompacted : (n src dest : Nat) → Memory → Device → Memory × Device
  | 0, _, _, buf, d => (buf, d)
  | n + 1, src, dest, buf, d =>
    loadCompacted n (src + 2) (dest + 2) (storeWord buf dest (0xFFFF - (d.flash c src).toNat))
      (load src 2 d)

/-- A decoded word entry is stored only inside the image. -/
def setDataWord (buf : Memory) (address wvalue : Nat) : Memory :=
  if address < c.FEE_DENSITY_BYTES then storeWord buf address wvalue else buf

/-- The write-log replay of `EEPROM_Init` over the `n` slots left before
`FEE_WRITE_LOG_LAST_ADDRESS`; answers the slot where it stopped. -/
def replayWriteLog : (n log_addr : Nat) → Memory → Device → Nat × Memory × Device
  | 0, log_addr, buf, d => (log_addr, buf, d)
  | n + 1, log_addr, buf, d =>
    let address := (d.flash c log_addr).toNat
    let d := load log_addr 2 d
    if address = FEE_EMPTY_WORD.toNat then (log_addr, buf, d)
    else if address &&& FEE_WORD_ENCODING = 0 then
      replayWriteLog n (log_addr + 2) (Function.update buf (address >>> 8) (UInt8.ofNat address)) d
    else if address &&& FEE_VALUE_NEXT = FEE_VALUE_NEXT then
      match n with
      | 0 => (log_addr + 2, buf, d)
      | n + 1 =>
        let wvalue := 0xFFFF - (d.flash c (log_addr + 2)).toNat
        let d := load (log_addr + 2) 2 d
        if wvalue = 0 then replayWriteLog n (log_addr + 4) buf d
        else
          replayWriteLog n (log_addr + 4)
            (setDataWord c buf (((address &&& 0x1FFF) <<< 1) + FEE_BYTE_RANGE) wvalue) d
    else if address &&& FEE_VALUE_RESERVED ≠ 0 then replayWriteLog n (log_addr + 2) buf d
    else
      replayWriteLog n (log_addr + 2)
        (setDataWord c buf ((address &&& 0x1FFF) <<< 1) ((address &&& FEE_VALUE_ENCODED) >>> 13)) d

def EEPROM_Init (m : Machine) : Nat × Machine :=
  let loaded := loadCompacted c (c.FEE_DENSITY_BYTES / 2) c.FEE_COMPACTED_BASE_ADDRESS 0
    m.DataBuf m.dev
  let magic := readWord c c.FEE_WRITE_LOG_BASE_ADDRESS loaded.2
  let d := load c.FEE_WRITE_LOG_BASE_ADDRESS 4 loaded.2
  let d := if magic ≠ FEE_MAGIC_DWORD then eeprom_clear c d else d
  let replayed := replayWriteLog c c.logSlots c.firstSlot loaded.1 d
  (c.FEE_DENSITY_BYTES, ⟨replayed.2.1, { replayed.2.2 with empty_slot := replayed.1 }⟩)

def EEPROM_Erase (m : Machine) : Machine :=
  (EEPROM_Init c ⟨m.DataBuf, eeprom_clear c m.dev⟩).2

/-- The rewrite loop of `eeprom_compact`: `~value` for every non-zero half-word of the
image; a failing status replaces the one kept so far. -/
def compactLoop (buf : Memory) : (n src dest : Nat) → FLASH_Status → Device → FLASH_Status × Device
  | 0, _, _, final_status, d => (final_status, d)
  | n + 1, src, dest, final_status, d =>
    let value := wordAt buf src
    if value ≠ 0 then
      let programmed := FLASH_ProgramHalfWord dest (UInt16.ofNat (0xFFFF - value)) d
      compactLoop buf n (src + 2) (dest + 2)
        (if programmed.1 ≠ .FLASH_COMPLETE then programmed.1 else final_status) programmed.2
    else compactLoop buf n (src + 2) (dest + 2) final_status d

def eeprom_compact (buf : Memory) (d : Device) : Option FLASH_Status × Device :=
  let d := FLASH_Unlock (eeprom_clear c d)
  let rewritten :=
    compactLoop buf (c.FEE_DENSITY_BYTES / 2) 0 c.FEE_COMPACTED_BASE_ADDRESS .FLASH_COMPLETE d
  (some rewritten.1, FLASH_Lock rewritten.2)

def eeprom_write_direct_entry (buf : Memory) (Address : Nat) (d : Device) :
    Option FLASH_Status × Device :=
  let directAddress := c.FEE_COMPACTED_BASE_ADDRESS + (Address &&& 0xFFFE)
  let current := d.flash c directAddress
  let d := load directAddress 2 d
  if current = FEE_EMPTY_WORD then
    let value := UInt16.ofNat (0xFFFF - wordAt buf (Address &&& 0xFFFE))
    if value = FEE_EMPTY_WORD then (some .FLASH_COMPLETE, d)
    else
      let programmed := FLASH_ProgramHalfWord directAddress value (FLASH_Unlock d)
      (some programmed.1, FLASH_Lock programmed.2)
  else (none, d)

def eeprom_write_log_word_entry (buf : Memory) (Address : Nat) (d : Device) :
    Option FLASH_Status × Device :=
  let value := wordAt buf Address
  let encoding :=
    if value ≤ 1 then FEE_WORD_ENCODING ||| value <<< 13 else FEE_WORD_ENCODING ||| FEE_VALUE_NEXT
  let entry_size := if value ≤ 1 then 2 else 4
  let Address := if value ≤ 1 then Address else (Address + 0x10000 - FEE_BYTE_RANGE) % 0x10000
  if d.empty_slot > c.FEE_WRITE_LOG_LAST_ADDRESS - entry_size then eeprom_compact c buf d
  else
    let d := FLASH_Unlock d
    let first := FLASH_ProgramHalfWord d.empty_slot (UInt16.ofNat ((Address >>> 1) ||| encoding))
      { d with empty_slot := d.empty_slot + 2 }
    let d := first.2
    let final :=
      if encoding = FEE_WORD_ENCODING ||| FEE_VALUE_NEXT then
        let second := FLASH_ProgramHalfWord d.empty_slot (UInt16.ofNat (0xFFFF - value))
          { d with empty_slot := d.empty_slot + 2 }
        (if second.1 ≠ .FLASH_COMPLETE then second.1 else first.1, second.2)
      else (first.1, d)
    (some final.1, FLASH_Lock final.2)

def eeprom_write_log_byte_entry (buf : Memory) (Address : Nat) (d : Device) :
    Option FLASH_Status × Device :=
  if d.empty_slot ≥ c.FEE_WRITE_LOG_LAST_ADDRESS then eeprom_compact c buf d
  else
    let d := FLASH_Unlock d
    let value := (Address <<< 8) ||| (buf Address).toNat
    let programmed := FLASH_ProgramHalfWord d.empty_slot (UInt16.ofNat value)
      { d with empty_slot := d.empty_slot + 2 }
    (some programmed.1, FLASH_Lock programmed.2)

def EEPROM_WriteDataByte (Address : Nat) (DataByte : UInt8) (m : Machine) :
    Option FLASH_Status × Machine :=
  if Address ≥ c.FEE_DENSITY_BYTES then (some .FLASH_BAD_ADDRESS, m)
  else if m.DataBuf Address = DataByte then (none, m)
  else
    let buf := Function.update m.DataBuf Address DataByte
    let direct := eeprom_write_direct_entry c buf Address m.dev
    let written :=
      if direct.1 = none then
        if Address < FEE_BYTE_RANGE then eeprom_write_log_byte_entry c buf Address direct.2
        else eeprom_write_log_word_entry c buf (Address &&& 0xFFFE) direct.2
      else direct
    (written.1, ⟨buf, written.2⟩)

def EEPROM_WriteDataWord (Address : Nat) (DataWord : UInt16) (m : Machine) :
    Option FLASH_Status × Machine :=
  if Address ≥ c.FEE_DENSITY_BYTES then (some .FLASH_BAD_ADDRESS, m)
  else if Address % 2 = 1 then
    let low := EEPROM_WriteDataByte c Address (UInt8.ofNat DataWord.toNat) m
    let high := EEPROM_WriteDataByte c (Address + 1) (UInt8.ofNat (DataWord.toNat >>> 8)) low.2
    (if high.1 ≠ some .FLASH_COMPLETE then high.1 else low.1, high.2)
  else
    let oldValue := wordAt m.DataBuf Address
    if oldValue = DataWord.toNat then (none, m)
    else
      let buf := storeWord m.DataBuf Address DataWord.toNat
      let direct := eeprom_write_direct_entry c buf Address m.dev
      let written :=
        if direct.1 = none then
          if Address < FEE_BYTE_RANGE then
            let low :=
              if oldValue % 256 ≠ DataWord.toNat % 256 then
                eeprom_write_log_byte_entry c buf Address direct.2
              else (some .FLASH_COMPLETE, direct.2)
            let high :=
              if oldValue >>> 8 ≠ DataWord.toNat >>> 8 then
                eeprom_write_log_byte_entry c buf (Address + 1) low.2
              else (some .FLASH_COMPLETE, low.2)
            (if high.1 ≠ some .FLASH_COMPLETE then high.1 else low.1, high.2)
          else eeprom_write_log_word_entry c buf Address direct.2
        else direct
      (written.1, ⟨buf, written.2⟩)

def EEPROM_ReadDataByte (Address : Nat) (m : Machine) : UInt8 :=
  if Address < c.FEE_DENSITY_BYTES then m.DataBuf Address else 0xFF

def EEPROM_ReadDataWord (Address : Nat) (m : Machine) : UInt16 :=
  if Address < c.FEE_DENSITY_BYTES - 1 then
    if Address % 2 = 1 then
      UInt16.ofNat ((m.DataBuf Address).toNat ||| (m.DataBuf (Address + 1)).toNat <<< 8)
    else UInt16.ofNat (wordAt m.DataBuf Address)
  else 0xFFFF

end Engine

end PicoEeprom
