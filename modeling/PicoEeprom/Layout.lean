import Mathlib.Data.Nat.Bitwise

/-! Compile-time layout of the flash-backed EEPROM emulation of `eeprom.c`: the
configuration macros with the preprocessor's checks, the addresses derived from them,
the encoding constants of the write log, and the status codes the engine returns.
Defaults are taken as resolved values; `FEE_DENSITY_BYTES` equal to the whole region
only warns in the source, so it is admitted. -/
namespace PicoEeprom

/-- The configuration macros. Each proof field is one `#error` check of the source,
applied to the resolved value, together with the documented 16384-byte limit. -/
structure Config where
  FEE_PAGE_SIZE : Nat
  FEE_PAGE_COUNT : Nat
  FEE_PAGE_BASE_ADDRESS : Nat
  FEE_DENSITY_BYTES : Nat
  FEE_WRITE_LOG_BYTES : Nat
  density_le_max : FEE_DENSITY_BYTES ≤ FEE_PAGE_COUNT * FEE_PAGE_SIZE
  density_le_address_max : FEE_DENSITY_BYTES ≤ 0x4000
  density_even : FEE_DENSITY_BYTES % 2 = 0
  log_le_max : FEE_DENSITY_BYTES + FEE_WRITE_LOG_BYTES ≤ FEE_PAGE_COUNT * FEE_PAGE_SIZE
  log_even : FEE_WRITE_LOG_BYTES % 2 = 0

namespace Config

variable (c : Config)

def FEE_DENSITY_MAX_SIZE : Nat := c.FEE_PAGE_COUNT * c.FEE_PAGE_SIZE

def FEE_COMPACTED_BASE_ADDRESS : Nat := c.FEE_PAGE_BASE_ADDRESS

def FEE_COMPACTED_LAST_ADDRESS : Nat := c.FEE_COMPACTED_BASE_ADDRESS + c.FEE_DENSITY_BYTES

def FEE_WRITE_LOG_BASE_ADDRESS : Nat := c.FEE_COMPACTED_LAST_ADDRESS

def FEE_WRITE_LOG_LAST_ADDRESS : Nat := c.FEE_WRITE_LOG_BASE_ADDRESS + c.FEE_WRITE_LOG_BYTES

/-- The first slot after the magic word, where replay starts. -/
def firstSlot : Nat := c.FEE_WRITE_LOG_BASE_ADDRESS + 4

/-- The end of the flash region the engine owns. -/
def regionEnd : Nat := c.FEE_PAGE_BASE_ADDRESS + c.FEE_DENSITY_MAX_SIZE

theorem log_last_le_region_end : c.FEE_WRITE_LOG_LAST_ADDRESS ≤ c.regionEnd := by
  have := c.log_le_max
  simp only [FEE_WRITE_LOG_LAST_ADDRESS, FEE_WRITE_LOG_BASE_ADDRESS, FEE_COMPACTED_LAST_ADDRESS,
    FEE_COMPACTED_BASE_ADDRESS, regionEnd, FEE_DENSITY_MAX_SIZE]
  omega

end Config

def FEE_WORD_ENCODING : Nat := 0x8000

def FEE_VALUE_NEXT : Nat := 0x6000

def FEE_VALUE_RESERVED : Nat := 0x4000

def FEE_VALUE_ENCODED : Nat := 0x2000

def FEE_BYTE_RANGE : Nat := 0x80

def FEE_EMPTY_WORD : UInt16 := 0xFFFF

def FEE_MAGIC_DWORD : Nat := 0x20400FEE

/-- Modelled from the spec: `FLASH_Status` is declared in `flash_pico.h`, which is not
among the sources. The driver answers `FLASH_COMPLETE` or an error code, and the engine
adds `FLASH_BAD_ADDRESS`; none of them is the `0` the engine returns when it wrote
nothing, so the engine's `uint8_t` result is an `Option FLASH_Status`. -/
inductive FLASH_Status where
  | FLASH_COMPLETE
  | FLASH_BAD_ADDRESS
  | error (code : Nat)
  deriving DecidableEq, Repr

end PicoEeprom

namespace PicoEeprom.Config

/-- One 16-byte page: a 4-byte store and a 12-byte write log (the magic and four slots). -/
def small : Config where
  FEE_PAGE_SIZE := 16
  FEE_PAGE_COUNT := 1
  FEE_PAGE_BASE_ADDRESS := 0
  FEE_DENSITY_BYTES := 4
  FEE_WRITE_LOG_BYTES := 12
  density_le_max := by decide
  density_le_address_max := by decide
  density_even := by decide
  log_le_max := by decide
  log_even := by decide

/-- A store filling its whole 4-byte page, which the source only warns about. -/
def noLog : Config where
  FEE_PAGE_SIZE := 4
  FEE_PAGE_COUNT := 1
  FEE_PAGE_BASE_ADDRESS := 0
  FEE_DENSITY_BYTES := 4
  FEE_WRITE_LOG_BYTES := 0
  density_le_max := by decide
  density_le_address_max := by decide
  density_even := by decide
  log_le_max := by decide
  log_even := by decide

end PicoEeprom.Config
