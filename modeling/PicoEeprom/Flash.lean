import PicoEeprom.Memory

/-! The flash driver as the engine sees it. Every access the engine makes, a
memory-mapped load or a driver call, is recorded in a trace together with the status
the driver answered, and the flash contents are what the trace leaves of the contents it
started from. The driver's answers are a free parameter, so every sequence of statuses
is covered. Reads go through the XIP window; addresses here are flash offsets. -/
namespace PicoEeprom

/-- Flash contents: the half-word stored at each byte offset. -/
abbrev Flash := Nat → UInt16

/-- One access of the engine to the flash: a load of `width` bytes, or a driver call. -/
inductive FlashOp where
  | read (addr width : Nat)
  | unlock
  | lock
  | erasePage (addr : Nat)
  | programHalfWord (addr : Nat) (value : UInt16) (status : FLASH_Status)
  deriving DecidableEq, Repr

/-- An erase sets one page to `0xFFFF`; a completed program clears the bits that are `0`
in `value` (NOR programming); a failed program is taken to change nothing. -/
def FlashOp.apply (c : Config) : FlashOp → Flash → Flash
  | .erasePage addr, f => fun a => if addr ≤ a ∧ a < addr + c.FEE_PAGE_SIZE then 0xFFFF else f a
  | .programHalfWord addr value .FLASH_COMPLETE, f => Function.update f addr (f addr &&& value)
  | _, f => f

section Apply

variable (c : Config) (f : Flash)

@[simp] theorem FlashOp.apply_read (addr width : Nat) : (FlashOp.read addr width).apply c f = f := rfl

@[simp] theorem FlashOp.apply_unlock : FlashOp.unlock.apply c f = f := rfl

@[simp] theorem FlashOp.apply_lock : FlashOp.lock.apply c f = f := rfl

theorem FlashOp.apply_erasePage (addr a : Nat) :
    (FlashOp.erasePage addr).apply c f a =
      if addr ≤ a ∧ a < addr + c.FEE_PAGE_SIZE then 0xFFFF else f a := rfl

theorem FlashOp.apply_program_complete (addr : Nat) (value : UInt16) :
    (FlashOp.programHalfWord addr value .FLASH_COMPLETE).apply c f =
      Function.update f addr (f addr &&& value) := rfl

/-- A program leaves every other half-word alone, whatever the driver answered. -/
theorem FlashOp.apply_program_of_ne {addr a : Nat} (value : UInt16) (status : FLASH_Status)
    (other : a ≠ addr) : (FlashOp.programHalfWord addr value status).apply c f a = f a := by
  cases status <;> simp [FlashOp.apply, Function.update_noteq other]

end Apply

/-- The flash side of the engine: the flash contents before `trace`, the accesses made
since, the status the driver answers to a call at each trace position, and the static
`empty_slot` pointer, which only the persistence functions move. -/
structure Device where
  initial : Flash
  trace : List FlashOp
  driver : Nat → FLASH_Status
  empty_slot : Nat

namespace Device

def flash (c : Config) (d : Device) : Flash := d.trace.foldl (fun f op => op.apply c f) d.initial

def record (op : FlashOp) (d : Device) : Device := { d with trace := d.trace ++ [op] }

variable (c : Config) (d : Device) (op : FlashOp)

@[simp] theorem flash_record : (d.record op).flash c = op.apply c (d.flash c) := by
  simp [flash, record]

@[simp] theorem trace_record : (d.record op).trace = d.trace ++ [op] := rfl

@[simp] theorem driver_record : (d.record op).driver = d.driver := rfl

@[simp] theorem empty_slot_record : (d.record op).empty_slot = d.empty_slot := rfl

@[simp] theorem initial_record : (d.record op).initial = d.initial := rfl

@[simp] theorem flash_with_slot (s : Nat) : ({ d with empty_slot := s } : Device).flash c = d.flash c :=
  rfl

end Device

section Driver

variable (c : Config)

/-- A memory-mapped load: the value is `d.flash c addr`, and the access is recorded. -/
def load (addr width : Nat) (d : Device) : Device := d.record (.read addr width)

/-- `*(uint32_t *)(addr + XIP_BASE)`: two half-words, little-endian. -/
def readWord (addr : Nat) (d : Device) : Nat :=
  (d.flash c addr).toNat + 0x10000 * (d.flash c (addr + 2)).toNat

def FLASH_Unlock (d : Device) : Device := d.record .unlock

def FLASH_Lock (d : Device) : Device := d.record .lock

def FLASH_ErasePage (addr : Nat) (d : Device) : Device := d.record (.erasePage addr)

section Bracket

variable (d : Device)

@[simp] theorem flash_unlock : (FLASH_Unlock d).flash c = d.flash c := by simp [FLASH_Unlock]

@[simp] theorem flash_lock : (FLASH_Lock d).flash c = d.flash c := by simp [FLASH_Lock]

@[simp] theorem driver_unlock : (FLASH_Unlock d).driver = d.driver := rfl

@[simp] theorem driver_lock : (FLASH_Lock d).driver = d.driver := rfl

@[simp] theorem empty_slot_unlock : (FLASH_Unlock d).empty_slot = d.empty_slot := rfl

@[simp] theorem empty_slot_lock : (FLASH_Lock d).empty_slot = d.empty_slot := rfl

end Bracket

def FLASH_ProgramHalfWord (addr : Nat) (value : UInt16) (d : Device) : FLASH_Status × Device :=
  let status := d.driver d.trace.length
  (status, d.record (.programHalfWord addr value status))

end Driver

end PicoEeprom
