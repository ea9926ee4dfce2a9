import PicoEeprom.Engine

/-! The AVR-style wrappers at the end of `eeprom.c`. A pointer is a `uintptr_t` offset
into the emulated EEPROM and reaches the engine truncated to its `uint16_t` address.
The block operations walk a caller's buffer, given as byte memory and a pointer into it:
an unaligned first byte, then half-words, then a trailing byte. Writes discard the
engine's status, as the `void` wrappers do. -/
namespace PicoEeprom

/-- `(uint16_t)(uintptr_t)Address`. -/
def address16 (p : Nat) : Nat := p % 0x10000

section Api

variable (c : Config)

def eeprom_read_byte (Address : Nat) (m : Machine) : UInt8 :=
  EEPROM_ReadDataByte c (address16 Address) m

def eeprom_write_byte (Address : Nat) (Value : UInt8) (m : Machine) : Machine :=
  (EEPROM_WriteDataByte c (address16 Address) Value m).2

def eeprom_update_byte (Address : Nat) (Value : UInt8) (m : Machine) : Machine :=
  (EEPROM_WriteDataByte c (address16 Address) Value m).2

def eeprom_read_word (Address : Nat) (m : Machine) : UInt16 :=
  EEPROM_ReadDataWord c (address16 Address) m

def eeprom_write_word (Address : Nat) (Value : UInt16) (m : Machine) : Machine :=
  (EEPROM_WriteDataWord c (address16 Address) Value m).2

def eeprom_update_word (Address : Nat) (Value : UInt16) (m : Machine) : Machine :=
  (EEPROM_WriteDataWord c (address16 Address) Value m).2

def eeprom_read_dword (Address : Nat) (m : Machine) : UInt32 :=
  let p := address16 Address
  if p % 2 = 1 then
    UInt32.ofNat ((EEPROM_ReadDataByte c p m).toNat |||
      (EEPROM_ReadDataWord c (address16 (p + 1)) m).toNat <<< 8 |||
      (EEPROM_ReadDataByte c (address16 (p + 3)) m).toNat <<< 24)
  else
    UInt32.ofNat ((EEPROM_ReadDataWord c p m).toNat |||
      (EEPROM_ReadDataWord c (address16 (p + 2)) m).toNat <<< 16)

def eeprom_write_dword (Address : Nat) (Value : UInt32) (m : Machine) : Machine :=
  let p := address16 Address
  if p % 2 = 1 then
    let m := (EEPROM_WriteDataByte c p (UInt8.ofNat Value.toNat) m).2
    let m := (EEPROM_WriteDataWord c (address16 (p + 1)) (UInt16.ofNat (Value.toNat >>> 8)) m).2
    (EEPROM_WriteDataByte c (address16 (p + 3)) (UInt8.ofNat (Value.toNat >>> 24)) m).2
  else
    let m := (EEPROM_WriteDataWord c p (UInt16.ofNat Value.toNat) m).2
    (EEPROM_WriteDataWord c (address16 (p + 2)) (UInt16.ofNat (Value.toNat >>> 16)) m).2

def eeprom_update_dword (Address : Nat) (Value : UInt32) (m : Machine) : Machine :=
  eeprom_write_dword c Address Value m

/-- The `while (len > 1)` loop of `eeprom_read_block` with the trailing byte after it. -/
def readBlockLoop (m : Machine) (aligned : Bool) : (len src dest : Nat) → Memory → Memory
  | len + 2, src, dest, mem =>
    let value := (eeprom_read_word c src m).toNat
    let mem :=
      if aligned then storeWord mem dest value
      else Function.update (Function.update mem dest (UInt8.ofNat value)) (dest + 1)
        (UInt8.ofNat (value >>> 8))
    readBlockLoop m aligned len (src + 2) (dest + 2) mem
  | 1, src, dest, mem => Function.update mem dest (eeprom_read_byte c src m)
  | 0, _, _, mem => mem

/-- Read `len` bytes from `addr` into the caller's memory at `buf`: an unaligned first
byte, then the loop, whose half-word stores depend on the alignment of `dest`. -/
def eeprom_read_block (mem : Memory) (buf addr len : Nat) (m : Machine) : Memory :=
  if len ≠ 0 ∧ addr % 2 = 1 then
    readBlockLoop c m ((buf + 1) % 2 == 0) (len - 1) (addr + 1) (buf + 1)
      (Function.update mem buf (eeprom_read_byte c addr m))
  else readBlockLoop c m (buf % 2 == 0) len addr buf mem

/-- The `while (len > 1)` loop of `eeprom_write_block` with the trailing byte after it. -/
def writeBlockLoop (mem : Memory) (aligned : Bool) : (len dest src : Nat) → Machine → Machine
  | len + 2, dest, src, m =>
    let value := if aligned then wordAt mem src else (mem src).toNat ||| (mem (src + 1)).toNat <<< 8
    writeBlockLoop mem aligned len (dest + 2) (src + 2) (eeprom_write_word c dest (UInt16.ofNat value) m)
  | 1, dest, src, m => eeprom_write_byte c dest (mem src) m
  | 0, _, _, m => m

/-- Write the `len` bytes of the caller's memory at `buf` to `addr`: an unaligned first
byte, then the loop, whose half-word loads depend on the alignment of `src`. -/
def eeprom_write_block (mem : Memory) (buf addr len : Nat) (m : Machine) : Machine :=
  if len ≠ 0 ∧ addr % 2 = 1 then
    writeBlockLoop c mem ((buf + 1) % 2 == 0) (len - 1) (addr + 1) (buf + 1)
      (eeprom_write_byte c addr (mem buf) m)
  else writeBlockLoop c mem (buf % 2 == 0) len addr buf m

def eeprom_update_block (mem : Memory) (buf addr len : Nat) (m : Machine) : Machine :=
  eeprom_write_block c mem buf addr len m

end Api

end PicoEeprom
