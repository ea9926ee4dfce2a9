import PicoEeprom.Cache

/-! The AVR-style API refines a little-endian byte array. A write call stores its bytes at
consecutive addresses and leaves every other byte alone, whatever the alignment of the
address, the block length or the alignment of the caller's buffer; the reads answer the
little-endian composition of the bytes `EEPROM_ReadDataByte` answers. -/
namespace PicoEeprom

/-- `bytes` stored at consecutive addresses from `addr`. -/
def storeBytes (arr : Memory) (addr : Nat) : List UInt8 → Memory
  | [] => arr
  | b :: bs => storeBytes (Function.update arr addr b) (addr + 1) bs

/-- The `width` little-endian bytes of `value`. -/
def leBytes (value width : Nat) : List UInt8 :=
  (List.range width).map fun i => UInt8.ofNat (value >>> (8 * i))

/-- The value of little-endian `bytes`. -/
def leValue : List UInt8 → Nat
  | [] => 0
  | b :: bs => b.toNat + 256 * leValue bs

/-- The `len` bytes of `mem` from `a` on. -/
def spanOf (mem : Memory) (a len : Nat) : List UInt8 := (List.range len).map fun i => mem (a + i)

/-- One call of the write API. -/
inductive ApiWrite where
  | write_byte (Address : Nat) (Value : UInt8)
  | update_byte (Address : Nat) (Value : UInt8)
  | write_word (Address : Nat) (Value : UInt16)
  | update_word (Address : Nat) (Value : UInt16)
  | write_dword (Address : Nat) (Value : UInt32)
  | update_dword (Address : Nat) (Value : UInt32)
  | write_block (mem : Memory) (buf Address len : Nat)
  | update_block (mem : Memory) (buf Address len : Nat)

namespace ApiWrite

def run (c : Config) : ApiWrite → Machine → Machine
  | write_byte a v => eeprom_write_byte c a v
  | update_byte a v => eeprom_update_byte c a v
  | write_word a v => eeprom_write_word c a v
  | update_word a v => eeprom_update_word c a v
  | write_dword a v => eeprom_write_dword c a v
  | update_dword a v => eeprom_update_dword c a v
  | write_block mem buf a len => eeprom_write_block c mem buf a len
  | update_block mem buf a len => eeprom_update_block c mem buf a len

def address : ApiWrite → Nat
  | write_byte a _ | update_byte a _ | write_word a _ | update_word a _
  | write_dword a _ | update_dword a _ | write_block _ _ a _ | update_block _ _ a _ => a

/-- The bytes a call stores, in address order. -/
def bytes : ApiWrite → List UInt8
  | write_byte _ v | update_byte _ v => [v]
  | write_word _ v | update_word _ v => leBytes v.toNat 2
  | write_dword _ v | update_dword _ v => leBytes v.toNat 4
  | write_block mem buf _ len | update_block mem buf _ len => spanOf mem buf len

end ApiWrite

theorem storeBytes_append (arr : Memory) (addr : Nat) (xs ys : List UInt8) :
    storeBytes arr addr (xs ++ ys) = storeBytes (storeBytes arr addr xs) (addr + xs.length) ys := by
  induction xs generalizing arr addr with
  | nil => rfl
  | cons x xs ih =>
    rw [List.cons_append, storeBytes, storeBytes, ih, List.length_cons,
      show addr + 1 + xs.length = addr + (xs.length + 1) by omega]

theorem uint8_ofNat_congr {x y : Nat} (h : x % 256 = y % 256) : UInt8.ofNat x = UInt8.ofNat y :=
  UInt8.toNat.inj (by rw [toNat_ofNat_uint8, toNat_ofNat_uint8, h])

theorem leBytes_two (v : Nat) : leBytes v 2 = [UInt8.ofNat v, UInt8.ofNat (v >>> 8)] := rfl

theorem leBytes_four (v : Nat) : leBytes v 4 =
    [UInt8.ofNat v, UInt8.ofNat (v >>> 8), UInt8.ofNat (v >>> 16), UInt8.ofNat (v >>> 24)] := rfl

theorem storeWord_eq_storeBytes (buf : Memory) (a : Nat) (v : UInt16) :
    storeWord buf a v.toNat = storeBytes buf a (leBytes v.toNat 2) := by
  rw [storeWord_eq_update, leBytes_two]
  rfl

theorem spanOf_succ (mem : Memory) (a len : Nat) :
    spanOf mem a (len + 1) = mem a :: spanOf mem (a + 1) len := by
  simp only [spanOf, List.range_succ_eq_map, List.map_cons, List.map_map, Nat.add_zero]
  congr 1
  exact List.map_congr_left fun i _ => congrArg mem (by omega)

theorem or_shift_eq_wordAt (mem : Memory) (a : Nat) :
    (mem a).toNat ||| (mem (a + 1)).toNat <<< 8 = wordAt mem a :=
  or_shiftLeft_eq_add _ 8 (mem a).toNat_lt_size

theorem leBytes_wordAt (mem : Memory) (a : Nat) :
    leBytes (UInt16.ofNat (wordAt mem a)).toNat 2 = [mem a, mem (a + 1)] := by
  rw [toNat_ofNat_uint16, Nat.mod_eq_of_lt (wordAt_lt mem a), leBytes_two, Nat.shiftRight_eq_div_pow,
    ofNat_wordAt, ofNat_wordAt_div]

section Writes

variable {c : Config}

theorem address16_of_lt (c : Config) {a : Nat} (range : a < c.FEE_DENSITY_BYTES) :
    address16 a = a :=
  Nat.mod_eq_of_lt (by have := c.density_le_address_max; omega)

theorem eeprom_write_byte_DataBuf {a : Nat} (v : UInt8) (m : Machine)
    (range : a < c.FEE_DENSITY_BYTES) :
    (eeprom_write_byte c a v m).DataBuf = storeBytes m.DataBuf a [v] := by
  simp only [eeprom_write_byte, address16_of_lt c range, EEPROM_WriteDataByte_DataBuf, if_pos range]
  rfl

theorem eeprom_write_word_DataBuf {a : Nat} (v : UInt16) (m : Machine)
    (range : a + 2 ≤ c.FEE_DENSITY_BYTES) :
    (eeprom_write_word c a v m).DataBuf = storeBytes m.DataBuf a (leBytes v.toNat 2) := by
  rw [eeprom_write_word, address16_of_lt c (by omega), EEPROM_WriteDataWord_DataBuf _ _ _ (by omega),
    storeWord_eq_storeBytes]

theorem ofNat_uint16_byte (x : Nat) : UInt8.ofNat (UInt16.ofNat x).toNat = UInt8.ofNat x :=
  uint8_ofNat_congr (by rw [toNat_ofNat_uint16]; omega)

theorem ofNat_uint16_high (x : Nat) :
    UInt8.ofNat ((UInt16.ofNat x).toNat >>> 8) = UInt8.ofNat (x >>> 8) :=
  uint8_ofNat_congr (by simp only [toNat_ofNat_uint16, Nat.shiftRight_eq_div_pow]; omega)

theorem eeprom_write_dword_DataBuf {a : Nat} (v : UInt32) (m : Machine)
    (range : a + 4 ≤ c.FEE_DENSITY_BYTES) :
    (eeprom_write_dword c a v m).DataBuf = storeBytes m.DataBuf a (leBytes v.toNat 4) := by
  have split : leBytes v.toNat 4 = [UInt8.ofNat v.toNat] ++
      (leBytes (UInt16.ofNat (v.toNat >>> 8)).toNat 2 ++ [UInt8.ofNat (v.toNat >>> 24)]) := by
    simp only [leBytes_four, leBytes_two, ofNat_uint16_byte, ofNat_uint16_high, List.singleton_append,
      List.cons_append, List.nil_append, ← Nat.shiftRight_add]
  have even : leBytes v.toNat 4 =
      leBytes (UInt16.ofNat v.toNat).toNat 2 ++ leBytes (UInt16.ofNat (v.toNat >>> 16)).toNat 2 := by
    simp only [leBytes_four, leBytes_two, ofNat_uint16_byte, ofNat_uint16_high, List.cons_append,
      List.nil_append, ← Nat.shiftRight_add]
  unfold eeprom_write_dword
  rw [address16_of_lt c (show a < c.FEE_DENSITY_BYTES by omega)]
  dsimp only
  split_ifs with odd
  · simp only [EEPROM_WriteDataByte_DataBuf, if_pos (show a + 3 < c.FEE_DENSITY_BYTES by omega),
      if_pos (show a < c.FEE_DENSITY_BYTES by omega), address16_of_lt c (show a + 3 < _ by omega),
      address16_of_lt c (show a + 1 < _ by omega),
      EEPROM_WriteDataWord_DataBuf _ _ _ (show a + 1 + 1 < c.FEE_DENSITY_BYTES by omega),
      storeWord_eq_storeBytes, split, storeBytes_append]
    rfl
  · simp only [EEPROM_WriteDataWord_DataBuf _ _ _ (show a + 1 < c.FEE_DENSITY_BYTES by omega),
      address16_of_lt c (show a + 2 < _ by omega),
      EEPROM_WriteDataWord_DataBuf _ _ _ (show a + 2 + 1 < c.FEE_DENSITY_BYTES by omega),
      storeWord_eq_storeBytes, even, storeBytes_append]
    rfl

theorem writeBlockLoop_DataBuf (mem : Memory) (aligned : Bool) :
    ∀ (len dest src : Nat) (m : Machine), dest + len ≤ c.FEE_DENSITY_BYTES →
      (writeBlockLoop c mem aligned len dest src m).DataBuf =
        storeBytes m.DataBuf dest (spanOf mem src len)
  | len + 2, dest, src, m, range => by
    have value : (if aligned then wordAt mem src
        else (mem src).toNat ||| (mem (src + 1)).toNat <<< 8) = wordAt mem src := by
      split <;> simp only [or_shift_eq_wordAt]
    rw [writeBlockLoop, writeBlockLoop_DataBuf mem aligned len _ _ _ (by omega), value,
      eeprom_write_word_DataBuf _ _ (by omega), leBytes_wordAt, spanOf_succ, spanOf_succ]
    rfl
  | 1, dest, src, m, range => by
    rw [writeBlockLoop, eeprom_write_byte_DataBuf _ _ (by omega)]
    rfl
  | 0, _, _, _, _ => rfl

theorem eeprom_write_block_DataBuf (mem : Memory) (buf a len : Nat) (m : Machine)
    (range : a + len ≤ c.FEE_DENSITY_BYTES) :
    (eeprom_write_block c mem buf a len m).DataBuf = storeBytes m.DataBuf a (spanOf mem buf len) := by
  unfold eeprom_write_block
  split_ifs with first
  · obtain ⟨n, rfl⟩ : ∃ n, len = n + 1 := ⟨len - 1, by omega⟩
    rw [writeBlockLoop_DataBuf _ _ _ _ _ _ (by omega), eeprom_write_byte_DataBuf _ _ (by omega),
      spanOf_succ, Nat.add_sub_cancel]
    rfl
  · exact writeBlockLoop_DataBuf _ _ _ _ _ _ range

theorem ApiWrite.run_DataBuf (call : ApiWrite) (m : Machine)
    (range : call.address + call.bytes.length ≤ c.FEE_DENSITY_BYTES) :
    (call.run c m).DataBuf = storeBytes m.DataBuf call.address call.bytes := by
  cases call with
  | write_byte a v | update_byte a v => exact eeprom_write_byte_DataBuf v m range
  | write_word a v | update_word a v => exact eeprom_write_word_DataBuf v m range
  | write_dword a v | update_dword a v => exact eeprom_write_dword_DataBuf v m range
  | write_block mem buf a len | update_block mem buf a len =>
    exact eeprom_write_block_DataBuf mem buf a len m (by simpa [ApiWrite.bytes, spanOf] using range)

end Writes

/-- The bytes `EEPROM_ReadDataByte` answers for `len` addresses from `a`. -/
def readSpan (c : Config) (m : Machine) (a len : Nat) : List UInt8 :=
  spanOf (fun i => EEPROM_ReadDataByte c i m) a len

theorem toNat_ofNat_uint32 (n : Nat) : (UInt32.ofNat n).toNat = n % 2 ^ 32 := BitVec.toNat_ofNat _ _

section Reads

variable {c : Config}

theorem EEPROM_ReadDataByte_of_lt {a : Nat} (m : Machine) (range : a < c.FEE_DENSITY_BYTES) :
    EEPROM_ReadDataByte c a m = m.DataBuf a := if_pos range

theorem readSpan_of_le {a len : Nat} (m : Machine) (range : a + len ≤ c.FEE_DENSITY_BYTES) :
    readSpan c m a len = spanOf m.DataBuf a len :=
  List.map_congr_left fun _ member => EEPROM_ReadDataByte_of_lt m (by
    rw [List.mem_range] at member; omega)

theorem EEPROM_ReadDataWord_toNat {a : Nat} (m : Machine) (range : a + 2 ≤ c.FEE_DENSITY_BYTES) :
    (EEPROM_ReadDataWord c a m).toNat = wordAt m.DataBuf a := by
  unfold EEPROM_ReadDataWord
  rw [if_pos (by omega)]
  split_ifs <;> rw [toNat_ofNat_uint16] <;>
    simp only [or_shift_eq_wordAt, Nat.mod_eq_of_lt (wordAt_lt _ _)]

theorem leValue_spanOf_two (mem : Memory) (a : Nat) : leValue (spanOf mem a 2) = wordAt mem a := by
  simp only [spanOf_succ, spanOf, List.range_zero, List.map_nil, leValue, wordAt, Nat.add_zero]
  omega

theorem eeprom_read_word_toNat {a : Nat} (m : Machine) (range : a + 2 ≤ c.FEE_DENSITY_BYTES) :
    (eeprom_read_word c a m).toNat = leValue (readSpan c m a 2) := by
  rw [eeprom_read_word, address16_of_lt c (by omega), EEPROM_ReadDataWord_toNat m range,
    readSpan_of_le m range, leValue_spanOf_two]

theorem eeprom_read_dword_toNat {a : Nat} (m : Machine) (range : a + 4 ≤ c.FEE_DENSITY_BYTES) :
    (eeprom_read_dword c a m).toNat = leValue (readSpan c m a 4) := by
  have b0 := (m.DataBuf a).toNat_lt_size
  have b1 := (m.DataBuf (a + 1)).toNat_lt_size
  have b2 := (m.DataBuf (a + 2)).toNat_lt_size
  have b3 := (m.DataBuf (a + 3)).toNat_lt_size
  simp only [UInt8.size] at b0 b1 b2 b3
  rw [readSpan_of_le m range]
  simp only [spanOf_succ, spanOf, List.range_zero, List.map_nil, leValue]
  unfold eeprom_read_dword
  rw [address16_of_lt c (show a < c.FEE_DENSITY_BYTES by omega)]
  dsimp only
  split_ifs
  · rw [address16_of_lt c (show a + 1 < c.FEE_DENSITY_BYTES by omega),
      address16_of_lt c (show a + 3 < c.FEE_DENSITY_BYTES by omega),
      EEPROM_ReadDataWord_toNat m (by omega), EEPROM_ReadDataByte_of_lt m (by omega),
      EEPROM_ReadDataByte_of_lt m (by omega), or_shiftLeft_eq_add _ 8 (UInt8.toNat_lt_size _),
      or_shiftLeft_eq_add _ 24 (by have := wordAt_lt m.DataBuf (a + 1); simp only [Nat.reducePow]; omega),
      toNat_ofNat_uint32]
    simp only [wordAt, UInt8.size, Nat.add_zero, Nat.add_assoc, Nat.reduceAdd, Nat.reducePow] at *
    omega
  · rw [address16_of_lt c (show a + 2 < c.FEE_DENSITY_BYTES by omega),
      EEPROM_ReadDataWord_toNat m (by omega), EEPROM_ReadDataWord_toNat m (by omega),
      or_shiftLeft_eq_add _ 16 (wordAt_lt _ _), toNat_ofNat_uint32]
    simp only [wordAt, UInt8.size, Nat.add_zero, Nat.add_assoc, Nat.reduceAdd, Nat.reducePow] at *
    omega

theorem readBlockLoop_eq (m : Machine) (aligned : Bool) :
    ∀ (len src dest : Nat) (mem : Memory), src + len ≤ c.FEE_DENSITY_BYTES →
      readBlockLoop c m aligned len src dest mem = storeBytes mem dest (readSpan c m src len)
  | len + 2, src, dest, mem, range => by
    have stored : (if aligned then storeWord mem dest (eeprom_read_word c src m).toNat
        else Function.update (Function.update mem dest (UInt8.ofNat (eeprom_read_word c src m).toNat))
          (dest + 1) (UInt8.ofNat ((eeprom_read_word c src m).toNat >>> 8))) =
        Function.update (Function.update mem dest (m.DataBuf src)) (dest + 1) (m.DataBuf (src + 1)) := by
      rw [eeprom_read_word, address16_of_lt c (by omega), EEPROM_ReadDataWord_toNat m (by omega)]
      simp only [Nat.shiftRight_eq_div_pow, Nat.reducePow]
      split <;> simp only [storeWord_of_wordAt, ofNat_wordAt, ofNat_wordAt_div]
    rw [readBlockLoop, stored, readBlockLoop_eq m aligned len _ _ _ (by omega), readSpan_of_le m range,
      readSpan_of_le m (by omega), spanOf_succ, spanOf_succ]
    rfl
  | 1, src, dest, mem, range => by
    rw [readBlockLoop, readSpan_of_le m range, eeprom_read_byte, address16_of_lt c (by omega),
      EEPROM_ReadDataByte_of_lt m (by omega)]
    rfl
  | 0, _, _, _, _ => rfl

theorem eeprom_read_block_eq (mem : Memory) (buf a len : Nat) (m : Machine)
    (range : a + len ≤ c.FEE_DENSITY_BYTES) :
    eeprom_read_block c mem buf a len m = storeBytes mem buf (readSpan c m a len) := by
  unfold eeprom_read_block
  split_ifs with first
  · obtain ⟨n, rfl⟩ : ∃ n, len = n + 1 := ⟨len - 1, by omega⟩
    rw [readBlockLoop_eq m _ _ _ _ _ (by omega), readSpan_of_le m range, readSpan_of_le m (by omega),
      eeprom_read_byte, address16_of_lt c (by omega), EEPROM_ReadDataByte_of_lt m (by omega),
      spanOf_succ, Nat.add_sub_cancel]
    rfl
  · exact readBlockLoop_eq m _ _ _ _ _ range

end Reads

/-- Run a sequence of write calls. -/
def runApi (c : Config) (calls : List ApiWrite) (m : Machine) : Machine :=
  calls.foldl (fun m call => call.run c m) m

/-- The byte array after the calls: each call's bytes stored at its address. -/
def storeCalls (calls : List ApiWrite) (arr : Memory) : Memory :=
  calls.foldl (fun arr call => storeBytes arr call.address call.bytes) arr

/-- Reads over in-range spans: the little-endian composition of the bytes
`EEPROM_ReadDataByte` answers, and for a block those bytes in the caller's buffer. -/
structure ReadsCompose (c : Config) (m : Machine) : Prop where
  byte : ∀ a, a < c.FEE_DENSITY_BYTES → eeprom_read_byte c a m = EEPROM_ReadDataByte c a m
  word : ∀ a, a + 2 ≤ c.FEE_DENSITY_BYTES → (eeprom_read_word c a m).toNat = leValue (readSpan c m a 2)
  dword : ∀ a, a + 4 ≤ c.FEE_DENSITY_BYTES →
    (eeprom_read_dword c a m).toNat = leValue (readSpan c m a 4)
  block : ∀ mem buf a len, a + len ≤ c.FEE_DENSITY_BYTES →
    eeprom_read_block c mem buf a len m = storeBytes mem buf (readSpan c m a len)

section Refinement

variable {c : Config}

theorem readsCompose (m : Machine) : ReadsCompose c m where
  byte _ range := by rw [eeprom_read_byte, address16_of_lt c range]
  word _ range := eeprom_read_word_toNat m range
  dword _ range := eeprom_read_dword_toNat m range
  block mem buf _ len range := eeprom_read_block_eq mem buf _ len m range

theorem runApi_DataBuf (calls : List ApiWrite) (m : Machine)
    (inRange : ∀ call ∈ calls, call.address + call.bytes.length ≤ c.FEE_DENSITY_BYTES) :
    (runApi c calls m).DataBuf = storeCalls calls m.DataBuf := by
  induction calls generalizing m with
  | nil => rfl
  | cons call calls ih =>
    simp only [runApi, storeCalls, List.foldl_cons] at ih ⊢
    rw [← ApiWrite.run_DataBuf call m (inRange call (List.mem_cons_self _ _))]
    exact ih _ fun other member => inRange other (List.mem_cons_of_mem _ member)

/-- The write API refines the little-endian byte array, and every in-range read answers
the composition of that array's bytes. -/
theorem api_refines_byte_array (calls : List ApiWrite) (m : Machine)
    (inRange : ∀ call ∈ calls, call.address + call.bytes.length ≤ c.FEE_DENSITY_BYTES) :
    (runApi c calls m).DataBuf = storeCalls calls m.DataBuf ∧ ReadsCompose c (runApi c calls m) ∧
      ∀ a len, a + len ≤ c.FEE_DENSITY_BYTES →
        readSpan c (runApi c calls m) a len = spanOf (storeCalls calls m.DataBuf) a len :=
  ⟨runApi_DataBuf calls m inRange, readsCompose _, fun _ _ range => by
    rw [readSpan_of_le _ range, runApi_DataBuf calls m inRange]⟩

end Refinement

theorem api_refines_byte_array_small :
    (∀ call ∈ [ApiWrite.write_byte 0 7, .write_word 1 0x0201],
      call.address + call.bytes.length ≤ Config.small.FEE_DENSITY_BYTES) ∧
    (runApi Config.small [.write_byte 0 7, .write_word 1 0x0201] Machine.erased).DataBuf =
        storeCalls [.write_byte 0 7, .write_word 1 0x0201] Machine.erased.DataBuf ∧
      ReadsCompose Config.small (runApi Config.small [.write_byte 0 7, .write_word 1 0x0201]
        Machine.erased) ∧
      ∀ a len, a + len ≤ Config.small.FEE_DENSITY_BYTES →
        readSpan Config.small (runApi Config.small [.write_byte 0 7, .write_word 1 0x0201]
          Machine.erased) a len =
          spanOf (storeCalls [.write_byte 0 7, .write_word 1 0x0201] Machine.erased.DataBuf) a len :=
  ⟨by decide, api_refines_byte_array _ _ (by decide)⟩

end PicoEeprom
