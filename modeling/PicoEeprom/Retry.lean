import PicoEeprom.Refinement

/-! Writes compare with the RAM image before they persist, so a call whose bytes `DataBuf`
already holds leaves the machine as it is, flash trace included. Every write is therefore
idempotent whatever the driver answered, and a call retried after a failed program issues no
flash operation: what the first call failed to persist stays unpersisted. -/
namespace PicoEeprom

@[simp] theorem spanOf_zero (mem : Memory) (a : Nat) : spanOf mem a 0 = [] := rfl

@[simp] theorem length_spanOf (mem : Memory) (a len : Nat) : (spanOf mem a len).length = len := by
  simp [spanOf]

theorem storeBytes_of_lt : ∀ (arr : Memory) (a : Nat) (bytes : List UInt8) {i : Nat}, i < a →
    storeBytes arr a bytes i = arr i
  | _, _, [], _, _ => rfl
  | arr, a, b :: bs, i, below => by
    rw [storeBytes, storeBytes_of_lt _ _ bs (by omega), Function.update_noteq (by omega)]

theorem spanOf_storeBytes : ∀ (arr : Memory) (a : Nat) (bytes : List UInt8),
    spanOf (storeBytes arr a bytes) a bytes.length = bytes
  | _, _, [] => rfl
  | arr, a, b :: bs => by
    rw [List.length_cons, spanOf_succ, storeBytes, spanOf_storeBytes,
      storeBytes_of_lt _ _ _ (Nat.lt_succ_self a), Function.update_same]

section Retry

variable {c : Config}

/-- A byte write that finds its byte in RAM, or falls outside the range, changes nothing. -/
theorem writeDataByte_of_held {A : Nat} {v : UInt8} {m : Machine}
    (held : A < c.FEE_DENSITY_BYTES → m.DataBuf A = v) : (EEPROM_WriteDataByte c A v m).2 = m := by
  by_cases range : A < c.FEE_DENSITY_BYTES
  · rw [writeDataByte_of_same range (held range)]
  · rw [writeDataByte_of_ge v m (Nat.not_lt.1 range)]

/-- A word write whose bytes RAM holds wherever they fall inside the range changes nothing. -/
theorem writeDataWord_of_held {A : Nat} {v : UInt16} {m : Machine}
    (low : A < c.FEE_DENSITY_BYTES → m.DataBuf A = UInt8.ofNat v.toNat)
    (high : A + 1 < c.FEE_DENSITY_BYTES → m.DataBuf (A + 1) = UInt8.ofNat (v.toNat >>> 8)) :
    (EEPROM_WriteDataWord c A v m).2 = m := by
  by_cases range : A < c.FEE_DENSITY_BYTES
  · rcases Nat.mod_two_eq_zero_or_one A with even | odd
    · have inside : A + 1 < c.FEE_DENSITY_BYTES := by have := c.density_even; omega
      have same : wordAt m.DataBuf A = v.toNat := by
        have bound : v.toNat < 65536 := v.toNat_lt_size
        rw [wordAt, low range, high inside, toNat_ofNat_uint8, toNat_ofNat_uint8,
          Nat.shiftRight_eq_div_pow]
        omega
      rw [writeDataWord_of_same range even same]
    · rw [writeDataWord_of_odd v m range odd]
      dsimp only
      rw [writeDataByte_of_held low, writeDataByte_of_held high]
  · rw [writeDataWord_of_ge v m (Nat.not_lt.1 range)]

/-- After a word write, RAM holds its bytes wherever they fall inside the range. -/
theorem writeDataWord_holds (A : Nat) (v : UInt16) (m : Machine) :
    (A < c.FEE_DENSITY_BYTES →
      (EEPROM_WriteDataWord c A v m).2.DataBuf A = UInt8.ofNat v.toNat) ∧
    (A + 1 < c.FEE_DENSITY_BYTES →
      (EEPROM_WriteDataWord c A v m).2.DataBuf (A + 1) = UInt8.ofNat (v.toNat >>> 8)) := by
  by_cases inside : A + 1 < c.FEE_DENSITY_BYTES
  · rw [EEPROM_WriteDataWord_DataBuf A v m inside, storeWord_eq_update]
    exact ⟨fun _ => by rw [Function.update_noteq (by omega), Function.update_same],
      fun _ => Function.update_same _ _ _⟩
  · refine ⟨fun range => ?_, fun h => absurd h inside⟩
    have odd : A % 2 = 1 := by have := c.density_even; omega
    rw [writeDataWord_of_odd v m range odd]
    simp only [EEPROM_WriteDataByte_DataBuf, if_neg inside, if_pos range, Function.update_same]

theorem writeBlockLoop_of_held (mem : Memory) (aligned : Bool) :
    ∀ (len dest src : Nat) (m : Machine), dest + len ≤ c.FEE_DENSITY_BYTES →
      spanOf m.DataBuf dest len = spanOf mem src len → writeBlockLoop c mem aligned len dest src m = m
  | len + 2, dest, src, m, range, held => by
    rw [spanOf_succ, spanOf_succ, spanOf_succ, spanOf_succ] at held
    simp only [List.cons.injEq] at held
    obtain ⟨low, high, rest⟩ := held
    have value : (if aligned then wordAt mem src
        else (mem src).toNat ||| (mem (src + 1)).toNat <<< 8) = wordAt mem src := by
      split <;> simp only [or_shift_eq_wordAt]
    have bytes := leBytes_wordAt mem src
    simp only [leBytes_two, List.cons.injEq] at bytes
    have word : eeprom_write_word c dest (UInt16.ofNat (wordAt mem src)) m = m := by
      rw [eeprom_write_word, address16_of_lt c (by omega)]
      exact writeDataWord_of_held (fun _ => low.trans bytes.1.symm)
        (fun _ => high.trans bytes.2.1.symm)
    rw [writeBlockLoop, value, word]
    exact writeBlockLoop_of_held mem aligned len (dest + 2) (src + 2) m (by omega) rest
  | 1, dest, src, m, range, held => by
    simp only [spanOf_succ, spanOf_zero, List.cons.injEq, and_true] at held
    rw [writeBlockLoop, eeprom_write_byte, address16_of_lt c (by omega)]
    exact writeDataByte_of_held fun _ => held
  | 0, _, _, _, _, _ => rfl

/-- A call of the AVR-style API inside the range whose bytes RAM already holds changes nothing. -/
theorem ApiWrite.run_of_held (call : ApiWrite) {m : Machine}
    (range : call.address + call.bytes.length ≤ c.FEE_DENSITY_BYTES)
    (held : spanOf m.DataBuf call.address call.bytes.length = call.bytes) : call.run c m = m := by
  cases call with
  | write_byte a v | update_byte a v =>
    simp only [ApiWrite.address, ApiWrite.bytes, List.length_singleton, spanOf_succ, spanOf_zero,
      List.cons.injEq, and_true] at range held
    simp only [ApiWrite.run, eeprom_write_byte, eeprom_update_byte, address16_of_lt c range]
    exact writeDataByte_of_held fun _ => held
  | write_word a v | update_word a v =>
    simp only [ApiWrite.address, ApiWrite.bytes, leBytes_two, List.length_cons, List.length_nil,
      spanOf_succ, spanOf_zero, List.cons.injEq, and_true] at range held
    simp only [ApiWrite.run, eeprom_write_word, eeprom_update_word,
      address16_of_lt c (show a < _ by omega)]
    exact writeDataWord_of_held (fun _ => held.1) (fun _ => held.2)
  | write_dword a v | update_dword a v =>
    simp only [ApiWrite.address, ApiWrite.bytes, leBytes_four, List.length_cons, List.length_nil,
      spanOf_succ, spanOf_zero, List.cons.injEq, and_true] at range held
    obtain ⟨b0, b1, b2, b3⟩ := held
    simp only [ApiWrite.run, eeprom_update_dword, eeprom_write_dword,
      address16_of_lt c (show a < _ by omega)]
    split_ifs with odd
    · rw [address16_of_lt c (show a + 1 < _ by omega), address16_of_lt c (show a + 3 < _ by omega),
        writeDataByte_of_held fun _ => b0,
        writeDataWord_of_held (m := m) (fun _ => by rw [ofNat_uint16_byte]; exact b1)
          (fun _ => by rw [ofNat_uint16_high, ← Nat.shiftRight_add]; exact b2),
        writeDataByte_of_held fun _ => b3]
    · rw [address16_of_lt c (show a + 2 < _ by omega),
        writeDataWord_of_held (m := m) (fun _ => by rw [ofNat_uint16_byte]; exact b0)
          (fun _ => by rw [ofNat_uint16_high]; exact b1),
        writeDataWord_of_held (m := m) (fun _ => by rw [ofNat_uint16_byte]; exact b2)
          (fun _ => by rw [ofNat_uint16_high, ← Nat.shiftRight_add]; exact b3)]
  | write_block mem buf a len | update_block mem buf a len =>
    simp only [ApiWrite.address, ApiWrite.bytes, length_spanOf] at range held
    simp only [ApiWrite.run, eeprom_update_block, eeprom_write_block]
    split_ifs with first
    · obtain ⟨n, rfl⟩ : ∃ n, len = n + 1 := ⟨len - 1, by omega⟩
      rw [spanOf_succ, spanOf_succ, List.cons.injEq] at held
      rw [eeprom_write_byte, address16_of_lt c (by omega), writeDataByte_of_held fun _ => held.1,
        Nat.add_sub_cancel]
      exact writeBlockLoop_of_held mem _ n (a + 1) (buf + 1) m (by omega) held.2
    · exact writeBlockLoop_of_held mem _ len a buf m range held

/-- Writes are idempotent, whatever the driver answers: `EEPROM_WriteDataByte` and
`EEPROM_WriteDataWord` at any address, and every call of the AVR-style API that lies inside the
range, run a second time leave the machine as the first run left it, RAM, flash trace and
`empty_slot` alike. The second run issues no flash operation, so a call retried after a failed
program does not persist what the first one failed to. -/
theorem writes_idempotent (m : Machine) :
    (∀ (A : Nat) (v : UInt8),
      (EEPROM_WriteDataByte c A v (EEPROM_WriteDataByte c A v m).2).2 =
        (EEPROM_WriteDataByte c A v m).2) ∧
    (∀ (A : Nat) (v : UInt16),
      (EEPROM_WriteDataWord c A v (EEPROM_WriteDataWord c A v m).2).2 =
        (EEPROM_WriteDataWord c A v m).2) ∧
    (∀ call : ApiWrite, call.address + call.bytes.length ≤ c.FEE_DENSITY_BYTES →
      call.run c (call.run c m) = call.run c m) :=
  ⟨fun A v => writeDataByte_of_held fun range => by
      rw [EEPROM_WriteDataByte_DataBuf, if_pos range, Function.update_same],
    fun A v => writeDataWord_of_held (writeDataWord_holds A v m).1 (writeDataWord_holds A v m).2,
    fun call range => call.run_of_held range (by
      rw [ApiWrite.run_DataBuf call m range, spanOf_storeBytes])⟩

theorem writes_idempotent_erased :
    (∀ (A : Nat) (v : UInt8),
      (EEPROM_WriteDataByte Config.small A v (EEPROM_WriteDataByte Config.small A v Machine.erased).2).2 =
        (EEPROM_WriteDataByte Config.small A v Machine.erased).2) ∧
    (∀ (A : Nat) (v : UInt16),
      (EEPROM_WriteDataWord Config.small A v (EEPROM_WriteDataWord Config.small A v Machine.erased).2).2 =
        (EEPROM_WriteDataWord Config.small A v Machine.erased).2) ∧
    (∀ call : ApiWrite, call.address + call.bytes.length ≤ Config.small.FEE_DENSITY_BYTES →
      call.run Config.small (call.run Config.small Machine.erased) = call.run Config.small Machine.erased) :=
  writes_idempotent Machine.erased

end Retry

end PicoEeprom
