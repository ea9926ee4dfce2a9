import PicoEeprom.LogGrowth
import PicoEeprom.Retry

/-! Wear levelling. A compaction erases every page of the region, and the write log is what
makes compactions rare: `eeprom_compact` runs only from a log append that finds no room for
its entry, once `empty_slot` is within four bytes of the log's end. Take the log's fill, the
bytes from the log base up to `empty_slot`, as a potential. A byte write appends at most four
bytes (a Word-Next entry), a word write at most eight, and a compaction empties the log it
found holding at least `FEE_WRITE_LOG_BYTES - 4` bytes. So a run of write calls that stores
`B` bytes compacts at most `(4 * B + fill) / (FEE_WRITE_LOG_BYTES - 4)` times, whatever the
driver answers, and not at all when `fill + 4 * B` fits in the log. Reboots are left out:
`EEPROM_Init` clears a region whose magic is gone, whatever the log held. -/
namespace PicoEeprom

/-- The page erases among `ops`. -/
def eraseCount (ops : List FlashOp) : Nat := ops.countP FlashOp.isErase

/-- The bytes of the write log below `empty_slot`. -/
def Device.logFill (c : Config) (d : Device) : Nat := d.empty_slot - c.FEE_WRITE_LOG_BASE_ADDRESS

theorem eraseCount_append (ops ops' : List FlashOp) :
    eraseCount (ops ++ ops') = eraseCount ops + eraseCount ops' :=
  List.countP_append _ _ _

/-- From `d` to `d'` with a budget of `b` bytes of log, once `empty_slot` is in the log: it
stays there; the page erases in between, each charged `FEE_WRITE_LOG_BYTES - 4` bytes per page,
with what the log holds at `d'`, are paid by what it held at `d` and the budget; and if what it
held and the budget fit in the log, no page is erased and the log grows by at most the budget. -/
structure Device.Wears (c : Config) (b : Nat) (d d' : Device) : Prop where
  appends : d.trace <+: d'.trace
  wears : c.FEE_WRITE_LOG_BASE_ADDRESS ≤ d.empty_slot → c.FEE_WRITE_LOG_BASE_ADDRESS ≤ d'.empty_slot ∧
    eraseCount (d'.trace.drop d.trace.length) * (c.FEE_WRITE_LOG_BYTES - 4) +
        c.FEE_PAGE_COUNT * d'.logFill c ≤ c.FEE_PAGE_COUNT * (b + d.logFill c)
  room : c.FEE_WRITE_LOG_BASE_ADDRESS ≤ d.empty_slot → d.logFill c + b ≤ c.FEE_WRITE_LOG_BYTES →
    eraseCount (d'.trace.drop d.trace.length) = 0 ∧ d'.logFill c ≤ d.logFill c + b

theorem FlashOp.isErase_of_isProgram {op : FlashOp} (program : op.isProgram = true) : op.isErase = false := by
  cases op <;> first | rfl | cases program

namespace Device.Wears

variable {c : Config} {a b : Nat} {d d' d'' : Device}

theorem refl (d : Device) : d.Wears c 0 d :=
  ⟨List.prefix_refl _, fun above => ⟨above, by simp [eraseCount]⟩, fun _ _ => by simp [eraseCount]⟩

theorem trans (first : d.Wears c a d') (second : d'.Wears c b d'') : d.Wears c (a + b) d'' := by
  have split := drop_length_of_isPrefix first.appends second.appends
  refine ⟨first.appends.trans second.appends, fun above => ?_, fun above fits => ?_⟩
  · obtain ⟨above', paid₁⟩ := first.wears above
    obtain ⟨above'', paid₂⟩ := second.wears above'
    refine ⟨above'', ?_⟩
    rw [split, eraseCount_append, Nat.add_mul, Nat.add_assoc, Nat.mul_add, Nat.mul_add]
    rw [Nat.mul_add] at paid₁ paid₂
    omega
  · obtain ⟨none₁, fill₁⟩ := first.room above (by omega)
    obtain ⟨none₂, fill₂⟩ := second.room (first.wears above).1 (by omega)
    rw [split, eraseCount_append, none₁, none₂]
    exact ⟨rfl, by omega⟩

theorem mono (le : a ≤ b) (wears : d.Wears c a d') : d.Wears c b d' :=
  ⟨wears.appends, fun above => (wears.wears above).imp_right fun paid =>
    paid.trans (Nat.mul_le_mul_left _ (Nat.add_le_add_right le _)),
    fun above fits => (wears.room above (by omega)).imp_right fun fill => by omega⟩

/-- An access that erases no page and leaves `empty_slot` alone. -/
theorem record {op : FlashOp} (d : Device) (free : op.isErase = false) : d.Wears c 0 (d.record op) :=
  ⟨⟨[op], rfl⟩, fun above => ⟨above, by simp [eraseCount, free, Device.logFill]⟩,
    fun _ _ => ⟨by simp [eraseCount, free], by simp [Device.logFill]⟩⟩

theorem unlock (d : Device) : d.Wears c 0 (FLASH_Unlock d) := record d rfl

theorem lock (d : Device) : d.Wears c 0 (FLASH_Lock d) := record d rfl

theorem load (d : Device) (addr width : Nat) : d.Wears c 0 (PicoEeprom.load addr width d) := record d rfl

theorem program (d : Device) (addr : Nat) (v : UInt16) : d.Wears c 0 (FLASH_ProgramHalfWord addr v d).2 :=
  record d rfl

/-- A log append: two bytes of log for the half-word at `empty_slot`. -/
theorem append (d : Device) (v : UInt16) :
    d.Wears c 2 (FLASH_ProgramHalfWord d.empty_slot v { d with empty_slot := d.empty_slot + 2 }).2 := by
  have none : eraseCount ((FLASH_ProgramHalfWord d.empty_slot v
      { d with empty_slot := d.empty_slot + 2 }).2.trace.drop d.trace.length) = 0 := by
    simp [FLASH_ProgramHalfWord, eraseCount, FlashOp.isErase]
  have fill (above : c.FEE_WRITE_LOG_BASE_ADDRESS ≤ d.empty_slot) :
      (FLASH_ProgramHalfWord d.empty_slot v { d with empty_slot := d.empty_slot + 2 }).2.logFill c =
        d.logFill c + 2 := by
    show d.empty_slot + 2 - _ = d.empty_slot - _ + 2
    omega
  refine ⟨⟨_, rfl⟩, fun above => ⟨Nat.le_add_right_of_le above, ?_⟩, fun above _ => ⟨none, (fill above).le⟩⟩
  rw [none, fill above, Nat.zero_mul, Nat.zero_add, Nat.add_comm]

/-- A compaction erases every page, once, and empties the log, which had no room for an entry
of the budget's size. -/
theorem compact (buf : Memory) (noRoom : c.FEE_WRITE_LOG_BYTES < d.logFill c + b) :
    d.Wears c b (eeprom_compact c buf d).2 := by
  obtain ⟨erases, _, _, rewrites, trace, length, all, -, programs, -⟩ := trace_eeprom_compact c buf d
  have count : eraseCount ((eeprom_compact c buf d).2.trace.drop d.trace.length) = c.FEE_PAGE_COUNT := by
    have none : rewrites.countP FlashOp.isErase = 0 := List.countP_eq_zero.2 fun op mem => by
      simp [FlashOp.isErase_of_isProgram (programs op mem)]
    simp [trace, eraseCount, List.countP_eq_length.2 all, length, none, FlashOp.isErase]
  have empty : (eeprom_compact c buf d).2.logFill c = 0 := by
    rw [Device.logFill, empty_slot_eeprom_compact, Nat.sub_self]
  refine ⟨⟨_, trace.symm⟩, fun _ => ⟨(empty_slot_eeprom_compact c buf d).ge, ?_⟩,
    fun _ fits => absurd fits (by omega)⟩
  rw [count, empty, Nat.mul_zero, Nat.add_zero]
  exact Nat.mul_le_mul_left _ (by omega)

/-- Either branch of a step that answers a status and a device. -/
theorem ite {α : Type} {p : Prop} [Decidable p] {x y : α × Device} (hx : p → d.Wears c b x.2)
    (hy : ¬p → d.Wears c b y.2) : d.Wears c b (if p then x else y).2 := by
  split
  exacts [hx ‹_›, hy ‹_›]

end Device.Wears

section Paths

variable {c : Config} (buf : Memory) {d : Device}

/-- An append that finds no room for an entry of `size` bytes below the log's end. -/
theorem logFill_noRoom {size : Nat} (noRoom : c.FEE_WRITE_LOG_LAST_ADDRESS < d.empty_slot + size) :
    c.FEE_WRITE_LOG_BYTES < d.logFill c + size := by
  unfold Device.logFill
  unfold Config.FEE_WRITE_LOG_LAST_ADDRESS at noRoom
  omega

/-- The direct write programs the snapshot and leaves the log alone. -/
theorem wears_direct_entry (A : Nat) : d.Wears c 0 (eeprom_write_direct_entry c buf A d).2 := by
  have loaded := Device.Wears.load (c := c) d (c.FEE_COMPACTED_BASE_ADDRESS + (A &&& 0xFFFE)) 2
  unfold eeprom_write_direct_entry
  dsimp only
  exact .ite (fun _ => .ite (fun _ => loaded) fun _ =>
    ((loaded.trans (.unlock _)).trans (.program _ _ _)).trans (.lock _)) fun _ => loaded

theorem wears_log_byte_entry (A : Nat) : d.Wears c 2 (eeprom_write_log_byte_entry c buf A d).2 := by
  unfold eeprom_write_log_byte_entry
  exact .ite (fun full => .compact buf (logFill_noRoom (by omega))) fun _ =>
    ((Device.Wears.unlock d).trans (.append _ _)).trans (.lock _)

/-- A Word-Encoded entry costs two bytes of log, a Word-Next entry four. -/
theorem wears_log_word_entry (A : Nat) : d.Wears c 4 (eeprom_write_log_word_entry c buf A d).2 := by
  unfold eeprom_write_log_word_entry
  dsimp only
  refine .ite (fun full => .compact buf (logFill_noRoom ?_)) fun _ =>
    Device.Wears.trans ?_ (.lock _)
  · split at full <;> omega
  · exact .ite (fun _ => ((Device.Wears.unlock d).trans (.append _ _)).trans (.append _ _))
      fun _ => .mono (by decide) ((Device.Wears.unlock d).trans (.append _ _))

theorem wears_persistByte (A : Nat) : d.Wears c 4 (persistByte c buf A d).2 := by
  unfold persistByte
  exact .ite (fun _ => (wears_direct_entry buf A).trans (b := 4)
      (.ite (fun _ => .mono (by decide) (wears_log_byte_entry buf A)) fun _ => wears_log_word_entry buf _))
    fun _ => .mono (Nat.zero_le 4) (wears_direct_entry buf A)

/-- A byte step of a word write below `FEE_BYTE_RANGE`: a byte entry, or nothing. -/
theorem wears_byte_step (changed : Prop) [Decidable changed] (A : Nat) :
    d.Wears c 2 (if changed then eeprom_write_log_byte_entry c buf A d else (some .FLASH_COMPLETE, d)).2 :=
  .ite (fun _ => wears_log_byte_entry buf A) fun _ => .mono (Nat.zero_le 2) (.refl d)

theorem wears_persistWord (oldValue : Nat) (v : UInt16) (A : Nat) :
    d.Wears c 4 (persistWord c oldValue v buf A d).2 := by
  unfold persistWord
  dsimp only
  exact .ite (fun _ => (wears_direct_entry buf A).trans (b := 4)
      (.ite (fun _ => (wears_byte_step buf _ _).trans (wears_byte_step buf _ _))
        fun _ => wears_log_word_entry buf A))
    fun _ => .mono (Nat.zero_le 4) (wears_direct_entry buf A)

end Paths

section Writes

variable {c : Config}

theorem writeDataByte_wears (A : Nat) (v : UInt8) (m : Machine) :
    m.dev.Wears c 4 (EEPROM_WriteDataByte c A v m).2.dev := by
  by_cases range : A < c.FEE_DENSITY_BYTES
  · by_cases same : m.DataBuf A = v
    · rw [writeDataByte_of_same range same]
      exact .mono (Nat.zero_le 4) (.refl _)
    · rw [writeDataByte_of_ne range same]
      exact wears_persistByte _ A
  · rw [writeDataByte_of_ge v m (Nat.not_lt.1 range)]
    exact .mono (Nat.zero_le 4) (.refl _)

/-- A word write costs at most eight bytes of log: two byte writes at an odd address. -/
theorem writeDataWord_wears (A : Nat) (v : UInt16) (m : Machine) :
    m.dev.Wears c 8 (EEPROM_WriteDataWord c A v m).2.dev := by
  by_cases range : A < c.FEE_DENSITY_BYTES
  · rcases Nat.mod_two_eq_zero_or_one A with even | odd
    · by_cases same : wordAt m.DataBuf A = v.toNat
      · rw [writeDataWord_of_same range even same]
        exact .mono (Nat.zero_le 8) (.refl _)
      · rw [writeDataWord_of_ne range even same]
        exact .mono (by decide) (wears_persistWord _ _ _ A)
    · rw [writeDataWord_of_odd v m range odd]
      exact (writeDataByte_wears _ _ m).trans (writeDataByte_wears _ _ _)
  · rw [writeDataWord_of_ge v m (Nat.not_lt.1 range)]
    exact .mono (Nat.zero_le 8) (.refl _)

theorem writeBlockLoop_wears (mem : Memory) (aligned : Bool) :
    ∀ (len dest src : Nat) (m : Machine), m.dev.Wears c (4 * len) (writeBlockLoop c mem aligned len dest src m).dev
  | len + 2, dest, src, m => .mono (by omega)
      ((writeDataWord_wears _ _ m).trans (writeBlockLoop_wears mem aligned len (dest + 2) (src + 2) _))
  | 1, _, _, m => writeDataByte_wears _ _ m
  | 0, _, _, m => .refl _

/-- Every call of the write API costs at most four bytes of log per byte it stores. -/
theorem ApiWrite.run_wears (call : ApiWrite) (m : Machine) :
    m.dev.Wears c (4 * call.bytes.length) (call.run c m).dev := by
  cases call with
  | write_byte a v | update_byte a v => exact writeDataByte_wears _ v m
  | write_word a v | update_word a v =>
    exact .mono (by simp [ApiWrite.bytes, leBytes]) (writeDataWord_wears _ v m)
  | write_dword a v | update_dword a v =>
    show m.dev.Wears c _ (eeprom_write_dword c a v m).dev
    refine .mono (a := 16) (by simp [ApiWrite.bytes, leBytes]) ?_
    simp only [eeprom_write_dword]
    split
    · exact ((writeDataByte_wears _ _ m).trans (writeDataWord_wears _ _ _)).trans (writeDataByte_wears _ _ _)
    · exact .mono (by decide) ((writeDataWord_wears _ _ m).trans (writeDataWord_wears _ _ _))
  | write_block mem buf a len | update_block mem buf a len =>
    show m.dev.Wears c (4 * (spanOf mem buf len).length) (eeprom_write_block c mem buf a len m).dev
    rw [length_spanOf]
    unfold eeprom_write_block
    split
    · next odd => exact .mono (by omega) ((writeDataByte_wears _ _ m).trans (writeBlockLoop_wears _ _ _ _ _ _))
    · exact writeBlockLoop_wears _ _ _ _ _ _

/-- The bytes a run of write calls stores, all calls together. -/
def storedBytes : List ApiWrite → Nat
  | [] => 0
  | call :: calls => call.bytes.length + storedBytes calls

example : storedBytes [.write_byte 0 1, .write_dword 4 0] = 5 := rfl

theorem runApi_wears : ∀ (calls : List ApiWrite) (m : Machine),
    m.dev.Wears c (4 * storedBytes calls) (runApi c calls m).dev
  | [], m => .refl _
  | call :: calls, m => by
    rw [storedBytes, Nat.mul_add]
    exact (call.run_wears m).trans (runApi_wears calls _)

/-- Wear levelling: from any state whose `empty_slot` is in the write log, and whatever the
driver answers, a run of write calls storing `B` bytes erases pages at most
`FEE_PAGE_COUNT * (4 * B + fill)` / `(FEE_WRITE_LOG_BYTES - 4)` times, `fill` being the bytes
the log held at the start: every compaction, which erases each page once, is paid by a log
filled to within four bytes of its end, and each byte stored fills at most four bytes. -/
theorem runs_bound_page_erases (calls : List ApiWrite) (m : Machine)
    (above : c.FEE_WRITE_LOG_BASE_ADDRESS ≤ m.dev.empty_slot) :
    eraseCount ((runApi c calls m).dev.trace.drop m.dev.trace.length) * (c.FEE_WRITE_LOG_BYTES - 4) ≤
      c.FEE_PAGE_COUNT * (4 * storedBytes calls + m.dev.logFill c) :=
  Nat.le_of_add_right_le ((runApi_wears calls m).wears above).2

theorem runs_bound_page_erases_small :
    Config.small.FEE_WRITE_LOG_BASE_ADDRESS ≤ (eeprom_clear Config.small Machine.erased.dev).empty_slot ∧
    eraseCount ((runApi Config.small [.write_byte 0 1, .write_word 2 0x0304]
        ⟨Machine.erased.DataBuf, eeprom_clear Config.small Machine.erased.dev⟩).dev.trace.drop
          (eeprom_clear Config.small Machine.erased.dev).trace.length) * (Config.small.FEE_WRITE_LOG_BYTES - 4) ≤
      Config.small.FEE_PAGE_COUNT * (4 * storedBytes [.write_byte 0 1, .write_word 2 0x0304] +
        (eeprom_clear Config.small Machine.erased.dev).logFill Config.small) :=
  ⟨Nat.le_refl _, runs_bound_page_erases [.write_byte 0 1, .write_word 2 0x0304]
    ⟨Machine.erased.DataBuf, eeprom_clear Config.small Machine.erased.dev⟩ (Nat.le_refl _)⟩

/-- Log capacity: from any state whose `empty_slot` is in the write log, and whatever the
driver answers, a run of write calls whose bytes, at four bytes of log each, fit in the room the
log has left erases no page, and the log then holds at most four bytes more per byte stored. -/
theorem runs_within_log_room_erase_nothing (calls : List ApiWrite) (m : Machine)
    (above : c.FEE_WRITE_LOG_BASE_ADDRESS ≤ m.dev.empty_slot)
    (fits : m.dev.logFill c + 4 * storedBytes calls ≤ c.FEE_WRITE_LOG_BYTES) :
    eraseCount ((runApi c calls m).dev.trace.drop m.dev.trace.length) = 0 ∧
      (runApi c calls m).dev.logFill c ≤ m.dev.logFill c + 4 * storedBytes calls :=
  (runApi_wears calls m).room above fits

theorem runs_within_log_room_erase_nothing_small :
    Config.small.FEE_WRITE_LOG_BASE_ADDRESS ≤ (eeprom_clear Config.small Machine.erased.dev).empty_slot ∧
    (eeprom_clear Config.small Machine.erased.dev).logFill Config.small +
        4 * storedBytes [.write_byte 0 1, .write_word 2 0x0304] ≤ Config.small.FEE_WRITE_LOG_BYTES ∧
    eraseCount ((runApi Config.small [.write_byte 0 1, .write_word 2 0x0304]
        ⟨Machine.erased.DataBuf, eeprom_clear Config.small Machine.erased.dev⟩).dev.trace.drop
          (eeprom_clear Config.small Machine.erased.dev).trace.length) = 0 ∧
      (runApi Config.small [.write_byte 0 1, .write_word 2 0x0304]
          ⟨Machine.erased.DataBuf, eeprom_clear Config.small Machine.erased.dev⟩).dev.logFill Config.small ≤
        (eeprom_clear Config.small Machine.erased.dev).logFill Config.small +
          4 * storedBytes [.write_byte 0 1, .write_word 2 0x0304] :=
  ⟨Nat.le_refl _, by decide, runs_within_log_room_erase_nothing [.write_byte 0 1, .write_word 2 0x0304]
    ⟨Machine.erased.DataBuf, eeprom_clear Config.small Machine.erased.dev⟩ (Nat.le_refl _) (by decide)⟩

end Writes

end PicoEeprom
