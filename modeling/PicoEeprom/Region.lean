import PicoEeprom.Compacting


/-! Where the flash accesses land when the write log has room for the magic. `EEPROM_Init`
leaves `empty_slot` at a slot of the log whatever flash it finds, every later step keeps it
there (a compaction moves it to the magic, the defect `compaction_leaves_slot_on_magic`
shows, which is still inside the log), and from such a slot every load, erase and program
lies inside the region, at an even offset from its base. -/
namespace PicoEeprom

namespace Config

variable (c : Config)

/-- An access inside the region: loads and programs within
`[FEE_PAGE_BASE_ADDRESS, regionEnd)` at an even offset from the base, erases on one of its
pages. -/
def InRegion : FlashOp → Prop
  | .read addr width => c.FEE_PAGE_BASE_ADDRESS ≤ addr ∧ addr + width ≤ c.regionEnd ∧
      (addr - c.FEE_PAGE_BASE_ADDRESS) % 2 = 0
  | .programHalfWord addr _ _ => c.FEE_PAGE_BASE_ADDRESS ≤ addr ∧ addr + 2 ≤ c.regionEnd ∧
      (addr - c.FEE_PAGE_BASE_ADDRESS) % 2 = 0
  | .erasePage addr => ∃ i < c.FEE_PAGE_COUNT, addr = c.FEE_PAGE_BASE_ADDRESS + i * c.FEE_PAGE_SIZE
  | .unlock | .lock => True

instance (op : FlashOp) : Decidable (c.InRegion op) := by
  cases op <;> unfold InRegion <;> infer_instance

/-- A slot of the write log, magic included: where `empty_slot` may point. -/
def LogPosition (s : Nat) : Prop :=
  c.FEE_WRITE_LOG_BASE_ADDRESS ≤ s ∧ s ≤ c.FEE_WRITE_LOG_LAST_ADDRESS ∧
    (s - c.FEE_WRITE_LOG_BASE_ADDRESS) % 2 = 0

/-- A half-word of the snapshot, or one inside the log. -/
theorem inRegion_snapshot {a : Nat} (range : a + 2 ≤ c.FEE_DENSITY_BYTES) (even : a % 2 = 0)
    (value : UInt16) (status : FLASH_Status) :
    c.InRegion (.read (c.FEE_PAGE_BASE_ADDRESS + a) 2) ∧
      c.InRegion (.programHalfWord (c.FEE_PAGE_BASE_ADDRESS + a) value status) := by
  have := c.log_last_le_region_end
  simp only [InRegion, FEE_WRITE_LOG_LAST_ADDRESS, FEE_WRITE_LOG_BASE_ADDRESS, FEE_COMPACTED_LAST_ADDRESS,
    FEE_COMPACTED_BASE_ADDRESS] at this ⊢
  omega

theorem inRegion_log {s w : Nat} (slot : c.LogPosition s) (room : s + w ≤ c.FEE_WRITE_LOG_LAST_ADDRESS)
    (value : UInt16) (status : FLASH_Status) :
    (2 ≤ w → c.InRegion (.programHalfWord s value status)) ∧ c.InRegion (.read s w) := by
  have last := c.log_last_le_region_end
  have even := c.density_even
  simp only [InRegion, LogPosition, FEE_WRITE_LOG_LAST_ADDRESS, FEE_WRITE_LOG_BASE_ADDRESS,
    FEE_COMPACTED_LAST_ADDRESS, FEE_COMPACTED_BASE_ADDRESS] at last slot room ⊢
  omega

end Config

/-- From `d` to `d'` the engine appended only accesses inside the region. -/
def Device.AccessesIn (c : Config) (d d' : Device) : Prop :=
  ∃ ops, d'.trace = d.trace ++ ops ∧ ∀ op ∈ ops, c.InRegion op

/-- From a device whose `empty_slot` is a log position, `d'` follows by accesses inside the
region and leaves `empty_slot` a log position. -/
def StaysIn (c : Config) (d d' : Device) : Prop :=
  c.LogPosition d.empty_slot → d.AccessesIn c d' ∧ c.LogPosition d'.empty_slot

namespace Device.AccessesIn

variable {c : Config} {d d' d'' : Device}

theorem refl (d : Device) : d.AccessesIn c d := ⟨[], (List.append_nil _).symm, fun _ h => nomatch h⟩

theorem trans (first : d.AccessesIn c d') (second : d'.AccessesIn c d'') : d.AccessesIn c d'' := by
  obtain ⟨xs, tx, hx⟩ := first
  obtain ⟨ys, ty, hy⟩ := second
  refine ⟨xs ++ ys, by rw [ty, tx, List.append_assoc], fun op mem => ?_⟩
  rcases List.mem_append.1 mem with mem | mem
  exacts [hx op mem, hy op mem]

theorem record {op : FlashOp} (d : Device) (inside : c.InRegion op) : d.AccessesIn c (d.record op) :=
  ⟨[op], rfl, fun _ mem => (List.mem_singleton.1 mem) ▸ inside⟩

theorem unlock (d : Device) : d.AccessesIn c (FLASH_Unlock d) := record d trivial

theorem lock (d : Device) : d.AccessesIn c (FLASH_Lock d) := record d trivial

/-- The accesses are read off the trace, whatever `empty_slot` says. -/
theorem with_slot (h : d.AccessesIn c d') (slot : Nat) : d.AccessesIn c { d' with empty_slot := slot } := h

theorem of_slot {slot : Nat} (h : ({ d with empty_slot := slot } : Device).AccessesIn c d') :
    d.AccessesIn c d' := h

/-- Either branch of a step that answers a status and a device. -/
theorem ite {α : Type} {p : Prop} [Decidable p] {x y : α × Device} (hx : p → d.AccessesIn c x.2)
    (hy : ¬p → d.AccessesIn c y.2) : d.AccessesIn c (if p then x else y).2 := by
  split
  exacts [hx ‹_›, hy ‹_›]

end Device.AccessesIn

namespace StaysIn

variable {c : Config} {d d' d'' : Device}

theorem refl (d : Device) : StaysIn c d d := fun slot => ⟨.refl d, slot⟩

theorem trans (first : StaysIn c d d') (second : StaysIn c d' d'') : StaysIn c d d'' := fun slot =>
  let ⟨accesses, slot'⟩ := first slot
  let ⟨accesses', slot''⟩ := second slot'
  ⟨accesses.trans accesses', slot''⟩

/-- A step inside the region that keeps `empty_slot`. -/
theorem of_accesses (accesses : d.AccessesIn c d') (same : d'.empty_slot = d.empty_slot) : StaysIn c d d' :=
  fun slot => ⟨accesses, same ▸ slot⟩

theorem ite {α : Type} {p : Prop} [Decidable p] {x y : α × Device} (hx : p → StaysIn c d x.2)
    (hy : ¬p → StaysIn c d y.2) : StaysIn c d (if p then x else y).2 := by
  split
  exacts [hx ‹_›, hy ‹_›]

end StaysIn

section Paths

variable (c : Config)

theorem erasePages_accessesIn : ∀ (n page_num : Nat) (d : Device), page_num + n ≤ c.FEE_PAGE_COUNT →
    d.AccessesIn c (erasePages c n page_num d)
  | 0, _, d, _ => .refl d
  | n + 1, page_num, d, pages =>
    (Device.AccessesIn.record d (show c.InRegion (.erasePage (c.FEE_PAGE_BASE_ADDRESS + page_num * c.FEE_PAGE_SIZE))
      from ⟨page_num, by omega, rfl⟩)).trans
      (erasePages_accessesIn n (page_num + 1) _ (by omega))

theorem loadCompacted_accessesIn : ∀ (n src dest : Nat) (buf : Memory) (d : Device),
    c.FEE_PAGE_BASE_ADDRESS ≤ src → src + 2 * n ≤ c.FEE_COMPACTED_LAST_ADDRESS →
      (src - c.FEE_PAGE_BASE_ADDRESS) % 2 = 0 → d.AccessesIn c (loadCompacted c n src dest buf d).2
  | 0, _, _, _, d, _, _, _ => .refl d
  | n + 1, src, dest, buf, d, low, high, even => by
    have inside := (c.inRegion_snapshot (a := src - c.FEE_PAGE_BASE_ADDRESS)
      (by simp only [Config.FEE_COMPACTED_LAST_ADDRESS, Config.FEE_COMPACTED_BASE_ADDRESS] at high; omega)
      even 0 .FLASH_COMPLETE).1
    rw [Nat.add_sub_cancel' low] at inside
    exact (Device.AccessesIn.record d inside).trans
      (loadCompacted_accessesIn n (src + 2) (dest + 2) _ _ (by omega) (by omega) (by omega))

/-- The replay loop loads half-words inside the `n` slots it may read. -/
theorem replayWriteLog_accessesIn : ∀ (n log_addr : Nat) (buf : Memory) (d : Device),
    c.FEE_PAGE_BASE_ADDRESS ≤ log_addr → log_addr + 2 * n ≤ c.regionEnd →
      (log_addr - c.FEE_PAGE_BASE_ADDRESS) % 2 = 0 → d.AccessesIn c (replayWriteLog c n log_addr buf d).2.2
  | 0, _, _, d, _, _, _ => .refl d
  | n + 1, log_addr, buf, d, low, high, even => by
    have loaded : d.AccessesIn c (load log_addr 2 d) :=
      Device.AccessesIn.record d ⟨low, by omega, even⟩
    rw [replayWriteLog_succ]
    generalize Slot.ofEntry (d.flash c log_addr).toNat = s
    cases s with
    | empty => exact loaded
    | byte a v => exact loaded.trans (replayWriteLog_accessesIn n _ _ _ (by omega) (by omega) (by omega))
    | word a v => exact loaded.trans (replayWriteLog_accessesIn n _ _ _ (by omega) (by omega) (by omega))
    | reserved => exact loaded.trans (replayWriteLog_accessesIn n _ _ _ (by omega) (by omega) (by omega))
    | next a =>
      match n, high with
      | 0, _ => exact loaded
      | n + 1, high =>
        have value := loaded.trans (Device.AccessesIn.record (c := c) _
          (show c.InRegion (.read (log_addr + 2) 2) from ⟨by omega, by omega, by omega⟩))
        simp only [replaySlot]
        split
        · exact value.trans (replayWriteLog_accessesIn n _ _ _ (by omega) (by omega) (by omega))
        · exact value.trans (replayWriteLog_accessesIn n _ _ _ (by omega) (by omega) (by omega))

theorem direct_entry_staysIn (buf : Memory) {Address : Nat} (range : Address < c.FEE_DENSITY_BYTES) (d : Device) :
    StaysIn c d (eeprom_write_direct_entry c buf Address d).2 := by
  refine .of_accesses ?_ (empty_slot_direct_entry Address)
  have half : Address &&& 0xFFFE = Address - Address % 2 := and_fffe (by have := c.density_le_address_max; omega)
  have inside := c.inRegion_snapshot (a := Address &&& 0xFFFE) (by have := c.density_even; omega) (by omega)
  have loaded := Device.AccessesIn.record d (inside 0 .FLASH_COMPLETE).1
  unfold eeprom_write_direct_entry
  dsimp only
  exact .ite (fun _ => .ite (fun _ => loaded)
    fun _ => ((loaded.trans (.unlock _)).trans (.record _ (inside _ _).2)).trans (.lock _)) fun _ => loaded

theorem compactLoop_accessesIn (buf : Memory) : ∀ (n src dest : Nat) (final_status : FLASH_Status) (d : Device),
    src + 2 * n ≤ c.FEE_DENSITY_BYTES → src % 2 = 0 → dest = c.FEE_PAGE_BASE_ADDRESS + src →
      d.AccessesIn c (compactLoop buf n src dest final_status d).2
  | 0, _, _, _, d, _, _, _ => .refl d
  | n + 1, src, dest, final_status, d, range, even, based => by
    subst based
    rw [compactLoop]
    split
    · exact (Device.AccessesIn.record d ((c.inRegion_snapshot (by omega) even _ _).2)).trans
        (compactLoop_accessesIn buf n _ _ _ _ (by omega) (by omega) (by omega))
    · exact compactLoop_accessesIn buf n _ _ _ _ (by omega) (by omega) (by omega)

section Log

variable {c} (hlog : 4 ≤ c.FEE_WRITE_LOG_BYTES) (buf : Memory)
include hlog

theorem eeprom_clear_accessesIn (d : Device) : d.AccessesIn c (eeprom_clear c d) := by
  have slot : c.LogPosition c.FEE_WRITE_LOG_BASE_ADDRESS := by
    simp only [Config.LogPosition, Config.FEE_WRITE_LOG_LAST_ADDRESS]
    omega
  have low := c.inRegion_log slot (w := 2) (by simp only [Config.FEE_WRITE_LOG_LAST_ADDRESS]; omega)
  have high := c.inRegion_log (s := c.FEE_WRITE_LOG_BASE_ADDRESS + 2) (w := 2)
    (by simp only [Config.LogPosition, Config.FEE_WRITE_LOG_LAST_ADDRESS] at slot ⊢; omega)
    (by simp only [Config.FEE_WRITE_LOG_LAST_ADDRESS]; omega)
  exact ((((Device.AccessesIn.unlock d).trans (erasePages_accessesIn c _ 0 _ (by omega))).trans
    (.record _ ((low _ _).1 le_rfl))).trans (.record _ ((high _ _).1 le_rfl))).trans (.lock _)
    |>.with_slot _

theorem eeprom_compact_accessesIn (d : Device) : d.AccessesIn c (eeprom_compact c buf d).2 :=
  (((eeprom_clear_accessesIn hlog d).trans (.unlock _)).trans
    (compactLoop_accessesIn c buf _ _ _ _ _ (by omega) rfl (Nat.add_zero _).symm)).trans (.lock _)

theorem eeprom_compact_staysIn (d : Device) : StaysIn c d (eeprom_compact c buf d).2 := fun _ =>
  ⟨eeprom_compact_accessesIn hlog buf d, by
    rw [empty_slot_eeprom_compact]
    simp only [Config.LogPosition, Config.FEE_WRITE_LOG_LAST_ADDRESS]
    omega⟩

/-- A log append fits below `FEE_WRITE_LOG_LAST_ADDRESS` or compacts. -/
theorem log_word_entry_staysIn (Address : Nat) (d : Device) :
    StaysIn c d (eeprom_write_log_word_entry c buf Address d).2 := by
  unfold eeprom_write_log_word_entry
  dsimp only
  refine .ite (fun _ => eeprom_compact_staysIn hlog buf d) fun room slot => ?_
  have last : 4 ≤ c.FEE_WRITE_LOG_LAST_ADDRESS := by
    simp only [Config.FEE_WRITE_LOG_LAST_ADDRESS]
    omega
  have next : c.LogPosition (d.empty_slot + 2) := by
    simp only [Config.LogPosition] at slot ⊢
    split at room <;> omega
  by_cases value : wordAt buf Address ≤ 1
  · rw [if_pos value] at room ⊢
    rw [if_neg (encoded_ne_next value)]
    exact ⟨(((Device.AccessesIn.unlock d).with_slot _).trans
      (.record _ ((c.inRegion_log slot (w := 2) (by omega) _ _).1 le_rfl))).trans (.lock _), next⟩
  · rw [if_neg value] at room ⊢
    rw [if_pos rfl]
    refine ⟨((((Device.AccessesIn.unlock d).with_slot _).trans
      (.record _ ((c.inRegion_log slot (w := 2) (by omega) _ _).1 le_rfl))).trans
      (Device.AccessesIn.record _ ((c.inRegion_log next (w := 2) (by omega) _ _).1 le_rfl)).of_slot).trans
      (.lock _), ?_⟩
    show c.LogPosition (d.empty_slot + 2 + 2)
    simp only [Config.LogPosition] at slot ⊢
    omega

theorem log_byte_entry_staysIn (Address : Nat) (d : Device) :
    StaysIn c d (eeprom_write_log_byte_entry c buf Address d).2 := by
  unfold eeprom_write_log_byte_entry
  refine .ite (fun _ => eeprom_compact_staysIn hlog buf d) fun room slot => ?_
  have next : c.LogPosition (d.empty_slot + 2) := by
    have := c.log_even
    simp only [Config.LogPosition, Config.FEE_WRITE_LOG_LAST_ADDRESS, Config.FEE_WRITE_LOG_BASE_ADDRESS,
      Config.FEE_COMPACTED_LAST_ADDRESS] at slot room ⊢
    omega
  exact ⟨(((Device.AccessesIn.unlock d).with_slot _).trans
    (.record _ ((c.inRegion_log slot (w := 2) next.2.1 _ _).1 le_rfl))).trans (.lock _), next⟩

theorem persistByte_staysIn {Address : Nat} (range : Address < c.FEE_DENSITY_BYTES) (d : Device) :
    StaysIn c d (persistByte c buf Address d).2 := by
  unfold persistByte
  dsimp only
  exact .ite (fun _ => (direct_entry_staysIn c buf range d).trans
      (.ite (fun _ => log_byte_entry_staysIn hlog buf Address _) fun _ => log_word_entry_staysIn hlog buf _ _))
    fun _ => direct_entry_staysIn c buf range d

/-- A byte step of a word write below `FEE_BYTE_RANGE`: a byte entry, or nothing. -/
theorem byte_step_staysIn (changed : Prop) [Decidable changed] (Address : Nat) (d : Device) :
    StaysIn c d (if changed then eeprom_write_log_byte_entry c buf Address d
      else (some .FLASH_COMPLETE, d)).2 :=
  .ite (fun _ => log_byte_entry_staysIn hlog buf Address d) fun _ => .refl d

theorem persistWord_staysIn (oldValue : Nat) (DataWord : UInt16) {Address : Nat}
    (range : Address < c.FEE_DENSITY_BYTES) (d : Device) :
    StaysIn c d (persistWord c oldValue DataWord buf Address d).2 := by
  unfold persistWord
  dsimp only
  exact .ite (fun _ => (direct_entry_staysIn c buf range d).trans
      (.ite (fun _ => (byte_step_staysIn hlog buf _ _ _).trans (byte_step_staysIn hlog buf _ _ _))
        fun _ => log_word_entry_staysIn hlog buf _ _))
    fun _ => direct_entry_staysIn c buf range d

/-- A boot from any state: the snapshot loads, the magic load, the `eeprom_clear` when the
magic is missing and the replay stay inside the region, and `empty_slot` is left at a slot of
the log. -/
theorem EEPROM_Init_accessesIn (m : Machine) :
    m.dev.AccessesIn c (EEPROM_Init c m).2.dev ∧ c.LogPosition (EEPROM_Init c m).2.dev.empty_slot := by
  have last := c.log_last_le_region_end
  have even := c.density_even
  have base : c.LogPosition c.FEE_WRITE_LOG_BASE_ADDRESS := by
    simp only [Config.LogPosition, Config.FEE_WRITE_LOG_LAST_ADDRESS]
    omega
  have magic := (c.inRegion_log base (w := 4) (by simp only [Config.FEE_WRITE_LOG_LAST_ADDRESS]; omega)
    0 .FLASH_COMPLETE).2
  simp only [Config.LogPosition, Config.FEE_WRITE_LOG_LAST_ADDRESS, Config.FEE_WRITE_LOG_BASE_ADDRESS,
    Config.FEE_COMPACTED_LAST_ADDRESS, Config.FEE_COMPACTED_BASE_ADDRESS, Config.regionEnd,
    Config.FEE_DENSITY_MAX_SIZE] at last base
  have slots : c.firstSlot + 2 * c.logSlots ≤ c.FEE_WRITE_LOG_LAST_ADDRESS := by
    simp only [Config.logSlots, Config.firstSlot, Config.FEE_WRITE_LOG_LAST_ADDRESS,
      Config.FEE_WRITE_LOG_BASE_ADDRESS, Config.FEE_COMPACTED_LAST_ADDRESS, Config.FEE_COMPACTED_BASE_ADDRESS]
    omega
  simp only [Config.firstSlot, Config.FEE_WRITE_LOG_LAST_ADDRESS, Config.FEE_WRITE_LOG_BASE_ADDRESS,
    Config.FEE_COMPACTED_LAST_ADDRESS, Config.FEE_COMPACTED_BASE_ADDRESS] at slots
  have replayed := fun (buf : Memory) (d : Device) =>
    replayWriteLog_accessesIn c c.logSlots c.firstSlot buf d
      (by simp only [Config.firstSlot, Config.FEE_WRITE_LOG_BASE_ADDRESS, Config.FEE_COMPACTED_LAST_ADDRESS,
        Config.FEE_COMPACTED_BASE_ADDRESS]; omega)
      (by simp only [Config.firstSlot, Config.FEE_WRITE_LOG_BASE_ADDRESS, Config.FEE_COMPACTED_LAST_ADDRESS,
        Config.FEE_COMPACTED_BASE_ADDRESS, Config.regionEnd, Config.FEE_DENSITY_MAX_SIZE]; omega)
      (by simp only [Config.firstSlot, Config.FEE_WRITE_LOG_BASE_ADDRESS, Config.FEE_COMPACTED_LAST_ADDRESS,
        Config.FEE_COMPACTED_BASE_ADDRESS]; omega)
  simp only [EEPROM_Init]
  refine ⟨Device.AccessesIn.with_slot (((loadCompacted_accessesIn c (c.FEE_DENSITY_BYTES / 2)
    c.FEE_COMPACTED_BASE_ADDRESS 0 m.DataBuf m.dev le_rfl
    (by simp only [Config.FEE_COMPACTED_LAST_ADDRESS, Config.FEE_COMPACTED_BASE_ADDRESS]; omega)
    (by simp [Config.FEE_COMPACTED_BASE_ADDRESS])).trans (.record _ magic)).trans ?_) _, ?_⟩
  · split
    · exact (eeprom_clear_accessesIn hlog _).trans (replayed _ _)
    · exact replayed _ _
  · obtain ⟨k, le, stop⟩ := decodeLog_stop _ c.logSlots c.firstSlot
    rw [(replayWriteLog_spec c _ _ _ _).1, stop]
    simp only [Config.LogPosition, Config.firstSlot, Config.FEE_WRITE_LOG_LAST_ADDRESS,
      Config.FEE_WRITE_LOG_BASE_ADDRESS, Config.FEE_COMPACTED_LAST_ADDRESS, Config.FEE_COMPACTED_BASE_ADDRESS]
    omega

end Log

end Paths

section Writes

variable {c : Config} (hlog : 4 ≤ c.FEE_WRITE_LOG_BYTES)
include hlog

theorem writeDataByte_staysIn (Address : Nat) (DataByte : UInt8) (m : Machine) :
    StaysIn c m.dev (EEPROM_WriteDataByte c Address DataByte m).2.dev := by
  by_cases range : Address < c.FEE_DENSITY_BYTES
  · by_cases same : m.DataBuf Address = DataByte
    · rw [writeDataByte_of_same range same]
      exact .refl _
    · rw [writeDataByte_of_ne range same]
      exact persistByte_staysIn hlog _ range m.dev
  · rw [writeDataByte_of_ge DataByte m (Nat.not_lt.1 range)]
    exact .refl _

theorem writeDataWord_staysIn (Address : Nat) (DataWord : UInt16) (m : Machine) :
    StaysIn c m.dev (EEPROM_WriteDataWord c Address DataWord m).2.dev := by
  by_cases range : Address < c.FEE_DENSITY_BYTES
  · by_cases odd : Address % 2 = 1
    · rw [writeDataWord_of_odd DataWord m range odd]
      exact (writeDataByte_staysIn hlog _ _ m).trans (writeDataByte_staysIn hlog _ _ _)
    by_cases same : wordAt m.DataBuf Address = DataWord.toNat
    · rw [writeDataWord_of_same range (by omega) same]
      exact .refl _
    · rw [writeDataWord_of_ne range (by omega) same]
      exact persistWord_staysIn hlog _ _ _ range m.dev
  · rw [writeDataWord_of_ge DataWord m (Nat.not_lt.1 range)]
    exact .refl _

theorem Event.run_staysIn (event : Event) (m : Machine) : StaysIn c m.dev (event.run c m).dev := by
  cases event with
  | call write =>
    exact write.run_of (fun m m' => StaysIn c m.dev m'.dev) (fun m => .refl m.dev) StaysIn.trans
      (writeDataByte_staysIn hlog) (writeDataWord_staysIn hlog) m
  | reboot => exact fun _ => EEPROM_Init_accessesIn hlog m

/-- Flash accesses stay inside the region whenever the write log has room for the magic: from
any state and whatever the driver answers, a boot through `EEPROM_Init` or `EEPROM_Erase`
and any run of write calls and reboots after it load, erase and program only inside
`[FEE_PAGE_BASE_ADDRESS, FEE_PAGE_BASE_ADDRESS + FEE_PAGE_COUNT * FEE_PAGE_SIZE)`: loads and
programs at an even offset from the base, erases on the region's pages. -/
theorem runs_stay_in_region (events : List Event) (m : Machine) :
    (∀ op ∈ (runEvents c events (EEPROM_Init c m).2).dev.trace.drop m.dev.trace.length, c.InRegion op) ∧
      ∀ op ∈ (runEvents c events (EEPROM_Erase c m)).dev.trace.drop m.dev.trace.length, c.InRegion op := by
  have run := runEvents_of (fun m m' => StaysIn c m.dev m'.dev) (fun m => .refl m.dev) StaysIn.trans
    (Event.run_staysIn hlog) events
  have booted := EEPROM_Init_accessesIn hlog m
  have erased := EEPROM_Init_accessesIn hlog ⟨m.DataBuf, eeprom_clear c m.dev⟩
  obtain ⟨ops, trace, inside⟩ := booted.1.trans (run _ booted.2).1
  obtain ⟨ops', trace', inside'⟩ : m.dev.AccessesIn c (runEvents c events (EEPROM_Erase c m)).dev :=
    ((eeprom_clear_accessesIn hlog m.dev).trans erased.1).trans (run _ erased.2).1
  rw [trace, trace', List.drop_left, List.drop_left]
  exact ⟨inside, inside'⟩

end Writes

theorem runs_stay_in_region_small :
    4 ≤ Config.small.FEE_WRITE_LOG_BYTES ∧ (∀ op ∈ (runEvents Config.small [.call (.write_byte 0 1), .reboot]
      (EEPROM_Init Config.small Machine.erased).2).dev.trace.drop Machine.erased.dev.trace.length,
        Config.small.InRegion op) ∧
      ∀ op ∈ (runEvents Config.small [.call (.write_byte 0 1), .reboot]
        (EEPROM_Erase Config.small Machine.erased)).dev.trace.drop Machine.erased.dev.trace.length,
          Config.small.InRegion op :=
  ⟨by decide, runs_stay_in_region (by decide) [.call (.write_byte 0 1), .reboot] Machine.erased⟩

end PicoEeprom

