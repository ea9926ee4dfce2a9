import PicoEeprom.Durability

/-! Monotonic log use. Between compactions the write log only grows: a step that erases no page
leaves `empty_slot` where it was or moves it forward, and every half-word it programs at or above
the log base lies between the old and the new `empty_slot`. The write paths do so from any state
and behind any driver; a reboot does so on a store with the invariant, where `EEPROM_Init` finds
`empty_slot` where it was. -/
namespace PicoEeprom

theorem drop_length_of_isPrefix {l₁ l₂ l₃ : List FlashOp} (first : l₁ <+: l₂) (second : l₂ <+: l₃) :
    l₃.drop l₁.length = l₂.drop l₁.length ++ l₃.drop l₂.length := by
  obtain ⟨t, rfl⟩ := first
  obtain ⟨t', rfl⟩ := second
  simp only [List.append_assoc, List.drop_left, List.length_append, ← List.drop_drop]

/-- From `d` to `d'` the log grows, once no page is erased: `empty_slot` does not move back, and
each half-word programmed at or above the log base lies in `[d.empty_slot, d'.empty_slot)`. -/
structure Device.Appends (c : Config) (d d' : Device) : Prop where
  appends : d.trace <+: d'.trace
  grows : NoErase d d' → d.empty_slot ≤ d'.empty_slot ∧
    ∀ a v s, FlashOp.programHalfWord a v s ∈ d'.trace.drop d.trace.length →
      c.FEE_WRITE_LOG_BASE_ADDRESS ≤ a → d.empty_slot ≤ a ∧ a < d'.empty_slot

namespace Device.Appends

variable {c : Config} {d d' d'' : Device}

theorem refl (d : Device) : d.Appends c d :=
  ⟨List.prefix_refl _, fun _ => ⟨Nat.le_refl _, fun _ _ _ mem => by simp at mem⟩⟩

theorem trans (first : d.Appends c d') (second : d'.Appends c d'') : d.Appends c d'' := by
  refine ⟨first.appends.trans second.appends, fun noErase => ?_⟩
  obtain ⟨noErase₁, noErase₂⟩ := noErase.split first.appends second.appends
  obtain ⟨le₁, log₁⟩ := first.grows noErase₁
  obtain ⟨le₂, log₂⟩ := second.grows noErase₂
  refine ⟨le₁.trans le₂, fun a v s mem above => ?_⟩
  rw [drop_length_of_isPrefix first.appends second.appends, List.mem_append] at mem
  rcases mem with mem | mem
  · have := log₁ a v s mem above
    omega
  · have := log₂ a v s mem above
    omega

theorem of_loads (loads : d.Loads d') : d.Appends c d' := by
  obtain ⟨-, -, slot, reads, trace, only⟩ := loads
  refine ⟨⟨reads, trace.symm⟩, fun _ => ⟨slot.ge, fun a v s mem _ => ?_⟩⟩
  rw [trace, List.drop_left] at mem
  obtain ⟨_, _, h⟩ := only _ mem
  cases h

/-- A step that erases a page: what the log does there is for the compaction to answer. -/
theorem of_erases (appends : d.trace <+: d'.trace) (erases : ¬ NoErase d d') : d.Appends c d' :=
  ⟨appends, fun noErase => absurd noErase erases⟩

/-- An access that programs nothing. -/
theorem record {op : FlashOp} (d : Device) (free : op.isProgram = false) : d.Appends c (d.record op) := by
  refine ⟨⟨[op], rfl⟩, fun _ => ⟨Nat.le_refl _, fun a v s mem _ => ?_⟩⟩
  rw [Device.trace_record, List.drop_left, List.mem_singleton] at mem
  rw [← mem] at free
  cases free

theorem unlock (d : Device) : d.Appends c (FLASH_Unlock d) := record d rfl

theorem lock (d : Device) : d.Appends c (FLASH_Lock d) := record d rfl

theorem load (d : Device) (addr width : Nat) : d.Appends c (PicoEeprom.load addr width d) := record d rfl

/-- A program below the log base. -/
theorem program_below (d : Device) {addr : Nat} (v : UInt16) (below : addr < c.FEE_WRITE_LOG_BASE_ADDRESS) :
    d.Appends c (FLASH_ProgramHalfWord addr v d).2 := by
  refine ⟨⟨_, rfl⟩, fun _ => ⟨Nat.le_refl _, fun a v s mem above => ?_⟩⟩
  simp only [FLASH_ProgramHalfWord, Device.trace_record, List.drop_left, List.mem_singleton,
    FlashOp.programHalfWord.injEq] at mem
  omega

/-- A log append: the program at `empty_slot` after moving it past the slot. -/
theorem append (d : Device) (v : UInt16) :
    d.Appends c (FLASH_ProgramHalfWord d.empty_slot v { d with empty_slot := d.empty_slot + 2 }).2 := by
  refine ⟨⟨_, rfl⟩, fun _ => ⟨Nat.le_add_right _ 2, fun a v s mem _ => ?_⟩⟩
  simp only [FLASH_ProgramHalfWord, Device.trace_record, List.drop_left, List.mem_singleton,
    FlashOp.programHalfWord.injEq] at mem
  show _ ≤ a ∧ a < d.empty_slot + 2
  omega

/-- Either branch of a step that answers a status and a device. -/
theorem ite {α : Type} {p : Prop} [Decidable p] {x y : α × Device} (hx : p → d.Appends c x.2)
    (hy : ¬p → d.Appends c y.2) : d.Appends c (if p then x else y).2 := by
  split
  exacts [hx ‹_›, hy ‹_›]

end Device.Appends

section Paths

variable {c : Config} (buf : Memory) {d : Device}

theorem appends_eeprom_compact (pages : 0 < c.FEE_PAGE_COUNT) :
    d.Appends c (eeprom_compact c buf d).2 := by
  obtain ⟨_, _, _, _, trace, -⟩ := trace_eeprom_compact c buf d
  refine .of_erases ⟨_, trace.symm⟩ fun noErase => ?_
  obtain ⟨op, mem, erase⟩ := compact_erases c buf d pages
  exact absurd (noErase op mem) (by rw [erase]; decide)

/-- The direct write programs the snapshot, below the log. -/
theorem appends_direct_entry {A : Nat} (range : A < c.FEE_DENSITY_BYTES) :
    d.Appends c (eeprom_write_direct_entry c buf A d).2 := by
  have below : c.FEE_COMPACTED_BASE_ADDRESS + (A &&& 0xFFFE) < c.FEE_WRITE_LOG_BASE_ADDRESS := by
    rw [and_fffe (by have := c.density_le_address_max; omega)]
    simp only [Config.FEE_WRITE_LOG_BASE_ADDRESS, Config.FEE_COMPACTED_LAST_ADDRESS]
    omega
  have loaded := Device.Appends.load (c := c) d (c.FEE_COMPACTED_BASE_ADDRESS + (A &&& 0xFFFE)) 2
  unfold eeprom_write_direct_entry
  dsimp only
  exact .ite (fun _ => .ite (fun _ => loaded) fun _ =>
    ((loaded.trans (.unlock _)).trans (.program_below _ _ below)).trans (.lock _)) fun _ => loaded

/-- A byte entry programs the slot at `empty_slot` and moves past it, or compacts. -/
theorem appends_log_byte_entry {A : Nat} (pages : 0 < c.FEE_PAGE_COUNT) :
    d.Appends c (eeprom_write_log_byte_entry c buf A d).2 := by
  unfold eeprom_write_log_byte_entry
  exact .ite (fun _ => appends_eeprom_compact buf pages) fun _ =>
    ((Device.Appends.unlock d).trans (.append _ _)).trans (.lock _)

/-- A Word-Encoded entry programs one slot, a Word-Next entry two, from `empty_slot` on. -/
theorem appends_log_word_entry {A : Nat} (pages : 0 < c.FEE_PAGE_COUNT) :
    d.Appends c (eeprom_write_log_word_entry c buf A d).2 := by
  unfold eeprom_write_log_word_entry
  dsimp only
  refine .ite (fun _ => appends_eeprom_compact buf pages) fun _ => Device.Appends.trans ?_ (.lock _)
  exact .ite (fun _ => ((Device.Appends.unlock d).trans (.append _ _)).trans (.append _ _))
    fun _ => (Device.Appends.unlock d).trans (.append _ _)

theorem appends_persistByte {A : Nat} (range : A < c.FEE_DENSITY_BYTES) :
    d.Appends c (persistByte c buf A d).2 := by
  unfold persistByte
  exact .ite (fun _ => (appends_direct_entry buf range).trans
      (.ite (fun _ => appends_log_byte_entry buf (pages_of_range range))
        fun _ => appends_log_word_entry buf (pages_of_range range)))
    fun _ => appends_direct_entry buf range

/-- A byte step of a word write below `FEE_BYTE_RANGE`: a byte entry, or nothing. -/
theorem appends_byte_step (changed : Prop) [Decidable changed] {A : Nat} (pages : 0 < c.FEE_PAGE_COUNT) :
    d.Appends c (if changed then eeprom_write_log_byte_entry c buf A d else (some .FLASH_COMPLETE, d)).2 :=
  .ite (fun _ => appends_log_byte_entry buf pages) fun _ => .refl d

theorem appends_persistWord {A : Nat} (range : A < c.FEE_DENSITY_BYTES) (oldValue : Nat) (v : UInt16) :
    d.Appends c (persistWord c oldValue v buf A d).2 := by
  unfold persistWord
  dsimp only
  exact .ite (fun _ => (appends_direct_entry buf range).trans
      (.ite (fun _ => (appends_byte_step buf _ (pages_of_range range)).trans
          (appends_byte_step buf _ (pages_of_range range)))
        fun _ => appends_log_word_entry buf (pages_of_range range)))
    fun _ => appends_direct_entry buf range

end Paths

section Steps

variable {c : Config}

theorem writeDataByte_appends (A : Nat) (v : UInt8) (m : Machine) :
    m.dev.Appends c (EEPROM_WriteDataByte c A v m).2.dev := by
  by_cases range : A < c.FEE_DENSITY_BYTES
  · by_cases same : m.DataBuf A = v
    · rw [writeDataByte_of_same range same]
      exact .refl _
    · rw [writeDataByte_of_ne range same]
      exact appends_persistByte _ range
  · rw [writeDataByte_of_ge v m (Nat.not_lt.1 range)]
    exact .refl _

theorem writeDataWord_appends (A : Nat) (v : UInt16) (m : Machine) :
    m.dev.Appends c (EEPROM_WriteDataWord c A v m).2.dev := by
  by_cases range : A < c.FEE_DENSITY_BYTES
  · rcases Nat.mod_two_eq_zero_or_one A with even | odd
    · by_cases same : wordAt m.DataBuf A = v.toNat
      · rw [writeDataWord_of_same range even same]
        exact .refl _
      · rw [writeDataWord_of_ne range even same]
        exact appends_persistWord _ range _ _
    · rw [writeDataWord_of_odd v m range odd]
      exact (writeDataByte_appends _ _ m).trans (writeDataByte_appends _ _ _)
  · rw [writeDataWord_of_ge v m (Nat.not_lt.1 range)]
    exact .refl _

/-- With the magic, `EEPROM_Init` only loads. -/
theorem EEPROM_Init_reads (m : Machine) (magic : readWord c c.FEE_WRITE_LOG_BASE_ADDRESS m.dev = FEE_MAGIC_DWORD) :
    (EEPROM_Init c m).2.dev.initial = m.dev.initial ∧
      ∃ reads, (EEPROM_Init c m).2.dev.trace = m.dev.trace ++ reads ∧ ∀ op ∈ reads, ∃ a w, op = .read a w := by
  simp only [EEPROM_Init]
  generalize hL : loadCompacted c (c.FEE_DENSITY_BYTES / 2) c.FEE_COMPACTED_BASE_ADDRESS 0
    m.DataBuf m.dev = L
  obtain ⟨-, loads⟩ := hL ▸ loadCompacted_spec c (c.FEE_DENSITY_BYTES / 2)
    c.FEE_COMPACTED_BASE_ADDRESS 0 m.DataBuf m.dev
  have magic' := (readWord_congr c c.FEE_WRITE_LOG_BASE_ADDRESS (loads.flash c)).trans magic
  obtain ⟨-, -, replayed⟩ :=
    replayWriteLog_spec c c.logSlots c.firstSlot L.1 (load c.FEE_WRITE_LOG_BASE_ADDRESS 4 L.2)
  simp only [magic', ne_eq, not_true_eq_false, if_false]
  have loaded := loads.trans ((Device.Loads.load _ _ _).trans replayed)
  exact ⟨loaded.initial, loaded.reads⟩

/-- A reboot on a store with the invariant programs nothing and finds `empty_slot` where it was. -/
theorem EEPROM_Init_appends_log (m : Machine) (inv : Inv c m) : m.dev.Appends c (EEPROM_Init c m).2.dev := by
  obtain ⟨-, reads, trace, only⟩ := EEPROM_Init_reads m inv.magic
  refine ⟨⟨reads, trace.symm⟩, fun _ => ⟨inv.slot.ge, fun a v s mem _ => ?_⟩⟩
  rw [trace, List.drop_left] at mem
  obtain ⟨_, _, h⟩ := only _ mem
  cases h

/-- A step of a run that keeps the invariant and, from a store with it, lets the log only grow. -/
structure LogGrows (c : Config) (m m' : Machine) : Prop where
  keeps : Keeps c m m'
  grows : Inv c m → (∀ i, m.dev.driver i = .FLASH_COMPLETE) → m.dev.Appends c m'.dev

theorem LogGrows.refl (m : Machine) : LogGrows c m m := ⟨.refl m, fun _ _ => .refl _⟩

theorem LogGrows.trans {m m' m'' : Machine} (first : LogGrows c m m') (second : LogGrows c m' m'') :
    LogGrows c m m'' :=
  ⟨first.keeps.trans second.keeps, fun inv complete =>
    ⟨first.keeps.appends.trans second.keeps.appends, fun noErase => by
      obtain ⟨noErase₁, -⟩ := noErase.split first.keeps.appends second.keeps.appends
      obtain ⟨inv', complete', -⟩ := first.keeps.inv inv complete noErase₁
      exact ((first.grows inv complete).trans (second.grows inv' complete')).grows noErase⟩⟩

theorem Event.run_logGrows (event : Event) (m : Machine) : LogGrows c m (event.run c m) := by
  cases event with
  | call write =>
    exact write.run_of (LogGrows c) LogGrows.refl LogGrows.trans
      (fun A v m => ⟨writeDataByte_keeps A v m, fun _ _ => writeDataByte_appends A v m⟩)
      (fun A v m => ⟨writeDataWord_keeps A v m, fun _ _ => writeDataWord_appends A v m⟩) m
  | reboot => exact ⟨EEPROM_Init_keeps m, fun inv _ => EEPROM_Init_appends_log m inv⟩

theorem runEvents_append (events₁ events₂ : List Event) (m : Machine) :
    runEvents c (events₁ ++ events₂) m = runEvents c events₂ (runEvents c events₁ m) :=
  List.foldl_append _ _ _ _

end Steps

section Runs

variable {c : Config}

/-- Monotonic log use: from a store with the invariant behind a driver that completes, along any
run of write calls (at any address) and reboots that erases no page, between the end of any first
part of the run and its end `empty_slot` never moves back, and every half-word programmed in
between at or above the log base lies between the two `empty_slot`s: the log is only appended to,
never rewritten below `empty_slot`. -/
theorem log_grows_between_compactions (events₁ events₂ : List Event) (m : Machine) (inv : Inv c m)
    (complete : ∀ i, m.dev.driver i = .FLASH_COMPLETE)
    (noCompaction : ∀ op ∈ (runEvents c (events₁ ++ events₂) m).dev.trace.drop m.dev.trace.length,
      op.isErase = false) :
    (runEvents c events₁ m).dev.empty_slot ≤ (runEvents c (events₁ ++ events₂) m).dev.empty_slot ∧
      ∀ a v s, FlashOp.programHalfWord a v s ∈
          (runEvents c (events₁ ++ events₂) m).dev.trace.drop (runEvents c events₁ m).dev.trace.length →
        c.FEE_WRITE_LOG_BASE_ADDRESS ≤ a →
        (runEvents c events₁ m).dev.empty_slot ≤ a ∧ a < (runEvents c (events₁ ++ events₂) m).dev.empty_slot := by
  have first := runEvents_of (LogGrows c) LogGrows.refl LogGrows.trans Event.run_logGrows events₁ m
  have second := runEvents_of (LogGrows c) LogGrows.refl LogGrows.trans Event.run_logGrows events₂
    (runEvents c events₁ m)
  rw [runEvents_append] at noCompaction ⊢
  obtain ⟨noErase₁, noErase₂⟩ := NoErase.split noCompaction first.keeps.appends second.keeps.appends
  obtain ⟨inv', complete', -⟩ := first.keeps.inv inv complete noErase₁
  exact (second.grows inv' complete').grows noErase₂

theorem log_grows_between_compactions_small :
    Inv Config.small (EEPROM_Erase Config.small Machine.erased) ∧
    (runEvents Config.small [.call (.write_byte 0 1)] (EEPROM_Erase Config.small Machine.erased)).dev.empty_slot ≤
      (runEvents Config.small ([.call (.write_byte 0 1)] ++ [.reboot, .call (.write_byte 0 2)])
        (EEPROM_Erase Config.small Machine.erased)).dev.empty_slot ∧
    ∀ a v s, FlashOp.programHalfWord a v s ∈
        (runEvents Config.small ([.call (.write_byte 0 1)] ++ [.reboot, .call (.write_byte 0 2)])
          (EEPROM_Erase Config.small Machine.erased)).dev.trace.drop
          (runEvents Config.small [.call (.write_byte 0 1)] (EEPROM_Erase Config.small Machine.erased)).dev.trace.length →
      Config.small.FEE_WRITE_LOG_BASE_ADDRESS ≤ a →
      (runEvents Config.small [.call (.write_byte 0 1)] (EEPROM_Erase Config.small Machine.erased)).dev.empty_slot ≤ a ∧
        a < (runEvents Config.small ([.call (.write_byte 0 1)] ++ [.reboot, .call (.write_byte 0 2)])
          (EEPROM_Erase Config.small Machine.erased)).dev.empty_slot :=
  have inv := ((eeprom_clear_stored Config.small Machine.erased.dev (fun _ => rfl) (by decide)).init
    ⟨Machine.erased.DataBuf, eeprom_clear Config.small Machine.erased.dev⟩ rfl).2
  ⟨inv, log_grows_between_compactions [.call (.write_byte 0 1)] [.reboot, .call (.write_byte 0 2)]
    (EEPROM_Erase Config.small Machine.erased) inv (fun _ => rfl) (by decide)⟩

end Runs

end PicoEeprom
