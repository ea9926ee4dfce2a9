import PicoEeprom.Durability

/-! The lock of the flash driver. Every persistence path brackets its erases and programs
between `FLASH_Unlock` and `FLASH_Lock` and locks again on every exit, error returns
included. From any state, whatever the driver answers, a run of write calls and reboots, and
`EEPROM_Erase`, take a locked flash through unlocks, erases, programs and locks in turn
without an erase or a program while it is locked, and leave it locked. -/
namespace PicoEeprom

/-- One access as the driver's lock sees it, from `unlocked`. `none` is a bracketing error: an
unlock of an unlocked flash, a lock of a locked one, an erase or a program while locked. Loads
go through the XIP window and need no unlock. -/
def FlashOp.bracket : FlashOp → Bool → Option Bool
  | .read _ _, unlocked => some unlocked
  | .unlock, false => some true
  | .lock, true => some false
  | .erasePage _, true => some true
  | .programHalfWord _ _ _, true => some true
  | _, _ => none

/-- The lock after `ops` from `unlocked`, or `none` at the first bracketing error. -/
def bracketRun (unlocked : Bool) (ops : List FlashOp) : Option Bool :=
  ops.foldlM (fun s op => op.bracket s) unlocked

example : bracketRun false [.unlock, .programHalfWord 0 0 .FLASH_COMPLETE, .lock] = some false := by
  decide

example : bracketRun false [.unlock, .lock, .programHalfWord 0 0 .FLASH_COMPLETE] = none := by
  decide

/-- From `d` to `d'` the engine appended operations that take the lock from `s` to `s'`
without a bracketing error. -/
def Brackets (d d' : Device) (s s' : Bool) : Prop :=
  ∃ ops, d'.trace = d.trace ++ ops ∧ bracketRun s ops = some s'

namespace Brackets

variable {d d' d'' : Device} {s s' s'' : Bool}

theorem refl (d : Device) (s : Bool) : Brackets d d s s := ⟨[], (List.append_nil _).symm, rfl⟩

theorem trans (first : Brackets d d' s s') (second : Brackets d' d'' s' s'') : Brackets d d'' s s'' := by
  obtain ⟨xs, tx, rx⟩ := first
  obtain ⟨ys, ty, ry⟩ := second
  refine ⟨xs ++ ys, by rw [ty, tx, List.append_assoc], ?_⟩
  rw [bracketRun, List.foldlM_append]
  exact (congrArg (· >>= _) rx).trans ry

theorem record {op : FlashOp} (d : Device) (step : op.bracket s = some s') :
    Brackets d (d.record op) s s' :=
  ⟨[op], rfl, by simpa [bracketRun] using step⟩

theorem bracketRun_of_reads (s : Bool) :
    ∀ reads : List FlashOp, (∀ op ∈ reads, ∃ a w, op = .read a w) → bracketRun s reads = some s
  | [], _ => rfl
  | op :: reads, only => by
    obtain ⟨a, w, rfl⟩ := only op (List.mem_cons_self _ _)
    exact bracketRun_of_reads s reads fun op mem => only op (List.mem_cons_of_mem _ mem)

theorem of_loads (loads : d.Loads d') (s : Bool) : Brackets d d' s s :=
  let ⟨_, _, _, reads, trace, only⟩ := loads
  ⟨reads, trace, bracketRun_of_reads s reads only⟩

theorem load (d : Device) (addr width : Nat) (s : Bool) : Brackets d (PicoEeprom.load addr width d) s s :=
  record d rfl

theorem unlock (d : Device) : Brackets d (FLASH_Unlock d) false true := record d rfl

theorem lock (d : Device) : Brackets d (FLASH_Lock d) true false := record d rfl

theorem program (d : Device) (addr : Nat) (value : UInt16) :
    Brackets d (FLASH_ProgramHalfWord addr value d).2 true true :=
  record d rfl

theorem erase (d : Device) (addr : Nat) : Brackets d (FLASH_ErasePage addr d) true true := record d rfl

/-- Either branch of a step that answers a status and a device. -/
theorem ite {α : Type} {p : Prop} [Decidable p] {x y : α × Device} (hx : p → Brackets d x.2 s s')
    (hy : ¬p → Brackets d y.2 s s') : Brackets d (if p then x else y).2 s s' := by
  split
  exacts [hx ‹_›, hy ‹_›]

/-- The lock reads only the trace, not `empty_slot`. -/
theorem with_slot (h : Brackets d d' s s') (slot : Nat) : Brackets d { d' with empty_slot := slot } s s' := h

theorem of_slot {slot : Nat} (h : Brackets { d with empty_slot := slot } d' s s') : Brackets d d' s s' := h

end Brackets

section Paths

variable (c : Config) (buf : Memory)

theorem erasePages_brackets : ∀ (n page_num : Nat) (d : Device), Brackets d (erasePages c n page_num d) true true
  | 0, _, d => .refl d true
  | n + 1, page_num, d => (Brackets.erase d _).trans (erasePages_brackets n (page_num + 1) _)

theorem eeprom_clear_brackets (d : Device) : Brackets d (eeprom_clear c d) false false :=
  ((((Brackets.unlock d).trans (erasePages_brackets c _ 0 _)).trans (.program _ _ _)).trans
    (.program _ _ _)).trans (.lock _) |>.with_slot _

theorem compactLoop_brackets :
    ∀ (n src dest : Nat) (final_status : FLASH_Status) (d : Device),
      Brackets d (compactLoop buf n src dest final_status d).2 true true
  | 0, _, _, _, d => .refl d true
  | n + 1, src, dest, final_status, d => by
    rw [compactLoop]
    split
    · exact (Brackets.program d _ _).trans (compactLoop_brackets n _ _ _ _)
    · exact compactLoop_brackets n _ _ _ d

theorem eeprom_compact_brackets (d : Device) : Brackets d (eeprom_compact c buf d).2 false false :=
  (((eeprom_clear_brackets c d).trans (.unlock _)).trans (compactLoop_brackets buf _ _ _ _ _)).trans (.lock _)

theorem direct_entry_brackets (Address : Nat) (d : Device) :
    Brackets d (eeprom_write_direct_entry c buf Address d).2 false false := by
  have loaded := Brackets.load d (c.FEE_COMPACTED_BASE_ADDRESS + (Address &&& 0xFFFE)) 2 false
  unfold eeprom_write_direct_entry
  dsimp only
  exact .ite (fun _ => .ite (fun _ => loaded)
    fun _ => ((loaded.trans (.unlock _)).trans (.program _ _ _)).trans (.lock _)) fun _ => loaded

/-- A log append: a compaction when the entry does not fit, else its one or two programs
between an unlock and a lock. -/
theorem log_word_entry_brackets (Address : Nat) (d : Device) :
    Brackets d (eeprom_write_log_word_entry c buf Address d).2 false false := by
  unfold eeprom_write_log_word_entry
  dsimp only
  refine .ite (fun _ => eeprom_compact_brackets c buf d) fun _ => Brackets.trans ?_ (.lock _)
  exact .ite (fun _ => (((Brackets.unlock d).with_slot _).trans (.program _ _ _)).trans (Brackets.program _ _ _).of_slot)
    fun _ => ((Brackets.unlock d).with_slot _).trans (.program _ _ _)

theorem log_byte_entry_brackets (Address : Nat) (d : Device) :
    Brackets d (eeprom_write_log_byte_entry c buf Address d).2 false false := by
  unfold eeprom_write_log_byte_entry
  exact .ite (fun _ => eeprom_compact_brackets c buf d)
    fun _ => (((Brackets.unlock d).with_slot _).trans (.program _ _ _)).trans (.lock _)

theorem persistByte_brackets (Address : Nat) (d : Device) :
    Brackets d (persistByte c buf Address d).2 false false := by
  unfold persistByte
  dsimp only
  exact .ite (fun _ => (direct_entry_brackets c buf Address d).trans
      (.ite (fun _ => log_byte_entry_brackets c buf Address _) fun _ => log_word_entry_brackets c buf _ _))
    fun _ => direct_entry_brackets c buf Address d

/-- A byte step of a word write below `FEE_BYTE_RANGE`: a byte entry, or nothing. -/
theorem byte_step_brackets (changed : Prop) [Decidable changed] (Address : Nat) (d : Device) :
    Brackets d (if changed then eeprom_write_log_byte_entry c buf Address d
      else (some .FLASH_COMPLETE, d)).2 false false :=
  .ite (fun _ => log_byte_entry_brackets c buf Address d) fun _ => .refl d false

theorem persistWord_brackets (oldValue : Nat) (DataWord : UInt16) (Address : Nat) (d : Device) :
    Brackets d (persistWord c oldValue DataWord buf Address d).2 false false := by
  unfold persistWord
  dsimp only
  exact .ite (fun _ => (direct_entry_brackets c buf Address d).trans
      (.ite (fun _ => (byte_step_brackets c buf _ _ _).trans (byte_step_brackets c buf _ _ _))
        fun _ => log_word_entry_brackets c buf _ _))
    fun _ => direct_entry_brackets c buf Address d

end Paths

section Writes

variable {c : Config}

theorem writeDataByte_brackets (Address : Nat) (DataByte : UInt8) (m : Machine) :
    Brackets m.dev (EEPROM_WriteDataByte c Address DataByte m).2.dev false false := by
  by_cases range : Address < c.FEE_DENSITY_BYTES
  · by_cases same : m.DataBuf Address = DataByte
    · rw [writeDataByte_of_same range same]
      exact .refl _ false
    · rw [writeDataByte_of_ne range same]
      exact persistByte_brackets c _ Address m.dev
  · rw [writeDataByte_of_ge DataByte m (Nat.not_lt.1 range)]
    exact .refl _ false

theorem writeDataWord_brackets (Address : Nat) (DataWord : UInt16) (m : Machine) :
    Brackets m.dev (EEPROM_WriteDataWord c Address DataWord m).2.dev false false := by
  by_cases range : Address < c.FEE_DENSITY_BYTES
  · by_cases odd : Address % 2 = 1
    · rw [writeDataWord_of_odd DataWord m range odd]
      exact (writeDataByte_brackets _ _ m).trans (writeDataByte_brackets _ _ _)
    by_cases same : wordAt m.DataBuf Address = DataWord.toNat
    · rw [writeDataWord_of_same range (by omega) same]
      exact .refl _ false
    · rw [writeDataWord_of_ne range (by omega) same]
      exact persistWord_brackets c _ _ _ Address m.dev
  · rw [writeDataWord_of_ge DataWord m (Nat.not_lt.1 range)]
    exact .refl _ false

/-- A reboot loads, clears when the magic is missing, and loads. -/
theorem EEPROM_Init_brackets (m : Machine) : Brackets m.dev (EEPROM_Init c m).2.dev false false := by
  simp only [EEPROM_Init]
  obtain ⟨-, loads⟩ := loadCompacted_spec c (c.FEE_DENSITY_BYTES / 2) c.FEE_COMPACTED_BASE_ADDRESS 0
    m.DataBuf m.dev
  refine Brackets.with_slot (((Brackets.of_loads loads false).trans
    (.load _ c.FEE_WRITE_LOG_BASE_ADDRESS 4 false)).trans ?_) _
  split
  · exact (eeprom_clear_brackets c _).trans (.of_loads (replayWriteLog_spec c _ _ _ _).2.2 false)
  · exact .of_loads (replayWriteLog_spec c _ _ _ _).2.2 false

theorem EEPROM_Erase_brackets (m : Machine) : Brackets m.dev (EEPROM_Erase c m).dev false false :=
  (eeprom_clear_brackets c m.dev).trans (EEPROM_Init_brackets _)

theorem Event.run_brackets (event : Event) (m : Machine) :
    Brackets m.dev (event.run c m).dev false false := by
  cases event with
  | call write =>
    exact write.run_of (fun m m' => Brackets m.dev m'.dev false false) (fun m => .refl m.dev false)
      Brackets.trans writeDataByte_brackets writeDataWord_brackets m
  | reboot => exact EEPROM_Init_brackets m

/-- The bracketing over every run, from any state and whatever the driver answers: started
with the flash locked, the operations a run of write calls and reboots appends, and those of
`EEPROM_Erase`, never unlock an unlocked flash or lock a locked one, erase or program only
between an unlock and the next lock, and leave the flash locked. -/
theorem runs_keep_flash_bracketed (events : List Event) (m : Machine) :
    bracketRun false ((runEvents c events m).dev.trace.drop m.dev.trace.length) = some false ∧
      bracketRun false ((EEPROM_Erase c m).dev.trace.drop m.dev.trace.length) = some false := by
  obtain ⟨ops, trace, run⟩ := runEvents_of (fun m m' => Brackets m.dev m'.dev false false)
    (fun m => .refl m.dev false) Brackets.trans Event.run_brackets events m
  obtain ⟨ops', trace', erase⟩ := EEPROM_Erase_brackets m
  rw [trace, trace', List.drop_left, List.drop_left]
  exact ⟨run, erase⟩

end Writes

end PicoEeprom
