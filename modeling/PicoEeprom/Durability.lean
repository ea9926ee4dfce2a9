import PicoEeprom.Crash
import PicoEeprom.Refinement

/-! Durability and the NOR discipline on the runs that never compact. Every write only
appends to the trace, and from a store with the invariant, behind a driver that completes, a
write that erases no page keeps the invariant and programs erased half-words of the snapshot
and of the log slots only, whichever path it takes: the direct snapshot write, one log entry,
or the two byte entries of a word below `FEE_BYTE_RANGE`. Composed along runs of API calls
and reboots, `EEPROM_Init` on the flash yields the byte array the calls wrote, and no program
of the run hits a programmed half-word or the magic. -/
namespace PicoEeprom

theorem Device.Loads.appends {d d' : Device} (h : d.Loads d') : d.trace <+: d'.trace :=
  let ⟨reads, trace, _⟩ := h.reads
  ⟨reads, trace.symm⟩

/-- From `d` to `d'` the flash keeps its origin, and every program targets an erased
half-word where the engine programs. -/
structure Device.Disciplined (c : Config) (d d' : Device) : Prop where
  initial : d'.initial = d.initial
  programs : ProgramsErased c (d.flash c) (d'.trace.drop d.trace.length)

namespace Device.Disciplined

variable {c : Config} {d d' d'' : Device}

theorem refl (d : Device) : d.Disciplined c d :=
  ⟨rfl, by rw [List.drop_length]; exact .of_no_program (by simp)⟩

theorem trans (first : d.Disciplined c d') (appends : d.trace <+: d'.trace)
    (second : d'.Disciplined c d'') (appends' : d'.trace <+: d''.trace) : d.Disciplined c d'' := by
  obtain ⟨ops, t₁⟩ := appends
  obtain ⟨ops', t₂⟩ := appends'
  have flash : d'.flash c = ops.foldl (fun f op => op.apply c f) (d.flash c) := by
    simp only [Device.flash, ← t₁, first.initial, List.foldl_append]
  have p₁ := first.programs
  have p₂ := second.programs
  rw [← t₁, List.drop_left] at p₁
  rw [← t₂, List.drop_left, flash] at p₂
  refine ⟨second.initial.trans first.initial, ?_⟩
  rw [← t₂, ← t₁, List.append_assoc, List.drop_left]
  exact p₁.append p₂

theorem of_extends {ops : List FlashOp} (ext : d.Extends d' ops) (programs : ProgramsErased c (d.flash c) ops) :
    d.Disciplined c d' :=
  ⟨ext.initial, by rw [ext.trace, List.drop_left]; exact programs⟩

theorem of_loads (loads : d.Loads d') : d.Disciplined c d' := by
  obtain ⟨initial, -, -, reads, trace, only⟩ := loads
  refine ⟨initial, ?_⟩
  rw [trace, List.drop_left]
  refine .of_no_program fun op mem => ?_
  obtain ⟨a, w, rfl⟩ := only op mem
  rfl

/-- Read at a position of the trace: a program issued there finds its half-word erased, in
the snapshot or in the log slots. -/
theorem program_erased (h : d.Disciplined c d') (appends : d.trace <+: d'.trace) {k addr : Nat}
    {value : UInt16} {status : FLASH_Status} (after : d.trace.length ≤ k)
    (issued : d'.trace[k]? = some (.programHalfWord addr value status)) :
    d'.flashAt c k addr = FEE_EMPTY_WORD ∧ c.Writable addr := by
  obtain ⟨ops, trace⟩ := appends
  have programs := h.programs
  rw [← trace, List.drop_left] at programs
  rw [← trace, List.getElem?_append_right after] at issued
  simp only [Device.flashAt, ← trace, h.initial, List.take_append_eq_append_take,
    List.take_of_length_le after, List.foldl_append]
  exact programs _ _ _ _ issued

end Device.Disciplined

/-- The step from `m` to `m'` appends to the trace, and from a state with the invariant behind
a driver that completes, it keeps both and the NOR discipline unless it erased a page. -/
structure Keeps (c : Config) (m m' : Machine) : Prop where
  appends : m.dev.trace <+: m'.dev.trace
  inv : Inv c m → (∀ i, m.dev.driver i = .FLASH_COMPLETE) → NoErase m.dev m'.dev →
    Inv c m' ∧ (∀ i, m'.dev.driver i = .FLASH_COMPLETE) ∧ m.dev.Disciplined c m'.dev

section Keeps

variable {c : Config} {m m' m'' : Machine}

theorem Keeps.refl (m : Machine) : Keeps c m m :=
  ⟨List.prefix_refl _, fun inv complete _ => ⟨inv, complete, .refl m.dev⟩⟩

theorem Keeps.trans (first : Keeps c m m') (second : Keeps c m' m'') : Keeps c m m'' := by
  refine ⟨first.appends.trans second.appends, fun inv complete noErase => ?_⟩
  obtain ⟨noErase₁, noErase₂⟩ := noErase.split first.appends second.appends
  obtain ⟨inv', complete', disciplined⟩ := first.inv inv complete noErase₁
  obtain ⟨inv'', complete'', disciplined'⟩ := second.inv inv' complete' noErase₂
  exact ⟨inv'', complete'', disciplined.trans first.appends disciplined' second.appends⟩

/-- A step that stores its image behind the same driver, under the NOR discipline, keeps the
invariant. -/
theorem Keeps.of_stored (appends : m.dev.trace <+: m'.dev.trace)
    (step : Inv c m → (∀ i, m.dev.driver i = .FLASH_COMPLETE) → NoErase m.dev m'.dev →
      Stored c (m'.dev.flash c) m'.dev.empty_slot m'.DataBuf ∧ m'.dev.driver = m.dev.driver ∧
        m.dev.Disciplined c m'.dev) :
    Keeps c m m' :=
  ⟨appends, fun inv complete noErase =>
    let ⟨stored, driver, disciplined⟩ := step inv complete noErase
    ⟨stored.inv, fun i => driver ▸ complete i, disciplined⟩⟩

/-- A crash-safe step, read at its end. -/
theorem Keeps.of_safe (appends : m.dev.trace <+: m'.dev.trace)
    (step : Inv c m → (∀ i, m.dev.driver i = .FLASH_COMPLETE) → NoErase m.dev m'.dev →
      ∃ ops, m.dev.Extends m'.dev ops ∧
        CrashSafe c (m.dev.flash c) ops m.DataBuf m'.DataBuf m'.dev.empty_slot) :
    Keeps c m m' :=
  .of_stored appends fun inv complete noErase =>
    let ⟨_, ext, safe⟩ := step inv complete noErase
    ⟨ext.flash c ▸ safe.final, ext.driver, .of_extends ext safe.programs⟩

end Keeps

section ByteRange

variable {c : Config} {d : Device} {X : Memory}

/-- One byte step of a word write below `FEE_BYTE_RANGE`: a byte entry when the byte changed,
nothing otherwise. Either way the store holds the byte, and the snapshot is untouched. -/
theorem log_byte_step_stored (buf : Memory) (stored : Stored c (d.flash c) d.empty_slot X)
    (complete : ∀ i, d.driver i = .FLASH_COMPLETE) {A : Nat} (byte : A < FEE_BYTE_RANGE)
    (range : A < c.FEE_DENSITY_BYTES)
    (programmed : d.flash c (c.FEE_COMPACTED_BASE_ADDRESS + (A - A % 2)) ≠ FEE_EMPTY_WORD)
    (changed : Prop) [Decidable changed] (unchanged : ¬ changed → X A = buf A)
    (noErase : NoErase d
      (if changed then eeprom_write_log_byte_entry c buf A d else (some .FLASH_COMPLETE, d)).2) :
    Stored c ((if changed then eeprom_write_log_byte_entry c buf A d else (some .FLASH_COMPLETE, d)).2.flash c)
        (if changed then eeprom_write_log_byte_entry c buf A d else (some .FLASH_COMPLETE, d)).2.empty_slot
        (Function.update X A (buf A)) ∧
      (if changed then eeprom_write_log_byte_entry c buf A d else (some .FLASH_COMPLETE, d)).2.driver =
        d.driver ∧
      d.Disciplined c (if changed then eeprom_write_log_byte_entry c buf A d else (some .FLASH_COMPLETE, d)).2 ∧
      ∀ a, a < c.FEE_WRITE_LOG_BASE_ADDRESS →
        (if changed then eeprom_write_log_byte_entry c buf A d else (some .FLASH_COMPLETE, d)).2.flash c a =
          d.flash c a := by
  by_cases isChanged : changed
  · simp only [if_pos isChanged] at noErase ⊢
    have room := log_byte_entry_room c buf d A stored.pages noErase
    obtain ⟨v, ext, appended⟩ := log_byte_entry_appended buf stored complete byte range programmed room
    have flash : (eeprom_write_log_byte_entry c buf A d).2.flash c =
        Function.update (d.flash c) d.empty_slot v := by
      rw [ext.flash c]
      simp only [List.foldl_cons, List.foldl_nil, FlashOp.apply_unlock, FlashOp.apply_lock,
        FlashOp.apply_program_erased v (stored.erased _ (Nat.le_refl _) room)]
    have programs : ProgramsErased c (d.flash c)
        ([.unlock] ++ ([.programHalfWord d.empty_slot v .FLASH_COMPLETE] ++ [.lock])) :=
      (ProgramsErased.of_no_program (by simp [FlashOp.isProgram])).append
        ((ProgramsErased.program (stored.erased _ (Nat.le_refl _) room)
          (stored.writable (Nat.le_refl _) room) _).append .lock)
    have first := stored.first_le
    refine ⟨flash ▸ appended, ext.driver, .of_extends ext programs, fun a below => ?_⟩
    rw [flash, Function.update_noteq]
    simp only [Config.firstSlot] at first
    omega
  · rw [if_neg isChanged]
    exact ⟨by rwa [← unchanged isChanged, Function.update_eq_self], rfl, .refl d, fun _ _ => rfl⟩

/-- The word path below `FEE_BYTE_RANGE`: the direct write of an erased snapshot word, or a
byte entry for each byte that changed. -/
theorem persistWord_byte_range_stored (stored : Stored c (d.flash c) d.empty_slot X)
    (complete : ∀ i, d.driver i = .FLASH_COMPLETE) {A : Nat} (v : UInt16) (even : A % 2 = 0)
    (byte : A < FEE_BYTE_RANGE) (range : A < c.FEE_DENSITY_BYTES)
    (noErase : NoErase d (persistWord c (wordAt X A) v (storeWord X A v.toNat) A d).2) :
    Stored c ((persistWord c (wordAt X A) v (storeWord X A v.toNat) A d).2.flash c)
        (persistWord c (wordAt X A) v (storeWord X A v.toNat) A d).2.empty_slot (storeWord X A v.toNat) ∧
      (persistWord c (wordAt X A) v (storeWord X A v.toNat) A d).2.driver = d.driver ∧
      d.Disciplined c (persistWord c (wordAt X A) v (storeWord X A v.toNat) A d).2 := by
  have small : A < 0x80 := byte
  have even' := c.density_even
  have word : A &&& 0xFFFE = A := by
    rw [and_fffe (by omega)]
    omega
  by_cases erased : d.flash c (c.FEE_COMPACTED_BASE_ADDRESS + (A &&& 0xFFFE)) = FEE_EMPTY_WORD
  · obtain ⟨ops, ext, safe⟩ := safe_direct_entry (storeWord X A v.toNat) stored complete A
      (by omega) (by omega) erased
    have final := safe.final
    rw [word, wordAt_storeWord _ _ _ v.toNat_lt_size] at final
    rw [persistWord_of_erased _ _ erased, ext.flash c]
    exact ⟨final, ext.driver, .of_extends ext safe.programs⟩
  have pages := stored.pages
  have below : c.FEE_COMPACTED_BASE_ADDRESS + A < c.FEE_WRITE_LOG_BASE_ADDRESS := by
    unfold Config.FEE_WRITE_LOG_BASE_ADDRESS Config.FEE_COMPACTED_LAST_ADDRESS
    omega
  have half : A - A % 2 = A := by omega
  simp only [persistWord, direct_entry_of_programmed c _ d A erased, if_true, if_pos byte] at noErase ⊢
  set d₀ := load (c.FEE_COMPACTED_BASE_ADDRESS + (A &&& 0xFFFE)) 2 d
  set buf := storeWord X A v.toNat
  set low := if wordAt X A % 256 ≠ v.toNat % 256 then eeprom_write_log_byte_entry c buf A d₀
    else (some .FLASH_COMPLETE, d₀)
  have lowIssued := (byte_step_reports c buf d₀ (wordAt X A % 256 ≠ v.toNat % 256) A pages).1
  have highIssued :=
    (byte_step_reports c buf low.2 (wordAt X A >>> 8 ≠ v.toNat >>> 8) (A + 1) pages).1
  obtain ⟨-, noErase₂⟩ := noErase.split ⟨_, rfl⟩ (lowIssued.appends.trans highIssued.appends)
  obtain ⟨noErase₁, noErase₂⟩ := noErase₂.split lowIssued.appends highIssued.appends
  have programmed : d₀.flash c (c.FEE_COMPACTED_BASE_ADDRESS + (A - A % 2)) ≠ FEE_EMPTY_WORD := by
    rwa [flash_load, half, ← word]
  rw [← flash_load c (c.FEE_COMPACTED_BASE_ADDRESS + (A &&& 0xFFFE)) 2 d] at stored
  obtain ⟨stored₁, driver₁, disciplined₁, frame₁⟩ := log_byte_step_stored buf stored complete byte range programmed _
    (fun same => by
      show X A = storeWord X A v.toNat A
      rw [storeWord_apply, if_neg (by omega), if_pos rfl, ← ofNat_wordAt X A]
      exact uint8_ofNat_congr (not_not.1 same)) noErase₁
  obtain ⟨stored₂, driver₂, disciplined₂, -⟩ := log_byte_step_stored buf stored₁ (fun i => driver₁ ▸ complete i)
    (show A + 1 < FEE_BYTE_RANGE by unfold FEE_BYTE_RANGE; omega) (by omega)
    (by rwa [show A + 1 - (A + 1) % 2 = A - A % 2 by omega, frame₁ _ (by omega)]) _
    (fun same => by
      show Function.update X A (buf A) (A + 1) = storeWord X A v.toNat (A + 1)
      rw [Function.update_noteq (by omega), storeWord_apply, if_pos rfl, ← ofNat_wordAt_div X A,
        ← Nat.shiftRight_eq_div_pow (wordAt X A) 8, ← Nat.shiftRight_eq_div_pow v.toNat 8,
        not_not.1 same]) noErase₂
  have loaded := Device.Loads.load d (c.FEE_COMPACTED_BASE_ADDRESS + (A &&& 0xFFFE)) 2
  refine ⟨?_, driver₂.trans driver₁, (Device.Disciplined.of_loads loaded).trans loaded.appends
    (disciplined₁.trans lowIssued.appends disciplined₂ highIssued.appends)
    (lowIssued.appends.trans highIssued.appends)⟩
  convert stored₂ using 1
  funext i
  simp only [buf, storeWord_apply, Function.update_apply]
  split_ifs <;> first | rfl | omega

end ByteRange

section Compose

variable {c : Config} (R : Machine → Machine → Prop) (refl : ∀ m, R m m)
  (trans : ∀ {m m' m''}, R m m' → R m' m'' → R m m'')
  (byte : ∀ A v m, R m (EEPROM_WriteDataByte c A v m).2)
  (word : ∀ A v m, R m (EEPROM_WriteDataWord c A v m).2)
include refl trans byte word

/-! A relation between states that every byte and every word write satisfies, reflexive and
transitive, holds over every call of the AVR-style API: the dword writes are two or three of
those writes, the block writes a loop of them. -/

theorem writeBlockLoop_of (mem : Memory) (aligned : Bool) :
    ∀ (len dest src : Nat) (m : Machine), R m (writeBlockLoop c mem aligned len dest src m)
  | len + 2, dest, src, m => trans (word _ _ m) (writeBlockLoop_of mem aligned len (dest + 2) (src + 2) _)
  | 1, _, _, m => byte _ _ m
  | 0, _, _, m => refl m

theorem ApiWrite.run_of (call : ApiWrite) (m : Machine) : R m (call.run c m) := by
  cases call with
  | write_byte a v | update_byte a v => exact byte _ v m
  | write_word a v | update_word a v => exact word _ v m
  | write_dword a v | update_dword a v =>
    show R m (eeprom_write_dword c a v m)
    simp only [eeprom_write_dword]
    split
    · exact trans (trans (byte _ _ m) (word _ _ _)) (byte _ _ _)
    · exact trans (word _ _ m) (word _ _ _)
  | write_block mem buf a len | update_block mem buf a len =>
    show R m (eeprom_write_block c mem buf a len m)
    unfold eeprom_write_block
    split
    · exact trans (byte _ _ m) (writeBlockLoop_of R refl trans byte word _ _ _ _ _ _)
    · exact writeBlockLoop_of R refl trans byte word _ _ _ _ _ _

end Compose

section Writes

variable {c : Config}

theorem writeDataByte_keeps (Address : Nat) (DataByte : UInt8) (m : Machine) :
    Keeps c m (EEPROM_WriteDataByte c Address DataByte m).2 := by
  by_cases range : Address < c.FEE_DENSITY_BYTES
  · exact .of_safe (writeDataByte_reports m DataByte range).appends fun inv complete noErase =>
      writeDataByte_safe inv complete DataByte range noErase
  · rw [writeDataByte_of_ge DataByte m (Nat.not_lt.1 range)]
    exact .refl m

/-- Word writes at every address: the odd split into two byte writes, the whole half-word
above `FEE_BYTE_RANGE`, a byte entry per changed byte below it. -/
theorem writeDataWord_keeps (Address : Nat) (DataWord : UInt16) (m : Machine) :
    Keeps c m (EEPROM_WriteDataWord c Address DataWord m).2 := by
  by_cases range : Address < c.FEE_DENSITY_BYTES
  · by_cases odd : Address % 2 = 1
    · rw [writeDataWord_of_odd DataWord m range odd]
      exact (writeDataByte_keeps _ _ m).trans (writeDataByte_keeps _ _ _)
    have even : Address % 2 = 0 := by omega
    have appends := (writeDataWord_even_reports m DataWord range even).appends
    by_cases low : FEE_BYTE_RANGE ≤ Address
    · exact .of_safe appends fun inv complete noErase =>
        writeDataWord_safe inv complete DataWord even low range noErase
    by_cases same : wordAt m.DataBuf Address = DataWord.toNat
    · rw [writeDataWord_of_same range even same]
      exact .refl m
    · rw [writeDataWord_of_ne range even same] at appends ⊢
      exact .of_stored appends fun inv complete noErase =>
        persistWord_byte_range_stored inv.stored complete DataWord even (Nat.not_le.1 low) range noErase
  · rw [writeDataWord_of_ge DataWord m (Nat.not_lt.1 range)]
    exact .refl m

theorem ApiWrite.run_keeps (call : ApiWrite) (m : Machine) : Keeps c m (call.run c m) :=
  call.run_of (Keeps c) Keeps.refl Keeps.trans writeDataByte_keeps writeDataWord_keeps m

end Writes

section Reboot

variable {c : Config}

theorem eeprom_clear_appends (d : Device) :
    d.trace <+: (eeprom_clear c d).trace ∧ (eeprom_clear c d).driver = d.driver := by
  obtain ⟨erases, trace, -⟩ := trace_erasePages c c.FEE_PAGE_COUNT 0 (FLASH_Unlock d)
  exact ⟨⟨_, by
    simp only [eeprom_clear, FLASH_Lock, FLASH_ProgramHalfWord, Device.trace_record, trace]
    simp only [FLASH_Unlock, Device.trace_record, List.append_assoc]
    rfl⟩, by simp [eeprom_clear, FLASH_ProgramHalfWord]⟩

/-- A reboot only appends to the trace and keeps the driver, with or without the magic. -/
theorem EEPROM_Init_appends (m : Machine) :
    m.dev.trace <+: (EEPROM_Init c m).2.dev.trace ∧ (EEPROM_Init c m).2.dev.driver = m.dev.driver := by
  simp only [EEPROM_Init]
  generalize hL : loadCompacted c (c.FEE_DENSITY_BYTES / 2) c.FEE_COMPACTED_BASE_ADDRESS 0
    m.DataBuf m.dev = L
  obtain ⟨-, loads⟩ := hL ▸ loadCompacted_spec c (c.FEE_DENSITY_BYTES / 2)
    c.FEE_COMPACTED_BASE_ADDRESS 0 m.DataBuf m.dev
  have loaded := Device.Loads.load L.2 c.FEE_WRITE_LOG_BASE_ADDRESS 4
  have checked : L.2.trace <+: (if readWord c c.FEE_WRITE_LOG_BASE_ADDRESS L.2 ≠ FEE_MAGIC_DWORD then
        eeprom_clear c (load c.FEE_WRITE_LOG_BASE_ADDRESS 4 L.2)
      else load c.FEE_WRITE_LOG_BASE_ADDRESS 4 L.2).trace ∧
      (if readWord c c.FEE_WRITE_LOG_BASE_ADDRESS L.2 ≠ FEE_MAGIC_DWORD then
        eeprom_clear c (load c.FEE_WRITE_LOG_BASE_ADDRESS 4 L.2)
      else load c.FEE_WRITE_LOG_BASE_ADDRESS 4 L.2).driver = L.2.driver := by
    split
    · obtain ⟨appends, driver⟩ := eeprom_clear_appends (c := c) (load c.FEE_WRITE_LOG_BASE_ADDRESS 4 L.2)
      exact ⟨loaded.appends.trans appends, driver.trans loaded.driver⟩
    · exact ⟨loaded.appends, loaded.driver⟩
  obtain ⟨-, -, replayed⟩ := replayWriteLog_spec c c.logSlots c.firstSlot L.1 _
  exact ⟨loads.appends.trans (checked.1.trans replayed.appends),
    (replayed.driver.trans checked.2).trans loads.driver⟩

/-- With the magic, a reboot programs nothing: it loads the snapshot and replays the log. -/
theorem EEPROM_Init_disciplined (m : Machine)
    (magic : readWord c c.FEE_WRITE_LOG_BASE_ADDRESS m.dev = FEE_MAGIC_DWORD) :
    m.dev.Disciplined c (EEPROM_Init c m).2.dev := by
  simp only [EEPROM_Init]
  generalize hL : loadCompacted c (c.FEE_DENSITY_BYTES / 2) c.FEE_COMPACTED_BASE_ADDRESS 0
    m.DataBuf m.dev = L
  obtain ⟨-, loads⟩ := hL ▸ loadCompacted_spec c (c.FEE_DENSITY_BYTES / 2)
    c.FEE_COMPACTED_BASE_ADDRESS 0 m.DataBuf m.dev
  have magic' := (readWord_congr c c.FEE_WRITE_LOG_BASE_ADDRESS (loads.flash c)).trans magic
  obtain ⟨-, -, replayed⟩ :=
    replayWriteLog_spec c c.logSlots c.firstSlot L.1 (load c.FEE_WRITE_LOG_BASE_ADDRESS 4 L.2)
  simp only [magic', ne_eq, not_true_eq_false, if_false]
  have disciplined := Device.Disciplined.of_loads (c := c)
    (loads.trans ((Device.Loads.load _ _ _).trans replayed))
  exact ⟨disciplined.initial, disciplined.programs⟩

theorem EEPROM_Init_keeps (m : Machine) : Keeps c m (EEPROM_Init c m).2 :=
  ⟨(EEPROM_Init_appends m).1, fun inv complete _ =>
    ⟨(inv.stored.init m rfl).2, fun i => (EEPROM_Init_appends m).2 ▸ complete i,
      EEPROM_Init_disciplined m inv.magic⟩⟩

end Reboot

section Runs

/-- One step of a run: a write call of the API, or a reboot through `EEPROM_Init`. -/
inductive Event where
  | call (write : ApiWrite)
  | reboot

variable (c : Config)

def Event.run : Event → Machine → Machine
  | .call write, m => write.run c m
  | .reboot, m => (EEPROM_Init c m).2

def runEvents (events : List Event) (m : Machine) : Machine :=
  events.foldl (fun m event => event.run c m) m

/-- The write calls of a run, in order. -/
def writeCalls : List Event → List ApiWrite
  | [] => []
  | .call write :: events => write :: writeCalls events
  | .reboot :: events => writeCalls events

variable {c}

theorem Event.run_keeps (event : Event) (m : Machine) : Keeps c m (event.run c m) := by
  cases event with
  | call write => exact write.run_keeps m
  | reboot => exact EEPROM_Init_keeps m

/-- A relation that each event satisfies, reflexive and transitive, holds over every run. -/
theorem runEvents_of (R : Machine → Machine → Prop) (refl : ∀ m, R m m)
    (trans : ∀ {m m' m''}, R m m' → R m' m'' → R m m'') (step : ∀ (event : Event) m, R m (event.run c m)) :
    ∀ (events : List Event) (m : Machine), R m (runEvents c events m)
  | [], m => refl m
  | event :: events, m => trans (step event m) (runEvents_of R refl trans step events _)

theorem runEvents_keeps (events : List Event) (m : Machine) : Keeps c m (runEvents c events m) :=
  runEvents_of (Keeps c) Keeps.refl Keeps.trans Event.run_keeps events m

/-- Bytes stored over two memories that agree on the image agree on the image. -/
theorem image_storeBytes_congr {X Y : Memory} (same : c.image X = c.image Y) :
    ∀ (addr : Nat) (bytes : List UInt8), c.image (storeBytes X addr bytes) = c.image (storeBytes Y addr bytes)
  | _, [] => same
  | addr, b :: bytes => image_storeBytes_congr ((Config.image_eq_iff c _ _).2 fun i hi => by
      simp only [Function.update_apply]
      split
      · rfl
      · exact (Config.image_eq_iff c _ _).1 same i hi) (addr + 1) bytes

theorem image_storeCalls_congr {X Y : Memory} (same : c.image X = c.image Y) :
    ∀ calls : List ApiWrite, c.image (storeCalls calls X) = c.image (storeCalls calls Y)
  | [] => same
  | call :: calls => image_storeCalls_congr (image_storeBytes_congr same call.address call.bytes) calls

/-- The image along a run: while a condition `H` on the rest of the run holds, each event
keeps a state predicate `P`, and each reboot from a state in `P` reproduces the image it finds;
then for in-range calls the image is the byte array the write calls wrote, across the
reboots between them. -/
theorem runEvents_image_of (P : Machine → Prop) (H : Machine → Machine → Prop)
    (step : ∀ (event : Event) (events : List Event) (m : Machine), P m → H m (runEvents c (event :: events) m) →
      P (event.run c m) ∧ H (event.run c m) (runEvents c events (event.run c m)))
    (reboot : ∀ m, P m → c.image (EEPROM_Init c m).2.DataBuf = c.image m.DataBuf) :
    ∀ (events : List Event) (m : Machine), P m → H m (runEvents c events m) →
    (∀ call ∈ writeCalls events, call.address + call.bytes.length ≤ c.FEE_DENSITY_BYTES) →
    c.image (runEvents c events m).DataBuf = c.image (storeCalls (writeCalls events) m.DataBuf)
  | [], _, _, _, _ => rfl
  | event :: events, m, holds, rest, inRange => by
    obtain ⟨holds', rest'⟩ := step event events m holds rest
    have next : runEvents c (event :: events) m = runEvents c events (event.run c m) := rfl
    cases event with
    | call write =>
      rw [next, runEvents_image_of P H step reboot events _ holds' rest'
        fun other mem => inRange other (List.mem_cons_of_mem _ mem), Event.run,
        ApiWrite.run_DataBuf write m (inRange write (List.mem_cons_self _ _))]
      rfl
    | reboot =>
      rw [next, runEvents_image_of P H step reboot events _ holds' rest' inRange]
      exact image_storeCalls_congr (reboot m holds) _

/-- Along a run that never compacts, the image is the byte array the write calls wrote,
across the reboots between them. -/
theorem runEvents_image (events : List Event) (m : Machine) (inv : Inv c m)
    (complete : ∀ i, m.dev.driver i = .FLASH_COMPLETE) (noErase : NoErase m.dev (runEvents c events m).dev)
    (inRange : ∀ call ∈ writeCalls events, call.address + call.bytes.length ≤ c.FEE_DENSITY_BYTES) :
    c.image (runEvents c events m).DataBuf = c.image (storeCalls (writeCalls events) m.DataBuf) :=
  runEvents_image_of (fun m => Inv c m ∧ ∀ i, m.dev.driver i = .FLASH_COMPLETE)
    (fun m m' => NoErase m.dev m'.dev)
    (fun event events m ⟨inv, complete⟩ noErase =>
      let ⟨first, second⟩ := noErase.split (event.run_keeps m).appends (runEvents_keeps events _).appends
      let ⟨inv', complete', _⟩ := (event.run_keeps m).inv inv complete first
      ⟨⟨inv', complete'⟩, second⟩)
    (fun _ holds => holds.1.image) events m ⟨inv, complete⟩ noErase inRange

/-- Durability over every run that never compacts: from a store with the invariant behind a
driver that completes, after any sequence of API write calls and reboots that erases no page,
the invariant holds, so `EEPROM_Init` on the flash reproduces the RAM image and `empty_slot`;
for in-range calls that image is the byte array the calls wrote. -/
theorem runs_without_compaction_durable (events : List Event) (m : Machine) (inv : Inv c m)
    (complete : ∀ i, m.dev.driver i = .FLASH_COMPLETE)
    (noCompaction : ∀ op ∈ (runEvents c events m).dev.trace.drop m.dev.trace.length, op.isErase = false) :
    Inv c (runEvents c events m) ∧
      ((∀ call ∈ writeCalls events, call.address + call.bytes.length ≤ c.FEE_DENSITY_BYTES) →
        c.image (EEPROM_Init c (runEvents c events m)).2.DataBuf =
          c.image (storeCalls (writeCalls events) m.DataBuf)) := by
  obtain ⟨inv', -, -⟩ := (runEvents_keeps events m).inv inv complete noCompaction
  exact ⟨inv', fun inRange => by rw [inv'.image, runEvents_image events m inv complete noCompaction inRange]⟩

theorem runs_without_compaction_durable_small :
    Inv Config.small (runEvents Config.small
      [.call (.write_byte 0 1), .reboot, .call (.write_word 0 0x0304), .call (.write_dword 0 0x01020304)]
      (EEPROM_Erase Config.small Machine.erased)) ∧
    Config.small.image (EEPROM_Init Config.small (runEvents Config.small
      [.call (.write_byte 0 1), .reboot, .call (.write_word 0 0x0304), .call (.write_dword 0 0x01020304)]
      (EEPROM_Erase Config.small Machine.erased))).2.DataBuf =
      Config.small.image (storeCalls (writeCalls
        [.call (.write_byte 0 1), .reboot, .call (.write_word 0 0x0304), .call (.write_dword 0 0x01020304)])
        (EEPROM_Erase Config.small Machine.erased).DataBuf) :=
  let durable := runs_without_compaction_durable
    [.call (.write_byte 0 1), .reboot, .call (.write_word 0 0x0304), .call (.write_dword 0 0x01020304)]
    (EEPROM_Erase Config.small Machine.erased)
    ((eeprom_clear_stored Config.small Machine.erased.dev (fun _ => rfl) (by decide)).init
      ⟨Machine.erased.DataBuf, eeprom_clear Config.small Machine.erased.dev⟩ rfl).2
    (fun _ => rfl) (by decide)
  ⟨durable.1, durable.2 (by decide)⟩

/-- The NOR discipline over every run that never compacts: from a store with the invariant
behind a driver that completes, every half-word program the run issues, at any position of its
trace, finds that half-word erased, and it lies in the snapshot or in the log slots after the
magic. -/
theorem runs_without_compaction_program_erased (events : List Event) (m : Machine) (inv : Inv c m)
    (complete : ∀ i, m.dev.driver i = .FLASH_COMPLETE)
    (noCompaction : ∀ op ∈ (runEvents c events m).dev.trace.drop m.dev.trace.length, op.isErase = false)
    {k addr : Nat} {value : UInt16} {status : FLASH_Status} (after : m.dev.trace.length ≤ k)
    (issued : (runEvents c events m).dev.trace[k]? = some (.programHalfWord addr value status)) :
    (runEvents c events m).dev.flashAt c k addr = FEE_EMPTY_WORD ∧ c.Writable addr :=
  ((runEvents_keeps events m).inv inv complete noCompaction).2.2.program_erased
    (runEvents_keeps events m).appends after issued

/-- A byte write on the erased 4-byte store: its program, the twelfth operation of the trace,
writes the erased snapshot word at address 0. -/
theorem runs_without_compaction_program_erased_small :
    (runEvents Config.small [.call (.write_byte 0 1)] (EEPROM_Erase Config.small Machine.erased)).dev.trace[11]? =
        some (.programHalfWord 0 0xFFFE .FLASH_COMPLETE) ∧
      (runEvents Config.small [.call (.write_byte 0 1)] (EEPROM_Erase Config.small Machine.erased)).dev.flashAt
        Config.small 11 0 = FEE_EMPTY_WORD ∧ Config.small.Writable 0 :=
  have issued : (runEvents Config.small [.call (.write_byte 0 1)]
      (EEPROM_Erase Config.small Machine.erased)).dev.trace[11]? =
        some (.programHalfWord 0 0xFFFE .FLASH_COMPLETE) := by decide
  ⟨issued, runs_without_compaction_program_erased [.call (.write_byte 0 1)]
    (EEPROM_Erase Config.small Machine.erased)
    ((eeprom_clear_stored Config.small Machine.erased.dev (fun _ => rfl) (by decide)).init
      ⟨Machine.erased.DataBuf, eeprom_clear Config.small Machine.erased.dev⟩ rfl).2
    (fun _ => rfl) (by decide) (by decide) issued⟩

end Runs

end PicoEeprom
