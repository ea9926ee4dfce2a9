import PicoEeprom.Compacting

/-! The NOR discipline across compactions and reboots. `eeprom_clear` leaves `empty_slot` on
the magic, so a log append that follows a compaction with no reboot between programs one of the
magic's half-words, which are not erased. Nothing else breaks the discipline: from a store with
the invariant, behind a driver that completes, every program of every run of writes and
reboots, compactions included, hits an erased half-word or one of the magic's two. The
invariant carried along the run is a tidy log: `empty_slot` at an even offset from the log
base, every log slot from it on erased, and the replay of the log stopping at or after it. A
log append programs a non-empty entry, so the replay still stops at or after the moved
`empty_slot` (`decodeLog_stop_of_program`); a compaction leaves an erased log; a reboot moves
`empty_slot` to where the replay stops. -/
namespace PicoEeprom

section Stop

variable {f f' : Flash} {s : Nat}

theorem decodeLog_start_le (f : Flash) (n a : Nat) : a ≤ (decodeLog f n a).2 := by
  obtain ⟨k, -, stop⟩ := decodeLog_stop f n a
  omega

/-- A slot that decodes on its own (a byte, a Word-Encoded entry, a reserved word) moves the
replay two bytes on. -/
theorem decodeLog_snd_single {g : Flash} {n a : Nat} (occupied : Slot.ofEntry (g a).toNat ≠ .empty)
    (alone : ∀ b, Slot.ofEntry (g a).toNat ≠ .next b) :
    (decodeLog g (n + 1) a).2 = (decodeLog g n (a + 2)).2 := by
  rcases hs : Slot.ofEntry (g a).toNat with _ | ⟨b, v⟩ | ⟨b, v⟩ | _ | b
  · exact absurd hs occupied
  · rw [decodeLog_of_byte g n hs]; rfl
  · rw [decodeLog_of_word g n hs]; rfl
  · rw [decodeLog_of_reserved g n hs]
  · exact absurd hs (alone b)

/-- A non-empty half-word programmed at a slot `s` that the replay reached keeps the replay
going past `s`: the replay stopped at `s`, or read `s` as the value of a Word-Next entry. -/
theorem decodeLog_stop_of_program (same : ∀ x, x ≠ s → f' x = f x) (filled : f' s ≠ FEE_EMPTY_WORD) :
    ∀ (n a : Nat), a ≤ s → (s - a) % 2 = 0 → s < a + 2 * n → s ≤ (decodeLog f n a).2 →
      s + 2 ≤ (decodeLog f' n a).2
  | 0, _, _, _, inside, _ => absurd inside (by omega)
  | n + 1, a, low, even, inside, reached => by
    rcases Nat.eq_or_lt_of_le low with rfl | before
    · exact decodeLog_advance f' fun empty => filled (empty_of_slot f' empty)
    have kept : Slot.ofEntry (f' a).toNat = Slot.ofEntry (f a).toNat := by rw [same a (by omega)]
    rcases hs : Slot.ofEntry (f a).toNat with _ | ⟨b, v⟩ | ⟨b, v⟩ | _ | b
    case empty =>
      rw [decodeLog_of_empty f n (empty_of_slot f hs)] at reached
      omega
    case next =>
      match n, inside, reached with
      | 0, _, reached =>
        rw [decodeLog_of_next_last f hs] at reached
        omega
      | m + 1, _, reached =>
        have skip : ∀ g : Flash, Slot.ofEntry (g a).toNat = .next b →
            (decodeLog g (m + 1 + 1) a).2 = (decodeLog g m (a + 4)).2 := fun g next => by
          rw [decodeLog_of_next g m next]
          split <;> rfl
        rw [skip f hs] at reached
        rw [skip f' (kept.trans hs)]
        by_cases far : a + 4 ≤ s
        · exact decodeLog_stop_of_program same filled m (a + 4) far (by omega) (by omega) reached
        · have := decodeLog_start_le f' m (a + 4)
          omega
    all_goals
      rw [decodeLog_snd_single (by simp [hs]) (by simp [hs])] at reached
      rw [decodeLog_snd_single (by simp [kept, hs]) (by simp [kept, hs])]
      exact decodeLog_stop_of_program same filled n (a + 2) (by omega) (by omega) (by omega) reached

end Stop

section Spares

variable (c : Config)

/-- A program hits an erased half-word of `f` or one of the magic's two half-words; every other
operation passes. -/
def FlashOp.onErasedOrMagic (f : Flash) : FlashOp → Bool
  | .programHalfWord addr _ _ => f addr == FEE_EMPTY_WORD ||
      (addr == c.FEE_WRITE_LOG_BASE_ADDRESS || addr == c.FEE_WRITE_LOG_BASE_ADDRESS + 2)
  | _ => true

/-- Run from `f`, every program among `ops` hits an erased half-word or the magic. -/
def programsOnErasedOrMagic : Flash → List FlashOp → Bool
  | _, [] => true
  | f, op :: ops => op.onErasedOrMagic c f && programsOnErasedOrMagic (op.apply c f) ops

theorem programsOnErasedOrMagic_append (f : Flash) : ∀ ops ops' : List FlashOp,
    programsOnErasedOrMagic c f (ops ++ ops') =
      (programsOnErasedOrMagic c f ops &&
        programsOnErasedOrMagic c (ops.foldl (fun f op => op.apply c f) f) ops')
  | [], _ => by simp [programsOnErasedOrMagic]
  | op :: ops, ops' => by
    simp [programsOnErasedOrMagic, programsOnErasedOrMagic_append _ ops ops', Bool.and_assoc]

/-- The discipline with no exception implies the one with the magic excepted. -/
theorem programsOnErasedOrMagic_of_onErased : ∀ (f : Flash) (ops : List FlashOp),
    programsOnErased c f ops = true → programsOnErasedOrMagic c f ops = true
  | _, [], _ => rfl
  | f, op :: ops, h => by
    simp only [programsOnErased, programsOnErasedOrMagic, Bool.and_eq_true] at h ⊢
    refine ⟨?_, programsOnErasedOrMagic_of_onErased _ ops h.2⟩
    cases op <;> simp_all [FlashOp.onErased, FlashOp.onErasedOrMagic]

/-- Read at a position: the program there finds its half-word erased, or it is the magic's. -/
theorem programsOnErasedOrMagic_at : ∀ (f : Flash) (ops : List FlashOp),
    programsOnErasedOrMagic c f ops = true → ∀ {j addr value status},
      ops[j]? = some (.programHalfWord addr value status) →
      (ops.take j).foldl (fun f op => op.apply c f) f addr = FEE_EMPTY_WORD ∨
        addr = c.FEE_WRITE_LOG_BASE_ADDRESS ∨ addr = c.FEE_WRITE_LOG_BASE_ADDRESS + 2
  | _, [], _, _, _, _, _, issued => by simp at issued
  | f, op :: ops, ok, 0, addr, value, status, issued => by
    simp only [List.getElem?_cons_zero, Option.some.injEq] at issued
    subst issued
    simp only [programsOnErasedOrMagic, FlashOp.onErasedOrMagic, Bool.and_eq_true, Bool.or_eq_true,
      beq_iff_eq] at ok
    simpa using ok.1
  | f, op :: ops, ok, j + 1, addr, value, status, issued => by
    simp only [programsOnErasedOrMagic, Bool.and_eq_true] at ok
    rw [List.getElem?_cons_succ] at issued
    simpa using programsOnErasedOrMagic_at _ ops ok.2 issued

/-- From `d` to `d'` every program hits an erased half-word or the magic. -/
def ErasedOrMagic (d d' : Device) : Prop :=
  programsOnErasedOrMagic c (d.flash c) (d'.trace.drop d.trace.length) = true

namespace ErasedOrMagic

variable {c} {d d' d'' : Device}

theorem refl (d : Device) : ErasedOrMagic c d d := by
  unfold ErasedOrMagic
  rw [List.drop_length]
  rfl

theorem trans (first : ErasedOrMagic c d d') (appends : d.trace <+: d'.trace) (initial : d'.initial = d.initial)
    (appends' : d'.trace <+: d''.trace) (second : ErasedOrMagic c d' d'') : ErasedOrMagic c d d'' := by
  obtain ⟨ops, t₁⟩ := appends
  obtain ⟨ops', t₂⟩ := appends'
  have flash : d'.flash c = ops.foldl (fun f op => op.apply c f) (d.flash c) := by
    simp only [Device.flash, ← t₁, initial, List.foldl_append]
  unfold ErasedOrMagic at first second ⊢
  rw [← t₁, List.drop_left] at first
  rw [← t₂, List.drop_left, flash] at second
  rw [← t₂, ← t₁, List.append_assoc, List.drop_left, programsOnErasedOrMagic_append, first, second]
  rfl

theorem record {op : FlashOp} (ok : op.onErasedOrMagic c (d.flash c) = true) : ErasedOrMagic c d (d.record op) := by
  unfold ErasedOrMagic
  simp [Device.record, programsOnErasedOrMagic, ok]

theorem of_onErased (h : OnErased c d d') : ErasedOrMagic c d d' :=
  programsOnErasedOrMagic_of_onErased c _ _ h

theorem of_loads (loads : d.Loads d') : ErasedOrMagic c d d' := by
  obtain ⟨-, -, -, reads, trace, only⟩ := loads
  unfold ErasedOrMagic
  rw [trace, List.drop_left]
  clear trace
  generalize d.flash c = f
  induction reads generalizing f with
  | nil => rfl
  | cons op reads ih =>
    obtain ⟨a, w, rfl⟩ := only _ (List.mem_cons_self _ _)
    exact ih (fun op mem => only op (List.mem_cons_of_mem _ mem)) f

end ErasedOrMagic

end Spares

section Tidy

variable (c : Config)

/-- The log as the write paths need it: `empty_slot` at an even offset from the log base, every
log slot from it on erased, and the replay of the log stopping at or after it. -/
structure LogTidy (d : Device) : Prop where
  above : c.FEE_WRITE_LOG_BASE_ADDRESS ≤ d.empty_slot
  even : (d.empty_slot - c.FEE_WRITE_LOG_BASE_ADDRESS) % 2 = 0
  erased : ∀ a, d.empty_slot ≤ a → c.firstSlot ≤ a → a < c.FEE_WRITE_LOG_LAST_ADDRESS →
    d.flash c a = FEE_EMPTY_WORD
  stop : d.empty_slot ≤ (decodeLog (d.flash c) c.logSlots c.firstSlot).2

variable {c}

/-- A device with the same `empty_slot` whose log slots hold the same half-words. -/
theorem LogTidy.of_agree {d d' : Device} (tidy : LogTidy c d) (slot : d'.empty_slot = d.empty_slot)
    (agree : ∀ a, c.firstSlot ≤ a → d'.flash c a = d.flash c a) : LogTidy c d' := by
  have decode : decodeLog (d'.flash c) c.logSlots c.firstSlot = decodeLog (d.flash c) c.logSlots c.firstSlot :=
    decodeLog_congr (d.flash c) _ _ fun x lo _ => agree x lo
  refine ⟨slot ▸ tidy.above, slot ▸ tidy.even, fun a lo first hi => ?_, ?_⟩
  · rw [agree a first]
    exact tidy.erased a (slot ▸ lo) first hi
  · rw [decode, slot]
    exact tidy.stop

/-- `empty_slot` where the replay stops, with the log erased from there on. -/
theorem LogTidy.at_stop {d : Device} (slot : d.empty_slot = (decodeLog (d.flash c) c.logSlots c.firstSlot).2)
    (erased : ∀ a, d.empty_slot ≤ a → c.firstSlot ≤ a → a < c.FEE_WRITE_LOG_LAST_ADDRESS →
      d.flash c a = FEE_EMPTY_WORD) : LogTidy c d := by
  obtain ⟨k, -, stop⟩ := decodeLog_stop (d.flash c) c.logSlots c.firstSlot
  refine ⟨?_, ?_, erased, slot.le⟩
  all_goals rw [slot, stop]; unfold Config.firstSlot; omega

/-- `eeprom_clear` erases the log but for the magic and puts `empty_slot` on it. -/
theorem logTidy_eeprom_clear (d : Device) : LogTidy c (eeprom_clear c d) := by
  have first : c.firstSlot = c.FEE_WRITE_LOG_BASE_ADDRESS + 4 := rfl
  have slot : (eeprom_clear c d).empty_slot = c.FEE_WRITE_LOG_BASE_ADDRESS := rfl
  refine ⟨slot.ge, by rw [slot, Nat.sub_self], fun a _ low hi => ?_, ?_⟩
  · have inside := c.log_last_le_region_end
    have page : c.FEE_PAGE_BASE_ADDRESS ≤ c.FEE_WRITE_LOG_BASE_ADDRESS := Nat.le_add_right _ _
    rw [flash_eeprom_clear_of_ne c d (by omega) (by omega), if_pos ⟨by omega, by omega⟩]
    rfl
  · have := decodeLog_start_le ((eeprom_clear c d).flash c) c.logSlots c.firstSlot
    rw [slot]
    omega

/-- From `d` to `d'` over the same flash and driver: behind a driver that completes, a tidy log
stays tidy and every program hits an erased half-word or the magic. -/
structure Device.KeepsTidy (c : Config) (d d' : Device) : Prop where
  appends : d.trace <+: d'.trace
  initial : d'.initial = d.initial
  driver : d'.driver = d.driver
  tidy : (∀ i, d.driver i = .FLASH_COMPLETE) → LogTidy c d → LogTidy c d' ∧ ErasedOrMagic c d d'

namespace Device.KeepsTidy

variable {d d' d'' : Device}

theorem refl (d : Device) : d.KeepsTidy c d :=
  ⟨List.prefix_refl _, rfl, rfl, fun _ tidy => ⟨tidy, .refl d⟩⟩

theorem trans (first : d.KeepsTidy c d') (second : d'.KeepsTidy c d'') : d.KeepsTidy c d'' :=
  ⟨first.appends.trans second.appends, second.initial.trans first.initial, second.driver.trans first.driver,
    fun complete tidy =>
      have one := first.tidy complete tidy
      have two := second.tidy (fun i => first.driver ▸ complete i) one.1
      ⟨two.1, one.2.trans first.appends first.initial second.appends two.2⟩⟩

/-- An access that changes neither the flash nor `empty_slot`. -/
theorem record {op : FlashOp} (d : Device) (keeps : ∀ f, op.apply c f = f)
    (ok : op.onErasedOrMagic c (d.flash c) = true) : d.KeepsTidy c (d.record op) :=
  ⟨⟨[op], rfl⟩, rfl, rfl, fun _ tidy =>
    ⟨tidy.of_agree rfl fun a _ => by rw [Device.flash_record, keeps], .record ok⟩⟩

theorem unlock (d : Device) : d.KeepsTidy c (FLASH_Unlock d) := record d (fun _ => rfl) rfl

theorem lock (d : Device) : d.KeepsTidy c (FLASH_Lock d) := record d (fun _ => rfl) rfl

theorem load (d : Device) (addr width : Nat) : d.KeepsTidy c (PicoEeprom.load addr width d) :=
  record d (fun _ => rfl) rfl

/-- A program below the log base, at an erased half-word. -/
theorem program_below (d : Device) {addr : Nat} (v : UInt16) (below : addr < c.FEE_WRITE_LOG_BASE_ADDRESS)
    (erased : d.flash c addr = FEE_EMPTY_WORD) : d.KeepsTidy c (FLASH_ProgramHalfWord addr v d).2 :=
  ⟨⟨_, rfl⟩, rfl, rfl, fun _ tidy =>
    ⟨tidy.of_agree rfl fun a first => by
      simp only [FLASH_ProgramHalfWord, Device.flash_record]
      exact FlashOp.apply_program_of_ne _ _ _ _ (by unfold Config.firstSlot at first; omega),
    .record (by simp [FlashOp.onErasedOrMagic, erased])⟩⟩

/-- A log append of a non-empty half-word at `empty_slot`, which past the magic has room before
the log's end. -/
theorem append (d : Device) {v : UInt16} (filled : v ≠ FEE_EMPTY_WORD)
    (room : c.firstSlot ≤ d.empty_slot → d.empty_slot < c.FEE_WRITE_LOG_LAST_ADDRESS) :
    d.KeepsTidy c (FLASH_ProgramHalfWord d.empty_slot v { d with empty_slot := d.empty_slot + 2 }).2 := by
  refine ⟨⟨_, rfl⟩, rfl, rfl, fun complete tidy => ?_⟩
  have flash : (FLASH_ProgramHalfWord d.empty_slot v { d with empty_slot := d.empty_slot + 2 }).2.flash c =
      Function.update (d.flash c) d.empty_slot (d.flash c d.empty_slot &&& v) := by
    simp only [FLASH_ProgramHalfWord, Device.flash_record, Device.flash_with_slot, complete]
    rfl
  have other : ∀ a, a ≠ d.empty_slot →
      (FLASH_ProgramHalfWord d.empty_slot v { d with empty_slot := d.empty_slot + 2 }).2.flash c a =
        d.flash c a := fun a ne => by rw [flash, Function.update_noteq ne]
  have base := tidy.above
  have even := tidy.even
  by_cases past : c.firstSlot ≤ d.empty_slot
  · have free : d.flash c d.empty_slot = FEE_EMPTY_WORD :=
      tidy.erased _ (Nat.le_refl _) past (room past)
    have written : (FLASH_ProgramHalfWord d.empty_slot v
        { d with empty_slot := d.empty_slot + 2 }).2.flash c d.empty_slot = v := by
      rw [flash, Function.update_same, free, erased_and]
    refine ⟨⟨by show _ ≤ d.empty_slot + 2; omega, by show (d.empty_slot + 2 - _) % 2 = 0; omega,
      fun a lo first hi => ?_, ?_⟩, .record (by simp [FlashOp.onErasedOrMagic, free])⟩
    · rw [other a (by change d.empty_slot + 2 ≤ a at lo; omega)]
      exact tidy.erased a (by change d.empty_slot + 2 ≤ a at lo; omega) first hi
    · exact decodeLog_stop_of_program other (by rw [written]; exact filled) c.logSlots c.firstSlot past
        (by unfold Config.firstSlot at past ⊢; omega)
        (by rw [c.first_add_log_slots (by have := room past; omega)]; exact room past) tidy.stop
  · have agree : ∀ x, c.firstSlot ≤ x →
        (FLASH_ProgramHalfWord d.empty_slot v { d with empty_slot := d.empty_slot + 2 }).2.flash c x =
          d.flash c x := fun x first => other x (by omega)
    refine ⟨⟨by show _ ≤ d.empty_slot + 2; omega, by show (d.empty_slot + 2 - _) % 2 = 0; omega,
      fun a lo first hi => ?_, ?_⟩, .record ?_⟩
    · rw [agree a first]
      exact tidy.erased a (by change d.empty_slot + 2 ≤ a at lo; omega) first hi
    · rw [decodeLog_congr (d.flash c) _ _ fun x lo _ => agree x lo]
      have := decodeLog_start_le (d.flash c) c.logSlots c.firstSlot
      have first : c.firstSlot = c.FEE_WRITE_LOG_BASE_ADDRESS + 4 := rfl
      show d.empty_slot + 2 ≤ _
      omega
    · simp only [FlashOp.onErasedOrMagic, Bool.or_eq_true, beq_iff_eq]
      unfold Config.firstSlot at past
      omega

/-- A compaction leaves the log as `eeprom_clear` left it. -/
theorem compact (room : 4 ≤ c.FEE_WRITE_LOG_BYTES) (buf : Memory) (d : Device) :
    d.KeepsTidy c (eeprom_compact c buf d).2 :=
  have ext := eeprom_compact_onErased buf d room
  ⟨ext.appends, ext.initial, driver_eeprom_compact buf d, fun _ _ =>
    ⟨(logTidy_eeprom_clear d).of_agree (empty_slot_eeprom_compact c buf d) fun _ first =>
      flash_eeprom_compact_of_ge c buf d (by unfold Config.firstSlot at first; omega),
    .of_onErased ext.onErased⟩⟩

theorem clear (room : 4 ≤ c.FEE_WRITE_LOG_BYTES) (d : Device) : d.KeepsTidy c (eeprom_clear c d) :=
  have ext := eeprom_clear_onErased d room
  ⟨ext.appends, ext.initial, (eeprom_clear_appends d).2, fun _ _ =>
    ⟨logTidy_eeprom_clear d, .of_onErased ext.onErased⟩⟩

theorem of_loads (loads : d.Loads d') : d.KeepsTidy c d' :=
  ⟨loads.appends, loads.initial, loads.driver, fun _ tidy =>
    ⟨tidy.of_agree loads.empty_slot fun a _ => congrFun (loads.flash c) a, .of_loads loads⟩⟩

/-- The end of a reboot: `empty_slot` moved to where the replay stops, which a tidy log puts
at or after the old one. -/
theorem restart (d : Device) :
    d.KeepsTidy c { d with empty_slot := (decodeLog (d.flash c) c.logSlots c.firstSlot).2 } :=
  ⟨List.prefix_refl _, rfl, rfl, fun _ tidy =>
    ⟨.at_stop rfl fun a after first hi => tidy.erased a (tidy.stop.trans after) first hi, .refl d⟩⟩

/-- Either branch of a step that answers a status and a device. -/
theorem ite {α : Type} {p : Prop} [Decidable p] {x y : α × Device} (hx : p → d.KeepsTidy c x.2)
    (hy : ¬p → d.KeepsTidy c y.2) : d.KeepsTidy c (if p then x else y).2 := by
  split
  exacts [hx ‹_›, hy ‹_›]

end Device.KeepsTidy

end Tidy

section Paths

variable {c : Config} (buf : Memory) {d : Device}

/-- A half-word below `0xFFFF` is never the erased word. -/
theorem ofNat_ne_empty {n : Nat} (below : n < 0xFFFF) : UInt16.ofNat n ≠ FEE_EMPTY_WORD := by
  rw [Ne, uint16_eq_iff, toNat_ofNat_uint16]
  show ¬n % 65536 = 65535
  omega

/-- The direct write programs a snapshot half-word it has just read as erased. -/
theorem keepsTidy_direct_entry {A : Nat} (range : A < c.FEE_DENSITY_BYTES) :
    d.KeepsTidy c (eeprom_write_direct_entry c buf A d).2 := by
  have loaded := Device.KeepsTidy.load (c := c) d (c.FEE_COMPACTED_BASE_ADDRESS + (A &&& 0xFFFE)) 2
  have below : c.FEE_COMPACTED_BASE_ADDRESS + (A &&& 0xFFFE) < c.FEE_WRITE_LOG_BASE_ADDRESS := by
    have := Nat.and_le_left (n := A) (m := 0xFFFE)
    show _ < c.FEE_COMPACTED_BASE_ADDRESS + c.FEE_DENSITY_BYTES
    omega
  unfold eeprom_write_direct_entry
  dsimp only
  exact .ite (fun erased => .ite (fun _ => loaded) fun _ =>
    ((loaded.trans (.unlock _)).trans (.program_below _ _ below (by simpa using erased))).trans (.lock _))
    fun _ => loaded

/-- A byte entry `(Address << 8) | value` below `FEE_BYTE_RANGE` is appended, or the log is
compacted. -/
theorem keepsTidy_log_byte_entry (room : 4 ≤ c.FEE_WRITE_LOG_BYTES) {A : Nat} (byte : A < FEE_BYTE_RANGE) :
    d.KeepsTidy c (eeprom_write_log_byte_entry c buf A d).2 := by
  have filled : UInt16.ofNat ((A <<< 8) ||| (buf A).toNat) ≠ FEE_EMPTY_WORD := by
    have := (buf A).toNat_lt_size
    simp only [FEE_BYTE_RANGE, UInt8.size] at byte this
    exact ofNat_ne_empty (by rw [byte_entry_eq]; omega)
  unfold eeprom_write_log_byte_entry
  exact .ite (fun _ => .compact room buf d) fun notFull =>
    ((Device.KeepsTidy.unlock d).trans (.append _ filled fun _ => by simpa using notFull)).trans (.lock _)

/-- The primary half-word of a word entry above `FEE_BYTE_RANGE`, Word-Encoded or Word-Next,
is never the erased word. -/
theorem word_entry_filled {A : Nat} (low : FEE_BYTE_RANGE ≤ A) (range : A < 0x4000) (value : Nat) :
    UInt16.ofNat ((if value ≤ 1 then A else (A + 65536 - FEE_BYTE_RANGE) % 65536) >>> 1 |||
      if value ≤ 1 then FEE_WORD_ENCODING ||| value <<< 13 else FEE_WORD_ENCODING ||| FEE_VALUE_NEXT) ≠
    FEE_EMPTY_WORD := by
  apply ofNat_ne_empty
  simp only [FEE_BYTE_RANGE] at low ⊢
  by_cases small : value ≤ 1
  · simp only [small, ↓reduceIte]
    rw [word_entry_eq small range]
    omega
  · simp only [small, ↓reduceIte]
    rw [next_entry_eq (by omega)]
    omega

/-- A Word-Encoded entry, or a Word-Next entry with its value word, above `FEE_BYTE_RANGE` is
appended, or the log is compacted. -/
theorem keepsTidy_log_word_entry (room : 4 ≤ c.FEE_WRITE_LOG_BYTES) {A : Nat} (low : FEE_BYTE_RANGE ≤ A)
    (range : A < c.FEE_DENSITY_BYTES) : d.KeepsTidy c (eeprom_write_log_word_entry c buf A d).2 := by
  have := c.density_le_address_max
  have first : c.firstSlot = c.FEE_WRITE_LOG_BASE_ADDRESS + 4 := rfl
  have large : (if wordAt buf A ≤ 1 then FEE_WORD_ENCODING ||| wordAt buf A <<< 13
      else FEE_WORD_ENCODING ||| FEE_VALUE_NEXT) = FEE_WORD_ENCODING ||| FEE_VALUE_NEXT → 1 < wordAt buf A := by
    split
    · obtain h | h : wordAt buf A = 0 ∨ wordAt buf A = 1 := by omega
      all_goals rw [h]; decide
    · omega
  unfold eeprom_write_log_word_entry
  dsimp only
  refine .ite (fun _ => .compact room buf d) fun notFull => ?_
  have first_room : c.firstSlot ≤ d.empty_slot → d.empty_slot < c.FEE_WRITE_LOG_LAST_ADDRESS := by
    split at notFull <;> omega
  have second_room (next : 1 < wordAt buf A) (_ : c.firstSlot ≤ d.empty_slot + 2) :
      d.empty_slot + 2 < c.FEE_WRITE_LOG_LAST_ADDRESS := by
    rw [if_neg (by omega)] at notFull
    omega
  refine Device.KeepsTidy.trans ?_ (.lock _)
  exact .ite (fun next => ((Device.KeepsTidy.unlock d).trans
      (.append _ (word_entry_filled low (by omega) _) first_room)).trans
        (.append _ (ofNat_ne_empty (by have := large next; omega)) (second_room (large next))))
    fun _ => (Device.KeepsTidy.unlock d).trans (.append _ (word_entry_filled low (by omega) _) first_room)

/-- A byte step of a word write below `FEE_BYTE_RANGE`: a byte entry, or nothing. -/
theorem keepsTidy_byte_step (room : 4 ≤ c.FEE_WRITE_LOG_BYTES) (changed : Prop) [Decidable changed]
    {A : Nat} (byte : A < FEE_BYTE_RANGE) :
    d.KeepsTidy c (if changed then eeprom_write_log_byte_entry c buf A d else (some .FLASH_COMPLETE, d)).2 :=
  .ite (fun _ => keepsTidy_log_byte_entry buf room byte) fun _ => .refl d

theorem keepsTidy_persistByte (room : 4 ≤ c.FEE_WRITE_LOG_BYTES) {A : Nat} (range : A < c.FEE_DENSITY_BYTES) :
    d.KeepsTidy c (persistByte c buf A d).2 := by
  have word : A &&& 0xFFFE = A - A % 2 := and_fffe (by have := c.density_le_address_max; omega)
  unfold persistByte
  exact .ite (fun _ => (keepsTidy_direct_entry buf range).trans
      (.ite (fun byte => keepsTidy_log_byte_entry buf room byte) fun high =>
        keepsTidy_log_word_entry buf room (by simp only [FEE_BYTE_RANGE] at high ⊢; omega) (by omega)))
    fun _ => keepsTidy_direct_entry buf range

theorem keepsTidy_persistWord (room : 4 ≤ c.FEE_WRITE_LOG_BYTES) (oldValue : Nat) (v : UInt16) {A : Nat}
    (even : A % 2 = 0) (range : A < c.FEE_DENSITY_BYTES) :
    d.KeepsTidy c (persistWord c oldValue v buf A d).2 := by
  unfold persistWord
  dsimp only
  exact .ite (fun _ => (keepsTidy_direct_entry buf range).trans
      (.ite (fun byte => (keepsTidy_byte_step buf room _ byte).trans
          (keepsTidy_byte_step buf room _ (by simp only [FEE_BYTE_RANGE] at byte ⊢; omega)))
        fun high => keepsTidy_log_word_entry buf room (Nat.not_lt.1 high) range))
    fun _ => keepsTidy_direct_entry buf range

end Paths

section Runs

variable {c : Config} (room : 4 ≤ c.FEE_WRITE_LOG_BYTES)
include room

theorem writeDataByte_keepsTidy (A : Nat) (v : UInt8) (m : Machine) :
    m.dev.KeepsTidy c (EEPROM_WriteDataByte c A v m).2.dev := by
  by_cases range : A < c.FEE_DENSITY_BYTES
  · by_cases same : m.DataBuf A = v
    · rw [writeDataByte_of_same range same]
      exact .refl _
    · rw [writeDataByte_of_ne range same]
      exact keepsTidy_persistByte _ room range
  · rw [writeDataByte_of_ge v m (Nat.not_lt.1 range)]
    exact .refl _

theorem writeDataWord_keepsTidy (A : Nat) (v : UInt16) (m : Machine) :
    m.dev.KeepsTidy c (EEPROM_WriteDataWord c A v m).2.dev := by
  by_cases range : A < c.FEE_DENSITY_BYTES
  · rcases Nat.mod_two_eq_zero_or_one A with even | odd
    · by_cases same : wordAt m.DataBuf A = v.toNat
      · rw [writeDataWord_of_same range even same]
        exact .refl _
      · rw [writeDataWord_of_ne range even same]
        exact keepsTidy_persistWord _ room _ _ even range
    · rw [writeDataWord_of_odd v m range odd]
      exact (writeDataByte_keepsTidy room _ _ m).trans (writeDataByte_keepsTidy room _ _ _)
  · rw [writeDataWord_of_ge v m (Nat.not_lt.1 range)]
    exact .refl _

/-- A reboot loads, clears the region if the magic is gone, replays, and moves `empty_slot` to
where the replay stops. -/
theorem EEPROM_Init_keepsTidy (m : Machine) : m.dev.KeepsTidy c (EEPROM_Init c m).2.dev := by
  simp only [EEPROM_Init]
  generalize hL : loadCompacted c (c.FEE_DENSITY_BYTES / 2) c.FEE_COMPACTED_BASE_ADDRESS 0
    m.DataBuf m.dev = L
  obtain ⟨-, loads⟩ := hL ▸ loadCompacted_spec c (c.FEE_DENSITY_BYTES / 2)
    c.FEE_COMPACTED_BASE_ADDRESS 0 m.DataBuf m.dev
  have checked : m.dev.KeepsTidy c (if readWord c c.FEE_WRITE_LOG_BASE_ADDRESS L.2 ≠ FEE_MAGIC_DWORD then
      eeprom_clear c (load c.FEE_WRITE_LOG_BASE_ADDRESS 4 L.2) else load c.FEE_WRITE_LOG_BASE_ADDRESS 4 L.2) :=
    (Device.KeepsTidy.of_loads (loads.trans (.load _ _ _))).trans (by split; exacts [.clear room _, .refl _])
  obtain ⟨stop, -, replayed⟩ := replayWriteLog_spec c c.logSlots c.firstSlot L.1 _
  rw [stop, ← replayed.flash c]
  exact checked.trans ((Device.KeepsTidy.of_loads replayed).trans (.restart _))

theorem Event.run_keepsTidy (event : Event) (m : Machine) : m.dev.KeepsTidy c (event.run c m).dev := by
  cases event with
  | call write =>
    exact write.run_of (fun m m' => m.dev.KeepsTidy c m'.dev) (fun m => .refl m.dev) (fun h h' => h.trans h')
      (writeDataByte_keepsTidy room) (writeDataWord_keepsTidy room) m
  | reboot => exact EEPROM_Init_keepsTidy room m

theorem runEvents_keepsTidy (events : List Event) (m : Machine) :
    m.dev.KeepsTidy c (runEvents c events m).dev :=
  runEvents_of (fun m m' => m.dev.KeepsTidy c m'.dev) (fun m => .refl m.dev) (fun h h' => h.trans h')
    (Event.run_keepsTidy room) events m

end Runs

section Discipline

variable {c : Config}

/-- The invariant's log is tidy: `empty_slot` is where the replay stops. -/
theorem Inv.logTidy {m : Machine} (inv : Inv c m) : LogTidy c m.dev :=
  .at_stop inv.stored.stop.symm fun a after _ hi => inv.erased a after hi

/-- The invariant's `empty_slot` lies past the magic, so the log holds the magic. -/
theorem Inv.log_room {m : Machine} (inv : Inv c m) : 4 ≤ c.FEE_WRITE_LOG_BYTES := by
  have low := inv.slot_low
  have high := inv.slot_high
  unfold Config.firstSlot Config.FEE_WRITE_LOG_LAST_ADDRESS at *
  omega

/-- Read at a position of the trace: the program there finds its half-word erased on the flash
at that position, or it is one of the magic's. -/
theorem ErasedOrMagic.program_at {d d' : Device} (h : ErasedOrMagic c d d') (appends : d.trace <+: d'.trace)
    (initial : d'.initial = d.initial) {k addr : Nat} {value : UInt16} {status : FLASH_Status}
    (after : d.trace.length ≤ k) (issued : d'.trace[k]? = some (.programHalfWord addr value status)) :
    d'.flashAt c k addr = FEE_EMPTY_WORD ∨
      addr = c.FEE_WRITE_LOG_BASE_ADDRESS ∨ addr = c.FEE_WRITE_LOG_BASE_ADDRESS + 2 := by
  obtain ⟨ops, trace⟩ := appends
  unfold ErasedOrMagic at h
  rw [← trace, List.drop_left] at h
  rw [← trace, List.getElem?_append_right after] at issued
  simp only [Device.flashAt, ← trace, initial, List.take_append_eq_append_take,
    List.take_of_length_le after, List.foldl_append]
  exact programsOnErasedOrMagic_at c _ _ h issued

/-- The NOR discipline over every run, compactions included: from a store with the invariant
behind a driver that completes, every half-word program that a run of write calls and reboots
issues, at any position of its trace, finds that half-word erased, or is one of the magic's
two half-words. -/
theorem runs_program_erased_or_magic (events : List Event) (m : Machine) (inv : Inv c m)
    (complete : ∀ i, m.dev.driver i = .FLASH_COMPLETE) {k addr : Nat} {value : UInt16}
    {status : FLASH_Status} (after : m.dev.trace.length ≤ k)
    (issued : (runEvents c events m).dev.trace[k]? = some (.programHalfWord addr value status)) :
    (runEvents c events m).dev.flashAt c k addr = FEE_EMPTY_WORD ∨
      addr = c.FEE_WRITE_LOG_BASE_ADDRESS ∨ addr = c.FEE_WRITE_LOG_BASE_ADDRESS + 2 :=
  have run := runEvents_keepsTidy inv.log_room events m
  (run.tidy complete inv.logTidy).2.program_at run.appends run.initial after issued

/-- From the erased 4-byte store: a snapshot write, four byte entries that fill the log, a
compaction, and one more byte write. The last write finds the snapshot word programmed and
appends its entry at `empty_slot`, which the compaction left on the magic: the forty-first
operation of the trace programs 7 over the magic's low half-word, which holds `0x0FEE`. -/
theorem runs_program_erased_or_magic_small :
    (runEvents Config.small
      [.call (.write_byte 0 1), .call (.write_byte 0 2), .call (.write_byte 0 3), .call (.write_byte 0 4),
        .call (.write_byte 0 5), .call (.write_byte 0 6), .call (.write_byte 0 7)]
      (EEPROM_Erase Config.small Machine.erased)).dev.trace[40]? =
        some (.programHalfWord 4 7 .FLASH_COMPLETE) ∧
    (runEvents Config.small
      [.call (.write_byte 0 1), .call (.write_byte 0 2), .call (.write_byte 0 3), .call (.write_byte 0 4),
        .call (.write_byte 0 5), .call (.write_byte 0 6), .call (.write_byte 0 7)]
      (EEPROM_Erase Config.small Machine.erased)).dev.flashAt Config.small 40 4 = 0x0FEE ∧
    ((runEvents Config.small
      [.call (.write_byte 0 1), .call (.write_byte 0 2), .call (.write_byte 0 3), .call (.write_byte 0 4),
        .call (.write_byte 0 5), .call (.write_byte 0 6), .call (.write_byte 0 7)]
      (EEPROM_Erase Config.small Machine.erased)).dev.flashAt Config.small 40 4 = FEE_EMPTY_WORD ∨
      4 = Config.small.FEE_WRITE_LOG_BASE_ADDRESS ∨ 4 = Config.small.FEE_WRITE_LOG_BASE_ADDRESS + 2) :=
  have issued : (runEvents Config.small
      [.call (.write_byte 0 1), .call (.write_byte 0 2), .call (.write_byte 0 3), .call (.write_byte 0 4),
        .call (.write_byte 0 5), .call (.write_byte 0 6), .call (.write_byte 0 7)]
      (EEPROM_Erase Config.small Machine.erased)).dev.trace[40]? =
        some (.programHalfWord 4 7 .FLASH_COMPLETE) := by decide
  ⟨issued, by decide, runs_program_erased_or_magic
    [.call (.write_byte 0 1), .call (.write_byte 0 2), .call (.write_byte 0 3), .call (.write_byte 0 4),
      .call (.write_byte 0 5), .call (.write_byte 0 6), .call (.write_byte 0 7)]
    (EEPROM_Erase Config.small Machine.erased)
    ((eeprom_clear_stored Config.small Machine.erased.dev (fun _ => rfl) (by decide)).init
      ⟨Machine.erased.DataBuf, eeprom_clear Config.small Machine.erased.dev⟩ rfl).2
    (fun _ => rfl) (by decide) issued⟩

end Discipline

end PicoEeprom
