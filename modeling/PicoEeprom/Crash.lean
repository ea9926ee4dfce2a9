import PicoEeprom.Status

/-! Power loss during a write. A write that persists through one direct snapshot write or
one log entry issues at most two programs, each of an erased half-word; every prefix of its
trace leaves a flash that stores the image before the write or the image after it, and
`EEPROM_Init` on that flash recovers it together with the invariant. -/
namespace PicoEeprom

/-- `d'` is `d` after the flash operations `ops`, with the same starting flash and driver. -/
structure Device.Extends (d d' : Device) (ops : List FlashOp) : Prop where
  initial : d'.initial = d.initial
  driver : d'.driver = d.driver
  trace : d'.trace = d.trace ++ ops

/-- The flash after the first `k` operations of the trace: what survives power loss there. -/
def Device.flashAt (c : Config) (d : Device) (k : Nat) : Flash :=
  (d.trace.take k).foldl (fun f op => op.apply c f) d.initial

namespace Device.Extends

variable {d d' d'' : Device} {ops ops' : List FlashOp}

theorem load (d : Device) (addr width : Nat) : d.Extends (load addr width d) [.read addr width] :=
  ⟨rfl, rfl, rfl⟩

theorem trans (first : d.Extends d' ops) (second : d'.Extends d'' ops') :
    d.Extends d'' (ops ++ ops') :=
  ⟨second.initial.trans first.initial, second.driver.trans first.driver,
    by rw [second.trace, first.trace, List.append_assoc]⟩

theorem flash (h : d.Extends d' ops) (c : Config) :
    d'.flash c = ops.foldl (fun f op => op.apply c f) (d.flash c) := by
  simp only [Device.flash, h.trace, h.initial, List.foldl_append]

theorem flashAt (h : d.Extends d' ops) (c : Config) {k : Nat} (after : d.trace.length ≤ k) :
    d'.flashAt c k = (ops.take (k - d.trace.length)).foldl (fun f op => op.apply c f) (d.flash c) := by
  simp only [Device.flashAt, h.trace, h.initial, List.take_append_eq_append_take,
    List.take_of_length_le after, List.foldl_append, Device.flash]

end Device.Extends

@[simp] theorem empty_slot_load (addr width : Nat) (d : Device) :
    (load addr width d).empty_slot = d.empty_slot := rfl

theorem complement_eq_empty_iff {W : Nat} (lt : W < 65536) :
    UInt16.ofNat (0xFFFF - W) = FEE_EMPTY_WORD ↔ W = 0 := by
  rw [uint16_eq_iff, toNat_ofNat_uint16, show FEE_EMPTY_WORD.toNat = 65535 from rfl]
  omega

section Paths

variable (c : Config) (buf : Memory) (d : Device)

theorem direct_entry_of_programmed (Address : Nat)
    (programmed : d.flash c (c.FEE_COMPACTED_BASE_ADDRESS + (Address &&& 0xFFFE)) ≠ FEE_EMPTY_WORD) :
    eeprom_write_direct_entry c buf Address d =
      (none, load (c.FEE_COMPACTED_BASE_ADDRESS + (Address &&& 0xFFFE)) 2 d) := by
  simp only [eeprom_write_direct_entry, if_neg programmed]

theorem direct_entry_of_zero (Address : Nat)
    (erased : d.flash c (c.FEE_COMPACTED_BASE_ADDRESS + (Address &&& 0xFFFE)) = FEE_EMPTY_WORD)
    (zero : wordAt buf (Address &&& 0xFFFE) = 0) :
    eeprom_write_direct_entry c buf Address d =
      (some .FLASH_COMPLETE, load (c.FEE_COMPACTED_BASE_ADDRESS + (Address &&& 0xFFFE)) 2 d) := by
  simp only [eeprom_write_direct_entry, if_pos erased, zero]
  rfl

theorem direct_entry_of_erased (complete : ∀ i, d.driver i = .FLASH_COMPLETE) (Address : Nat)
    (erased : d.flash c (c.FEE_COMPACTED_BASE_ADDRESS + (Address &&& 0xFFFE)) = FEE_EMPTY_WORD)
    (nonzero : wordAt buf (Address &&& 0xFFFE) ≠ 0) :
    (eeprom_write_direct_entry c buf Address d).1 = some .FLASH_COMPLETE ∧
    (eeprom_write_direct_entry c buf Address d).2.empty_slot = d.empty_slot ∧
    d.Extends (eeprom_write_direct_entry c buf Address d).2
      [.read (c.FEE_COMPACTED_BASE_ADDRESS + (Address &&& 0xFFFE)) 2, .unlock,
        .programHalfWord (c.FEE_COMPACTED_BASE_ADDRESS + (Address &&& 0xFFFE))
          (UInt16.ofNat (0xFFFF - wordAt buf (Address &&& 0xFFFE))) .FLASH_COMPLETE, .lock] := by
  have value : UInt16.ofNat (0xFFFF - wordAt buf (Address &&& 0xFFFE)) ≠ FEE_EMPTY_WORD :=
    fun h => nonzero ((complement_eq_empty_iff (wordAt_lt _ _)).1 h)
  simp only [eeprom_write_direct_entry, if_pos erased, if_neg value, FLASH_Lock, FLASH_Unlock,
    FLASH_ProgramHalfWord, load, Device.record, complete]
  exact ⟨trivial, trivial, rfl, rfl, by simp⟩

theorem log_byte_entry_of_room (complete : ∀ i, d.driver i = .FLASH_COMPLETE) (Address : Nat)
    (room : d.empty_slot < c.FEE_WRITE_LOG_LAST_ADDRESS) :
    (eeprom_write_log_byte_entry c buf Address d).2.empty_slot = d.empty_slot + 2 ∧
    d.Extends (eeprom_write_log_byte_entry c buf Address d).2
      [.unlock, .programHalfWord d.empty_slot
        (UInt16.ofNat ((Address <<< 8) ||| (buf Address).toNat)) .FLASH_COMPLETE, .lock] := by
  simp only [eeprom_write_log_byte_entry, if_neg (Nat.not_le.2 room), FLASH_Lock, FLASH_Unlock,
    FLASH_ProgramHalfWord, Device.record, complete]
  exact ⟨trivial, rfl, rfl, by simp⟩

theorem log_word_entry_encoded (complete : ∀ i, d.driver i = .FLASH_COMPLETE) (Address : Nat)
    (small : wordAt buf Address ≤ 1)
    (room : ¬ d.empty_slot > c.FEE_WRITE_LOG_LAST_ADDRESS - 2) :
    (eeprom_write_log_word_entry c buf Address d).2.empty_slot = d.empty_slot + 2 ∧
    d.Extends (eeprom_write_log_word_entry c buf Address d).2
      [.unlock, .programHalfWord d.empty_slot (UInt16.ofNat
        ((Address >>> 1) ||| (FEE_WORD_ENCODING ||| wordAt buf Address <<< 13))) .FLASH_COMPLETE,
        .lock] := by
  have single : FEE_WORD_ENCODING ||| wordAt buf Address <<< 13 ≠ FEE_WORD_ENCODING ||| FEE_VALUE_NEXT := by
    obtain h | h : wordAt buf Address = 0 ∨ wordAt buf Address = 1 := by omega
    all_goals rw [h]; decide
  simp only [eeprom_write_log_word_entry, if_pos small, if_neg room, if_neg single, FLASH_Lock,
    FLASH_Unlock, FLASH_ProgramHalfWord, Device.record, complete]
  exact ⟨trivial, rfl, rfl, by simp⟩

theorem log_word_entry_next (complete : ∀ i, d.driver i = .FLASH_COMPLETE) (Address : Nat)
    (large : ¬ wordAt buf Address ≤ 1)
    (room : ¬ d.empty_slot > c.FEE_WRITE_LOG_LAST_ADDRESS - 4) :
    (eeprom_write_log_word_entry c buf Address d).2.empty_slot = d.empty_slot + 4 ∧
    d.Extends (eeprom_write_log_word_entry c buf Address d).2
      [.unlock, .programHalfWord d.empty_slot (UInt16.ofNat
        ((((Address + 0x10000 - FEE_BYTE_RANGE) % 0x10000) >>> 1) |||
          (FEE_WORD_ENCODING ||| FEE_VALUE_NEXT))) .FLASH_COMPLETE,
        .programHalfWord (d.empty_slot + 2) (UInt16.ofNat (0xFFFF - wordAt buf Address))
          .FLASH_COMPLETE, .lock] := by
  simp only [eeprom_write_log_word_entry, if_neg large, if_neg room, if_true, FLASH_Lock,
    FLASH_Unlock, FLASH_ProgramHalfWord, Device.record, complete]
  exact ⟨trivial, rfl, rfl, by simp⟩

end Paths

/-- `A &&& 0xFFFE` clears the low bit of a 16-bit address. -/
theorem and_fffe {A : Nat} (h : A < 0x10000) : A &&& 0xFFFE = A - A % 2 := by
  have mask := land_mul_two_pow_add (A / 2) (A % 2) (2 ^ 15 - 1) 1 (Nat.mod_lt _ (by decide))
  rw [Nat.and_pow_two_sub_one_eq_mod, show 2 ^ 1 * (A / 2) + A % 2 = A by omega] at mask
  rw [show (0xFFFE : Nat) = 2 ^ 1 * (2 ^ 15 - 1) from rfl, mask]
  omega

section Prefixes

variable (c : Config)

/-- `EEPROM_Init` on flash `f` recovers the image `old` or the image `new`. -/
def Recovers (f : Flash) (old new : Memory) : Prop :=
  ∃ s img, Stored c f s img ∧ (c.image img = c.image old ∨ c.image img = c.image new)

/-- Where the engine programs: the snapshot below the log, and the log slots after the magic. -/
def Config.Writable (a : Nat) : Prop :=
  c.FEE_COMPACTED_BASE_ADDRESS ≤ a ∧ a < c.FEE_WRITE_LOG_BASE_ADDRESS ∨
    c.firstSlot ≤ a ∧ a < c.FEE_WRITE_LOG_LAST_ADDRESS

/-- Run on `f`, every program among `ops` targets a half-word where the engine programs, and
that half-word is erased when the program runs: the NOR discipline. -/
def ProgramsErased (f : Flash) (ops : List FlashOp) : Prop :=
  ∀ j addr value status, ops[j]? = some (.programHalfWord addr value status) →
    (ops.take j).foldl (fun f op => op.apply c f) f addr = FEE_EMPTY_WORD ∧ c.Writable addr

/-- Run on `f`, the operations `ops` leave a flash that recovers `old` or `new` after each of
their prefixes, and all of them store `new` with stop slot `s'`; they program erased
half-words only. -/
structure CrashSafe (f : Flash) (ops : List FlashOp) (old new : Memory) (s' : Nat) : Prop where
  prefixes : ∀ j, Recovers c ((ops.take j).foldl (fun f op => op.apply c f) f) old new
  final : Stored c (ops.foldl (fun f op => op.apply c f) f) s' new
  programs : ProgramsErased c f ops

variable {c} {f : Flash} {s s' : Nat} {old new : Memory}

theorem ProgramsErased.of_no_program {ops : List FlashOp} (none : ∀ op ∈ ops, op.isProgram = false) :
    ProgramsErased c f ops := fun _ _ _ _ h =>
  Bool.noConfusion (none _ (List.mem_iff_getElem?.2 ⟨_, h⟩))

theorem ProgramsErased.append {ops₁ ops₂ : List FlashOp} (first : ProgramsErased c f ops₁)
    (second : ProgramsErased c (ops₁.foldl (fun f op => op.apply c f) f) ops₂) :
    ProgramsErased c f (ops₁ ++ ops₂) := by
  intro j addr value status h
  by_cases inFirst : j < ops₁.length
  · rw [List.getElem?_append_left inFirst] at h
    rw [List.take_append_of_le_length inFirst.le]
    exact first j addr value status h
  · rw [List.getElem?_append_right (Nat.not_lt.1 inFirst)] at h
    rw [List.take_append_eq_append_take, List.take_of_length_le (Nat.not_lt.1 inFirst), List.foldl_append]
    exact second _ addr value status h

theorem ProgramsErased.program {p : Nat} {v : UInt16} (erased : f p = FEE_EMPTY_WORD)
    (writable : c.Writable p) (status : FLASH_Status) :
    ProgramsErased c f [.programHalfWord p v status] := by
  intro j addr value status' h
  rcases j with _ | j
  · obtain ⟨rfl, -, -⟩ : p = addr ∧ v = value ∧ status = status' := by simpa using h
    exact ⟨erased, writable⟩
  · simp at h

/-- Loads, unlocks and locks program nothing. -/
theorem ProgramsErased.bracket (q w : Nat) : ProgramsErased c f [.read q w, .unlock] :=
  .of_no_program (by simp [FlashOp.isProgram])

theorem ProgramsErased.lock : ProgramsErased c f [.lock] := .of_no_program (by simp [FlashOp.isProgram])

theorem Stored.congr {img img' : Memory} (stored : Stored c f s img)
    (same : c.image img = c.image img') : Stored c f s img' :=
  { stored with image := fun buf => (stored.image buf).trans same }

theorem Stored.recovers_old (stored : Stored c f s old) : Recovers c f old new :=
  ⟨s, old, stored, .inl rfl⟩

theorem Stored.recovers_new (stored : Stored c f s new) : Recovers c f old new :=
  ⟨s, new, stored, .inr rfl⟩

theorem recovers_cons (op : FlashOp) (ops : List FlashOp) :
    (∀ j, Recovers c (((op :: ops).take j).foldl (fun f op => op.apply c f) f) old new) ↔
      Recovers c f old new ∧
        ∀ j, Recovers c ((ops.take j).foldl (fun f op => op.apply c f) (op.apply c f)) old new :=
  ⟨fun h => ⟨h 0, fun j => h (j + 1)⟩, fun h j => by cases j; exacts [h.1, h.2 _]⟩

theorem recovers_nil :
    (∀ j, Recovers c ((([] : List FlashOp).take j).foldl (fun f op => op.apply c f) f) old new) ↔
      Recovers c f old new := by
  simp only [List.take_nil, List.foldl_nil, forall_const]

theorem FlashOp.apply_program_erased {p : Nat} (v : UInt16) (erased : f p = FEE_EMPTY_WORD) :
    (FlashOp.programHalfWord p v .FLASH_COMPLETE).apply c f = Function.update f p v := by
  rw [FlashOp.apply_program_complete, erased, erased_and]

/-- A write that only loads. -/
theorem CrashSafe.load (stored : Stored c f s old) (same : c.image old = c.image new) (q w : Nat) :
    CrashSafe c f [.read q w] old new s :=
  ⟨by simpa only [recovers_cons, recovers_nil, FlashOp.apply_read, and_self] using stored.recovers_old,
    stored.congr same, .of_no_program (by simp [FlashOp.isProgram])⟩

/-- A write that programs one erased half-word. -/
theorem CrashSafe.program {p : Nat} {v : UInt16} (stored : Stored c f s old)
    (erased : f p = FEE_EMPTY_WORD) (writable : c.Writable p)
    (programmed : Stored c (Function.update f p v) s' new) (q w : Nat) :
    CrashSafe c f [.read q w, .unlock, .programHalfWord p v .FLASH_COMPLETE, .lock] old new s' := by
  have step := FlashOp.apply_program_erased (c := c) v erased
  refine ⟨?_, by simpa only [List.foldl_cons, List.foldl_nil, FlashOp.apply_read,
    FlashOp.apply_unlock, FlashOp.apply_lock, step] using programmed,
    (ProgramsErased.bracket q w).append ((ProgramsErased.program erased writable _).append .lock)⟩
  simp only [recovers_cons, recovers_nil, FlashOp.apply_read, FlashOp.apply_unlock,
    FlashOp.apply_lock, step]
  exact ⟨stored.recovers_old, stored.recovers_old, stored.recovers_old, programmed.recovers_new,
    programmed.recovers_new⟩

/-- A write that programs two erased half-words, the first of which alone already stores
the old image. -/
theorem CrashSafe.program_two {p p' s₁ : Nat} {v v' : UInt16} (stored : Stored c f s old)
    (erased : f p = FEE_EMPTY_WORD) (erased' : f p' = FEE_EMPTY_WORD) (other : p' ≠ p)
    (writable : c.Writable p) (writable' : c.Writable p')
    (torn : Stored c (Function.update f p v) s₁ old)
    (programmed : Stored c (Function.update (Function.update f p v) p' v') s' new) (q w : Nat) :
    CrashSafe c f [.read q w, .unlock, .programHalfWord p v .FLASH_COMPLETE,
      .programHalfWord p' v' .FLASH_COMPLETE, .lock] old new s' := by
  have step := FlashOp.apply_program_erased (c := c) v erased
  have step' := FlashOp.apply_program_erased (c := c) v'
    (show Function.update f p v p' = FEE_EMPTY_WORD by rw [Function.update_noteq other]; exact erased')
  have still : ([FlashOp.programHalfWord p v .FLASH_COMPLETE].foldl (fun f op => op.apply c f) f) p' =
      FEE_EMPTY_WORD := by
    rw [List.foldl_cons, List.foldl_nil, step, Function.update_noteq other]
    exact erased'
  refine ⟨?_, by simpa only [List.foldl_cons, List.foldl_nil, FlashOp.apply_read,
    FlashOp.apply_unlock, FlashOp.apply_lock, step, step'] using programmed,
    (ProgramsErased.bracket q w).append ((ProgramsErased.program erased writable _).append
      ((ProgramsErased.program still writable' _).append .lock))⟩
  simp only [recovers_cons, recovers_nil, FlashOp.apply_read, FlashOp.apply_unlock,
    FlashOp.apply_lock, step, step']
  exact ⟨stored.recovers_old, stored.recovers_old, stored.recovers_old, torn.recovers_old,
    programmed.recovers_new, programmed.recovers_new⟩

theorem CrashSafe.nil (stored : Stored c f s old) : CrashSafe c f [] old old s :=
  ⟨by simpa only [recovers_nil] using stored.recovers_old, stored, .of_no_program (by simp)⟩

theorem CrashSafe.congr_new {ops : List FlashOp} {new' : Memory} (safe : CrashSafe c f ops old new s')
    (same : c.image new = c.image new') : CrashSafe c f ops old new' s' :=
  ⟨fun j => by
    obtain ⟨s, img, stored, recovered⟩ := safe.prefixes j
    exact ⟨s, img, stored, recovered.imp id (·.trans same)⟩, safe.final.congr same, safe.programs⟩

end Prefixes

section Stored

variable {c : Config} {f : Flash} {s : Nat} {img : Memory}

theorem Stored.first_le (stored : Stored c f s img) : c.firstSlot ≤ s := by
  obtain ⟨k, -, rfl, -⟩ := stored.slots
  omega

/-- The log from the stop slot on is where appends program. -/
theorem Stored.writable (stored : Stored c f s img) {a : Nat} (above : s ≤ a)
    (room : a < c.FEE_WRITE_LOG_LAST_ADDRESS) : c.Writable a :=
  .inr ⟨stored.first_le.trans above, room⟩

theorem Config.writable_snapshot (c : Config) {w : Nat} (range : w < c.FEE_DENSITY_BYTES) :
    c.Writable (c.FEE_COMPACTED_BASE_ADDRESS + w) :=
  .inl ⟨Nat.le_add_right _ _, by
    unfold Config.FEE_WRITE_LOG_BASE_ADDRESS Config.FEE_COMPACTED_LAST_ADDRESS
    omega⟩

/-- A stored flash has a log of at least the magic, so the region has a page. -/
theorem Stored.pages (stored : Stored c f s img) : 0 < c.FEE_PAGE_COUNT := by
  have room := stored.first_le.trans stored.bounded
  have region := c.log_le_max
  simp only [Config.firstSlot, Config.FEE_WRITE_LOG_LAST_ADDRESS] at room
  refine Nat.pos_of_ne_zero fun zero => ?_
  rw [zero, Nat.zero_mul] at region
  omega

/-- An erased snapshot word holds zero in the stored image: no covered entry writes it. -/
theorem Stored.zero_of_erased (stored : Stored c f s img) {w : Nat} (even : w % 2 = 0)
    (range : w < c.FEE_DENSITY_BYTES) (erased : f (c.FEE_COMPACTED_BASE_ADDRESS + w) = FEE_EMPTY_WORD) :
    img w = 0 ∧ img (w + 1) = 0 := by
  have := c.density_even
  have replay := (Config.image_eq_iff c _ _).1 (stored.image img)
  have snapshot := wordAt_loadSnapshot f c.FEE_COMPACTED_BASE_ADDRESS 0 img
    (show w / 2 < c.FEE_DENSITY_BYTES / 2 by omega)
  rw [show 2 * (w / 2) = w by omega, erased, Nat.zero_add] at snapshot
  obtain ⟨low, high⟩ := (wordAt_eq_zero_iff _ _).1 (snapshot.trans rfl)
  have untouched : ∀ i, (i = w ∨ i = w + 1) → (replayImage c f img).1 i =
      loadSnapshot f (c.FEE_DENSITY_BYTES / 2) c.FEE_COMPACTED_BASE_ADDRESS 0 img i := fun i inside =>
    applyEntries_of_untouched _ _ fun e mem => (stored.covered e mem).untouched even erased inside
  exact ⟨(replay w range).symm.trans ((untouched w (.inl rfl)).trans low),
    (replay (w + 1) (by omega)).symm.trans ((untouched (w + 1) (.inr rfl)).trans high)⟩

theorem LogEntry.covered_byte {A : Nat} (v : UInt8) (range : A < c.FEE_DENSITY_BYTES)
    (programmed : f (c.FEE_COMPACTED_BASE_ADDRESS + (A - A % 2)) ≠ FEE_EMPTY_WORD) :
    (LogEntry.byte A v).Covered c f := by
  rintro i rfl
  exact ⟨range, programmed⟩

theorem LogEntry.covered_word {w : Nat} (v : Nat) (even : w % 2 = 0) (range : w < c.FEE_DENSITY_BYTES)
    (programmed : f (c.FEE_COMPACTED_BASE_ADDRESS + w) ≠ FEE_EMPTY_WORD) :
    (LogEntry.word w v).Covered c f := by
  rintro i ⟨-, inside⟩
  have := c.density_even
  exact ⟨by omega, by rwa [show i - i % 2 = w by omega]⟩

end Stored

section Persist

variable {c : Config} {buf img : Memory} {d : Device}

/-- A snapshot word that is still erased takes the whole half-word directly. -/
theorem safe_direct_entry (buf : Memory) (stored : Stored c (d.flash c) d.empty_slot img)
    (complete : ∀ i, d.driver i = .FLASH_COMPLETE) (A : Nat) (even : (A &&& 0xFFFE) % 2 = 0)
    (range : (A &&& 0xFFFE) < c.FEE_DENSITY_BYTES)
    (erased : d.flash c (c.FEE_COMPACTED_BASE_ADDRESS + (A &&& 0xFFFE)) = FEE_EMPTY_WORD) :
    ∃ ops, d.Extends (eeprom_write_direct_entry c buf A d).2 ops ∧
      CrashSafe c (d.flash c) ops img (storeWord img (A &&& 0xFFFE) (wordAt buf (A &&& 0xFFFE)))
        (eeprom_write_direct_entry c buf A d).2.empty_slot := by
  by_cases zero : wordAt buf (A &&& 0xFFFE) = 0
  · obtain ⟨low, high⟩ := stored.zero_of_erased even range erased
    have same : storeWord img (A &&& 0xFFFE) 0 = img := by
      funext i
      rw [storeWord_apply]
      split_ifs with h1 h2
      · rw [h1, high]
        rfl
      · rw [h2, low]
        rfl
      · rfl
    rw [direct_entry_of_zero c buf d A erased zero, zero, same]
    exact ⟨_, .load d _ 2, .load stored rfl _ 2⟩
  · obtain ⟨-, slot, ext⟩ := direct_entry_of_erased c buf d complete A erased zero
    have complement : 0xFFFF - (UInt16.ofNat (0xFFFF - wordAt buf (A &&& 0xFFFE))).toNat =
        wordAt buf (A &&& 0xFFFE) := by
      rw [toNat_ofNat_uint16]
      have := wordAt_lt buf (A &&& 0xFFFE)
      omega
    have programmed := stored.program_snapshot even range erased
      (fun h => zero ((complement_eq_empty_iff (wordAt_lt _ _)).1 h))
    rw [complement] at programmed
    rw [slot]
    exact ⟨_, ext, .program stored erased (c.writable_snapshot range) programmed _ 2⟩

/-- A byte entry appended at the stop slot of a log with room. -/
theorem log_byte_entry_appended (buf : Memory) (stored : Stored c (d.flash c) d.empty_slot img)
    (complete : ∀ i, d.driver i = .FLASH_COMPLETE) {A : Nat} (byte : A < FEE_BYTE_RANGE)
    (range : A < c.FEE_DENSITY_BYTES)
    (programmed : d.flash c (c.FEE_COMPACTED_BASE_ADDRESS + (A - A % 2)) ≠ FEE_EMPTY_WORD)
    (room : d.empty_slot < c.FEE_WRITE_LOG_LAST_ADDRESS) :
    ∃ v, d.Extends (eeprom_write_log_byte_entry c buf A d).2
        [.unlock, .programHalfWord d.empty_slot v .FLASH_COMPLETE, .lock] ∧
      Stored c (Function.update (d.flash c) d.empty_slot v)
        (eeprom_write_log_byte_entry c buf A d).2.empty_slot ((LogEntry.byte A (buf A)).apply c img) := by
  obtain ⟨slot, ext⟩ := log_byte_entry_of_room c buf d complete A room
  have value : (A <<< 8) ||| (buf A).toNat < 65536 := by
    have := (buf A).toNat_lt_size
    simp only [FEE_BYTE_RANGE, UInt8.size] at byte this
    rw [byte_entry_eq]
    omega
  have entry : Slot.ofEntry (Function.update (d.flash c) d.empty_slot
      (UInt16.ofNat ((A <<< 8) ||| (buf A).toNat)) d.empty_slot).toNat = .byte A (buf A) := by
    rw [Function.update_same, toNat_ofNat_uint16, Nat.mod_eq_of_lt value, ofEntry_byte_entry _ byte]
  rw [slot]
  exact ⟨_, ext, stored.append room (fun n => decodeLog_of_byte _ n entry)
    (LogEntry.covered_byte _ range programmed)⟩

/-- A byte entry appended to a log with room, after the load of the direct path. -/
theorem safe_log_byte_entry (buf : Memory) (stored : Stored c (d.flash c) d.empty_slot img)
    (complete : ∀ i, d.driver i = .FLASH_COMPLETE) (p : Nat) {A : Nat} (byte : A < FEE_BYTE_RANGE)
    (range : A < c.FEE_DENSITY_BYTES)
    (programmed : d.flash c (c.FEE_COMPACTED_BASE_ADDRESS + (A - A % 2)) ≠ FEE_EMPTY_WORD)
    (room : d.empty_slot < c.FEE_WRITE_LOG_LAST_ADDRESS) :
    ∃ ops, d.Extends (eeprom_write_log_byte_entry c buf A (load p 2 d)).2 ops ∧
      CrashSafe c (d.flash c) ops img ((LogEntry.byte A (buf A)).apply c img)
        (eeprom_write_log_byte_entry c buf A (load p 2 d)).2.empty_slot := by
  rw [← flash_load c p 2 d] at stored programmed
  obtain ⟨v, ext, appended⟩ := log_byte_entry_appended buf stored complete byte range programmed room
  rw [flash_load] at stored appended
  exact ⟨_, (Device.Extends.load d p 2).trans ext,
    .program stored (stored.erased _ (Nat.le_refl _) room) (stored.writable (Nat.le_refl _) room) appended p 2⟩

/-- A Word-Encoded entry for a half-word holding 0 or 1, appended to a log with room. -/
theorem safe_log_word_encoded (stored : Stored c (d.flash c) d.empty_slot img)
    (complete : ∀ i, d.driver i = .FLASH_COMPLETE) (p : Nat) {w : Nat} (even : w % 2 = 0)
    (range : w < c.FEE_DENSITY_BYTES)
    (programmed : d.flash c (c.FEE_COMPACTED_BASE_ADDRESS + w) ≠ FEE_EMPTY_WORD)
    (small : wordAt buf w ≤ 1) (room : ¬ d.empty_slot > c.FEE_WRITE_LOG_LAST_ADDRESS - 2) :
    ∃ ops, d.Extends (eeprom_write_log_word_entry c buf w (load p 2 d)).2 ops ∧
      CrashSafe c (d.flash c) ops img ((LogEntry.word w (wordAt buf w)).apply c img)
        (eeprom_write_log_word_entry c buf w (load p 2 d)).2.empty_slot := by
  obtain ⟨slot, ext⟩ := log_word_entry_encoded c buf (load p 2 d) complete w small room
  have lt : w < 0x4000 := by have := c.density_le_address_max; omega
  have inside : d.empty_slot < c.FEE_WRITE_LOG_LAST_ADDRESS := by
    have := stored.first_le.trans stored.bounded
    simp only [Config.firstSlot] at this
    omega
  have value : (w >>> 1) ||| (FEE_WORD_ENCODING ||| wordAt buf w <<< 13) < 65536 := by
    rw [word_entry_eq small lt]
    omega
  have entry : Slot.ofEntry (Function.update (d.flash c) d.empty_slot
      (UInt16.ofNat ((w >>> 1) ||| (FEE_WORD_ENCODING ||| wordAt buf w <<< 13))) d.empty_slot).toNat =
        .word w (wordAt buf w) := by
    rw [Function.update_same, toNat_ofNat_uint16, Nat.mod_eq_of_lt value,
      ofEntry_word_entry small even lt]
  rw [slot]
  exact ⟨_, (Device.Extends.load d p 2).trans ext, .program stored (stored.erased _ (Nat.le_refl _) inside)
    (stored.writable (Nat.le_refl _) inside) (stored.append inside (fun n => decodeLog_of_word _ n entry)
      (LogEntry.covered_word _ even range programmed)) p 2⟩

/-- A Word-Next entry, primary word then value word, appended to a log with room for both. -/
theorem safe_log_word_next (stored : Stored c (d.flash c) d.empty_slot img)
    (complete : ∀ i, d.driver i = .FLASH_COMPLETE) (p : Nat) {w : Nat} (even : w % 2 = 0)
    (low : FEE_BYTE_RANGE ≤ w) (range : w < c.FEE_DENSITY_BYTES)
    (programmed : d.flash c (c.FEE_COMPACTED_BASE_ADDRESS + w) ≠ FEE_EMPTY_WORD)
    (large : ¬ wordAt buf w ≤ 1) (room : ¬ d.empty_slot > c.FEE_WRITE_LOG_LAST_ADDRESS - 4) :
    ∃ ops, d.Extends (eeprom_write_log_word_entry c buf w (load p 2 d)).2 ops ∧
      CrashSafe c (d.flash c) ops img ((LogEntry.word w (wordAt buf w)).apply c img)
        (eeprom_write_log_word_entry c buf w (load p 2 d)).2.empty_slot := by
  obtain ⟨slot, ext⟩ := log_word_entry_next c buf (load p 2 d) complete w large room
  have lt : w < 0x4000 := by have := c.density_le_address_max; omega
  have inside : d.empty_slot + 4 ≤ c.FEE_WRITE_LOG_LAST_ADDRESS := by
    have := stored.first_le.trans stored.bounded
    simp only [Config.firstSlot] at this
    omega
  have offset : (w + 0x10000 - FEE_BYTE_RANGE) % 0x10000 < 0x4000 := by
    simp only [FEE_BYTE_RANGE] at low ⊢
    omega
  have next : Slot.ofEntry (UInt16.ofNat ((((w + 0x10000 - FEE_BYTE_RANGE) % 0x10000) >>> 1) |||
      (FEE_WORD_ENCODING ||| FEE_VALUE_NEXT))).toNat = .next w := by
    rw [toNat_ofNat_uint16, Nat.mod_eq_of_lt (by rw [next_entry_eq offset]; omega),
      ofEntry_next_entry even low lt]
  have complement : 0xFFFF - (UInt16.ofNat (0xFFFF - wordAt buf w)).toNat = wordAt buf w := by
    rw [toNat_ofNat_uint16]
    have := wordAt_lt buf w
    omega
  have appended := stored.append_next inside next (by rw [complement]; omega)
    (by rw [complement]; exact LogEntry.covered_word _ even range programmed)
  rw [complement] at appended
  rw [slot]
  exact ⟨_, (Device.Extends.load d p 2).trans ext, .program_two stored
    (stored.erased _ (Nat.le_refl _) (by omega)) (stored.erased _ (by omega) (by omega)) (by omega)
    (stored.writable (Nat.le_refl _) (by omega)) (stored.writable (by omega) (by omega))
    (stored.append_torn inside next) appended p 2⟩

/-- The log entry whose replay has the effect of persisting `buf` at `Address`: the byte
below `FEE_BYTE_RANGE`, the whole half-word above it. -/
def persistedEntry (buf : Memory) (Address : Nat) : LogEntry :=
  if Address < FEE_BYTE_RANGE then .byte Address (buf Address)
  else .word (Address &&& 0xFFFE) (wordAt buf (Address &&& 0xFFFE))

/-- The whole half-word of `buf` written over `img` is `buf`, when `buf` is the persisted entry
replayed over `img`. -/
theorem image_storeWord_persisted {A : Nat} (range : A < c.FEE_DENSITY_BYTES)
    (image : c.image buf = c.image ((persistedEntry buf A).apply c img)) :
    c.image (storeWord img (A &&& 0xFFFE) (wordAt buf (A &&& 0xFFFE))) = c.image buf := by
  have even := c.density_even
  have word : A &&& 0xFFFE = A - A % 2 := and_fffe (by have := c.density_le_address_max; omega)
  refine (Config.image_eq_iff c _ _).2 fun i hi => ?_
  have outside := (Config.image_eq_iff c _ _).1 image i hi
  rw [storeWord_of_wordAt, Function.update_apply, Function.update_apply]
  split_ifs with h1 h2
  · rw [h1]
  · rw [h2]
  · rw [outside, persistedEntry]
    split
    · exact (Function.update_noteq (by omega) _ _).symm
    · simp only [LogEntry.apply, setDataWord, if_pos (show A &&& 0xFFFE < c.FEE_DENSITY_BYTES by omega)]
      exact (storeWord_of_ne _ _ h2 h1).symm

/-- On an erased snapshot word the direct path answers, and the cascade stops there. -/
theorem direct_entry_answers {A : Nat}
    (erased : d.flash c (c.FEE_COMPACTED_BASE_ADDRESS + (A &&& 0xFFFE)) = FEE_EMPTY_WORD) :
    (eeprom_write_direct_entry c buf A d).1 ≠ none := by
  simp only [eeprom_write_direct_entry, if_pos erased]
  split <;> simp

theorem persistByte_of_erased {A : Nat}
    (erased : d.flash c (c.FEE_COMPACTED_BASE_ADDRESS + (A &&& 0xFFFE)) = FEE_EMPTY_WORD) :
    persistByte c buf A d = eeprom_write_direct_entry c buf A d := by
  simp only [persistByte, if_neg (direct_entry_answers erased)]

theorem persistWord_of_erased {A : Nat} (oldValue : Nat) (DataWord : UInt16)
    (erased : d.flash c (c.FEE_COMPACTED_BASE_ADDRESS + (A &&& 0xFFFE)) = FEE_EMPTY_WORD) :
    persistWord c oldValue DataWord buf A d = eeprom_write_direct_entry c buf A d := by
  simp only [persistWord, if_neg (direct_entry_answers erased)]

/-- Persisting a byte that the image agrees with outside its half-word. -/
theorem persistByte_safe (stored : Stored c (d.flash c) d.empty_slot img)
    (complete : ∀ i, d.driver i = .FLASH_COMPLETE) {A : Nat} (range : A < c.FEE_DENSITY_BYTES)
    (image : c.image buf = c.image ((persistedEntry buf A).apply c img))
    (noCompaction : ∀ op ∈ (persistByte c buf A d).2.trace.drop d.trace.length, op.isErase = false) :
    ∃ ops, d.Extends (persistByte c buf A d).2 ops ∧
      CrashSafe c (d.flash c) ops img buf (persistByte c buf A d).2.empty_slot := by
  have even := c.density_even
  have word : A &&& 0xFFFE = A - A % 2 := and_fffe (by have := c.density_le_address_max; omega)
  by_cases erased : d.flash c (c.FEE_COMPACTED_BASE_ADDRESS + (A &&& 0xFFFE)) = FEE_EMPTY_WORD
  · obtain ⟨ops, ext, safe⟩ := safe_direct_entry buf stored complete A (by omega) (by omega) erased
    rw [persistByte_of_erased erased]
    exact ⟨ops, ext, safe.congr_new (image_storeWord_persisted range image)⟩
  have direct := direct_entry_of_programmed c buf d A erased
  have programmed : d.flash c (c.FEE_COMPACTED_BASE_ADDRESS + (A - A % 2)) ≠ FEE_EMPTY_WORD :=
    word ▸ erased
  by_cases byte : A < FEE_BYTE_RANGE
  · have persisted : persistByte c buf A d = eeprom_write_log_byte_entry c buf A
        (load (c.FEE_COMPACTED_BASE_ADDRESS + (A &&& 0xFFFE)) 2 d) := by
      simp only [persistByte, direct, if_true, if_pos byte]
    rw [persisted] at noCompaction ⊢
    obtain ⟨ops, ext, safe⟩ := safe_log_byte_entry buf stored complete _ byte range programmed
      (log_byte_entry_room c buf (load (c.FEE_COMPACTED_BASE_ADDRESS + (A &&& 0xFFFE)) 2 d) A stored.pages
        (NoErase.load noCompaction _ _))
    exact ⟨ops, ext, safe.congr_new (by rw [image, persistedEntry, if_pos byte])⟩
  · have persisted : persistByte c buf A d = eeprom_write_log_word_entry c buf (A &&& 0xFFFE)
        (load (c.FEE_COMPACTED_BASE_ADDRESS + (A &&& 0xFFFE)) 2 d) := by
      simp only [persistByte, direct, if_true, if_neg byte]
    have entry : c.image buf =
        c.image ((LogEntry.word (A &&& 0xFFFE) (wordAt buf (A &&& 0xFFFE))).apply c img) := by
      rw [image, persistedEntry, if_neg byte]
    rw [persisted] at noCompaction ⊢
    have room := log_word_entry_room c buf (load (c.FEE_COMPACTED_BASE_ADDRESS + (A &&& 0xFFFE)) 2 d) _
      stored.pages (NoErase.load noCompaction _ _)
    by_cases small : wordAt buf (A &&& 0xFFFE) ≤ 1
    · rw [if_pos small] at room
      obtain ⟨ops, ext, safe⟩ := safe_log_word_encoded stored complete _ (by omega) (by omega)
        erased small room
      exact ⟨ops, ext, safe.congr_new entry.symm⟩
    · rw [if_neg small] at room
      obtain ⟨ops, ext, safe⟩ := safe_log_word_next stored complete _ (by omega)
        (by simp only [FEE_BYTE_RANGE] at byte ⊢; omega) (by omega) erased small room
      exact ⟨ops, ext, safe.congr_new entry.symm⟩

theorem persistWord_eq_persistByte (buf : Memory) (d : Device) {A : Nat} (oldValue : Nat) (DataWord : UInt16) (even : A % 2 = 0)
    (low : FEE_BYTE_RANGE ≤ A) (range : A < 0x10000) :
    persistWord c oldValue DataWord buf A d = persistByte c buf A d := by
  have word : A &&& 0xFFFE = A := by rw [and_fffe range]; omega
  simp only [persistWord, persistByte, if_neg (Nat.not_lt.2 low), word]

/-- A byte write persists an entry that replays to the written image. -/
theorem persistedEntry_update {A : Nat} (X : Memory) (v : UInt8) (range : A < c.FEE_DENSITY_BYTES) :
    (persistedEntry (Function.update X A v) A).apply c X = Function.update X A v := by
  rw [persistedEntry]
  split
  · simp only [LogEntry.apply, Function.update_same]
  · have word : A &&& 0xFFFE = A - A % 2 := and_fffe (by have := c.density_le_address_max; omega)
    simp only [LogEntry.apply, setDataWord,
      if_pos (show A &&& 0xFFFE < c.FEE_DENSITY_BYTES by have := c.density_even; omega),
      storeWord_of_wordAt]
    funext i
    simp only [Function.update_apply]
    split_ifs <;> first | rfl | omega | (subst_vars; rfl)

/-- A word write at an even address above the byte range persists its whole half-word. -/
theorem persistedEntry_storeWord {A : Nat} (X : Memory) (v : UInt16) (even : A % 2 = 0)
    (low : FEE_BYTE_RANGE ≤ A) (range : A < c.FEE_DENSITY_BYTES) :
    (persistedEntry (storeWord X A v.toNat) A).apply c X = storeWord X A v.toNat := by
  have word : A &&& 0xFFFE = A := by
    rw [and_fffe (by have := c.density_le_address_max; omega)]
    omega
  simp only [persistedEntry, if_neg (Nat.not_lt.2 low), word, LogEntry.apply, setDataWord, if_pos range,
    wordAt_storeWord _ _ _ v.toNat_lt_size]

end Persist

section Writes

variable {c : Config} {m : Machine}

theorem writeDataByte_safe (inv : Inv c m) (complete : ∀ i, m.dev.driver i = .FLASH_COMPLETE)
    {A : Nat} (v : UInt8) (range : A < c.FEE_DENSITY_BYTES)
    (noCompaction : ∀ op ∈ (EEPROM_WriteDataByte c A v m).2.dev.trace.drop m.dev.trace.length,
      op.isErase = false) :
    ∃ ops, m.dev.Extends (EEPROM_WriteDataByte c A v m).2.dev ops ∧
      CrashSafe c (m.dev.flash c) ops m.DataBuf (EEPROM_WriteDataByte c A v m).2.DataBuf
        (EEPROM_WriteDataByte c A v m).2.dev.empty_slot := by
  by_cases same : m.DataBuf A = v
  · rw [writeDataByte_of_same range same]
    exact ⟨[], ⟨rfl, rfl, (List.append_nil _).symm⟩, .nil inv.stored⟩
  · rw [writeDataByte_of_ne range same] at noCompaction ⊢
    exact persistByte_safe inv.stored complete range (by rw [persistedEntry_update _ _ range])
      noCompaction

theorem writeDataWord_safe (inv : Inv c m) (complete : ∀ i, m.dev.driver i = .FLASH_COMPLETE)
    {A : Nat} (v : UInt16) (even : A % 2 = 0) (low : FEE_BYTE_RANGE ≤ A)
    (range : A < c.FEE_DENSITY_BYTES)
    (noCompaction : ∀ op ∈ (EEPROM_WriteDataWord c A v m).2.dev.trace.drop m.dev.trace.length,
      op.isErase = false) :
    ∃ ops, m.dev.Extends (EEPROM_WriteDataWord c A v m).2.dev ops ∧
      CrashSafe c (m.dev.flash c) ops m.DataBuf (EEPROM_WriteDataWord c A v m).2.DataBuf
        (EEPROM_WriteDataWord c A v m).2.dev.empty_slot := by
  by_cases same : wordAt m.DataBuf A = v.toNat
  · rw [writeDataWord_of_same range even same]
    exact ⟨[], ⟨rfl, rfl, (List.append_nil _).symm⟩, .nil inv.stored⟩
  · have persisted := persistWord_eq_persistByte (c := c) (storeWord m.DataBuf A v.toNat)
      m.dev (wordAt m.DataBuf A) v even low (by have := c.density_le_address_max; omega)
    rw [writeDataWord_of_ne range even same] at noCompaction ⊢
    dsimp only at noCompaction ⊢
    rw [persisted] at noCompaction ⊢
    exact persistByte_safe inv.stored complete range
      (by rw [persistedEntry_storeWord _ _ even low range]) noCompaction

/-- Every power-loss point of the step from `m` to `m'` boots, whatever the RAM, the driver
and the empty slot it starts from, to the image before the step or the image after it, in a
state with the invariant; and `m'` has the invariant. -/
structure CrashConsistent (c : Config) (m m' : Machine) : Prop where
  inv : Inv c m'
  reboot : ∀ k, m.dev.trace.length ≤ k →
    ∀ (buf : Memory) (driver : Nat → FLASH_Status) (empty_slot : Nat),
      let booted := (EEPROM_Init c ⟨buf, ⟨m'.dev.flashAt c k, [], driver, empty_slot⟩⟩).2
      (c.image booted.DataBuf = c.image m.DataBuf ∨ c.image booted.DataBuf = c.image m'.DataBuf) ∧
        Inv c booted

theorem CrashSafe.consistent {m' : Machine} {ops : List FlashOp} (ext : m.dev.Extends m'.dev ops)
    (safe : CrashSafe c (m.dev.flash c) ops m.DataBuf m'.DataBuf m'.dev.empty_slot) :
    CrashConsistent c m m' := by
  refine ⟨Stored.inv (by rw [ext.flash c]; exact safe.final), fun k after buf driver empty_slot => ?_⟩
  obtain ⟨s, img, stored, recovered⟩ := safe.prefixes (k - m.dev.trace.length)
  rw [← ext.flashAt c after] at stored
  obtain ⟨image, inv⟩ := stored.init ⟨buf, ⟨m'.dev.flashAt c k, [], driver, empty_slot⟩⟩ rfl
  exact ⟨by rw [image]; exact recovered, inv⟩

/-- Power loss during a write that persists through one direct snapshot write or one log
entry, from a state with the invariant and a driver that completes every call: after any
prefix of the write's flash operations, `EEPROM_Init` boots to the image before the write
or the one after it, and the booted state has the invariant again. -/
theorem single_entry_writes_crash_consistent (m : Machine) (inv : Inv c m)
    (complete : ∀ i, m.dev.driver i = .FLASH_COMPLETE) :
    (∀ (Address : Nat) (DataByte : UInt8), Address < c.FEE_DENSITY_BYTES →
      (∀ op ∈ (EEPROM_WriteDataByte c Address DataByte m).2.dev.trace.drop m.dev.trace.length,
        op.isErase = false) →
      CrashConsistent c m (EEPROM_WriteDataByte c Address DataByte m).2) ∧
    (∀ (Address : Nat) (DataWord : UInt16), Address % 2 = 0 → FEE_BYTE_RANGE ≤ Address →
      Address < c.FEE_DENSITY_BYTES →
      (∀ op ∈ (EEPROM_WriteDataWord c Address DataWord m).2.dev.trace.drop m.dev.trace.length,
        op.isErase = false) →
      CrashConsistent c m (EEPROM_WriteDataWord c Address DataWord m).2) := by
  refine ⟨fun A v range noCompaction => ?_, fun A v even low range noCompaction => ?_⟩
  · obtain ⟨ops, ext, safe⟩ := writeDataByte_safe inv complete v range noCompaction
    exact safe.consistent ext
  · obtain ⟨ops, ext, safe⟩ := writeDataWord_safe inv complete v even low range noCompaction
    exact safe.consistent ext

theorem single_entry_writes_crash_consistent_small :
    CrashConsistent Config.small (EEPROM_Erase Config.small Machine.erased)
      (EEPROM_WriteDataByte Config.small 1 5 (EEPROM_Erase Config.small Machine.erased)).2 :=
  (single_entry_writes_crash_consistent (EEPROM_Erase Config.small Machine.erased)
    ((eeprom_clear_stored Config.small Machine.erased.dev (fun _ => rfl) (by decide)).init
      ⟨Machine.erased.DataBuf, eeprom_clear Config.small Machine.erased.dev⟩ rfl).2
    (fun _ => rfl)).1 1 5 (by decide) (by decide)

end Writes

/-- A store of `Config.small` whose `empty_slot` lies one slot past the first erased slot of
its log: byte 0 holds 1 in the snapshot, the log holds the magic and no entry, and slot 8 is
erased while `empty_slot` is 10. -/
def Machine.hole : Machine :=
  ⟨fun a => if a = 0 then 1 else 0, ⟨fun a => if a = 0 then 0xFFFE else if a = 4 then 0x0FEE
    else if a = 6 then 0x2040 else 0xFFFF, [], fun _ => .FLASH_COMPLETE, 10⟩⟩

/-- Without the `slot` field the invariant is not kept: at `Machine.hole` the magic, the slot
bounds, the erased tail, the covered entries and the image all hold, but `EEPROM_Init` puts
the slot at 8. The byte write of 2 at address 0 persists as one log entry at slot 10 without
erasing, and the reboot after it has its empty slot at 8 with slot 10 programmed. -/
theorem hole_reboot_breaks_erased_tail :
    (readWord Config.small Config.small.FEE_WRITE_LOG_BASE_ADDRESS Machine.hole.dev = FEE_MAGIC_DWORD ∧
      Config.small.firstSlot ≤ Machine.hole.dev.empty_slot ∧
      Machine.hole.dev.empty_slot ≤ Config.small.FEE_WRITE_LOG_LAST_ADDRESS ∧
      (∀ a, Machine.hole.dev.empty_slot ≤ a → a < Config.small.FEE_WRITE_LOG_LAST_ADDRESS →
        Machine.hole.dev.flash Config.small a = FEE_EMPTY_WORD) ∧
      (∀ e ∈ (decodeLog (Machine.hole.dev.flash Config.small) Config.small.logSlots
        Config.small.firstSlot).1, e.Covered Config.small (Machine.hole.dev.flash Config.small)) ∧
      Config.small.image (EEPROM_Init Config.small Machine.hole).2.DataBuf =
        Config.small.image Machine.hole.DataBuf) ∧
    (EEPROM_Init Config.small Machine.hole).2.dev.empty_slot ≠ Machine.hole.dev.empty_slot ∧
    (∀ op ∈ (EEPROM_WriteDataByte Config.small 0 2 Machine.hole).2.dev.trace, op.isErase = false) ∧
    (EEPROM_Init Config.small (EEPROM_WriteDataByte Config.small 0 2 Machine.hole).2).2.dev.empty_slot = 8 ∧
    (EEPROM_Init Config.small (EEPROM_WriteDataByte Config.small 0 2 Machine.hole).2).2.dev.flash
      Config.small 10 ≠ FEE_EMPTY_WORD := by
  have empty : (decodeLog (Machine.hole.dev.flash Config.small) Config.small.logSlots
      Config.small.firstSlot).1 = [] := by decide
  refine ⟨⟨by decide, by decide, by decide, fun a low high => ?_, by simp [empty], by decide⟩,
    by decide, by decide, by decide, by decide⟩
  change 10 ≤ a at low
  change (if a = 0 then 0xFFFE else if a = 4 then 0x0FEE else if a = 6 then 0x2040 else 0xFFFF) = _
  rw [if_neg (by omega), if_neg (by omega), if_neg (by omega)]
  rfl

end PicoEeprom
