import PicoEeprom.Durability

/-! Runs that compact. `eeprom_compact` erases the region, programs the magic and rewrites
the snapshot from `DataBuf`, so with a driver that completes it leaves a flash that stores
the image with an empty log, whatever the flash held before; but it points `empty_slot` at
the magic. The engine is then in one of two ready states: the invariant, or the state a
compaction leaves. As long as every program hits an erased half-word, which is the NOR
discipline as the driver sees it, every write keeps the engine ready and every reboot
returns it to the invariant with the image; the one write that breaks the discipline is
the log append that lands on the magic. -/
namespace PicoEeprom

section Origin

variable (c : Config) (buf : Memory)

/-! No operation changes the flash a device started from. -/

@[simp] theorem initial_erasePages : ∀ (n page_num : Nat) (d : Device),
    (erasePages c n page_num d).initial = d.initial
  | 0, _, _ => rfl
  | n + 1, _, _ => initial_erasePages n _ _

@[simp] theorem initial_eeprom_clear (d : Device) : (eeprom_clear c d).initial = d.initial := by
  simp [eeprom_clear, FLASH_ProgramHalfWord, FLASH_Lock, FLASH_Unlock]

@[simp] theorem initial_compactLoop : ∀ (n src dest : Nat) (s : FLASH_Status) (d : Device),
    (compactLoop buf n src dest s d).2.initial = d.initial
  | 0, _, _, _, _ => rfl
  | n + 1, src, dest, s, d => by
    rw [compactLoop]
    split <;> simp [initial_compactLoop n, FLASH_ProgramHalfWord]

@[simp] theorem initial_eeprom_compact (d : Device) : (eeprom_compact c buf d).2.initial = d.initial := by
  simp [eeprom_compact, FLASH_Lock, FLASH_Unlock]

@[simp] theorem initial_direct_entry (A : Nat) (d : Device) :
    (eeprom_write_direct_entry c buf A d).2.initial = d.initial := by
  simp only [eeprom_write_direct_entry]
  split_ifs <;> simp [load, FLASH_ProgramHalfWord, FLASH_Lock, FLASH_Unlock]

@[simp] theorem initial_log_byte_entry (A : Nat) (d : Device) :
    (eeprom_write_log_byte_entry c buf A d).2.initial = d.initial := by
  simp only [eeprom_write_log_byte_entry]
  split_ifs <;> simp [FLASH_ProgramHalfWord, FLASH_Lock, FLASH_Unlock]

/-- Either branch of a step that answers a status and a device. -/
theorem initial_ite {α : Type} {p : Prop} [Decidable p] {x y : α × Device} {f : Flash}
    (hx : p → x.2.initial = f) (hy : ¬p → y.2.initial = f) : (if p then x else y).2.initial = f := by
  split
  exacts [hx ‹_›, hy ‹_›]

@[simp] theorem initial_log_word_entry (A : Nat) (d : Device) :
    (eeprom_write_log_word_entry c buf A d).2.initial = d.initial := by
  unfold eeprom_write_log_word_entry
  refine initial_ite (fun _ => initial_eeprom_compact c buf d) fun _ => ?_
  simp only [FLASH_Lock, Device.initial_record]
  exact initial_ite (fun _ => rfl) fun _ => rfl

@[simp] theorem initial_persistByte (A : Nat) (d : Device) : (persistByte c buf A d).2.initial = d.initial := by
  simp only [persistByte]
  split_ifs <;> simp

theorem initial_byte_step (changed : Prop) [Decidable changed] (A : Nat) (d : Device) :
    (if changed then eeprom_write_log_byte_entry c buf A d else (some .FLASH_COMPLETE, d)).2.initial =
      d.initial :=
  initial_ite (fun _ => initial_log_byte_entry c buf A d) fun _ => rfl

@[simp] theorem initial_persistWord (oldValue : Nat) (DataWord : UInt16) (A : Nat) (d : Device) :
    (persistWord c oldValue DataWord buf A d).2.initial = d.initial := by
  unfold persistWord
  dsimp only
  exact initial_ite (fun _ => initial_ite
      (fun _ => (initial_byte_step c buf _ _ _).trans ((initial_byte_step c buf _ _ _).trans (initial_direct_entry c buf A d)))
      fun _ => (initial_log_word_entry c buf A _).trans (initial_direct_entry c buf A d))
    fun _ => initial_direct_entry c buf A d

@[simp] theorem initial_EEPROM_Init (m : Machine) : (EEPROM_Init c m).2.dev.initial = m.dev.initial := by
  simp only [EEPROM_Init]
  generalize hL : loadCompacted c (c.FEE_DENSITY_BYTES / 2) c.FEE_COMPACTED_BASE_ADDRESS 0
    m.DataBuf m.dev = L
  obtain ⟨-, loads⟩ := hL ▸ loadCompacted_spec c (c.FEE_DENSITY_BYTES / 2)
    c.FEE_COMPACTED_BASE_ADDRESS 0 m.DataBuf m.dev
  refine (replayWriteLog_spec c c.logSlots c.firstSlot L.1 _).2.2.initial.trans ?_
  split <;> simp [load, loads.initial]

end Origin

section Compaction

variable {c : Config} (buf : Memory)

/-- The rewrite loop over erased snapshot words: each non-zero word of `buf` is programmed
as its complement into an erased word, so the store keeps its log and picks up the image
word by word; a zero word stays erased and loads as zero. -/
theorem compactLoop_stored {s : Nat} : ∀ (n src : Nat) (final_status : FLASH_Status) (d : Device)
    (img : Memory), Stored c (d.flash c) s img → (∀ i, d.driver i = .FLASH_COMPLETE) → src % 2 = 0 →
    src + 2 * n = c.FEE_DENSITY_BYTES →
    (∀ w, src ≤ w → w < c.FEE_DENSITY_BYTES → d.flash c (c.FEE_COMPACTED_BASE_ADDRESS + w) = FEE_EMPTY_WORD) →
    (∀ i < src, img i = buf i) →
    Stored c ((compactLoop buf n src (c.FEE_COMPACTED_BASE_ADDRESS + src) final_status d).2.flash c) s buf
  | 0, src, _, d, img, stored, _, _, whole, _, agree =>
    stored.congr ((Config.image_eq_iff c _ _).2 fun i hi => agree i (by omega))
  | n + 1, src, final_status, d, img, stored, complete, even, whole, erased, agree => by
    have here := erased src (Nat.le_refl _) (by omega)
    have next : c.FEE_COMPACTED_BASE_ADDRESS + src + 2 = c.FEE_COMPACTED_BASE_ADDRESS + (src + 2) := by omega
    rw [compactLoop]
    split
    · rename_i nonzero
      have lt := wordAt_lt buf src
      have programmed := stored.program_snapshot even (by omega) here
        ((complement_eq_empty_iff lt).not.2 nonzero)
      rw [toNat_ofNat_uint16, show (0xFFFF - wordAt buf src) % 65536 = 0xFFFF - wordAt buf src by omega,
        show 0xFFFF - (0xFFFF - wordAt buf src) = wordAt buf src by omega, storeWord_of_wordAt] at programmed
      rw [next]
      refine compactLoop_stored n (src + 2) _ _
        (Function.update (Function.update img src (buf src)) (src + 1) (buf (src + 1))) ?_
        (by simpa [FLASH_ProgramHalfWord] using complete)
        (by omega) (by omega) (fun w above range => ?_) (fun i below => ?_)
      · simpa [FLASH_ProgramHalfWord, complete, FlashOp.apply_program_erased _ here] using programmed
      · simp only [FLASH_ProgramHalfWord, Device.flash_record]
        rw [FlashOp.apply_program_of_ne _ _ _ _
          (show c.FEE_COMPACTED_BASE_ADDRESS + w ≠ c.FEE_COMPACTED_BASE_ADDRESS + src by omega)]
        exact erased w (by omega) range
      · simp only [Function.update_apply]
        split_ifs with h1 h2
        · rw [h1]
        · rw [h2]
        · exact agree i (by omega)
    · rename_i zero
      obtain ⟨low, high⟩ := (wordAt_eq_zero_iff buf src).1 (not_not.1 zero)
      obtain ⟨low', high'⟩ := stored.zero_of_erased even (by omega) here
      rw [next]
      refine compactLoop_stored n (src + 2) _ d img stored complete (by omega) (by omega)
        (fun w above range => erased w (by omega) range) (fun i below => ?_)
      rcases (show i < src ∨ i = src ∨ i = src + 1 by omega) with h | rfl | rfl
      · exact agree i h
      · rw [low, low']
      · rw [high, high']

/-- `eeprom_clear` leaves every snapshot word erased. -/
theorem eeprom_clear_snapshot_erased (d : Device) {w : Nat} (range : w < c.FEE_DENSITY_BYTES) :
    (eeprom_clear c d).flash c (c.FEE_COMPACTED_BASE_ADDRESS + w) = FEE_EMPTY_WORD := by
  have inside := c.density_le_max
  have logBase : c.FEE_WRITE_LOG_BASE_ADDRESS = c.FEE_COMPACTED_BASE_ADDRESS + c.FEE_DENSITY_BYTES := rfl
  rw [flash_eeprom_clear_of_ne c d (by omega) (by omega), if_pos]
  · rfl
  · simp only [Config.regionEnd, Config.FEE_DENSITY_MAX_SIZE, Config.FEE_COMPACTED_BASE_ADDRESS]
    omega

/-- With a driver that completes, a compaction leaves a flash that stores `buf` with an
empty log, whatever the flash held before. -/
theorem eeprom_compact_stored (d : Device) (complete : ∀ i, d.driver i = .FLASH_COMPLETE)
    (room : 4 ≤ c.FEE_WRITE_LOG_BYTES) :
    Stored c ((eeprom_compact c buf d).2.flash c) c.firstSlot buf := by
  have cleared := eeprom_clear_stored c d complete room
  have whole := two_mul_half_density c
  have loop := compactLoop_stored buf (c.FEE_DENSITY_BYTES / 2) 0 .FLASH_COMPLETE
    (FLASH_Unlock (eeprom_clear c d)) (fun _ => 0) (by rwa [flash_unlock])
    (by simpa using (eeprom_clear_appends (c := c) d).2 ▸ complete) rfl (by omega)
    (fun w _ range => by rw [flash_unlock]; exact eeprom_clear_snapshot_erased d range)
    (fun _ h => absurd h (Nat.not_lt_zero _))
  rw [Nat.add_zero] at loop
  simpa only [eeprom_compact, flash_lock] using loop

theorem driver_eeprom_compact (d : Device) : (eeprom_compact c buf d).2.driver = d.driver := by
  simp only [eeprom_compact, driver_lock, (compactLoop_frame c buf _ _ _ _ _).2.1, driver_unlock,
    (eeprom_clear_appends d).2]

end Compaction

section Discipline

variable (c : Config)

/-- A program hits an erased half-word of `f`; every other operation passes. -/
def FlashOp.onErased (f : Flash) : FlashOp → Bool
  | .programHalfWord addr _ _ => f addr == FEE_EMPTY_WORD
  | _ => true

/-- Run from `f`, every program among `ops` hits a half-word that is erased at that point:
the NOR discipline, as the driver sees it. -/
def programsOnErased : Flash → List FlashOp → Bool
  | _, [] => true
  | f, op :: ops => op.onErased f && programsOnErased (op.apply c f) ops

/-- From `d` to `d'` every program hits an erased half-word. -/
def OnErased (d d' : Device) : Prop := programsOnErased c (d.flash c) (d'.trace.drop d.trace.length) = true

instance (d d' : Device) : Decidable (OnErased c d d') :=
  inferInstanceAs (Decidable (programsOnErased c _ _ = true))

theorem programsOnErased_append (f : Flash) : ∀ ops ops' : List FlashOp,
    programsOnErased c f (ops ++ ops') =
      (programsOnErased c f ops && programsOnErased c (ops.foldl (fun f op => op.apply c f) f) ops')
  | [], _ => by simp [programsOnErased]
  | op :: ops, ops' => by
    simp [programsOnErased, programsOnErased_append _ ops ops', Bool.and_assoc]

namespace OnErased

variable {c} {d d' d'' : Device}

theorem refl (d : Device) : OnErased c d d := by
  unfold OnErased
  rw [List.drop_length]
  rfl

theorem append_iff (first : d.trace <+: d'.trace) (initial : d'.initial = d.initial)
    (second : d'.trace <+: d''.trace) : OnErased c d d'' ↔ OnErased c d d' ∧ OnErased c d' d'' := by
  obtain ⟨ops, t₁⟩ := first
  obtain ⟨ops', t₂⟩ := second
  have flash : d'.flash c = ops.foldl (fun f op => op.apply c f) (d.flash c) := by
    simp only [Device.flash, ← t₁, initial, List.foldl_append]
  unfold OnErased
  rw [← t₂, List.drop_left, ← t₁, List.append_assoc, List.drop_left, List.drop_left,
    programsOnErased_append, Bool.and_eq_true, flash]

theorem split (first : d.trace <+: d'.trace) (initial : d'.initial = d.initial)
    (second : d'.trace <+: d''.trace) (h : OnErased c d d'') : OnErased c d d' ∧ OnErased c d' d'' :=
  (append_iff first initial second).1 h

theorem trans (h : OnErased c d d') (first : d.trace <+: d'.trace) (initial : d'.initial = d.initial)
    (second : d'.trace <+: d''.trace) (h' : OnErased c d' d'') : OnErased c d d'' :=
  (append_iff first initial second).2 ⟨h, h'⟩

/-- One more operation keeps the discipline when it hits an erased half-word, if a program. -/
theorem record {op : FlashOp} (ok : op.onErased (d.flash c) = true) : OnErased c d (d.record op) := by
  unfold OnErased
  simp [Device.record, programsOnErased, ok]

/-- The discipline over an extension whose first program follows an unlock: the half-word it
programs is erased in `d`. -/
theorem program {a : Nat} {v : UInt16} {status : FLASH_Status} {rest : List FlashOp}
    (ext : d.Extends d' (.unlock :: .programHalfWord a v status :: rest)) (h : OnErased c d d') :
    d.flash c a = FEE_EMPTY_WORD := by
  unfold OnErased at h
  rw [ext.trace, List.drop_left] at h
  simp only [programsOnErased, FlashOp.onErased, FlashOp.apply_unlock, Bool.true_and, Bool.and_eq_true,
    beq_iff_eq] at h
  exact h.1

end OnErased

end Discipline

section CompactDiscipline

variable {c : Config} {d d' d'' : Device}

/-- `d'` extends `d` over the same flash, every program on the way hitting an erased half-word. -/
structure Device.ExtendsOnErased (c : Config) (d d' : Device) : Prop where
  appends : d.trace <+: d'.trace
  initial : d'.initial = d.initial
  onErased : OnErased c d d'

theorem Device.ExtendsOnErased.trans (h : d.ExtendsOnErased c d') (h' : d'.ExtendsOnErased c d'') :
    d.ExtendsOnErased c d'' :=
  ⟨h.appends.trans h'.appends, h'.initial.trans h.initial,
    h.onErased.trans h.appends h.initial h'.appends h'.onErased⟩

theorem Device.ExtendsOnErased.record {op : FlashOp} (ok : op.onErased (d.flash c) = true) :
    d.ExtendsOnErased c (d.record op) :=
  ⟨⟨_, rfl⟩, rfl, OnErased.record ok⟩

theorem erasePages_onErased : ∀ (n page_num : Nat) (d : Device),
    d.ExtendsOnErased c (erasePages c n page_num d)
  | 0, _, d => ⟨List.prefix_refl _, rfl, .refl d⟩
  | n + 1, page_num, d =>
    have first : d.ExtendsOnErased c (FLASH_ErasePage (c.FEE_PAGE_BASE_ADDRESS + page_num * c.FEE_PAGE_SIZE) d) :=
      .record rfl
    first.trans (erasePages_onErased n (page_num + 1) _)

/-- The rewrite loop programs each snapshot word once, from `dest` up: over erased words it
keeps the discipline. -/
theorem compactLoop_onErased (buf : Memory) : ∀ (n src dest : Nat) (s : FLASH_Status) (d : Device),
    (∀ k < n, d.flash c (dest + 2 * k) = FEE_EMPTY_WORD) →
    d.ExtendsOnErased c (compactLoop buf n src dest s d).2
  | 0, _, _, _, d, _ => ⟨List.prefix_refl _, rfl, .refl d⟩
  | n + 1, src, dest, s, d, erased => by
    have above : ∀ k < n, dest + 2 + 2 * k ≠ dest ∧ dest + 2 + 2 * k = dest + 2 * (k + 1) := fun k _ =>
      ⟨by omega, by omega⟩
    rw [compactLoop]
    split
    · have first : d.ExtendsOnErased c (FLASH_ProgramHalfWord dest (UInt16.ofNat (0xFFFF - wordAt buf src)) d).2 :=
        .record (by simpa [FlashOp.onErased] using erased 0 (by omega))
      refine first.trans (compactLoop_onErased buf n (src + 2) (dest + 2) _ _ fun k hk => ?_)
      simp only [FLASH_ProgramHalfWord, Device.flash_record]
      rw [FlashOp.apply_program_of_ne _ _ _ _ (above k hk).1, (above k hk).2]
      exact erased (k + 1) (by omega)
    · exact compactLoop_onErased buf n (src + 2) (dest + 2) s d fun k hk => by
        rw [(above k hk).2]
        exact erased (k + 1) (by omega)

/-- `eeprom_clear` programs the two half-words of the magic after its erases. -/
theorem eeprom_clear_onErased (d : Device) (room : 4 ≤ c.FEE_WRITE_LOG_BYTES) :
    d.ExtendsOnErased c (eeprom_clear c d) := by
  set e := erasePages c c.FEE_PAGE_COUNT 0 (FLASH_Unlock d)
  have erased : ∀ a, a = c.FEE_WRITE_LOG_BASE_ADDRESS ∨ a = c.FEE_WRITE_LOG_BASE_ADDRESS + 2 →
      e.flash c a = FEE_EMPTY_WORD := fun _ magic => erasePages_magic_erased c d room magic
  set p₁ := (FLASH_ProgramHalfWord c.FEE_WRITE_LOG_BASE_ADDRESS (UInt16.ofNat (FEE_MAGIC_DWORD &&& 0xffff)) e).2
  set p₂ := (FLASH_ProgramHalfWord (c.FEE_WRITE_LOG_BASE_ADDRESS + 2) (UInt16.ofNat (FEE_MAGIC_DWORD >>> 16)) p₁).2
  have unlocked : d.ExtendsOnErased c (FLASH_Unlock d) := .record rfl
  have low : e.ExtendsOnErased c p₁ := .record (by
    simp only [FlashOp.onErased, beq_iff_eq]
    exact erased _ (.inl rfl))
  have high : p₁.ExtendsOnErased c p₂ := .record (by
    simp only [FlashOp.onErased, beq_iff_eq, p₁, FLASH_ProgramHalfWord, Device.flash_record]
    rw [FlashOp.apply_program_of_ne _ _ _ _ (by omega)]
    exact erased _ (.inr rfl))
  have locked : p₂.ExtendsOnErased c (FLASH_Lock p₂) := .record rfl
  have chain := unlocked.trans ((erasePages_onErased _ _ _).trans (low.trans (high.trans locked)))
  exact ⟨chain.appends, chain.initial, chain.onErased⟩

/-- A compaction keeps the NOR discipline: it erases first, then programs the magic and the
complement of every non-zero image word, each into an erased half-word. -/
theorem eeprom_compact_onErased (buf : Memory) (d : Device) (room : 4 ≤ c.FEE_WRITE_LOG_BYTES) :
    d.ExtendsOnErased c (eeprom_compact c buf d).2 := by
  have whole := two_mul_half_density c
  have unlocked : (eeprom_clear c d).ExtendsOnErased c (FLASH_Unlock (eeprom_clear c d)) := .record rfl
  have rewritten := compactLoop_onErased buf (c.FEE_DENSITY_BYTES / 2) 0 c.FEE_COMPACTED_BASE_ADDRESS
    .FLASH_COMPLETE (FLASH_Unlock (eeprom_clear c d)) fun k _ => by
      rw [flash_unlock]
      exact eeprom_clear_snapshot_erased d (by omega)
  have locked : (compactLoop buf (c.FEE_DENSITY_BYTES / 2) 0 c.FEE_COMPACTED_BASE_ADDRESS .FLASH_COMPLETE
      (FLASH_Unlock (eeprom_clear c d))).2.ExtendsOnErased c (FLASH_Lock (compactLoop buf
        (c.FEE_DENSITY_BYTES / 2) 0 c.FEE_COMPACTED_BASE_ADDRESS .FLASH_COMPLETE
        (FLASH_Unlock (eeprom_clear c d))).2) := .record rfl
  exact (eeprom_clear_onErased d room).trans (unlocked.trans (rewritten.trans locked))

theorem programsOnErased_of_programsErased : ∀ (f : Flash) (ops : List FlashOp),
    ProgramsErased c f ops → programsOnErased c f ops = true
  | _, [], _ => rfl
  | f, op :: ops, h => by
    simp only [programsOnErased, Bool.and_eq_true]
    refine ⟨?_, programsOnErased_of_programsErased _ ops fun j addr value status hj =>
      h (j + 1) addr value status (by rw [List.getElem?_cons_succ]; exact hj)⟩
    cases op with
    | programHalfWord a v s => simpa [FlashOp.onErased] using (h 0 a v s List.getElem?_cons_zero).1
    | _ => rfl

/-- A crash-safe write keeps the discipline. -/
theorem OnErased.of_safe {ops : List FlashOp} {old new : Memory} {s : Nat} (ext : d.Extends d' ops)
    (safe : CrashSafe c (d.flash c) ops old new s) : OnErased c d d' := by
  unfold OnErased
  rw [ext.trace, List.drop_left]
  exact programsOnErased_of_programsErased _ _ safe.programs

end CompactDiscipline

section Ready

variable {c : Config}

/-- The engine's ready states: the flash stores the image with `empty_slot` at the stop slot
of the log, which is the invariant, or a compaction has just run, so the flash stores the
image with an empty log while `empty_slot` still points at the magic. -/
inductive Ready (c : Config) (d : Device) (img : Memory) : Prop
  | steady (stored : Stored c (d.flash c) d.empty_slot img)
  | compacted (stored : Stored c (d.flash c) c.firstSlot img)
      (slot : d.empty_slot = c.FEE_WRITE_LOG_BASE_ADDRESS)

theorem Ready.stored {d : Device} {img : Memory} (ready : Ready c d img) :
    ∃ s, Stored c (d.flash c) s img := by
  cases ready with
  | steady stored => exact ⟨_, stored⟩
  | compacted stored _ => exact ⟨_, stored⟩

/-- A reboot from a ready state reproduces the image and restores the invariant. -/
theorem Ready.init {m : Machine} (ready : Ready c m.dev m.DataBuf) :
    c.image (EEPROM_Init c m).2.DataBuf = c.image m.DataBuf ∧ Inv c (EEPROM_Init c m).2 :=
  let ⟨_, stored⟩ := ready.stored
  stored.init m rfl

/-- With a driver that completes, a compaction leaves the compacted ready state. -/
theorem eeprom_compact_ready (buf : Memory) (d : Device) (complete : ∀ i, d.driver i = .FLASH_COMPLETE)
    (room : 4 ≤ c.FEE_WRITE_LOG_BYTES) : Ready c (eeprom_compact c buf d).2 buf :=
  .compacted (eeprom_compact_stored buf d complete room) (empty_slot_eeprom_compact c buf d)

/-- The magic's low half-word is programmed. -/
theorem Stored.magic_programmed {f : Flash} {s : Nat} {img : Memory} (stored : Stored c f s img) :
    f c.FEE_WRITE_LOG_BASE_ADDRESS ≠ FEE_EMPTY_WORD := fun erased => by
  have magic := stored.magic
  rw [erased, show FEE_EMPTY_WORD.toNat = 65535 from rfl] at magic
  simp only [FEE_MAGIC_DWORD] at magic
  omega

theorem Stored.room {f : Flash} {s : Nat} {img : Memory} (stored : Stored c f s img) :
    4 ≤ c.FEE_WRITE_LOG_BYTES := by
  have := stored.first_le.trans stored.bounded
  simp only [Config.firstSlot, Config.FEE_WRITE_LOG_LAST_ADDRESS] at this
  omega

end Ready

section Paths

variable {c : Config} {buf img : Memory} {d : Device}

theorem NoErase.of_extends {d' : Device} {ops : List FlashOp} (ext : d.Extends d' ops)
    (none : ∀ op ∈ ops, op.isErase = false) : NoErase d d' := by
  unfold NoErase
  rw [ext.trace, List.drop_left]
  exact none

@[simp] theorem empty_slot_direct_entry (A : Nat) :
    (eeprom_write_direct_entry c buf A d).2.empty_slot = d.empty_slot := by
  simp only [eeprom_write_direct_entry]
  split_ifs <;> rfl

@[simp] theorem driver_direct_entry (A : Nat) :
    (eeprom_write_direct_entry c buf A d).2.driver = d.driver := by
  simp only [eeprom_write_direct_entry]
  split_ifs <;> rfl

/-- The direct path never reads `empty_slot`. -/
theorem direct_entry_with_slot (A s : Nat) :
    (eeprom_write_direct_entry c buf A { d with empty_slot := s }).2 =
      { (eeprom_write_direct_entry c buf A d).2 with empty_slot := s } := by
  simp only [eeprom_write_direct_entry, Device.flash_with_slot]
  split_ifs <;> rfl

/-- The direct path on an erased snapshot word, whatever the stop slot of the log. -/
theorem direct_entry_stored {s : Nat} (stored : Stored c (d.flash c) s img)
    (complete : ∀ i, d.driver i = .FLASH_COMPLETE) (A : Nat) (even : (A &&& 0xFFFE) % 2 = 0)
    (range : (A &&& 0xFFFE) < c.FEE_DENSITY_BYTES)
    (erased : d.flash c (c.FEE_COMPACTED_BASE_ADDRESS + (A &&& 0xFFFE)) = FEE_EMPTY_WORD) :
    Stored c ((eeprom_write_direct_entry c buf A d).2.flash c) s
      (storeWord img (A &&& 0xFFFE) (wordAt buf (A &&& 0xFFFE))) := by
  obtain ⟨ops, ext, safe⟩ := safe_direct_entry (d := { d with empty_slot := s }) buf stored complete A
    even range erased
  have final := ext.flash c ▸ safe.final
  simpa only [direct_entry_with_slot, Device.flash_with_slot] using final

/-- A byte entry appended at a programmed slot breaks the discipline. -/
theorem log_byte_entry_breaks (complete : ∀ i, d.driver i = .FLASH_COMPLETE) (A : Nat)
    (programmed : d.flash c d.empty_slot ≠ FEE_EMPTY_WORD) (room : d.empty_slot < c.FEE_WRITE_LOG_LAST_ADDRESS) :
    ¬ OnErased c d (eeprom_write_log_byte_entry c buf A d).2 := fun h =>
  programmed (OnErased.program (log_byte_entry_of_room c buf d complete A room).2 h)

/-- So does a word entry. -/
theorem log_word_entry_breaks (complete : ∀ i, d.driver i = .FLASH_COMPLETE) (A : Nat)
    (programmed : d.flash c d.empty_slot ≠ FEE_EMPTY_WORD)
    (room : d.empty_slot + 4 ≤ c.FEE_WRITE_LOG_LAST_ADDRESS) :
    ¬ OnErased c d (eeprom_write_log_word_entry c buf A d).2 := fun h => by
  by_cases small : wordAt buf A ≤ 1
  · exact programmed (OnErased.program (log_word_entry_encoded c buf d complete A small (by omega)).2 h)
  · exact programmed (OnErased.program (log_word_entry_next c buf d complete A small (by omega)).2 h)

/-- A byte entry erases only when the log is full and it compacts. -/
theorem log_byte_entry_compacts (complete : ∀ i, d.driver i = .FLASH_COMPLETE) (A : Nat)
    (erases : ¬ NoErase d (eeprom_write_log_byte_entry c buf A d).2) :
    eeprom_write_log_byte_entry c buf A d = eeprom_compact c buf d := by
  by_cases room : d.empty_slot < c.FEE_WRITE_LOG_LAST_ADDRESS
  · exact absurd (NoErase.of_extends (log_byte_entry_of_room c buf d complete A room).2
      (by simp [FlashOp.isErase])) erases
  · simp only [eeprom_write_log_byte_entry, if_pos (Nat.not_lt.1 room)]

/-- So does a word entry. -/
theorem log_word_entry_compacts (complete : ∀ i, d.driver i = .FLASH_COMPLETE) (A : Nat)
    (erases : ¬ NoErase d (eeprom_write_log_word_entry c buf A d).2) :
    eeprom_write_log_word_entry c buf A d = eeprom_compact c buf d := by
  by_cases small : wordAt buf A ≤ 1
  · by_cases room : d.empty_slot > c.FEE_WRITE_LOG_LAST_ADDRESS - 2
    · simp only [eeprom_write_log_word_entry, if_pos small, if_pos room]
    · exact absurd (NoErase.of_extends (log_word_entry_encoded c buf d complete A small room).2
        (by simp [FlashOp.isErase])) erases
  · by_cases room : d.empty_slot > c.FEE_WRITE_LOG_LAST_ADDRESS - 4
    · simp only [eeprom_write_log_word_entry, if_neg small, if_pos room]
    · exact absurd (NoErase.of_extends (log_word_entry_next c buf d complete A small room).2
        (by simp [FlashOp.isErase])) erases

theorem NoErase.trans {d' d'' : Device} (first : NoErase d d') (second : NoErase d' d'')
    (appends : d.trace <+: d'.trace) (appends' : d'.trace <+: d''.trace) : NoErase d d'' := by
  obtain ⟨ops, t₁⟩ := appends
  obtain ⟨ops', t₂⟩ := appends'
  unfold NoErase at first second ⊢
  rw [← t₁, List.drop_left] at first
  rw [← t₂, List.drop_left] at second
  rw [← t₂, ← t₁, List.append_assoc, List.drop_left]
  intro op mem
  rcases List.mem_append.1 mem with h | h
  exacts [first op h, second op h]

theorem direct_entry_noErase (A : Nat) : NoErase d (eeprom_write_direct_entry c buf A d).2 := by
  unfold NoErase
  simp only [eeprom_write_direct_entry]
  split_ifs <;> simp [load, FLASH_ProgramHalfWord, FLASH_Lock, FLASH_Unlock, FlashOp.isErase]

@[simp] theorem driver_log_byte_entry (A : Nat) :
    (eeprom_write_log_byte_entry c buf A d).2.driver = d.driver := by
  simp only [eeprom_write_log_byte_entry]
  split_ifs
  · exact driver_eeprom_compact buf d
  · rfl

/-- A persisted byte erases only when its log entry compacts. -/
theorem persistByte_compacts (complete : ∀ i, d.driver i = .FLASH_COMPLETE) (A : Nat)
    (pages : 0 < c.FEE_PAGE_COUNT) (erases : ¬ NoErase d (persistByte c buf A d).2) :
    (persistByte c buf A d).2 =
      (eeprom_compact c buf (load (c.FEE_COMPACTED_BASE_ADDRESS + (A &&& 0xFFFE)) 2 d)).2 := by
  have read := Device.Extends.load d (c.FEE_COMPACTED_BASE_ADDRESS + (A &&& 0xFFFE)) 2
  by_cases erased : d.flash c (c.FEE_COMPACTED_BASE_ADDRESS + (A &&& 0xFFFE)) = FEE_EMPTY_WORD
  · exact absurd (persistByte_of_erased erased ▸ direct_entry_noErase A) erases
  have loaded : ∀ d' : Device, (load (c.FEE_COMPACTED_BASE_ADDRESS + (A &&& 0xFFFE)) 2 d).trace <+: d'.trace →
      ¬ NoErase d d' → ¬ NoErase (load (c.FEE_COMPACTED_BASE_ADDRESS + (A &&& 0xFFFE)) 2 d) d' :=
    fun d' appends erases h => erases
      ((NoErase.of_extends read (by simp [FlashOp.isErase])).trans h ⟨_, read.trace.symm⟩ appends)
  simp only [persistByte, direct_entry_of_programmed c buf d A erased, if_true] at erases ⊢
  by_cases byte : A < FEE_BYTE_RANGE
  · simp only [if_pos byte] at erases ⊢
    rw [log_byte_entry_compacts (d := load (c.FEE_COMPACTED_BASE_ADDRESS + (A &&& 0xFFFE)) 2 d) complete A
      (loaded _ (log_byte_entry_reports c buf _ A pages).appends erases)]
  · simp only [if_neg byte] at erases ⊢
    rw [log_word_entry_compacts (d := load (c.FEE_COMPACTED_BASE_ADDRESS + (A &&& 0xFFFE)) 2 d) complete _
      (loaded _ (log_word_entry_reports c buf _ _ pages).appends erases)]

end Paths

section Persist

variable {c : Config} {buf img : Memory} {d : Device}

theorem Ready.congr {img' : Memory} (ready : Ready c d img) (same : c.image img = c.image img') :
    Ready c d img' := by
  cases ready with
  | steady stored => exact .steady (stored.congr same)
  | compacted stored slot => exact .compacted (stored.congr same) slot

/-- The direct path keeps `empty_slot`, so it keeps the engine in the ready state it found. -/
theorem Ready.direct_entry (ready : Ready c d img) (complete : ∀ i, d.driver i = .FLASH_COMPLETE)
    (A : Nat) (even : (A &&& 0xFFFE) % 2 = 0) (range : (A &&& 0xFFFE) < c.FEE_DENSITY_BYTES)
    (erased : d.flash c (c.FEE_COMPACTED_BASE_ADDRESS + (A &&& 0xFFFE)) = FEE_EMPTY_WORD) :
    Ready c (eeprom_write_direct_entry c buf A d).2
      (storeWord img (A &&& 0xFFFE) (wordAt buf (A &&& 0xFFFE))) := by
  cases ready with
  | steady stored =>
    exact .steady (by rw [empty_slot_direct_entry]; exact direct_entry_stored stored complete A even range erased)
  | compacted stored slot =>
    exact .compacted (direct_entry_stored stored complete A even range erased)
      (by rw [empty_slot_direct_entry, slot])

/-- Persisting a byte keeps the engine ready on every path while the discipline holds: the
direct write from either state, a log entry from the invariant, a compaction from either; from
the compacted state a log entry would land on the magic. -/
theorem persistByte_ready (ready : Ready c d img) (complete : ∀ i, d.driver i = .FLASH_COMPLETE)
    {A : Nat} (range : A < c.FEE_DENSITY_BYTES)
    (image : c.image buf = c.image ((persistedEntry buf A).apply c img))
    (onErased : OnErased c d (persistByte c buf A d).2) :
    Ready c (persistByte c buf A d).2 buf ∧ (persistByte c buf A d).2.driver = d.driver := by
  have even := c.density_even
  have word : A &&& 0xFFFE = A - A % 2 := and_fffe (by have := c.density_le_address_max; omega)
  have pages := pages_of_range range
  by_cases erased : d.flash c (c.FEE_COMPACTED_BASE_ADDRESS + (A &&& 0xFFFE)) = FEE_EMPTY_WORD
  · rw [persistByte_of_erased erased]
    exact ⟨(ready.direct_entry complete A (by omega) (by omega) erased).congr
      (image_storeWord_persisted range image), driver_direct_entry A⟩
  cases ready with
  | steady stored =>
    by_cases noErase : NoErase d (persistByte c buf A d).2
    · obtain ⟨ops, ext, safe⟩ := persistByte_safe stored complete range image noErase
      exact ⟨.steady (ext.flash c ▸ safe.final), ext.driver⟩
    · rw [persistByte_compacts complete A pages noErase]
      exact ⟨eeprom_compact_ready buf _ complete stored.room, driver_eeprom_compact buf _⟩
  | compacted stored slot =>
    exfalso
    simp only [persistByte, direct_entry_of_programmed c buf d A erased, if_true] at onErased
    have read : d.trace <+: (load (c.FEE_COMPACTED_BASE_ADDRESS + (A &&& 0xFFFE)) 2 d).trace := ⟨_, rfl⟩
    have initial : (load (c.FEE_COMPACTED_BASE_ADDRESS + (A &&& 0xFFFE)) 2 d).initial = d.initial := rfl
    have complete₀ : ∀ i, (load (c.FEE_COMPACTED_BASE_ADDRESS + (A &&& 0xFFFE)) 2 d).driver i =
      .FLASH_COMPLETE := complete
    have magic : (load (c.FEE_COMPACTED_BASE_ADDRESS + (A &&& 0xFFFE)) 2 d).flash c
        (load (c.FEE_COMPACTED_BASE_ADDRESS + (A &&& 0xFFFE)) 2 d).empty_slot ≠ FEE_EMPTY_WORD := by
      rw [flash_load, empty_slot_load, slot]
      exact stored.magic_programmed
    have room : (load (c.FEE_COMPACTED_BASE_ADDRESS + (A &&& 0xFFFE)) 2 d).empty_slot + 4 ≤
        c.FEE_WRITE_LOG_LAST_ADDRESS := by
      have := stored.bounded
      rw [empty_slot_load, slot]
      simp only [Config.firstSlot] at this
      omega
    generalize load (c.FEE_COMPACTED_BASE_ADDRESS + (A &&& 0xFFFE)) 2 d = d₀ at *
    by_cases byte : A < FEE_BYTE_RANGE
    · rw [if_pos byte] at onErased
      exact log_byte_entry_breaks complete₀ A magic (by omega)
        (onErased.split read initial (log_byte_entry_reports c buf d₀ A pages).appends).2
    · rw [if_neg byte] at onErased
      exact log_word_entry_breaks complete₀ _ magic room
        (onErased.split read initial (log_word_entry_reports c buf d₀ _ pages).appends).2

/-- A byte step of the word path erases only when its entry compacts. -/
theorem log_byte_step_compacts (complete : ∀ i, d.driver i = .FLASH_COMPLETE) (A : Nat)
    (changed : Prop) [Decidable changed]
    (erases : ¬ NoErase d
      (if changed then eeprom_write_log_byte_entry c buf A d else (some .FLASH_COMPLETE, d)).2) :
    (if changed then eeprom_write_log_byte_entry c buf A d else (some .FLASH_COMPLETE, d)).2 =
      (eeprom_compact c buf d).2 := by
  by_cases isChanged : changed
  · simp only [if_pos isChanged] at erases ⊢
    rw [log_byte_entry_compacts complete A erases]
  · simp only [if_neg isChanged] at erases
    exact absurd (fun op mem => by simp at mem) erases

/-- From the compacted state a byte step of the word path keeps the discipline only if the byte
is unchanged: its entry would land on the magic. -/
theorem log_byte_step_unchanged (stored : Stored c (d.flash c) c.firstSlot img)
    (slot : d.empty_slot = c.FEE_WRITE_LOG_BASE_ADDRESS) (complete : ∀ i, d.driver i = .FLASH_COMPLETE)
    (A : Nat) (changed : Prop) [Decidable changed]
    (onErased : OnErased c d
      (if changed then eeprom_write_log_byte_entry c buf A d else (some .FLASH_COMPLETE, d)).2) :
    ¬ changed := fun isChanged => by
  rw [if_pos isChanged] at onErased
  have room := stored.bounded
  simp only [Config.firstSlot] at room
  exact log_byte_entry_breaks complete A (by rw [slot]; exact stored.magic_programmed) (by omega) onErased

/-- The word path below `FEE_BYTE_RANGE` keeps the engine ready while the discipline holds: the
direct write, or a byte entry for each changed byte, either of which may compact; from the
compacted state a changed byte's entry would land on the magic. -/
theorem persistWord_byte_range_ready {X : Memory} (ready : Ready c d X)
    (complete : ∀ i, d.driver i = .FLASH_COMPLETE) {A : Nat} (v : UInt16) (even : A % 2 = 0)
    (byte : A < FEE_BYTE_RANGE) (range : A < c.FEE_DENSITY_BYTES) (changed : wordAt X A ≠ v.toNat)
    (onErased : OnErased c d (persistWord c (wordAt X A) v (storeWord X A v.toNat) A d).2) :
    Ready c (persistWord c (wordAt X A) v (storeWord X A v.toNat) A d).2 (storeWord X A v.toNat) ∧
      (persistWord c (wordAt X A) v (storeWord X A v.toNat) A d).2.driver = d.driver := by
  have small : A < 0x80 := byte
  have even' := c.density_even
  have word : A &&& 0xFFFE = A := by
    rw [and_fffe (by omega)]
    omega
  have pages := pages_of_range range
  by_cases erased : d.flash c (c.FEE_COMPACTED_BASE_ADDRESS + (A &&& 0xFFFE)) = FEE_EMPTY_WORD
  · rw [persistWord_of_erased _ _ erased]
    refine ⟨(ready.direct_entry complete A (by omega) (by omega) erased).congr ?_, driver_direct_entry A⟩
    rw [word, wordAt_storeWord _ _ _ v.toNat_lt_size]
  have steadyStored : ∀ stored : Stored c (d.flash c) d.empty_slot X,
      NoErase d (persistWord c (wordAt X A) v (storeWord X A v.toNat) A d).2 →
      Ready c (persistWord c (wordAt X A) v (storeWord X A v.toNat) A d).2 (storeWord X A v.toNat) ∧
        (persistWord c (wordAt X A) v (storeWord X A v.toNat) A d).2.driver = d.driver := fun stored noErase =>
    let ⟨stored', driver, _⟩ := persistWord_byte_range_stored stored complete v even byte range noErase
    ⟨.steady stored', driver⟩
  simp only [persistWord, direct_entry_of_programmed c _ d A erased, if_true, if_pos byte] at onErased steadyStored ⊢
  have read : d.trace <+: (load (c.FEE_COMPACTED_BASE_ADDRESS + (A &&& 0xFFFE)) 2 d).trace := ⟨_, rfl⟩
  have initial : (load (c.FEE_COMPACTED_BASE_ADDRESS + (A &&& 0xFFFE)) 2 d).initial = d.initial := rfl
  have driver₀ : (load (c.FEE_COMPACTED_BASE_ADDRESS + (A &&& 0xFFFE)) 2 d).driver = d.driver := rfl
  have complete₀ : ∀ i, (load (c.FEE_COMPACTED_BASE_ADDRESS + (A &&& 0xFFFE)) 2 d).driver i =
    .FLASH_COMPLETE := complete
  have flash₀ := flash_load c (c.FEE_COMPACTED_BASE_ADDRESS + (A &&& 0xFFFE)) 2 d
  have slot₀ := empty_slot_load (c.FEE_COMPACTED_BASE_ADDRESS + (A &&& 0xFFFE)) 2 d
  have loadFree : NoErase d (load (c.FEE_COMPACTED_BASE_ADDRESS + (A &&& 0xFFFE)) 2 d) :=
    NoErase.of_extends (Device.Extends.load d _ 2) (by simp [FlashOp.isErase])
  generalize load (c.FEE_COMPACTED_BASE_ADDRESS + (A &&& 0xFFFE)) 2 d = d₀ at *
  generalize hlow : (if wordAt X A % 256 ≠ v.toNat % 256 then
    eeprom_write_log_byte_entry c (storeWord X A v.toNat) A d₀ else (some .FLASH_COMPLETE, d₀)) = low at *
  have lowIssued := hlow ▸ (byte_step_reports c (storeWord X A v.toNat) d₀
    (wordAt X A % 256 ≠ v.toNat % 256) A pages).1
  have highIssued := (byte_step_reports c (storeWord X A v.toNat) low.2
    (wordAt X A >>> 8 ≠ v.toNat >>> 8) (A + 1) pages).1
  have initialLow : low.2.initial = d₀.initial := by
    rw [← hlow]
    split <;> simp
  obtain ⟨-, onErased⟩ := onErased.split read initial (lowIssued.appends.trans highIssued.appends)
  obtain ⟨onErasedLow, onErasedHigh⟩ := onErased.split lowIssued.appends initialLow highIssued.appends
  have driverLow : low.2.driver = d₀.driver := by
    rw [← hlow]
    split <;> simp
  have completeLow : ∀ i, low.2.driver i = .FLASH_COMPLETE := fun i => driverLow ▸ complete₀ i
  cases ready with
  | steady stored =>
    by_cases noErase : NoErase d (if wordAt X A >>> 8 ≠ v.toNat >>> 8 then
        eeprom_write_log_byte_entry c (storeWord X A v.toNat) (A + 1) low.2 else (some .FLASH_COMPLETE, low.2)).2
    · exact steadyStored stored noErase
    by_cases noErase₁ : NoErase d₀ low.2
    · -- the high byte's entry compacted
      have noErase₂ := fun h => noErase (loadFree.trans (noErase₁.trans h lowIssued.appends highIssued.appends)
        read (lowIssued.appends.trans highIssued.appends))
      rw [log_byte_step_compacts completeLow (A + 1) _ noErase₂]
      exact ⟨eeprom_compact_ready _ _ completeLow stored.room,
        (driver_eeprom_compact _ _).trans (driverLow.trans driver₀)⟩
    · -- the low byte's entry compacted, and the high byte's entry would land on the magic
      have compacted := log_byte_step_compacts complete₀ A _ (hlow ▸ noErase₁)
      rw [hlow] at compacted
      have same := log_byte_step_unchanged (d := low.2)
        (compacted ▸ eeprom_compact_stored _ d₀ complete₀ stored.room)
        (compacted ▸ empty_slot_eeprom_compact c _ d₀) completeLow (A + 1) _ onErasedHigh
      simp only [if_neg same, compacted]
      exact ⟨eeprom_compact_ready _ _ complete₀ stored.room, (driver_eeprom_compact _ _).trans driver₀⟩
  | compacted stored slot =>
    exfalso
    have lowSame := log_byte_step_unchanged (flash₀ ▸ stored) (slot₀.trans slot) complete₀ A _
      (hlow ▸ onErasedLow)
    rw [if_neg lowSame] at hlow
    subst hlow
    have highSame := log_byte_step_unchanged (flash₀ ▸ stored) (slot₀.trans slot) complete₀ (A + 1) _
      onErasedHigh
    simp only [not_not, Nat.shiftRight_eq_div_pow] at lowSame highSame
    exact changed (by omega)

end Persist

section Advances

/-- The step from `m` to `m'` appends to the trace of the same flash, and from a ready state
behind a driver that completes it keeps the engine ready, as long as every program it issues
hits an erased half-word. -/
structure Advances (c : Config) (m m' : Machine) : Prop where
  appends : m.dev.trace <+: m'.dev.trace
  initial : m'.dev.initial = m.dev.initial
  ready : Ready c m.dev m.DataBuf → (∀ i, m.dev.driver i = .FLASH_COMPLETE) → OnErased c m.dev m'.dev →
    Ready c m'.dev m'.DataBuf ∧ ∀ i, m'.dev.driver i = .FLASH_COMPLETE

variable {c : Config} {m m' m'' : Machine}

theorem Advances.refl (m : Machine) : Advances c m m :=
  ⟨List.prefix_refl _, rfl, fun ready complete _ => ⟨ready, complete⟩⟩

theorem Advances.trans (first : Advances c m m') (second : Advances c m' m'') : Advances c m m'' := by
  refine ⟨first.appends.trans second.appends, second.initial.trans first.initial,
    fun ready complete onErased => ?_⟩
  obtain ⟨onErased₁, onErased₂⟩ := onErased.split first.appends first.initial second.appends
  obtain ⟨ready', complete'⟩ := first.ready ready complete onErased₁
  exact second.ready ready' complete' onErased₂

theorem writeDataByte_advances (Address : Nat) (DataByte : UInt8) (m : Machine) :
    Advances c m (EEPROM_WriteDataByte c Address DataByte m).2 := by
  by_cases range : Address < c.FEE_DENSITY_BYTES
  · by_cases same : m.DataBuf Address = DataByte
    · rw [writeDataByte_of_same range same]
      exact .refl m
    have appends := (writeDataByte_reports m DataByte range).appends
    rw [writeDataByte_of_ne range same] at appends ⊢
    refine ⟨appends, initial_persistByte c _ _ _, fun ready complete onErased => ?_⟩
    obtain ⟨ready', driver⟩ := persistByte_ready ready complete range
      (by rw [persistedEntry_update _ _ range]) onErased
    exact ⟨ready', fun i => driver ▸ complete i⟩
  · rw [writeDataByte_of_ge DataByte m (Nat.not_lt.1 range)]
    exact .refl m

/-- Word writes at every address: the odd split into two byte writes, the whole half-word
above `FEE_BYTE_RANGE`, a byte entry per changed byte below it. -/
theorem writeDataWord_advances (Address : Nat) (DataWord : UInt16) (m : Machine) :
    Advances c m (EEPROM_WriteDataWord c Address DataWord m).2 := by
  by_cases range : Address < c.FEE_DENSITY_BYTES
  · by_cases odd : Address % 2 = 1
    · rw [writeDataWord_of_odd DataWord m range odd]
      exact (writeDataByte_advances _ _ m).trans (writeDataByte_advances _ _ _)
    have even : Address % 2 = 0 := by omega
    by_cases same : wordAt m.DataBuf Address = DataWord.toNat
    · rw [writeDataWord_of_same range even same]
      exact .refl m
    have appends := (writeDataWord_even_reports m DataWord range even).appends
    rw [writeDataWord_of_ne range even same] at appends ⊢
    refine ⟨appends, initial_persistWord c _ _ _ _ _, fun ready complete onErased => ?_⟩
    dsimp only at onErased ⊢
    by_cases low : FEE_BYTE_RANGE ≤ Address
    · rw [persistWord_eq_persistByte _ _ _ _ even low (by have := c.density_le_address_max; omega)]
        at onErased ⊢
      obtain ⟨ready', driver⟩ := persistByte_ready ready complete range
        (by rw [persistedEntry_storeWord _ _ even low range]) onErased
      exact ⟨ready', fun i => driver ▸ complete i⟩
    · obtain ⟨ready', driver⟩ := persistWord_byte_range_ready ready complete DataWord even
        (Nat.not_le.1 low) range same onErased
      exact ⟨ready', fun i => driver ▸ complete i⟩
  · rw [writeDataWord_of_ge DataWord m (Nat.not_lt.1 range)]
    exact .refl m

/-- A reboot from a ready state restores the invariant, whatever the discipline. -/
theorem EEPROM_Init_advances (m : Machine) : Advances c m (EEPROM_Init c m).2 :=
  ⟨(EEPROM_Init_appends m).1, initial_EEPROM_Init c m, fun ready complete _ =>
    ⟨.steady ready.init.2.stored, fun i => (EEPROM_Init_appends m).2 ▸ complete i⟩⟩

theorem Event.run_advances (event : Event) (m : Machine) : Advances c m (event.run c m) := by
  cases event with
  | call write =>
    exact write.run_of (Advances c) Advances.refl Advances.trans writeDataByte_advances
      writeDataWord_advances m
  | reboot => exact EEPROM_Init_advances m

theorem runEvents_advances (events : List Event) (m : Machine) : Advances c m (runEvents c events m) :=
  runEvents_of (Advances c) Advances.refl Advances.trans Event.run_advances events m

end Advances

section Runs

variable {c : Config}

/-- Durability over every run, compactions included, under the NOR discipline: from a state
with the invariant behind a driver that completes, after any sequence of API write calls and
reboots in which every program hits an erased half-word, a reboot restores the invariant, and
for in-range calls the image it loads is the byte array the calls wrote. -/
theorem runs_on_erased_durable (events : List Event) (m : Machine) (inv : Inv c m)
    (complete : ∀ i, m.dev.driver i = .FLASH_COMPLETE)
    (discipline : OnErased c m.dev (runEvents c events m).dev) :
    Inv c (EEPROM_Init c (runEvents c events m)).2 ∧
      ((∀ call ∈ writeCalls events, call.address + call.bytes.length ≤ c.FEE_DENSITY_BYTES) →
        c.image (EEPROM_Init c (runEvents c events m)).2.DataBuf =
          c.image (storeCalls (writeCalls events) m.DataBuf)) := by
  have ready : Ready c m.dev m.DataBuf := .steady inv.stored
  obtain ⟨ready', -⟩ := (runEvents_advances events m).ready ready complete discipline
  refine ⟨ready'.init.2, fun inRange => ?_⟩
  rw [ready'.init.1]
  exact runEvents_image_of (fun m => Ready c m.dev m.DataBuf ∧ ∀ i, m.dev.driver i = .FLASH_COMPLETE)
    (fun m m' => OnErased c m.dev m'.dev)
    (fun event events m ⟨ready, complete⟩ onErased =>
      let ⟨first, second⟩ := onErased.split (event.run_advances m).appends (event.run_advances m).initial
        (runEvents_advances events _).appends
      ⟨(event.run_advances m).ready ready complete first, second⟩)
    (fun _ holds => holds.1.init.1) events m ⟨ready, complete⟩ discipline inRange

/-- From the erased 4-byte store: a snapshot write, four byte entries that fill the log, a
compaction, a reboot and a byte entry in the emptied log. Every program hits an erased
half-word, and the reboot at the end loads the last byte written. -/
theorem runs_on_erased_durable_small :
    Inv Config.small (EEPROM_Init Config.small (runEvents Config.small
      [.call (.write_byte 0 1), .call (.write_byte 0 2), .call (.write_byte 0 3), .call (.write_byte 0 4),
        .call (.write_byte 0 5), .call (.write_byte 0 6), .reboot, .call (.write_byte 0 7)]
      (EEPROM_Erase Config.small Machine.erased))).2 ∧
    Config.small.image (EEPROM_Init Config.small (runEvents Config.small
      [.call (.write_byte 0 1), .call (.write_byte 0 2), .call (.write_byte 0 3), .call (.write_byte 0 4),
        .call (.write_byte 0 5), .call (.write_byte 0 6), .reboot, .call (.write_byte 0 7)]
      (EEPROM_Erase Config.small Machine.erased))).2.DataBuf =
      Config.small.image (storeCalls (writeCalls
        [.call (.write_byte 0 1), .call (.write_byte 0 2), .call (.write_byte 0 3), .call (.write_byte 0 4),
          .call (.write_byte 0 5), .call (.write_byte 0 6), .reboot, .call (.write_byte 0 7)])
        (EEPROM_Erase Config.small Machine.erased).DataBuf) :=
  let durable := runs_on_erased_durable
    [.call (.write_byte 0 1), .call (.write_byte 0 2), .call (.write_byte 0 3), .call (.write_byte 0 4),
      .call (.write_byte 0 5), .call (.write_byte 0 6), .reboot, .call (.write_byte 0 7)]
    (EEPROM_Erase Config.small Machine.erased)
    ((eeprom_clear_stored Config.small Machine.erased.dev (fun _ => rfl) (by decide)).init
      ⟨Machine.erased.DataBuf, eeprom_clear Config.small Machine.erased.dev⟩ rfl).2
    (fun _ => rfl) (by decide)
  ⟨durable.1, durable.2 (by decide)⟩

end Runs

section SingleWrites

variable {c : Config}

/-- From the invariant, persisting a byte keeps the NOR discipline on every path: the direct
write, a log entry, or a compaction. -/
theorem persistByte_onErased {buf img : Memory} {d : Device}
    (stored : Stored c (d.flash c) d.empty_slot img) (complete : ∀ i, d.driver i = .FLASH_COMPLETE)
    {A : Nat} (range : A < c.FEE_DENSITY_BYTES)
    (image : c.image buf = c.image ((persistedEntry buf A).apply c img)) :
    OnErased c d (persistByte c buf A d).2 := by
  by_cases noErase : NoErase d (persistByte c buf A d).2
  · obtain ⟨ops, ext, safe⟩ := persistByte_safe stored complete range image noErase
    exact OnErased.of_safe ext safe
  · rw [persistByte_compacts complete A (pages_of_range range) noErase]
    have read : d.ExtendsOnErased c (load (c.FEE_COMPACTED_BASE_ADDRESS + (A &&& 0xFFFE)) 2 d) :=
      .record rfl
    exact (read.trans (eeprom_compact_onErased _ _ stored.room)).onErased

theorem writeDataByte_onErased {m : Machine} (inv : Inv c m) (complete : ∀ i, m.dev.driver i = .FLASH_COMPLETE)
    (A : Nat) (v : UInt8) : OnErased c m.dev (EEPROM_WriteDataByte c A v m).2.dev := by
  by_cases range : A < c.FEE_DENSITY_BYTES
  · by_cases same : m.DataBuf A = v
    · rw [writeDataByte_of_same range same]
      exact .refl _
    · rw [writeDataByte_of_ne range same]
      exact persistByte_onErased inv.stored complete range (by rw [persistedEntry_update _ _ range])
  · rw [writeDataByte_of_ge v m (Nat.not_lt.1 range)]
    exact .refl _

theorem writeDataWord_onErased {m : Machine} (inv : Inv c m) (complete : ∀ i, m.dev.driver i = .FLASH_COMPLETE)
    {A : Nat} (v : UInt16) (even : A % 2 = 0) (low : FEE_BYTE_RANGE ≤ A) :
    OnErased c m.dev (EEPROM_WriteDataWord c A v m).2.dev := by
  by_cases range : A < c.FEE_DENSITY_BYTES
  · by_cases same : wordAt m.DataBuf A = v.toNat
    · rw [writeDataWord_of_same range even same]
      exact .refl _
    · rw [writeDataWord_of_ne range even same]
      dsimp only
      rw [persistWord_eq_persistByte _ _ _ _ even low (by have := c.density_le_address_max; omega)]
      exact persistByte_onErased inv.stored complete range (by rw [persistedEntry_storeWord _ _ even low range])
  · rw [writeDataWord_of_ge v m (Nat.not_lt.1 range)]
    exact .refl _

/-- A step that keeps the discipline from the invariant is undone by no reboot. -/
theorem Advances.reboot {m m' : Machine} (step : Advances c m m') (inv : Inv c m)
    (complete : ∀ i, m.dev.driver i = .FLASH_COMPLETE) (onErased : OnErased c m.dev m'.dev) :
    Inv c (EEPROM_Init c m').2 ∧ c.image (EEPROM_Init c m').2.DataBuf = c.image m'.DataBuf :=
  let ⟨ready, _⟩ := step.ready (.steady inv.stored) complete onErased
  ⟨ready.init.2, ready.init.1⟩

/-- A write that persists through one direct write, one log entry or one compaction survives
the reboot after it: from a state with the invariant behind a driver that completes, after any
byte write, or any word write at an even address from `FEE_BYTE_RANGE` on, `EEPROM_Init`
restores the invariant and loads the image the write left in RAM, also when the write
compacted. -/
theorem single_write_survives_reboot (m : Machine) (inv : Inv c m)
    (complete : ∀ i, m.dev.driver i = .FLASH_COMPLETE) :
    (∀ (A : Nat) (v : UInt8), Inv c (EEPROM_Init c (EEPROM_WriteDataByte c A v m).2).2 ∧
      c.image (EEPROM_Init c (EEPROM_WriteDataByte c A v m).2).2.DataBuf =
        c.image (EEPROM_WriteDataByte c A v m).2.DataBuf) ∧
    (∀ (A : Nat) (v : UInt16), A % 2 = 0 → FEE_BYTE_RANGE ≤ A →
      Inv c (EEPROM_Init c (EEPROM_WriteDataWord c A v m).2).2 ∧
      c.image (EEPROM_Init c (EEPROM_WriteDataWord c A v m).2).2.DataBuf =
        c.image (EEPROM_WriteDataWord c A v m).2.DataBuf) :=
  ⟨fun A v => (writeDataByte_advances A v m).reboot inv complete (writeDataByte_onErased inv complete A v),
    fun _ v even low => (writeDataWord_advances _ v m).reboot inv complete
      (writeDataWord_onErased inv complete v even low)⟩

theorem single_write_survives_reboot_erased :
    (∀ (A : Nat) (v : UInt8),
      Inv Config.small (EEPROM_Init Config.small
        (EEPROM_WriteDataByte Config.small A v (EEPROM_Erase Config.small Machine.erased)).2).2 ∧
      Config.small.image (EEPROM_Init Config.small
        (EEPROM_WriteDataByte Config.small A v (EEPROM_Erase Config.small Machine.erased)).2).2.DataBuf =
        Config.small.image (EEPROM_WriteDataByte Config.small A v (EEPROM_Erase Config.small Machine.erased)).2.DataBuf) ∧
    (∀ (A : Nat) (v : UInt16), A % 2 = 0 → FEE_BYTE_RANGE ≤ A →
      Inv Config.small (EEPROM_Init Config.small
        (EEPROM_WriteDataWord Config.small A v (EEPROM_Erase Config.small Machine.erased)).2).2 ∧
      Config.small.image (EEPROM_Init Config.small
        (EEPROM_WriteDataWord Config.small A v (EEPROM_Erase Config.small Machine.erased)).2).2.DataBuf =
        Config.small.image (EEPROM_WriteDataWord Config.small A v (EEPROM_Erase Config.small Machine.erased)).2.DataBuf) :=
  single_write_survives_reboot (EEPROM_Erase Config.small Machine.erased)
    ((eeprom_clear_stored Config.small Machine.erased.dev (fun _ => rfl) (by decide)).init
      ⟨Machine.erased.DataBuf, eeprom_clear Config.small Machine.erased.dev⟩ rfl).2 (fun _ => rfl)

/-- Compaction round trip: with a driver that completes, on a configuration whose log holds
the magic, a compaction of any RAM image over any flash programs only erased half-words, and
a power cycle after it, whatever RAM then holds, loads that image back through `EEPROM_Init`
and restores the invariant. -/
theorem compaction_round_trip (buf ram : Memory) (d : Device) (complete : ∀ i, d.driver i = .FLASH_COMPLETE)
    (room : 4 ≤ c.FEE_WRITE_LOG_BYTES) :
    OnErased c d (eeprom_compact c buf d).2 ∧
      c.image (EEPROM_Init c ⟨ram, (eeprom_compact c buf d).2⟩).2.DataBuf = c.image buf ∧
      Inv c (EEPROM_Init c ⟨ram, (eeprom_compact c buf d).2⟩).2 :=
  ⟨(eeprom_compact_onErased buf d room).onErased,
    (eeprom_compact_stored buf d complete room).init ⟨ram, _⟩ rfl⟩

theorem compaction_round_trip_small :
    4 ≤ Config.small.FEE_WRITE_LOG_BYTES ∧
      (OnErased Config.small Machine.erased.dev (eeprom_compact Config.small (fun a => UInt8.ofNat a) Machine.erased.dev).2 ∧
      Config.small.image (EEPROM_Init Config.small
        ⟨fun _ => 0, (eeprom_compact Config.small (fun a => UInt8.ofNat a) Machine.erased.dev).2⟩).2.DataBuf =
        Config.small.image (fun a => UInt8.ofNat a) ∧
      Inv Config.small (EEPROM_Init Config.small
        ⟨fun _ => 0, (eeprom_compact Config.small (fun a => UInt8.ofNat a) Machine.erased.dev).2⟩).2) :=
  ⟨by decide, compaction_round_trip _ _ _ (fun _ => rfl) (by decide)⟩

end SingleWrites

section CrashWindow

/-! Power loss while `eeprom_compact` rewrites the image. Once `eeprom_clear` has returned, the
magic is in place and the log is empty, so every later point of the trace boots; what it
boots is the image up to the last half-word the loop handled, and zero after it. -/

variable {c : Config} (buf : Memory)

end CrashWindow

end PicoEeprom
