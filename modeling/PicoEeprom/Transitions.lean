import PicoEeprom.Invariant

/-! What programming the flash does to a stored state. Appending at the stop slot adds the
entries read there to the replay (`Stored.extend`); a torn Word-Next adds none and moves the
stop past its value slot. Programming an erased snapshot word stores the complemented value
in that half-word of the image and changes no logged entry. -/
namespace PicoEeprom

variable {c : Config}

/-- NOR programming of an erased half-word stores the value. -/
theorem erased_and (v : UInt16) : FEE_EMPTY_WORD &&& v = v := by
  apply UInt16.toNat.inj
  have := v.toNat_lt_size
  rw [UInt16.and_toNat, Nat.land_comm, show FEE_EMPTY_WORD.toNat = 2 ^ 16 - 1 from rfl,
    Nat.and_pow_two_sub_one_eq_mod, Nat.mod_eq_of_lt this]

theorem image_applyEntries_congr (entries : List LogEntry) {X Y : Memory}
    (same : c.image X = c.image Y) :
    c.image (applyEntries c entries X) = c.image (applyEntries c entries Y) := by
  rw [Config.image_eq_iff] at same ⊢
  exact applyEntries_agree c (· < c.FEE_DENSITY_BYTES) entries same

theorem Config.first_add_log_slots (c : Config) (room : c.firstSlot ≤ c.FEE_WRITE_LOG_LAST_ADDRESS) :
    c.firstSlot + 2 * c.logSlots = c.FEE_WRITE_LOG_LAST_ADDRESS := by
  have := c.log_even
  simp only [Config.logSlots, Config.firstSlot, Config.FEE_WRITE_LOG_LAST_ADDRESS] at room ⊢
  omega

section Extend

variable {f g : Flash} {s : Nat} {img : Memory}

/-- Programming the log from the stop slot on appends to the replay whatever it reads there. -/
theorem Stored.extend (stored : Stored c f s img) (new : List LogEntry) {s' : Nat}
    (below : ∀ a, a < s → g a = f a)
    (rest : decodeLog g (c.logSlots - (s - c.firstSlot) / 2) s = (new, s'))
    (bounded : s' ≤ c.FEE_WRITE_LOG_LAST_ADDRESS)
    (erased : ∀ a, s' ≤ a → a < c.FEE_WRITE_LOG_LAST_ADDRESS → g a = FEE_EMPTY_WORD)
    (kept : ∀ a, f a ≠ FEE_EMPTY_WORD → g a ≠ FEE_EMPTY_WORD)
    (covered : ∀ e ∈ new, e.Covered c g) :
    Stored c g s' (applyEntries c new img) := by
  obtain ⟨k, -, first⟩ := decodeLog_stop f c.logSlots c.firstSlot
  have slot := stored.stop
  rw [first] at slot
  have snapshot : ∀ a, a < c.FEE_WRITE_LOG_BASE_ADDRESS + 4 → g a = f a := fun a h =>
    below a (by simp only [Config.firstSlot] at slot; omega)
  have log : decodeLog g c.logSlots c.firstSlot =
      ((decodeLog f c.logSlots c.firstSlot).1 ++ new, s') := by
    rw [decodeLog_extend f _ _ fun a lo hi => below a (by omega), stored.stop, rest]
    rfl
  refine ⟨?_, by rw [log], bounded, erased, ?_, fun buf => ?_⟩
  · rw [snapshot _ (by omega), snapshot _ (by omega)]
    exact stored.magic
  · rw [log]
    intro e mem
    rcases List.mem_append.1 mem with old | fresh
    exacts [(stored.covered e old).mono kept, covered e fresh]
  · have same : loadSnapshot g (c.FEE_DENSITY_BYTES / 2) c.FEE_COMPACTED_BASE_ADDRESS 0 buf =
        loadSnapshot f (c.FEE_DENSITY_BYTES / 2) c.FEE_COMPACTED_BASE_ADDRESS 0 buf :=
      loadSnapshot_congr f _ _ _ _ fun j hj => snapshot _ (by
        have := two_mul_half_density c
        simp only [Config.FEE_WRITE_LOG_BASE_ADDRESS, Config.FEE_COMPACTED_LAST_ADDRESS]
        omega)
    simp only [replayImage, log, same, applyEntries_append]
    exact image_applyEntries_congr new (stored.image buf)

/-- The stop slot lies on the slot grid of the log. -/
theorem Stored.slots (stored : Stored c f s img) :
    ∃ k ≤ c.logSlots, s = c.firstSlot + 2 * k ∧
      c.firstSlot + 2 * c.logSlots = c.FEE_WRITE_LOG_LAST_ADDRESS := by
  obtain ⟨k, hk, first⟩ := decodeLog_stop f c.logSlots c.firstSlot
  rw [stored.stop] at first
  exact ⟨k, hk, first, c.first_add_log_slots (by have := stored.bounded; omega)⟩

/-- The replay of `g` from slot `a` on reads nothing more when `g` is erased there. -/
theorem decodeLog_of_erased_from (g : Flash) {n a : Nat} (room : n = 0 ∨ g a = FEE_EMPTY_WORD) :
    decodeLog g n a = ([], a) := by
  rcases n with _ | n
  · rfl
  · exact decodeLog_of_empty g n (room.resolve_left (Nat.succ_ne_zero n))

/-- One byte or word entry appended at the stop slot. -/
theorem Stored.append (stored : Stored c f s img) {v : UInt16} {e : LogEntry}
    (room : s < c.FEE_WRITE_LOG_LAST_ADDRESS)
    (entry : ∀ n, decodeLog (Function.update f s v) (n + 1) s =
      Prod.map (List.cons e) id (decodeLog (Function.update f s v) n (s + 2)))
    (covered : e.Covered c f) :
    Stored c (Function.update f s v) (s + 2) (e.apply c img) := by
  obtain ⟨k, hk, rfl, last⟩ := stored.slots
  have free : ∀ a, c.firstSlot + 2 * k ≤ a → a < c.FEE_WRITE_LOG_LAST_ADDRESS →
      f a = FEE_EMPTY_WORD := stored.erased
  have kept : ∀ a, f a ≠ FEE_EMPTY_WORD → Function.update f (c.firstSlot + 2 * k) v a ≠ FEE_EMPTY_WORD :=
    fun a h => by
      rwa [Function.update_noteq fun same : a = c.firstSlot + 2 * k =>
        h (same ▸ free _ (Nat.le_refl _) room)]
  refine stored.extend [e] (fun a h => Function.update_noteq (by omega) _ _) ?_ (by omega)
    (fun a lo hi => by rw [Function.update_noteq (by omega)]; exact free a (by omega) hi) kept
    (by simpa using covered.mono kept)
  rw [show c.logSlots - (c.firstSlot + 2 * k - c.firstSlot) / 2 = c.logSlots - k - 1 + 1 by omega,
    entry, decodeLog_of_erased_from _ (by
      rw [Function.update_noteq (by omega)]
      by_cases end_ : c.logSlots - k - 1 = 0
      exacts [.inl end_, .inr (free _ (by omega) (by omega))])]
  rfl

/-- A Word-Next primary word appended at the stop slot, power lost before its value word:
the replay skips both slots and applies nothing. -/
theorem Stored.append_torn (stored : Stored c f s img) {v : UInt16} {a : Nat}
    (room : s + 4 ≤ c.FEE_WRITE_LOG_LAST_ADDRESS) (next : Slot.ofEntry v.toNat = .next a) :
    Stored c (Function.update f s v) (s + 4) img := by
  obtain ⟨k, hk, rfl, last⟩ := stored.slots
  have free : ∀ a, c.firstSlot + 2 * k ≤ a → a < c.FEE_WRITE_LOG_LAST_ADDRESS →
      f a = FEE_EMPTY_WORD := stored.erased
  have kept : ∀ a, f a ≠ FEE_EMPTY_WORD → Function.update f (c.firstSlot + 2 * k) v a ≠ FEE_EMPTY_WORD :=
    fun a h => by
      rwa [Function.update_noteq fun same : a = c.firstSlot + 2 * k =>
        h (same ▸ free _ (Nat.le_refl _) (by omega))]
  refine stored.extend [] (fun a h => Function.update_noteq (by omega) _ _) ?_ room
    (fun a lo hi => by rw [Function.update_noteq (by omega)]; exact free a (by omega) hi) kept
    (by simp)
  have slot : Slot.ofEntry (Function.update f (c.firstSlot + 2 * k) v (c.firstSlot + 2 * k)).toNat =
      .next a := by rw [Function.update_same]; exact next
  rw [show c.logSlots - (c.firstSlot + 2 * k - c.firstSlot) / 2 = c.logSlots - k - 2 + 1 + 1 by omega,
    decodeLog_of_next _ _ slot, Function.update_noteq (by omega), free _ (by omega) (by omega),
    if_pos (by decide), decodeLog_of_erased_from _ (by
      rw [Function.update_noteq (by omega)]
      by_cases end_ : c.logSlots - k - 2 = 0
      exacts [.inl end_, .inr (free _ (by omega) (by omega))])]

/-- A Word-Next entry, primary and value word, appended at the stop slot. -/
theorem Stored.append_next (stored : Stored c f s img) {v w : UInt16} {a : Nat}
    (room : s + 4 ≤ c.FEE_WRITE_LOG_LAST_ADDRESS) (next : Slot.ofEntry v.toNat = .next a)
    (value : 0xFFFF - w.toNat ≠ 0) (covered : (LogEntry.word a (0xFFFF - w.toNat)).Covered c f) :
    Stored c (Function.update (Function.update f s v) (s + 2) w) (s + 4)
      ((LogEntry.word a (0xFFFF - w.toNat)).apply c img) := by
  obtain ⟨k, hk, rfl, last⟩ := stored.slots
  have free : ∀ a, c.firstSlot + 2 * k ≤ a → a < c.FEE_WRITE_LOG_LAST_ADDRESS →
      f a = FEE_EMPTY_WORD := stored.erased
  have written : ∀ a, a ≠ c.firstSlot + 2 * k → a ≠ c.firstSlot + 2 * k + 2 →
      Function.update (Function.update f (c.firstSlot + 2 * k) v) (c.firstSlot + 2 * k + 2) w a = f a :=
    fun a h h' => by rw [Function.update_noteq h', Function.update_noteq h]
  have kept : ∀ a, f a ≠ FEE_EMPTY_WORD →
      Function.update (Function.update f (c.firstSlot + 2 * k) v) (c.firstSlot + 2 * k + 2) w a ≠
        FEE_EMPTY_WORD := fun a h => by
    rwa [written a (fun same => h (same ▸ free _ (Nat.le_refl _) (by omega)))
      (fun same => h (same ▸ free _ (by omega) (by omega)))]
  refine stored.extend [_] (fun a h => written a (by omega) (by omega)) ?_ room
    (fun a lo hi => by rw [written a (by omega) (by omega)]; exact free a (by omega) hi) kept
    (by simpa using covered.mono kept)
  have slot : Slot.ofEntry (Function.update (Function.update f (c.firstSlot + 2 * k) v)
      (c.firstSlot + 2 * k + 2) w (c.firstSlot + 2 * k)).toNat = .next a := by
    rw [Function.update_noteq (by omega), Function.update_same]
    exact next
  rw [show c.logSlots - (c.firstSlot + 2 * k - c.firstSlot) / 2 = c.logSlots - k - 2 + 1 + 1 by omega,
    decodeLog_of_next _ _ slot, Function.update_same, if_neg value, decodeLog_of_erased_from _ (by
      rw [written _ (by omega) (by omega)]
      by_cases end_ : c.logSlots - k - 2 = 0
      exacts [.inl end_, .inr (free _ (by omega) (by omega))])]
  rfl

/-- Programming an erased snapshot word stores the complement of the value in that
half-word of the image; the log replays as before. -/
theorem Stored.program_snapshot (stored : Stored c f s img) {w : Nat} (even : w % 2 = 0)
    (range : w < c.FEE_DENSITY_BYTES)
    (erased : f (c.FEE_COMPACTED_BASE_ADDRESS + w) = FEE_EMPTY_WORD) {v : UInt16}
    (programmed : v ≠ FEE_EMPTY_WORD) :
    Stored c (Function.update f (c.FEE_COMPACTED_BASE_ADDRESS + w) v) s
      (storeWord img w (0xFFFF - v.toNat)) := by
  obtain ⟨k, -, slot, -⟩ := stored.slots
  have below : ∀ a, c.FEE_WRITE_LOG_BASE_ADDRESS ≤ a → a ≠ c.FEE_COMPACTED_BASE_ADDRESS + w := by
    intro a h
    simp only [Config.FEE_WRITE_LOG_BASE_ADDRESS, Config.FEE_COMPACTED_LAST_ADDRESS] at h
    omega
  have first : c.FEE_WRITE_LOG_BASE_ADDRESS + 4 ≤ s := by
    simp only [Config.firstSlot] at slot
    omega
  have log : decodeLog (Function.update f (c.FEE_COMPACTED_BASE_ADDRESS + w) v) c.logSlots c.firstSlot =
      decodeLog f c.logSlots c.firstSlot :=
    decodeLog_congr f _ _ fun x lo _ => Function.update_noteq (below x (by
      simp only [Config.firstSlot] at lo; omega)) _ _
  have kept : ∀ a, f a ≠ FEE_EMPTY_WORD →
      Function.update f (c.FEE_COMPACTED_BASE_ADDRESS + w) v a ≠ FEE_EMPTY_WORD := fun a h => by
    by_cases same : a = c.FEE_COMPACTED_BASE_ADDRESS + w
    · rwa [same, Function.update_same]
    · rwa [Function.update_noteq same]
  refine ⟨?_, log ▸ stored.stop, stored.bounded, fun a lo hi => ?_, ?_, fun buf => ?_⟩
  · rw [Function.update_noteq (below _ (by omega)), Function.update_noteq (below _ (by omega))]
    exact stored.magic
  · rw [Function.update_noteq (below _ (by omega))]
    exact stored.erased a lo hi
  · rw [log]
    exact fun e mem => (stored.covered e mem).mono kept
  · have half : w = 2 * (w / 2) := by omega
    have := c.density_even
    rw [Config.image_eq_iff]
    intro i hi
    simp only [replayImage, log]
    rw [half, loadSnapshot_update f _ _ _ _ (by omega), Nat.zero_add, ← half]
    by_cases inside : i = w ∨ i = w + 1
    · rw [applyEntries_of_untouched _ _ fun e mem =>
        (stored.covered e mem).untouched even erased inside]
      rcases inside with rfl | rfl <;> simp [storeWord_apply]
    · rw [applyEntries_agree c (fun i => i ≠ w ∧ i ≠ w + 1) _
        (fun i h => storeWord_of_ne _ _ h.1 h.2) i (not_or.1 inside),
        storeWord_of_ne _ _ (not_or.1 inside).1 (not_or.1 inside).2]
      exact (Config.image_eq_iff c _ _).1 (stored.image buf) i hi

end Extend

section Erase

variable (c)

/-- With a driver that completes and a log that holds at least the magic, `eeprom_clear`
leaves an empty log over an erased snapshot: a store of the all-zero image. -/
theorem eeprom_clear_stored (d : Device) (complete : ∀ i, d.driver i = .FLASH_COMPLETE)
    (room : 4 ≤ c.FEE_WRITE_LOG_BYTES) :
    Stored c ((eeprom_clear c d).flash c) c.firstSlot (fun _ => 0) := by
  have log := decodeLog_eeprom_clear c d
  obtain ⟨low, high⟩ := flash_eeprom_clear_magic d complete room
  have inside := c.log_last_le_region_end
  have whole := two_mul_half_density c
  have base : c.FEE_COMPACTED_BASE_ADDRESS = c.FEE_PAGE_BASE_ADDRESS := rfl
  have logBase : c.FEE_WRITE_LOG_BASE_ADDRESS = c.FEE_PAGE_BASE_ADDRESS + c.FEE_DENSITY_BYTES := rfl
  have logLast : c.FEE_WRITE_LOG_LAST_ADDRESS =
    c.FEE_WRITE_LOG_BASE_ADDRESS + c.FEE_WRITE_LOG_BYTES := rfl
  have first : c.firstSlot = c.FEE_WRITE_LOG_BASE_ADDRESS + 4 := rfl
  have erased : ∀ a, c.FEE_PAGE_BASE_ADDRESS ≤ a → a < c.FEE_WRITE_LOG_LAST_ADDRESS →
      a ≠ c.FEE_WRITE_LOG_BASE_ADDRESS → a ≠ c.FEE_WRITE_LOG_BASE_ADDRESS + 2 →
      (eeprom_clear c d).flash c a = FEE_EMPTY_WORD := fun a lo hi other other' => by
    rw [flash_eeprom_clear_of_ne c d other other', if_pos ⟨lo, by omega⟩]
    rfl
  refine ⟨by rw [low, high]; rfl, by rw [log], by omega,
    fun a lo hi => erased a (by omega) hi (by omega) (by omega), by rw [log]; simp, fun buf => ?_⟩
  simp only [replayImage, log, applyEntries_nil]
  exact (image_loadSnapshot_eq_zero_iff c _ buf).2 fun j hj =>
    erased _ (by omega) (by omega) (by omega) (by omega)

variable {c}

/-- The invariant does not depend on the driver's answers. -/
theorem Inv.driver {m : Machine} (inv : Inv c m) (driver : Nat → FLASH_Status) :
    Inv c ⟨m.DataBuf, { m.dev with driver := driver }⟩ :=
  Stored.inv inv.stored

end Erase

end PicoEeprom
