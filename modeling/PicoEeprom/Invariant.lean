import PicoEeprom.Access

/-! The engine's representation invariant and what it needs from the write log. The log
decodes to a list of entries and a stop slot; programming the log at its stop slot only
appends to that list (`decodeLog_extend`). An entry is covered when every byte it writes
lies in the image and sits in a programmed snapshot word; a direct snapshot write lands
only in an erased snapshot word, so it never changes a byte a covered entry writes. -/
namespace PicoEeprom

section Log

variable (f : Flash)

theorem empty_of_slot {a : Nat} (empty : Slot.ofEntry (f a).toNat = .empty) : f a = FEE_EMPTY_WORD := by
  rw [uint16_eq_iff]
  exact Slot.ofEntry_eq_empty.1 empty

/-- The replay stops an even number of bytes past its start, at most `n` slots on. -/
theorem decodeLog_stop : ∀ (n a : Nat), ∃ k ≤ n, (decodeLog f n a).2 = a + 2 * k
  | 0, a => ⟨0, Nat.le_refl _, rfl⟩
  | n + 1, a => by
    rcases hs : Slot.ofEntry (f a).toNat with _ | ⟨b, v⟩ | ⟨b, v⟩ | _ | b
    · exact ⟨0, Nat.zero_le _, by rw [decodeLog_of_empty f n (empty_of_slot f hs)]; rfl⟩
    · obtain ⟨k, hk, h⟩ := decodeLog_stop n (a + 2)
      exact ⟨k + 1, by omega, by rw [decodeLog_of_byte f n hs, Prod.map_snd, id_eq, h]; omega⟩
    · obtain ⟨k, hk, h⟩ := decodeLog_stop n (a + 2)
      exact ⟨k + 1, by omega, by rw [decodeLog_of_word f n hs, Prod.map_snd, id_eq, h]; omega⟩
    · obtain ⟨k, hk, h⟩ := decodeLog_stop n (a + 2)
      exact ⟨k + 1, by omega, by rw [decodeLog_of_reserved f n hs, h]; omega⟩
    · cases n with
      | zero => exact ⟨1, Nat.le_refl _, by rw [decodeLog_of_next_last f hs]⟩
      | succ n =>
        obtain ⟨k, hk, h⟩ := decodeLog_stop n (a + 4)
        refine ⟨k + 2, by omega, ?_⟩
        rw [decodeLog_of_next f n hs]
        split <;> simp only [Prod.map_snd, id_eq, h] <;> omega

theorem decodeLog_advance {n a : Nat} (occupied : Slot.ofEntry (f a).toNat ≠ .empty) :
    a + 2 ≤ (decodeLog f (n + 1) a).2 := by
  rcases hs : Slot.ofEntry (f a).toNat with _ | ⟨b, v⟩ | ⟨b, v⟩ | _ | b
  · exact absurd hs occupied
  · obtain ⟨k, -, h⟩ := decodeLog_stop f n (a + 2)
    rw [decodeLog_of_byte f n hs, Prod.map_snd, id_eq, h]
    omega
  · obtain ⟨k, -, h⟩ := decodeLog_stop f n (a + 2)
    rw [decodeLog_of_word f n hs, Prod.map_snd, id_eq, h]
    omega
  · obtain ⟨k, -, h⟩ := decodeLog_stop f n (a + 2)
    rw [decodeLog_of_reserved f n hs, h]
    omega
  · cases n with
    | zero => rw [decodeLog_of_next_last f hs]
    | succ n =>
      obtain ⟨k, -, h⟩ := decodeLog_stop f n (a + 4)
      rw [decodeLog_of_next f n hs]
      split <;> simp only [Prod.map_snd, id_eq, h] <;> omega

/-- One replay step that reads the same slots of `f` and `g` and moves on to `a'` carries
`decodeLog_extend` back from `a'` to `a`. -/
private theorem extend_step {g : Flash} {n a m a' : Nat} (xs : List LogEntry)
    (hf : decodeLog f n a = Prod.map (xs ++ ·) id (decodeLog f m a'))
    (hg : decodeLog g n a = Prod.map (xs ++ ·) id (decodeLog g m a'))
    (skip : ∃ j, a' = a + 2 * j ∧ m + j = n)
    (ih : decodeLog g m a' = Prod.map ((decodeLog f m a').1 ++ ·) id
      (decodeLog g (m - ((decodeLog f m a').2 - a') / 2) (decodeLog f m a').2)) :
    decodeLog g n a = Prod.map ((decodeLog f n a).1 ++ ·) id
      (decodeLog g (n - ((decodeLog f n a).2 - a) / 2) (decodeLog f n a).2) := by
  obtain ⟨j, rfl, rfl⟩ := skip
  obtain ⟨k, hk, stop⟩ := decodeLog_stop f m (a + 2 * j)
  rw [hg, ih, hf]
  simp only [Prod.map_fst, Prod.map_snd, id_eq, stop, List.append_assoc,
    show m + j - (a + 2 * j + 2 * k - a) / 2 = m - (a + 2 * j + 2 * k - (a + 2 * j)) / 2 by omega]
  rfl

/-- Programming the log at or after the slot where its replay stopped only appends: the
new replay reads the old entries, then whatever it reads from that slot on. -/
theorem decodeLog_extend {g : Flash} : ∀ (n a : Nat),
    (∀ x, a ≤ x → x < (decodeLog f n a).2 → g x = f x) →
    decodeLog g n a = Prod.map ((decodeLog f n a).1 ++ ·) id
      (decodeLog g (n - ((decodeLog f n a).2 - a) / 2) (decodeLog f n a).2)
  | 0, a, _ => by simp
  | n + 1, a, agree => by
    have first : Slot.ofEntry (f a).toNat ≠ .empty → g a = f a := fun occupied =>
      agree a (Nat.le_refl _) (by have := decodeLog_advance f (n := n) occupied; omega)
    -- a slot that decodes alone: a byte entry, a Word-Encoded entry, a reserved word
    have single : ∀ xs : List LogEntry, Slot.ofEntry (f a).toNat ≠ .empty →
        (∀ f' : Flash, Slot.ofEntry (f' a).toNat = Slot.ofEntry (f a).toNat →
          decodeLog f' (n + 1) a = Prod.map (xs ++ ·) id (decodeLog f' n (a + 2))) →
        decodeLog g (n + 1) a = Prod.map ((decodeLog f (n + 1) a).1 ++ ·) id
          (decodeLog g (n + 1 - ((decodeLog f (n + 1) a).2 - a) / 2) (decodeLog f (n + 1) a).2) := by
      intro xs occupied decode
      refine extend_step f xs (decode f rfl) (decode g (by rw [first occupied])) ⟨1, rfl, rfl⟩
        (decodeLog_extend n (a + 2) fun x lo hi => agree x (by omega) ?_)
      rwa [decode f rfl]
    rcases hs : Slot.ofEntry (f a).toNat with _ | ⟨b, v⟩ | ⟨b, v⟩ | _ | b
    · rw [decodeLog_of_empty f n (empty_of_slot f hs)]
      simp
      rfl
    · exact single [.byte b v] (by simp [hs]) fun f' h => decodeLog_of_byte f' n (h.trans hs)
    · exact single [.word b v] (by simp [hs]) fun f' h => decodeLog_of_word f' n (h.trans hs)
    · exact single [] (by simp [hs]) fun f' h => decodeLog_of_reserved f' n (h.trans hs)
    · cases n with
      | zero =>
        have hs' : Slot.ofEntry (g a).toNat = .next b := first (by simp [hs]) ▸ hs
        exact extend_step (m := 0) f []
          (show decodeLog f 1 a = Prod.map ([] ++ ·) id (decodeLog f 0 (a + 2)) from
            decodeLog_of_next_last f hs)
          (decodeLog_of_next_last g hs') ⟨1, rfl, rfl⟩ (by simp)
      | succ n =>
        have past : a + 4 ≤ (decodeLog f (n + 1 + 1) a).2 := by
          obtain ⟨k, -, h⟩ := decodeLog_stop f n (a + 4)
          rw [decodeLog_of_next f n hs]
          split <;> simp only [Prod.map_snd, id_eq, h] <;> omega
        have hs' : Slot.ofEntry (g a).toNat = .next b := first (by simp [hs]) ▸ hs
        have value : g (a + 2) = f (a + 2) := agree (a + 2) (by omega) (by omega)
        have rest := decodeLog_extend n (a + 4) fun x lo hi => agree x (by omega) (by
          rw [decodeLog_of_next f n hs]
          split <;> simpa only [Prod.map_snd, id_eq] using hi)
        by_cases torn : 0xFFFF - (f (a + 2)).toNat = 0
        · exact extend_step (m := n) f []
            (by rw [decodeLog_of_next f n hs, if_pos torn]; rfl)
            (by rw [decodeLog_of_next g n hs', value, if_pos torn]; rfl) ⟨2, rfl, rfl⟩ rest
        · exact extend_step (m := n) f [.word b (0xFFFF - (f (a + 2)).toNat)]
            (by rw [decodeLog_of_next f n hs, if_neg torn]; rfl)
            (by rw [decodeLog_of_next g n hs', value, if_neg torn]; rfl) ⟨2, rfl, rfl⟩ rest

/-- Where the replay of `f` stops, the rest of its run reads nothing. -/
theorem decodeLog_rest (n a : Nat) :
    decodeLog f (n - ((decodeLog f n a).2 - a) / 2) (decodeLog f n a).2 = ([], (decodeLog f n a).2) := by
  have self := decodeLog_extend f n a fun _ _ _ => rfl
  apply Prod.ext
  · have := congrArg Prod.fst self
    simp only [Prod.map_fst] at this
    exact (List.append_right_eq_self.1 this.symm)
  · exact (congrArg Prod.snd self).symm

/-- The replay reads only the `n` slots from `a` on. -/
theorem decodeLog_congr {g : Flash} (n a : Nat) (agree : ∀ x, a ≤ x → x < a + 2 * n → g x = f x) :
    decodeLog g n a = decodeLog f n a := by
  obtain ⟨k, hk, stop⟩ := decodeLog_stop f n a
  have rest := decodeLog_rest f n a
  rw [decodeLog_extend f n a fun x lo hi => agree x lo (by omega)]
  rw [stop] at rest ⊢
  have tail : decodeLog g (n - (a + 2 * k - a) / 2) (a + 2 * k) = ([], a + 2 * k) := by
    rw [show n - (a + 2 * k - a) / 2 = n - k by omega] at rest ⊢
    rcases h : n - k with _ | m
    · rfl
    · rw [h] at rest
      have empty : Slot.ofEntry (f (a + 2 * k)).toNat = .empty := by
        by_contra occupied
        have := decodeLog_advance f (n := m) occupied
        rw [rest] at this
        omega
      rw [decodeLog_of_empty g m]
      rw [agree _ (by omega) (by omega)]
      exact empty_of_slot f empty
  rw [tail]
  apply Prod.ext
  · simp
  · simp [stop]

end Log

section Entries

variable (c : Config)

/-- The bytes an applied entry writes. -/
def LogEntry.Touches : LogEntry → Nat → Prop
  | .byte a _, i => i = a
  | .word a _, i => a < c.FEE_DENSITY_BYTES ∧ (i = a ∨ i = a + 1)

/-- Every byte the entry writes lies in the image, in a programmed snapshot word. -/
def LogEntry.Covered (f : Flash) (e : LogEntry) : Prop :=
  ∀ i, e.Touches c i →
    i < c.FEE_DENSITY_BYTES ∧ f (c.FEE_COMPACTED_BASE_ADDRESS + (i - i % 2)) ≠ FEE_EMPTY_WORD

variable {c}

theorem LogEntry.apply_of_not_touches {e : LogEntry} {i : Nat} (X : Memory)
    (untouched : ¬ e.Touches c i) : e.apply c X i = X i := by
  cases e with
  | byte a v =>
    simp only [LogEntry.Touches] at untouched
    simp only [LogEntry.apply, Function.update_apply, if_neg untouched]
  | word a v =>
    simp only [LogEntry.Touches, not_and, not_or] at untouched
    simp only [LogEntry.apply, setDataWord]
    split
    · next range => exact storeWord_of_ne X v (untouched range).1 (untouched range).2
    · rfl

theorem applyEntries_of_untouched {i : Nat} :
    ∀ (entries : List LogEntry) (X : Memory), (∀ e ∈ entries, ¬ e.Touches c i) →
      applyEntries c entries X i = X i
  | [], _, _ => rfl
  | e :: entries, X, untouched => by
    rw [applyEntries_cons, applyEntries_of_untouched entries _ fun e' mem =>
      untouched e' (List.mem_cons_of_mem _ mem)]
    exact LogEntry.apply_of_not_touches X (untouched e (List.mem_cons_self _ _))

/-- A covered entry writes no byte of an erased snapshot word. -/
theorem LogEntry.Covered.untouched {f : Flash} {e : LogEntry} (covered : e.Covered c f) {w : Nat}
    (even : w % 2 = 0) (erased : f (c.FEE_COMPACTED_BASE_ADDRESS + w) = FEE_EMPTY_WORD) {i : Nat}
    (inside : i = w ∨ i = w + 1) : ¬ e.Touches c i := fun touches => by
  have programmed := (covered i touches).2
  rw [show i - i % 2 = w by omega, erased] at programmed
  exact programmed rfl

theorem LogEntry.Covered.mono {f g : Flash} {e : LogEntry} (covered : e.Covered c f)
    (kept : ∀ a, f a ≠ FEE_EMPTY_WORD → g a ≠ FEE_EMPTY_WORD) : e.Covered c g :=
  fun i touches => ⟨(covered i touches).1, kept _ (covered i touches).2⟩

end Entries

section Snapshot

variable (f : Flash)

theorem loadSnapshot_congr {g : Flash} (n src dest : Nat) (buf : Memory)
    (agree : ∀ j < n, g (src + 2 * j) = f (src + 2 * j)) :
    loadSnapshot g n src dest buf = loadSnapshot f n src dest buf := by
  funext i
  rw [loadSnapshot_apply, loadSnapshot_apply]
  split
  · next inside =>
    simp only [snapshotByte, show src + (i - dest) / 2 * 2 = src + 2 * ((i - dest) / 2) by omega,
      agree ((i - dest) / 2) (by omega)]
  · rfl

/-- Programming one snapshot word changes the loaded image in that half-word only. -/
theorem loadSnapshot_update {n j : Nat} (src dest : Nat) (buf : Memory) (v : UInt16) (h : j < n) :
    loadSnapshot (Function.update f (src + 2 * j) v) n src dest buf =
      storeWord (loadSnapshot f n src dest buf) (dest + 2 * j) (0xFFFF - v.toNat) := by
  funext i
  rw [storeWord_apply, loadSnapshot_apply, loadSnapshot_apply]
  by_cases high : i = dest + 2 * j + 1
  · subst high
    rw [if_pos (by omega), if_pos rfl]
    simp only [snapshotByte]
    rw [show src + (dest + 2 * j + 1 - dest) / 2 * 2 = src + 2 * j by omega, if_neg (by omega),
      Function.update_same]
  by_cases low : i = dest + 2 * j
  · subst low
    rw [if_pos (by omega), if_neg high, if_pos rfl]
    simp only [snapshotByte]
    rw [show src + (dest + 2 * j - dest) / 2 * 2 = src + 2 * j by omega, if_pos (by omega),
      Function.update_same]
  rw [if_neg high, if_neg low]
  split
  · simp only [snapshotByte]
    rw [Function.update_noteq (by omega)]
  · rfl

end Snapshot

section Store

variable (c : Config)

/-- Over the image, the replay does not depend on the RAM it starts from. -/
theorem replayImage_image (f : Flash) (buf buf' : Memory) :
    c.image (replayImage c f buf).1 = c.image (replayImage c f buf').1 := by
  rw [Config.image_eq_iff]
  refine applyEntries_agree c (· < c.FEE_DENSITY_BYTES) _ (fun i hi => ?_)
  exact loadSnapshot_agree _ _ _ _ _ _ i ⟨Nat.zero_le _, by rwa [two_mul_half_density, Nat.zero_add]⟩

/-- Flash `f` holds a consistent store: the magic at the log base, a log whose replay stops
at `stop` inside the log with every later half-word erased and every entry covered, and a
replay that gives the image of `img` from any RAM contents. -/
structure Stored (f : Flash) (empty_slot : Nat) (img : Memory) : Prop where
  magic : (f c.FEE_WRITE_LOG_BASE_ADDRESS).toNat +
    0x10000 * (f (c.FEE_WRITE_LOG_BASE_ADDRESS + 2)).toNat = FEE_MAGIC_DWORD
  stop : (decodeLog f c.logSlots c.firstSlot).2 = empty_slot
  bounded : empty_slot ≤ c.FEE_WRITE_LOG_LAST_ADDRESS
  erased : ∀ a, empty_slot ≤ a → a < c.FEE_WRITE_LOG_LAST_ADDRESS → f a = FEE_EMPTY_WORD
  covered : ∀ e ∈ (decodeLog f c.logSlots c.firstSlot).1, e.Covered c f
  image : ∀ buf, c.image (replayImage c f buf).1 = c.image img

/-- The engine's representation invariant: the magic is intact, `empty_slot` lies in the log
with every log half-word from it on erased, every logged entry writes only bytes of
programmed snapshot words, and `EEPROM_Init` on the flash reproduces the RAM image and
`empty_slot`. -/
structure Inv (m : Machine) : Prop where
  magic : readWord c c.FEE_WRITE_LOG_BASE_ADDRESS m.dev = FEE_MAGIC_DWORD
  slot_low : c.firstSlot ≤ m.dev.empty_slot
  slot_high : m.dev.empty_slot ≤ c.FEE_WRITE_LOG_LAST_ADDRESS
  erased : ∀ a, m.dev.empty_slot ≤ a → a < c.FEE_WRITE_LOG_LAST_ADDRESS →
    m.dev.flash c a = FEE_EMPTY_WORD
  covered : ∀ e ∈ (decodeLog (m.dev.flash c) c.logSlots c.firstSlot).1, e.Covered c (m.dev.flash c)
  image : c.image (EEPROM_Init c m).2.DataBuf = c.image m.DataBuf
  slot : (EEPROM_Init c m).2.dev.empty_slot = m.dev.empty_slot

variable {c}

theorem Inv.stored {m : Machine} (inv : Inv c m) :
    Stored c (m.dev.flash c) m.dev.empty_slot m.DataBuf := by
  obtain ⟨image, stop, -⟩ := EEPROM_Init_of_magic c m inv.magic
  refine ⟨inv.magic, stop.symm.trans inv.slot, inv.slot_high, inv.erased, inv.covered, fun buf => ?_⟩
  rw [replayImage_image c _ buf m.DataBuf, ← image]
  exact inv.image

/-- `EEPROM_Init` on a stored flash yields the stored image and a state with the invariant. -/
theorem Stored.init {f : Flash} {s : Nat} {img : Memory} (stored : Stored c f s img)
    (m : Machine) (flash : m.dev.flash c = f) :
    c.image (EEPROM_Init c m).2.DataBuf = c.image img ∧ Inv c (EEPROM_Init c m).2 := by
  have magic : readWord c c.FEE_WRITE_LOG_BASE_ADDRESS m.dev = FEE_MAGIC_DWORD := by
    rw [readWord, flash]
    exact stored.magic
  obtain ⟨image, slot, same⟩ := EEPROM_Init_of_magic c m magic
  rw [flash] at image slot same
  simp only [replayImage, stored.stop] at slot
  obtain ⟨k, -, first⟩ := decodeLog_stop f c.logSlots c.firstSlot
  rw [stored.stop] at first
  refine ⟨by rw [image]; exact stored.image _, ?_⟩
  obtain ⟨image', slot'⟩ := EEPROM_Init_idempotent c m magic
  refine ⟨(readWord_congr c _ (same.trans flash.symm)).trans magic, by omega,
    slot ▸ stored.bounded, ?_, ?_, image', slot'⟩
  · rw [same, slot]
    exact stored.erased
  · rw [same]
    exact stored.covered

theorem Stored.inv {m : Machine} (stored : Stored c (m.dev.flash c) m.dev.empty_slot m.DataBuf) :
    Inv c m := by
  have magic : readWord c c.FEE_WRITE_LOG_BASE_ADDRESS m.dev = FEE_MAGIC_DWORD := stored.magic
  obtain ⟨image, slot, -⟩ := EEPROM_Init_of_magic c m magic
  obtain ⟨k, -, first⟩ := decodeLog_stop (m.dev.flash c) c.logSlots c.firstSlot
  rw [stored.stop] at first
  refine ⟨magic, by omega, stored.bounded, stored.erased, stored.covered, ?_, ?_⟩
  · rw [image]
    exact stored.image _
  · rw [slot]
    exact stored.stop

end Store

end PicoEeprom
