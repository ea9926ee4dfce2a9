import PicoEeprom.LogGrowth

/-! Power loss at any point of a run that never compacts. The calls of a run store their bytes
one after another, in address order within a call; a crash anywhere, in the middle of a call
included, boots with the invariant the image that some first bytes of the run make of the image
the run started from. A Word-Next entry cut between its two half-words replays to nothing, the
two byte entries of a word below `FEE_BYTE_RANGE` land one at a time, and a dword or block write
is its byte and word writes one after another. -/
namespace PicoEeprom

/-- Bytes stored one after another, each at its own address. -/
def storePairs (arr : Memory) : List (Nat × UInt8) → Memory
  | [] => arr
  | (a, b) :: rest => storePairs (Function.update arr a b) rest

/-- `bytes` paired with consecutive addresses from `a`. -/
def pairsFrom (a : Nat) : List UInt8 → List (Nat × UInt8)
  | [] => []
  | b :: bs => (a, b) :: pairsFrom (a + 1) bs

/-- The byte stores of a sequence of calls, in order. -/
def runStores : List ApiWrite → List (Nat × UInt8)
  | [] => []
  | call :: calls => pairsFrom call.address call.bytes ++ runStores calls

section Stores

variable {c : Config}

theorem storePairs_append (arr : Memory) (xs ys : List (Nat × UInt8)) :
    storePairs arr (xs ++ ys) = storePairs (storePairs arr xs) ys := by
  induction xs generalizing arr with
  | nil => rfl
  | cons p xs ih =>
    obtain ⟨a, b⟩ := p
    exact ih _

theorem storePairs_pairsFrom (arr : Memory) (a : Nat) (bytes : List UInt8) :
    storePairs arr (pairsFrom a bytes) = storeBytes arr a bytes := by
  induction bytes generalizing arr a with
  | nil => rfl
  | cons b bs ih => exact ih _ _

@[simp] theorem length_pairsFrom (a : Nat) (bytes : List UInt8) :
    (pairsFrom a bytes).length = bytes.length := by
  induction bytes generalizing a with
  | nil => rfl
  | cons b bs ih => simp only [pairsFrom, List.length_cons, ih]

theorem pairsFrom_append (a : Nat) (xs ys : List UInt8) :
    pairsFrom a (xs ++ ys) = pairsFrom a xs ++ pairsFrom (a + xs.length) ys := by
  induction xs generalizing a with
  | nil => rfl
  | cons x xs ih =>
    rw [List.cons_append, pairsFrom, pairsFrom, ih, List.length_cons,
      show a + 1 + xs.length = a + (xs.length + 1) by omega, List.cons_append]

theorem image_storePairs_congr {X Y : Memory} (same : c.image X = c.image Y) :
    ∀ ps : List (Nat × UInt8), c.image (storePairs X ps) = c.image (storePairs Y ps)
  | [] => same
  | (a, b) :: ps => image_storePairs_congr (image_storeBytes_congr same a [b]) ps

/-- Pairs at or above the end of the image leave it alone. -/
theorem image_storePairs_of_ge (X : Memory) :
    ∀ ps : List (Nat × UInt8), (∀ p ∈ ps, c.FEE_DENSITY_BYTES ≤ p.1) →
      c.image (storePairs X ps) = c.image X
  | [], _ => rfl
  | (a, b) :: ps, above => by
    rw [storePairs, image_storePairs_of_ge _ ps fun p mem => above p (List.mem_cons_of_mem _ mem)]
    exact (Config.image_eq_iff c _ _).2 fun i below =>
      Function.update_noteq (by have := above _ (List.mem_cons_self _ _); simp only at this; omega) _ _

end Stores

section Passes

variable {c : Config}

/-- Whatever RAM, driver and `empty_slot` it starts from, `EEPROM_Init` on `f` loads the image of
`img` and leaves a state with the invariant. -/
def Boots (c : Config) (f : Flash) (img : Memory) : Prop :=
  ∀ (buf : Memory) (driver : Nat → FLASH_Status) (empty_slot : Nat),
    c.image (EEPROM_Init c ⟨buf, ⟨f, [], driver, empty_slot⟩⟩).2.DataBuf = c.image img ∧
      Inv c (EEPROM_Init c ⟨buf, ⟨f, [], driver, empty_slot⟩⟩).2

theorem Stored.boots {f : Flash} {s : Nat} {img img' : Memory} (stored : Stored c f s img)
    (same : c.image img = c.image img') : Boots c f img' := fun buf driver empty_slot =>
  let ⟨image, inv⟩ := stored.init ⟨buf, ⟨f, [], driver, empty_slot⟩⟩ rfl
  ⟨image.trans same, inv⟩

/-- Run on `f`, every prefix of `ops` leaves a flash that stores the image some first bytes of
`stores` make of `X`. -/
def Passes (c : Config) (f : Flash) (ops : List FlashOp) (X : Memory) (stores : List (Nat × UInt8)) :
    Prop :=
  ∀ j, ∃ i ≤ stores.length, ∃ s img, Stored c ((ops.take j).foldl (fun f op => op.apply c f) f) s img ∧
    c.image img = c.image (storePairs X (stores.take i))

variable {f : Flash} {X : Memory}

/-- A crash-safe write passes from the image before it to the image after all its bytes. -/
theorem CrashSafe.passes {ops : List FlashOp} {old new : Memory} {s' : Nat} {stores : List (Nat × UInt8)}
    (safe : CrashSafe c f ops old new s') (before : c.image old = c.image X)
    (after : c.image new = c.image (storePairs X stores)) : Passes c f ops X stores := fun j =>
  let ⟨s, img, stored, recovered⟩ := safe.prefixes j
  recovered.elim (fun same => ⟨0, Nat.zero_le _, s, img, stored, same.trans before⟩)
    fun same => ⟨stores.length, Nat.le_refl _, s, img, stored, by rw [List.take_length]; exact same.trans after⟩

theorem Passes.append {ops₁ ops₂ : List FlashOp} {X₁ : Memory} {s₁ s₂ : List (Nat × UInt8)}
    (first : Passes c f ops₁ X s₁) (second : Passes c (ops₁.foldl (fun f op => op.apply c f) f) ops₂ X₁ s₂)
    (middle : c.image X₁ = c.image (storePairs X s₁)) : Passes c f (ops₁ ++ ops₂) X (s₁ ++ s₂) := by
  intro j
  by_cases inFirst : j ≤ ops₁.length
  · obtain ⟨i, le, s, img, stored, image⟩ := first j
    refine ⟨i, by simp only [List.length_append]; omega, s, img, ?_, ?_⟩
    · rwa [List.take_append_of_le_length inFirst]
    · rwa [List.take_append_of_le_length le]
  · obtain ⟨i, le, s, img, stored, image⟩ := second (j - ops₁.length)
    refine ⟨s₁.length + i, by simp only [List.length_append]; omega, s, img, ?_, ?_⟩
    · rwa [List.take_append_eq_append_take,
        List.take_of_length_le (show ops₁.length ≤ j by omega), List.foldl_append]
    · rw [image, List.take_append_eq_append_take,
        List.take_of_length_le (show s₁.length ≤ s₁.length + i by omega), Nat.add_sub_cancel_left,
        storePairs_append]
      exact image_storePairs_congr middle _

end Passes

/-- From `m` to `m'` the bytes `stores` are stored, and, from a store with the invariant behind a
driver that completes, if no page is erased, `m'` has the invariant and every power loss from
`m` on boots, with the invariant, the image some first bytes of `stores` make of `m`'s. -/
structure CrashStores (c : Config) (m m' : Machine) (stores : List (Nat × UInt8)) : Prop where
  appends : m.dev.trace <+: m'.dev.trace
  reboot : Inv c m → (∀ i, m.dev.driver i = .FLASH_COMPLETE) → NoErase m.dev m'.dev →
    Inv c m' ∧ (∀ i, m'.dev.driver i = .FLASH_COMPLETE) ∧ m'.dev.initial = m.dev.initial ∧
      c.image m'.DataBuf = c.image (storePairs m.DataBuf stores) ∧
      ∀ k, m.dev.trace.length ≤ k → ∃ j ≤ stores.length,
        Boots c (m'.dev.flashAt c k) (storePairs m.DataBuf (stores.take j))

namespace CrashStores

variable {c : Config} {m m' m'' : Machine} {s₁ s₂ stores : List (Nat × UInt8)}

theorem flashAt_of_appends {d d' : Device} (appends : d.trace <+: d'.trace) (initial : d'.initial = d.initial)
    {k : Nat} (within : k ≤ d.trace.length) : d'.flashAt c k = d.flashAt c k := by
  obtain ⟨t, trace⟩ := appends
  rw [Device.flashAt, Device.flashAt, ← trace, List.take_append_of_le_length within, initial]

theorem foldl_of_reads (f : Flash) :
    ∀ reads : List FlashOp, (∀ op ∈ reads, ∃ a w, op = .read a w) →
      reads.foldl (fun f op => op.apply c f) f = f
  | [], _ => rfl
  | op :: reads, only => by
    obtain ⟨a, w, rfl⟩ := only op (List.mem_cons_self _ _)
    exact foldl_of_reads f reads fun op mem => only op (List.mem_cons_of_mem _ mem)

/-- A step that only loads, and stores nothing the image shows: every power loss from it on
boots the image it started from. -/
theorem of_reads (appends : m.dev.trace <+: m'.dev.trace)
    (same : Inv c m → (∀ i, m.dev.driver i = .FLASH_COMPLETE) → NoErase m.dev m'.dev →
      Inv c m' ∧ (∀ i, m'.dev.driver i = .FLASH_COMPLETE) ∧ m'.dev.initial = m.dev.initial ∧
        c.image m'.DataBuf = c.image m.DataBuf ∧
        ∃ reads, m'.dev.trace = m.dev.trace ++ reads ∧ ∀ op ∈ reads, ∃ a w, op = .read a w)
    (unseen : c.image (storePairs m.DataBuf stores) = c.image m.DataBuf) : CrashStores c m m' stores := by
  refine ⟨appends, fun inv complete noErase => ?_⟩
  obtain ⟨inv', complete', initial, image, reads, trace, only⟩ := same inv complete noErase
  refine ⟨inv', complete', initial, image.trans unseen.symm, fun k after => ⟨0, Nat.zero_le _, ?_⟩⟩
  have flash : m'.dev.flashAt c k = m.dev.flash c := by
    rw [Device.flashAt, trace, List.take_append_eq_append_take, List.take_of_length_le after,
      List.foldl_append, initial, ← Device.flash]
    exact foldl_of_reads _ _ fun op mem => only op (List.mem_of_mem_take mem)
  rw [flash]
  exact inv.stored.boots rfl

theorem refl (m : Machine) : CrashStores c m m [] :=
  of_reads (List.prefix_refl _)
    (fun inv complete _ => ⟨inv, complete, rfl, rfl, [], (List.append_nil _).symm, fun _ h => nomatch h⟩) rfl

/-- A step that stores nothing the image shows. -/
theorem unseen (m : Machine) (unseen : c.image (storePairs m.DataBuf stores) = c.image m.DataBuf) :
    CrashStores c m m stores :=
  of_reads (List.prefix_refl _)
    (fun inv complete _ => ⟨inv, complete, rfl, rfl, [], (List.append_nil _).symm, fun _ h => nomatch h⟩) unseen

theorem trans (first : CrashStores c m m' s₁) (second : CrashStores c m' m'' s₂) :
    CrashStores c m m'' (s₁ ++ s₂) := by
  refine ⟨first.appends.trans second.appends, fun inv complete noErase => ?_⟩
  obtain ⟨noErase₁, noErase₂⟩ := noErase.split first.appends second.appends
  obtain ⟨inv', complete', initial', image', crash₁⟩ := first.reboot inv complete noErase₁
  obtain ⟨inv'', complete'', initial'', image'', crash₂⟩ := second.reboot inv' complete' noErase₂
  refine ⟨inv'', complete'', initial''.trans initial', ?_, fun k after => ?_⟩
  · rw [image'', storePairs_append]
    exact image_storePairs_congr image' _
  by_cases within : k ≤ m'.dev.trace.length
  · obtain ⟨j, le, boots⟩ := crash₁ k after
    refine ⟨j, by simp only [List.length_append]; omega, ?_⟩
    rw [flashAt_of_appends second.appends initial'' within, List.take_append_of_le_length le]
    exact boots
  · obtain ⟨j, le, boots⟩ := crash₂ k (by omega)
    refine ⟨s₁.length + j, by simp only [List.length_append]; omega, fun buf driver empty_slot => ?_⟩
    rw [List.take_append_eq_append_take, List.take_of_length_le (show s₁.length ≤ s₁.length + j by omega),
      Nat.add_sub_cancel_left, storePairs_append]
    obtain ⟨image, inv⟩ := boots buf driver empty_slot
    exact ⟨image.trans (image_storePairs_congr image' _), inv⟩

/-- A step that extends the trace by operations passing through the images some first bytes of
`stores` make, and ends in a store of the image all of them make. -/
theorem of_passes (appends : m.dev.trace <+: m'.dev.trace)
    (step : Inv c m → (∀ i, m.dev.driver i = .FLASH_COMPLETE) → NoErase m.dev m'.dev →
      ∃ ops, m.dev.Extends m'.dev ops ∧ Passes c (m.dev.flash c) ops m.DataBuf stores ∧
        Stored c (m'.dev.flash c) m'.dev.empty_slot m'.DataBuf)
    (image : c.image m'.DataBuf = c.image (storePairs m.DataBuf stores)) : CrashStores c m m' stores := by
  refine ⟨appends, fun inv complete noErase => ?_⟩
  obtain ⟨ops, ext, passes, stored⟩ := step inv complete noErase
  refine ⟨stored.inv, fun i => ext.driver ▸ complete i, ext.initial, image, fun k after => ?_⟩
  obtain ⟨j, le, s, img, stored', same⟩ := passes (k - m.dev.trace.length)
  exact ⟨j, le, by rw [ext.flashAt c after]; exact stored'.boots same⟩

/-- A crash-safe step that stores `stores`. -/
theorem of_safe (appends : m.dev.trace <+: m'.dev.trace)
    (step : Inv c m → (∀ i, m.dev.driver i = .FLASH_COMPLETE) → NoErase m.dev m'.dev →
      ∃ ops, m.dev.Extends m'.dev ops ∧
        CrashSafe c (m.dev.flash c) ops m.DataBuf m'.DataBuf m'.dev.empty_slot)
    (image : c.image m'.DataBuf = c.image (storePairs m.DataBuf stores)) : CrashStores c m m' stores :=
  of_passes appends (fun inv complete noErase =>
    let ⟨ops, ext, safe⟩ := step inv complete noErase
    ⟨ops, ext, safe.passes rfl image, ext.flash c ▸ safe.final⟩) image

end CrashStores

section ByteRange

variable {c : Config} {d : Device} {X : Memory}

/-- One byte step of a word write below `FEE_BYTE_RANGE` passes from the image to the image with
the byte stored. -/
theorem log_byte_step_passes (buf : Memory) (stored : Stored c (d.flash c) d.empty_slot X)
    (complete : ∀ i, d.driver i = .FLASH_COMPLETE) {A : Nat} (byte : A < FEE_BYTE_RANGE)
    (range : A < c.FEE_DENSITY_BYTES)
    (programmed : d.flash c (c.FEE_COMPACTED_BASE_ADDRESS + (A - A % 2)) ≠ FEE_EMPTY_WORD)
    (changed : Prop) [Decidable changed]
    (noErase : NoErase d
      (if changed then eeprom_write_log_byte_entry c buf A d else (some .FLASH_COMPLETE, d)).2) :
    ∃ ops, d.Extends
        (if changed then eeprom_write_log_byte_entry c buf A d else (some .FLASH_COMPLETE, d)).2 ops ∧
      Passes c (d.flash c) ops X [(A, buf A)] := by
  by_cases isChanged : changed
  · simp only [if_pos isChanged] at noErase ⊢
    have room := log_byte_entry_room c buf d A stored.pages noErase
    obtain ⟨v, ext, appended⟩ := log_byte_entry_appended buf stored complete byte range programmed room
    have step := FlashOp.apply_program_erased (c := c) v (stored.erased _ (Nat.le_refl _) room)
    refine ⟨_, ext, fun j => ?_⟩
    rcases j with _ | _ | j
    · exact ⟨0, Nat.zero_le _, _, _, stored, rfl⟩
    · exact ⟨0, Nat.zero_le _, _, _, by simpa using stored, rfl⟩
    · refine ⟨1, Nat.le_refl _, (eeprom_write_log_byte_entry c buf A d).2.empty_slot,
        (LogEntry.byte A (buf A)).apply c X, ?_, rfl⟩
      rcases j with _ | j <;> simpa [step] using appended
  · rw [if_neg isChanged]
    exact ⟨[], ⟨rfl, rfl, (List.append_nil _).symm⟩,
      fun _ => ⟨0, Nat.zero_le _, _, _, by simpa using stored, rfl⟩⟩

/-- The word path below `FEE_BYTE_RANGE` passes from the image through the image with the low
byte stored to the image with both: the direct write of an erased snapshot word stores both at
once, the byte entries one at a time. -/
theorem persistWord_byte_range_passes (stored : Stored c (d.flash c) d.empty_slot X)
    (complete : ∀ i, d.driver i = .FLASH_COMPLETE) {A : Nat} (v : UInt16) (even : A % 2 = 0)
    (byte : A < FEE_BYTE_RANGE) (range : A < c.FEE_DENSITY_BYTES)
    (noErase : NoErase d (persistWord c (wordAt X A) v (storeWord X A v.toNat) A d).2) :
    ∃ ops, d.Extends (persistWord c (wordAt X A) v (storeWord X A v.toNat) A d).2 ops ∧
      Passes c (d.flash c) ops X (pairsFrom A (leBytes v.toNat 2)) := by
  have small : A < 0x80 := byte
  have even' := c.density_even
  have word : A &&& 0xFFFE = A := by
    rw [and_fffe (by omega)]
    omega
  by_cases erased : d.flash c (c.FEE_COMPACTED_BASE_ADDRESS + (A &&& 0xFFFE)) = FEE_EMPTY_WORD
  · obtain ⟨ops, ext, safe⟩ := safe_direct_entry (storeWord X A v.toNat) stored complete A
      (by omega) (by omega) erased
    rw [word, wordAt_storeWord _ _ _ v.toNat_lt_size] at safe
    rw [persistWord_of_erased _ _ erased]
    exact ⟨ops, ext, safe.passes rfl (by rw [storePairs_pairsFrom, ← storeWord_eq_storeBytes])⟩
  have below : c.FEE_COMPACTED_BASE_ADDRESS + A < c.FEE_WRITE_LOG_BASE_ADDRESS := by
    unfold Config.FEE_WRITE_LOG_BASE_ADDRESS Config.FEE_COMPACTED_LAST_ADDRESS
    omega
  have half : A - A % 2 = A := by omega
  simp only [persistWord, direct_entry_of_programmed c _ d A erased, if_true, if_pos byte] at noErase ⊢
  set d₀ := load (c.FEE_COMPACTED_BASE_ADDRESS + (A &&& 0xFFFE)) 2 d
  set buf := storeWord X A v.toNat
  set low := if wordAt X A % 256 ≠ v.toNat % 256 then eeprom_write_log_byte_entry c buf A d₀
    else (some .FLASH_COMPLETE, d₀)
  have loaded := Device.Extends.load d (c.FEE_COMPACTED_BASE_ADDRESS + (A &&& 0xFFFE)) 2
  have lowIssued := (byte_step_reports c buf d₀ (wordAt X A % 256 ≠ v.toNat % 256) A stored.pages).1
  have highIssued :=
    (byte_step_reports c buf low.2 (wordAt X A >>> 8 ≠ v.toNat >>> 8) (A + 1) stored.pages).1
  obtain ⟨-, noErase₂⟩ := noErase.split ⟨_, rfl⟩ (lowIssued.appends.trans highIssued.appends)
  obtain ⟨noErase₁, noErase₂⟩ := noErase₂.split lowIssued.appends highIssued.appends
  have programmed : d₀.flash c (c.FEE_COMPACTED_BASE_ADDRESS + (A - A % 2)) ≠ FEE_EMPTY_WORD := by
    rwa [flash_load, half, ← word]
  have stored₀ : Stored c (d₀.flash c) d₀.empty_slot X := by rwa [flash_load]
  obtain ⟨stored₁, driver₁, -, frame₁⟩ := log_byte_step_stored buf stored₀ complete byte range programmed _
    (fun same => by
      show X A = storeWord X A v.toNat A
      rw [storeWord_apply, if_neg (by omega), if_pos rfl, ← ofNat_wordAt X A]
      exact uint8_ofNat_congr (not_not.1 same)) noErase₁
  obtain ⟨ops₁, ext₁, passes₁⟩ := log_byte_step_passes buf stored₀ complete byte range programmed _ noErase₁
  obtain ⟨ops₂, ext₂, passes₂⟩ := log_byte_step_passes buf stored₁ (fun i => driver₁ ▸ complete i)
    (show A + 1 < FEE_BYTE_RANGE by unfold FEE_BYTE_RANGE; omega) (by omega)
    (by rwa [show A + 1 - (A + 1) % 2 = A - A % 2 by omega, frame₁ _ (by omega)]) _ noErase₂
  have bytes : pairsFrom A (leBytes v.toNat 2) = [] ++ [(A, buf A)] ++ [(A + 1, buf (A + 1))] := by
    simp [buf, storeWord_apply, leBytes_two, pairsFrom, Nat.shiftRight_eq_div_pow]
  refine ⟨[.read _ 2] ++ ops₁ ++ ops₂, (loaded.trans ext₁).trans ext₂, ?_⟩
  rw [bytes]
  have read : Passes c (d.flash c) [.read (c.FEE_COMPACTED_BASE_ADDRESS + (A &&& 0xFFFE)) 2] X [] :=
    (CrashSafe.load stored rfl _ 2).passes rfl rfl
  refine ((read.append ?_ rfl).append ?_ rfl)
  · rw [← loaded.flash c]
    exact passes₁
  · rw [← (loaded.trans ext₁).flash c]
    exact passes₂

end ByteRange

section Writes

variable {c : Config}

theorem writeDataByte_crashStores (Address : Nat) (DataByte : UInt8) (m : Machine) :
    CrashStores c m (EEPROM_WriteDataByte c Address DataByte m).2 [(Address, DataByte)] := by
  by_cases range : Address < c.FEE_DENSITY_BYTES
  · refine .of_safe (writeDataByte_reports m DataByte range).appends (fun inv complete noErase =>
      writeDataByte_safe inv complete DataByte range noErase) ?_
    rw [EEPROM_WriteDataByte_DataBuf, if_pos range]
    rfl
  · rw [writeDataByte_of_ge DataByte m (Nat.not_lt.1 range)]
    exact .unseen m (image_storePairs_of_ge _ _ (by simpa using Nat.not_lt.1 range))

/-- Word writes store their low byte, then their high byte: at once through a Word-Next entry
or the whole half-word, one at a time through two byte entries or two byte writes. -/
theorem writeDataWord_crashStores (Address : Nat) (DataWord : UInt16) (m : Machine) :
    CrashStores c m (EEPROM_WriteDataWord c Address DataWord m).2
      (pairsFrom Address (leBytes DataWord.toNat 2)) := by
  by_cases range : Address < c.FEE_DENSITY_BYTES
  · by_cases odd : Address % 2 = 1
    · rw [writeDataWord_of_odd DataWord m range odd]
      exact (writeDataByte_crashStores _ _ m).trans (writeDataByte_crashStores _ _ _)
    have even : Address % 2 = 0 := by omega
    have appends := (writeDataWord_even_reports m DataWord range even).appends
    have whole : c.image (storeWord m.DataBuf Address DataWord.toNat) =
        c.image (storePairs m.DataBuf (pairsFrom Address (leBytes DataWord.toNat 2))) := by
      rw [storePairs_pairsFrom, storeWord_eq_storeBytes]
    by_cases same : wordAt m.DataBuf Address = DataWord.toNat
    · rw [writeDataWord_of_same range even same]
      exact .unseen m (by rw [← whole, ← same, storeWord_wordAt])
    by_cases low : FEE_BYTE_RANGE ≤ Address
    · refine .of_safe appends (fun inv complete noErase =>
        writeDataWord_safe inv complete DataWord even low range noErase) ?_
      rw [EEPROM_WriteDataWord_DataBuf _ _ _ (by have := c.density_even; omega)]
      exact whole
    · rw [writeDataWord_of_ne range even same] at appends ⊢
      refine .of_passes appends (fun inv complete noErase => ?_) whole
      obtain ⟨ops, ext, passes⟩ := persistWord_byte_range_passes inv.stored complete DataWord even
        (Nat.not_le.1 low) range noErase
      exact ⟨ops, ext, passes, (persistWord_byte_range_stored inv.stored complete DataWord even
        (Nat.not_le.1 low) range noErase).1⟩
  · rw [writeDataWord_of_ge DataWord m (Nat.not_lt.1 range)]
    exact .unseen m (image_storePairs_of_ge _ _ (by simp [pairsFrom, leBytes_two]; omega))

/-- With the magic, a reboot only loads: a power loss during it boots the image it found. -/
theorem EEPROM_Init_crashStores (m : Machine) : CrashStores c m (EEPROM_Init c m).2 [] :=
  .of_reads (EEPROM_Init_appends m).1 (fun inv complete _ =>
    ⟨(inv.stored.init m rfl).2, fun i => (EEPROM_Init_appends m).2 ▸ complete i,
      (EEPROM_Init_reads m inv.magic).1, (inv.stored.init m rfl).1, (EEPROM_Init_reads m inv.magic).2⟩) rfl

theorem eeprom_write_byte_crashStores {a : Nat} (v : UInt8) (m : Machine) (range : a < c.FEE_DENSITY_BYTES) :
    CrashStores c m (eeprom_write_byte c a v m) (pairsFrom a [v]) := by
  rw [eeprom_write_byte, address16_of_lt c range]
  exact writeDataByte_crashStores a v m

theorem eeprom_write_word_crashStores {a : Nat} (v : UInt16) (m : Machine)
    (range : a + 2 ≤ c.FEE_DENSITY_BYTES) :
    CrashStores c m (eeprom_write_word c a v m) (pairsFrom a (leBytes v.toNat 2)) := by
  rw [eeprom_write_word, address16_of_lt c (by omega)]
  exact writeDataWord_crashStores a v m

/-- A dword write is a byte, a word and a byte write at an odd address, two word writes at an
even one, and stores its four bytes in order either way. -/
theorem eeprom_write_dword_crashStores {a : Nat} (v : UInt32) (m : Machine)
    (range : a + 4 ≤ c.FEE_DENSITY_BYTES) :
    CrashStores c m (eeprom_write_dword c a v m) (pairsFrom a (leBytes v.toNat 4)) := by
  have split : leBytes v.toNat 4 = [UInt8.ofNat v.toNat] ++
      (leBytes (UInt16.ofNat (v.toNat >>> 8)).toNat 2 ++ [UInt8.ofNat (v.toNat >>> 24)]) := by
    simp only [leBytes_four, leBytes_two, ofNat_uint16_byte, ofNat_uint16_high, List.singleton_append,
      List.cons_append, List.nil_append, ← Nat.shiftRight_add]
  have even : leBytes v.toNat 4 =
      leBytes (UInt16.ofNat v.toNat).toNat 2 ++ leBytes (UInt16.ofNat (v.toNat >>> 16)).toNat 2 := by
    simp only [leBytes_four, leBytes_two, ofNat_uint16_byte, ofNat_uint16_high, List.cons_append,
      List.nil_append, ← Nat.shiftRight_add]
  unfold eeprom_write_dword
  rw [address16_of_lt c (show a < c.FEE_DENSITY_BYTES by omega)]
  dsimp only
  split_ifs with odd
  · rw [address16_of_lt c (show a + 1 < _ by omega), address16_of_lt c (show a + 3 < _ by omega), split,
      pairsFrom_append, pairsFrom_append]
    exact (writeDataByte_crashStores _ _ m).trans
      ((writeDataWord_crashStores _ _ _).trans (writeDataByte_crashStores _ _ _))
  · rw [address16_of_lt c (show a + 2 < _ by omega), even, pairsFrom_append]
    exact (writeDataWord_crashStores _ _ m).trans (writeDataWord_crashStores _ _ _)

theorem writeBlockLoop_crashStores (mem : Memory) (aligned : Bool) :
    ∀ (len dest src : Nat) (m : Machine), dest + len ≤ c.FEE_DENSITY_BYTES →
      CrashStores c m (writeBlockLoop c mem aligned len dest src m) (pairsFrom dest (spanOf mem src len))
  | len + 2, dest, src, m, range => by
    have value : (if aligned then wordAt mem src
        else (mem src).toNat ||| (mem (src + 1)).toNat <<< 8) = wordAt mem src := by
      split <;> simp only [or_shift_eq_wordAt]
    have word := eeprom_write_word_crashStores (UInt16.ofNat (wordAt mem src)) m
      (show dest + 2 ≤ c.FEE_DENSITY_BYTES by omega)
    rw [leBytes_wordAt] at word
    rw [writeBlockLoop, value, spanOf_succ, spanOf_succ]
    exact word.trans (writeBlockLoop_crashStores mem aligned len (dest + 2) (src + 2) _ (by omega))
  | 1, dest, src, m, range => eeprom_write_byte_crashStores _ _ (by omega)
  | 0, _, _, m, _ => .refl m

theorem eeprom_write_block_crashStores (mem : Memory) (buf a len : Nat) (m : Machine)
    (range : a + len ≤ c.FEE_DENSITY_BYTES) :
    CrashStores c m (eeprom_write_block c mem buf a len m) (pairsFrom a (spanOf mem buf len)) := by
  unfold eeprom_write_block
  split_ifs with first
  · obtain ⟨n, rfl⟩ : ∃ n, len = n + 1 := ⟨len - 1, by omega⟩
    rw [spanOf_succ, Nat.add_sub_cancel]
    exact (eeprom_write_byte_crashStores _ m (by omega)).trans
      (writeBlockLoop_crashStores _ _ _ _ _ _ (by omega))
  · exact writeBlockLoop_crashStores _ _ _ _ _ _ range

/-- Every call of the AVR-style API inside the range stores its bytes in address order. -/
theorem ApiWrite.crashStores (call : ApiWrite) (m : Machine)
    (range : call.address + call.bytes.length ≤ c.FEE_DENSITY_BYTES) :
    CrashStores c m (call.run c m) (pairsFrom call.address call.bytes) := by
  cases call with
  | write_byte a v | update_byte a v => exact eeprom_write_byte_crashStores v m range
  | write_word a v | update_word a v => exact eeprom_write_word_crashStores v m range
  | write_dword a v | update_dword a v => exact eeprom_write_dword_crashStores v m range
  | write_block mem buf a len | update_block mem buf a len =>
    exact eeprom_write_block_crashStores mem buf a len m (by simpa [ApiWrite.bytes, spanOf] using range)

theorem runEvents_crashStores : ∀ (events : List Event) (m : Machine),
    (∀ call ∈ writeCalls events, call.address + call.bytes.length ≤ c.FEE_DENSITY_BYTES) →
      CrashStores c m (runEvents c events m) (runStores (writeCalls events))
  | [], m, _ => .refl m
  | .call write :: events, m, inRange =>
    (write.crashStores m (inRange write (List.mem_cons_self _ _))).trans
      (runEvents_crashStores events _ fun call mem => inRange call (List.mem_cons_of_mem _ mem))
  | .reboot :: events, m, inRange => (EEPROM_Init_crashStores m).trans (runEvents_crashStores events _ inRange)

/-- Crash consistency of every run that never compacts: from a store with the invariant behind
a driver that completes, a power loss at any position of the run's trace, inside a call or a
reboot included, boots, whatever RAM, driver and `empty_slot` it boots with, into a state with
the invariant whose image is the one some first byte stores of the run's write calls, taken in
order, make of the image the run started from. -/
theorem runs_without_compaction_crash_consistent (events : List Event) (m : Machine) (inv : Inv c m)
    (complete : ∀ i, m.dev.driver i = .FLASH_COMPLETE)
    (noCompaction : ∀ op ∈ (runEvents c events m).dev.trace.drop m.dev.trace.length, op.isErase = false)
    (inRange : ∀ call ∈ writeCalls events, call.address + call.bytes.length ≤ c.FEE_DENSITY_BYTES)
    {k : Nat} (after : m.dev.trace.length ≤ k) :
    ∃ j ≤ (runStores (writeCalls events)).length,
      ∀ (buf : Memory) (driver : Nat → FLASH_Status) (empty_slot : Nat),
        c.image (EEPROM_Init c ⟨buf, ⟨(runEvents c events m).dev.flashAt c k, [], driver, empty_slot⟩⟩).2.DataBuf =
          c.image (storePairs m.DataBuf ((runStores (writeCalls events)).take j)) ∧
        Inv c (EEPROM_Init c ⟨buf, ⟨(runEvents c events m).dev.flashAt c k, [], driver, empty_slot⟩⟩).2 :=
  ((runEvents_crashStores events m inRange).reboot inv complete noCompaction).2.2.2.2 k after

theorem runs_without_compaction_crash_consistent_small :
    ∃ j ≤ (runStores (writeCalls [.call (.write_byte 0 1), .reboot, .call (.write_word 0 0x0304)])).length,
      ∀ (buf : Memory) (driver : Nat → FLASH_Status) (empty_slot : Nat),
        Config.small.image (EEPROM_Init Config.small ⟨buf, ⟨(runEvents Config.small
          [.call (.write_byte 0 1), .reboot, .call (.write_word 0 0x0304)]
          (EEPROM_Erase Config.small Machine.erased)).dev.flashAt Config.small
          ((EEPROM_Erase Config.small Machine.erased).dev.trace.length + 5), [], driver, empty_slot⟩⟩).2.DataBuf =
          Config.small.image (storePairs (EEPROM_Erase Config.small Machine.erased).DataBuf
            ((runStores (writeCalls [.call (.write_byte 0 1), .reboot, .call (.write_word 0 0x0304)])).take j)) ∧
        Inv Config.small (EEPROM_Init Config.small ⟨buf, ⟨(runEvents Config.small
          [.call (.write_byte 0 1), .reboot, .call (.write_word 0 0x0304)]
          (EEPROM_Erase Config.small Machine.erased)).dev.flashAt Config.small
          ((EEPROM_Erase Config.small Machine.erased).dev.trace.length + 5), [], driver, empty_slot⟩⟩).2 :=
  runs_without_compaction_crash_consistent [.call (.write_byte 0 1), .reboot, .call (.write_word 0 0x0304)]
    (EEPROM_Erase Config.small Machine.erased)
    ((eeprom_clear_stored Config.small Machine.erased.dev (fun _ => rfl) (by decide)).init
      ⟨Machine.erased.DataBuf, eeprom_clear Config.small Machine.erased.dev⟩ rfl).2
    (fun _ => rfl) (by decide) (by decide) (Nat.le_add_right _ 5)

end Writes

end PicoEeprom
