import PicoEeprom.Cache
import PicoEeprom.Transitions

/-! The statuses the writes answer. Every status a write returns is one that a
`FLASH_ProgramHalfWord` call of the write returned; `eeprom_clear` drops the statuses of its
two magic programs, which follow its page erases, and every other program call is
reported. The merges of the source keep a failing status over `FLASH_COMPLETE`, so a write
answers `none` or `FLASH_COMPLETE` exactly when every reported call completed, except the
odd-address word write: when its second byte is unchanged it answers the second byte
write's `0` and drops a failure of the first. -/
namespace PicoEeprom

/-- Only page erases answer `true`; a write that does not compact issues none. -/
def FlashOp.isErase : FlashOp → Bool
  | .erasePage _ => true
  | _ => false

/-- No page erase among the operations that take `d` to `d'`: no compaction ran. -/
def NoErase (d d' : Device) : Prop := ∀ op ∈ d'.trace.drop d.trace.length, op.isErase = false

theorem NoErase.split {d d' d'' : Device} (h : NoErase d d'') (first : d.trace <+: d'.trace)
    (second : d'.trace <+: d''.trace) : NoErase d d' ∧ NoErase d' d'' := by
  obtain ⟨ops, t₁⟩ := first
  obtain ⟨ops', t₂⟩ := second
  have whole : d''.trace.drop d.trace.length = ops ++ ops' := by
    rw [← t₂, ← t₁, List.append_assoc, List.drop_left]
  refine ⟨fun op mem => h op ?_, fun op mem => h op ?_⟩
  · rw [← t₁, List.drop_left] at mem
    exact whole ▸ List.mem_append_left _ mem
  · rw [← t₂, List.drop_left] at mem
    exact whole ▸ List.mem_append_right _ mem

theorem NoErase.load {d d' : Device} (h : NoErase d d') (addr width : Nat) :
    NoErase (load addr width d) d' := fun op mem => h op (by
  rw [PicoEeprom.load, Device.trace_record, List.length_append, ← List.drop_drop] at mem
  exact List.mem_of_mem_drop mem)

/-- A driver call that programs a half-word. -/
def FlashOp.isProgram : FlashOp → Bool
  | .programHalfWord _ _ _ => true
  | _ => false

/-- The statuses of the program calls among `ops` that the engine reports. A page erase is
followed by `eeprom_clear`'s two magic programs, whose statuses it drops: `skip` counts the
programs still to pass over. -/
def reportedStatuses : (skip : Nat) → List FlashOp → List FLASH_Status
  | _, [] => []
  | _, .read _ _ :: ops => reportedStatuses 0 ops
  | _, .unlock :: ops => reportedStatuses 0 ops
  | _, .lock :: ops => reportedStatuses 0 ops
  | _, .erasePage _ :: ops => reportedStatuses 2 ops
  | 0, .programHalfWord _ _ status :: ops => status :: reportedStatuses 0 ops
  | skip + 1, .programHalfWord _ _ _ :: ops => reportedStatuses skip ops

section Reported

variable (k : Nat) (ops : List FlashOp)

@[simp] theorem reportedStatuses_read (addr width : Nat) :
    reportedStatuses k (.read addr width :: ops) = reportedStatuses 0 ops := by cases k <;> rfl

@[simp] theorem reportedStatuses_unlock : reportedStatuses k (.unlock :: ops) = reportedStatuses 0 ops := by
  cases k <;> rfl

@[simp] theorem reportedStatuses_lock : reportedStatuses k (.lock :: ops) = reportedStatuses 0 ops := by
  cases k <;> rfl

@[simp] theorem reportedStatuses_erasePage (addr : Nat) :
    reportedStatuses k (.erasePage addr :: ops) = reportedStatuses 2 ops := by cases k <;> rfl

@[simp] theorem reportedStatuses_program (addr : Nat) (value : UInt16) (status : FLASH_Status) :
    reportedStatuses 0 (.programHalfWord addr value status :: ops) = status :: reportedStatuses 0 ops :=
  rfl

@[simp] theorem reportedStatuses_program_skip (addr : Nat) (value : UInt16) (status : FLASH_Status) :
    reportedStatuses (k + 1) (.programHalfWord addr value status :: ops) = reportedStatuses k ops :=
  rfl

/-- Operations that start with no program call are read from a clean count. -/
theorem reportedStatuses_append (k : Nat) (xs ys : List FlashOp)
    (first : ∀ op ∈ ys.head?, op.isProgram = false) :
    reportedStatuses k (xs ++ ys) = reportedStatuses k xs ++ reportedStatuses 0 ys := by
  induction xs generalizing k with
  | nil =>
    rcases ys with _ | ⟨op, ys⟩
    · cases k <;> rfl
    · have := first op rfl
      cases op <;> cases k <;> first | rfl | cases this
  | cons op xs ih =>
    rw [List.cons_append]
    cases op <;> cases k <;> simp only [reportedStatuses, ih, List.cons_append]

/-- After a run of page erases the next two programs are passed over. -/
theorem reportedStatuses_erases (k : Nat) :
    ∀ (erases : List FlashOp), erases ≠ [] → (∀ op ∈ erases, op.isErase = true) →
      ∀ ys, reportedStatuses k (erases ++ ys) = reportedStatuses 2 ys
  | [], nonempty, _, _ => absurd rfl nonempty
  | op :: erases, _, all, ys => by
    obtain ⟨a, rfl⟩ : ∃ a, op = .erasePage a := by
      have := all op (List.mem_cons_self _ _)
      cases op <;> first | exact ⟨_, rfl⟩ | cases this
    rw [List.cons_append, reportedStatuses_erasePage]
    rcases erases with _ | ⟨op', erases⟩
    · rfl
    · exact reportedStatuses_erases 2 (op' :: erases) (List.cons_ne_nil _ _)
        (fun op mem => all op (List.mem_cons_of_mem _ mem)) ys

end Reported

section Reports

/-- `status` answers for the call statuses `L`: a failing status is one of them, and when all
of them completed the status is `none` or `FLASH_COMPLETE`. -/
structure Reports (status : Option FLASH_Status) (L : List FLASH_Status) : Prop where
  failing : ∀ s, status = some s → s ≠ .FLASH_COMPLETE → s ∈ L
  complete : (∀ s ∈ L, s = .FLASH_COMPLETE) → status = none ∨ status = some .FLASH_COMPLETE

/-- `status` answers for `L` exactly: a failure among them is not lost either. -/
structure ReportsExactly (status : Option FLASH_Status) (L : List FLASH_Status) extends
    Reports status L : Prop where
  lost : (∃ s ∈ L, s ≠ .FLASH_COMPLETE) → ∃ s, status = some s ∧ s ≠ .FLASH_COMPLETE

variable {status status' : Option FLASH_Status} {L L' : List FLASH_Status}

theorem ReportsExactly.none_nil : ReportsExactly none [] :=
  ⟨⟨fun _ h => (nomatch h), fun _ => .inl rfl⟩, fun ⟨_, mem, _⟩ => (nomatch mem)⟩

theorem ReportsExactly.complete_nil : ReportsExactly (some .FLASH_COMPLETE) [] :=
  ⟨⟨fun _ h ne => absurd (Option.some.inj h).symm ne, fun _ => .inr rfl⟩,
    fun ⟨_, mem, _⟩ => (nomatch mem)⟩

/-- Every call completed when the status says so. -/
theorem ReportsExactly.all_complete (h : ReportsExactly status L)
    (ok : status = none ∨ status = some .FLASH_COMPLETE) : ∀ s ∈ L, s = .FLASH_COMPLETE := by
  intro s mem
  by_contra failed
  obtain ⟨s', answered, failing⟩ := h.lost ⟨s, mem, failed⟩
  rcases ok with ok | ok <;> rw [ok] at answered
  · cases answered
  · exact failing (Option.some.inj answered).symm

/-- Calls that all completed before a reported step change nothing. -/
theorem ReportsExactly.append_of_ok (first : ReportsExactly status L)
    (ok : status = none ∨ status = some .FLASH_COMPLETE) (second : ReportsExactly status' L') :
    ReportsExactly status' (L ++ L') := by
  have done := first.all_complete ok
  refine ⟨⟨fun s h ne => List.mem_append_right _ (second.failing s h ne), fun all =>
    second.complete fun s mem => all s (List.mem_append_right _ mem)⟩, fun ⟨s, mem, failed⟩ => ?_⟩
  rcases List.mem_append.1 mem with old | new
  · exact absurd (done s old) failed
  · exact second.lost ⟨s, new, failed⟩

/-- One more call merged by `if s ≠ FLASH_COMPLETE then s else final`, as `compactLoop` and
the Word-Next append do. -/
theorem ReportsExactly.step {final : FLASH_Status} (h : ReportsExactly (some final) L)
    (s : FLASH_Status) :
    ReportsExactly (some (if s ≠ .FLASH_COMPLETE then s else final)) (L ++ [s]) := by
  by_cases done : s = .FLASH_COMPLETE
  · rw [if_neg (not_not.2 done)]
    refine ⟨⟨fun s' answered ne => List.mem_append_left _ (h.failing s' answered ne), fun all =>
      h.complete fun s mem => all s (List.mem_append_left _ mem)⟩, fun ⟨s', mem, failed⟩ => ?_⟩
    rcases List.mem_append.1 mem with old | new
    · exact h.lost ⟨s', old, failed⟩
    · exact absurd ((List.mem_singleton.1 new).trans done) failed
  · rw [if_pos done]
    exact ⟨⟨fun s' answered _ => by rw [← Option.some.inj answered]; simp, fun all =>
      absurd (all s (by simp)) done⟩, fun _ => ⟨s, rfl, done⟩⟩

theorem ReportsExactly.call (s : FLASH_Status) : ReportsExactly (some s) [s] := by
  have h := ReportsExactly.complete_nil.step s
  rw [List.nil_append] at h
  by_cases done : s = .FLASH_COMPLETE
  · rwa [if_neg (not_not.2 done), ← done] at h
  · rwa [if_pos done] at h

/-- The fold of `compactLoop` over the statuses of its calls. -/
theorem ReportsExactly.fold : ∀ (L' : List FLASH_Status) {final : FLASH_Status} {L : List FLASH_Status},
    ReportsExactly (some final) L → ReportsExactly
      (some (L'.foldl (fun final s => if s ≠ .FLASH_COMPLETE then s else final) final)) (L ++ L')
  | [], _, _, h => by simpa using h
  | s :: L', _, _, h => by simpa using ReportsExactly.fold L' (h.step s)

/-- Two results merged by `if second ≠ some FLASH_COMPLETE then second else first`, as the
word writes merge their two byte steps. -/
theorem Reports.merge (first : Reports status L) (second : Reports status' L') :
    Reports (if status' ≠ some .FLASH_COMPLETE then status' else status) (L ++ L') := by
  refine ⟨fun s h ne => ?_, fun all => ?_⟩
  · split at h
    · exact List.mem_append_right _ (second.failing s h ne)
    · exact List.mem_append_left _ (first.failing s h ne)
  · have old := first.complete fun s mem => all s (List.mem_append_left _ mem)
    have new := second.complete fun s mem => all s (List.mem_append_right _ mem)
    split
    · exact .inl (new.resolve_right ‹_›)
    · exact old

/-- The merge loses no failure when the second step answered. -/
theorem ReportsExactly.merge (first : ReportsExactly status L) (second : ReportsExactly status' L')
    (answered : status' ≠ none) :
    ReportsExactly (if status' ≠ some .FLASH_COMPLETE then status' else status) (L ++ L') := by
  refine ⟨first.toReports.merge second.toReports, fun ⟨s, mem, failed⟩ => ?_⟩
  split
  · next failing =>
    obtain ⟨s', rfl⟩ := Option.ne_none_iff_exists'.1 answered
    exact ⟨s', rfl, fun h => failing (by rw [h])⟩
  · next done =>
    have done := second.all_complete (.inr (not_not.1 done))
    rcases List.mem_append.1 mem with old | new
    · exact first.lost ⟨s, old, failed⟩
    · exact absurd (done s new) failed

end Reports

section Issued

/-- From `d` the engine issued the operations that take it to `d'`, the first of them no
program call, and `P` holds of the statuses it reports among them. -/
abbrev Issued (d d' : Device) (P : List FLASH_Status → Prop) : Prop :=
  ∃ ops, d'.trace = d.trace ++ ops ∧ (∀ op ∈ ops.head?, op.isProgram = false) ∧
    P (reportedStatuses 0 ops)

variable {d d' d'' : Device} {P Q : List FLASH_Status → Prop}

theorem Issued.nil (d : Device) (h : P []) : Issued d d P :=
  ⟨[], (List.append_nil _).symm, fun _ h => (nomatch h), h⟩

theorem Issued.mono (h : Issued d d' P) (imp : ∀ L, P L → Q L) : Issued d d' Q :=
  let ⟨ops, trace, first, holds⟩ := h
  ⟨ops, trace, first, imp _ holds⟩

theorem Issued.trans (first : Issued d d' P) (second : Issued d' d'' Q) :
    Issued d d'' fun L => ∃ L₁ L₂, L = L₁ ++ L₂ ∧ P L₁ ∧ Q L₂ := by
  obtain ⟨xs, tx, hx, px⟩ := first
  obtain ⟨ys, ty, hy, py⟩ := second
  refine ⟨xs ++ ys, by rw [ty, tx, List.append_assoc], ?_, _, _,
    reportedStatuses_append 0 xs ys hy, px, py⟩
  cases xs with
  | nil => exact hy
  | cons op xs => exact hx

theorem Issued.appends (h : Issued d d' P) : d.trace <+: d'.trace :=
  let ⟨ops, trace, _⟩ := h
  ⟨ops, trace.symm⟩

/-- The statuses reported between `d` and `d'`, read off the trace. -/
theorem Issued.reported (h : Issued d d' P) : P (reportedStatuses 0 (d'.trace.drop d.trace.length)) := by
  obtain ⟨ops, trace, -, holds⟩ := h
  rwa [trace, List.drop_left]

/-- `if first = none then next else first`, the cascade of the persistence paths. -/
theorem Issued.cascade {first : Option FLASH_Status × Device}
    (direct : Issued d first.2 (ReportsExactly first.1)) {next : Option FLASH_Status × Device}
    (logged : first.1 = none → Issued first.2 next.2 (ReportsExactly next.1)) :
    Issued d (if first.1 = none then next else first).2
      (ReportsExactly (if first.1 = none then next else first).1) := by
  split
  · next none =>
    refine (direct.trans (logged none)).mono ?_
    rintro L ⟨L₁, L₂, rfl, h₁, h₂⟩
    exact h₁.append_of_ok (.inl none) h₂
  · exact direct

/-- Two reported steps merged as the word writes merge their byte steps. -/
theorem Issued.merge {s₁ s₂ : Option FLASH_Status} (first : Issued d d' (ReportsExactly s₁))
    (second : Issued d' d'' (ReportsExactly s₂)) (answered : s₂ ≠ none) :
    Issued d d'' (ReportsExactly (if s₂ ≠ some .FLASH_COMPLETE then s₂ else s₁)) :=
  (first.trans second).mono fun _ ⟨_, _, split, h₁, h₂⟩ => split ▸ h₁.merge h₂ answered

/-- The same merge when the second step may answer `0`: no status is made up. -/
theorem Issued.merge_reports {s₁ s₂ : Option FLASH_Status} (first : Issued d d' (ReportsExactly s₁))
    (second : Issued d' d'' (ReportsExactly s₂)) :
    Issued d d'' (Reports (if s₂ ≠ some .FLASH_COMPLETE then s₂ else s₁)) :=
  (first.trans second).mono fun _ ⟨_, _, split, h₁, h₂⟩ => split ▸ h₁.toReports.merge h₂.toReports

end Issued

section Calls

variable (c : Config) (buf : Memory)

theorem trace_erasePages : ∀ (n page_num : Nat) (d : Device), ∃ ops,
    (erasePages c n page_num d).trace = d.trace ++ ops ∧ ops.length = n ∧
      (∀ op ∈ ops, op.isErase = true) ∧
      (0 < n → FlashOp.erasePage (c.FEE_PAGE_BASE_ADDRESS + page_num * c.FEE_PAGE_SIZE) ∈ ops)
  | 0, _, d => ⟨[], by rw [erasePages, List.append_nil], rfl, fun _ h => (nomatch h),
      fun h => absurd h (Nat.lt_irrefl 0)⟩
  | n + 1, page_num, d => by
    obtain ⟨ops, trace, length, erases, -⟩ := trace_erasePages n (page_num + 1)
      (FLASH_ErasePage (c.FEE_PAGE_BASE_ADDRESS + page_num * c.FEE_PAGE_SIZE) d)
    refine ⟨_ :: ops, ?_, by rw [List.length_cons, length], ?_, fun _ => List.mem_cons_self _ _⟩
    · rw [erasePages, trace, FLASH_ErasePage, Device.trace_record, List.append_assoc]
      rfl
    · intro op mem
      rcases List.mem_cons.1 mem with rfl | mem
      exacts [rfl, erases op mem]

theorem trace_compactLoop : ∀ (n src dest : Nat) (final_status : FLASH_Status) (d : Device), ∃ ops,
    (compactLoop buf n src dest final_status d).2.trace = d.trace ++ ops ∧
      (∀ op ∈ ops, op.isProgram = true) ∧
      (compactLoop buf n src dest final_status d).1 = (reportedStatuses 0 ops).foldl
        (fun final s => if s ≠ .FLASH_COMPLETE then s else final) final_status
  | 0, _, _, _, d => ⟨[], by rw [compactLoop, List.append_nil], fun _ h => (nomatch h), rfl⟩
  | n + 1, src, dest, final_status, d => by
    rw [compactLoop]
    split
    · obtain ⟨ops, trace, programs, status⟩ := trace_compactLoop n (src + 2) (dest + 2) _
        (FLASH_ProgramHalfWord dest (UInt16.ofNat (0xFFFF - wordAt buf src)) d).2
      refine ⟨.programHalfWord dest (UInt16.ofNat (0xFFFF - wordAt buf src)) (d.driver d.trace.length)
        :: ops, ?_, ?_, status⟩
      · rw [trace, FLASH_ProgramHalfWord, Device.trace_record, List.append_assoc]
        rfl
      · intro op mem
        rcases List.mem_cons.1 mem with rfl | mem
        exacts [rfl, programs op mem]
    · exact trace_compactLoop n (src + 2) (dest + 2) final_status d

/-- A compaction unlocks, erases every page, programs the magic and locks, then rewrites the
image between an unlock and a lock, and answers the merge of the rewrite's statuses. -/
theorem trace_eeprom_compact (d : Device) : ∃ erases s₁ s₂ rewrites,
    (eeprom_compact c buf d).2.trace = d.trace ++ (.unlock :: erases ++
      (.programHalfWord c.FEE_WRITE_LOG_BASE_ADDRESS (UInt16.ofNat (FEE_MAGIC_DWORD &&& 0xffff)) s₁ ::
        .programHalfWord (c.FEE_WRITE_LOG_BASE_ADDRESS + 2) (UInt16.ofNat (FEE_MAGIC_DWORD >>> 16)) s₂ ::
          .lock :: .unlock :: (rewrites ++ [.lock]))) ∧
    erases.length = c.FEE_PAGE_COUNT ∧ (∀ op ∈ erases, op.isErase = true) ∧
    (0 < c.FEE_PAGE_COUNT → FlashOp.erasePage c.FEE_PAGE_BASE_ADDRESS ∈ erases) ∧
    (∀ op ∈ rewrites, op.isProgram = true) ∧
    (eeprom_compact c buf d).1 = some ((reportedStatuses 0 rewrites).foldl
      (fun final s => if s ≠ .FLASH_COMPLETE then s else final) .FLASH_COMPLETE) := by
  obtain ⟨erases, trace, length, all, first⟩ := trace_erasePages c c.FEE_PAGE_COUNT 0 (FLASH_Unlock d)
  obtain ⟨rewrites, trace', programs, status⟩ := trace_compactLoop buf (c.FEE_DENSITY_BYTES / 2) 0
    c.FEE_COMPACTED_BASE_ADDRESS .FLASH_COMPLETE (FLASH_Unlock (eeprom_clear c d))
  rw [Nat.zero_mul, Nat.add_zero] at first
  exact ⟨erases, _, _, rewrites, by
    simp only [eeprom_compact, FLASH_Lock, Device.trace_record]
    rw [trace']
    simp only [eeprom_clear, FLASH_Lock, FLASH_ProgramHalfWord, Device.trace_record]
    rw [trace]
    simp only [FLASH_Unlock, Device.trace_record, List.append_assoc, List.cons_append,
      List.singleton_append, List.nil_append]
    rfl, length, all, first, programs, by rw [← status]; rfl⟩

/-- A compaction reports exactly the statuses of its rewrite; those of the magic programs,
which follow the erases, are dropped. -/
theorem eeprom_compact_reports (d : Device) (pages : 0 < c.FEE_PAGE_COUNT) :
    Issued d (eeprom_compact c buf d).2 (ReportsExactly (eeprom_compact c buf d).1) := by
  obtain ⟨erases, s₁, s₂, rewrites, trace, length, all, -, -, status⟩ := trace_eeprom_compact c buf d
  have nonempty : erases ≠ [] := fun none => by
    rw [none, List.length_nil] at length
    omega
  refine ⟨_, trace, fun op h => by cases h; rfl, ?_⟩
  rw [status, List.cons_append, reportedStatuses_unlock, reportedStatuses_erases 0 erases nonempty all,
    reportedStatuses_program_skip, reportedStatuses_program_skip, reportedStatuses_lock,
    reportedStatuses_unlock, reportedStatuses_append 0 _ _ (fun op h => by cases h; rfl),
    reportedStatuses_lock, reportedStatuses, List.append_nil]
  simpa using ReportsExactly.complete_nil.fold (reportedStatuses 0 rewrites)

variable (d : Device)

/-- A compaction erases the region's first page. -/
theorem compact_erases (pages : 0 < c.FEE_PAGE_COUNT) :
    ∃ op ∈ (eeprom_compact c buf d).2.trace.drop d.trace.length, op.isErase = true := by
  obtain ⟨erases, _, _, _, trace, -, -, first, -⟩ := trace_eeprom_compact c buf d
  refine ⟨.erasePage c.FEE_PAGE_BASE_ADDRESS, ?_, rfl⟩
  rw [trace, List.drop_left]
  simp [first pages]

/-- A log append that finds the log full compacts, so a write that erases no page had room. -/
theorem log_byte_entry_room (Address : Nat) (pages : 0 < c.FEE_PAGE_COUNT)
    (noErase : NoErase d (eeprom_write_log_byte_entry c buf Address d).2) :
    d.empty_slot < c.FEE_WRITE_LOG_LAST_ADDRESS := by
  by_contra full
  rw [eeprom_write_log_byte_entry, if_pos (Nat.not_lt.1 full)] at noErase
  obtain ⟨op, mem, erase⟩ := compact_erases c buf d pages
  exact absurd (noErase op mem) (by rw [erase]; decide)

theorem log_word_entry_room (Address : Nat) (pages : 0 < c.FEE_PAGE_COUNT)
    (noErase : NoErase d (eeprom_write_log_word_entry c buf Address d).2) :
    ¬ d.empty_slot > c.FEE_WRITE_LOG_LAST_ADDRESS - if wordAt buf Address ≤ 1 then 2 else 4 := by
  intro full
  simp only [eeprom_write_log_word_entry, if_pos full] at noErase
  obtain ⟨op, mem, erase⟩ := compact_erases c buf d pages
  exact absurd (noErase op mem) (by rw [erase]; decide)

theorem trace_programHalfWord (addr : Nat) (value : UInt16) :
    (FLASH_ProgramHalfWord addr value d).2.trace =
      d.trace ++ [.programHalfWord addr value (FLASH_ProgramHalfWord addr value d).1] := rfl

theorem direct_entry_reports (Address : Nat) :
    Issued d (eeprom_write_direct_entry c buf Address d).2
      (ReportsExactly (eeprom_write_direct_entry c buf Address d).1) := by
  simp only [eeprom_write_direct_entry]
  split_ifs
  · exact ⟨[.read _ 2], rfl, fun op h => by cases h; rfl, .complete_nil⟩
  · exact ⟨[.read _ 2, .unlock,
      .programHalfWord _ _ _, .lock], by
      simp only [FLASH_Lock, trace_programHalfWord, FLASH_Unlock, load, Device.trace_record,
        List.append_assoc, List.cons_append, List.singleton_append, List.nil_append]
      rfl,
      fun op h => by cases h; rfl, .call _⟩
  · exact ⟨[.read _ 2], rfl, fun op h => by cases h; rfl, .none_nil⟩

theorem log_byte_entry_reports (Address : Nat) (pages : 0 < c.FEE_PAGE_COUNT) :
    Issued d (eeprom_write_log_byte_entry c buf Address d).2
      (ReportsExactly (eeprom_write_log_byte_entry c buf Address d).1) := by
  simp only [eeprom_write_log_byte_entry]
  split_ifs
  · exact eeprom_compact_reports c buf d pages
  · exact ⟨[.unlock, .programHalfWord _ _ _, .lock], by
      simp only [FLASH_Lock, trace_programHalfWord, FLASH_Unlock, Device.trace_record,
        List.append_assoc, List.cons_append, List.singleton_append, List.nil_append]
      rfl,
      fun op h => by cases h; rfl, .call _⟩

/-- The tag of a Word-Encoded entry is never the Word-Next tag. -/
theorem encoded_ne_next {v : Nat} (bit : v ≤ 1) :
    FEE_WORD_ENCODING ||| v <<< 13 ≠ FEE_WORD_ENCODING ||| FEE_VALUE_NEXT := by
  obtain rfl | rfl : v = 0 ∨ v = 1 := by omega
  all_goals decide

theorem log_word_entry_reports (Address : Nat) (pages : 0 < c.FEE_PAGE_COUNT) :
    Issued d (eeprom_write_log_word_entry c buf Address d).2
      (ReportsExactly (eeprom_write_log_word_entry c buf Address d).1) := by
  simp only [eeprom_write_log_word_entry]
  by_cases small : wordAt buf Address ≤ 1
  · simp only [if_pos small, if_neg (encoded_ne_next small)]
    by_cases room : d.empty_slot > c.FEE_WRITE_LOG_LAST_ADDRESS - 2
    · simp only [if_pos room]
      exact eeprom_compact_reports c buf d pages
    · simp only [if_neg room]
      exact ⟨[.unlock, .programHalfWord _ _ _, .lock], by
        simp only [FLASH_Lock, trace_programHalfWord, FLASH_Unlock, Device.trace_record,
          List.append_assoc, List.cons_append, List.singleton_append, List.nil_append]
        rfl, fun op h => by cases h; rfl, .call _⟩
  · simp only [if_neg small, if_true]
    by_cases room : d.empty_slot > c.FEE_WRITE_LOG_LAST_ADDRESS - 4
    · simp only [if_pos room]
      exact eeprom_compact_reports c buf d pages
    · simp only [if_neg room]
      exact ⟨[.unlock, .programHalfWord _ _ _, .programHalfWord _ _ _, .lock], by
        simp only [FLASH_Lock, trace_programHalfWord, FLASH_Unlock, Device.trace_record,
          List.append_assoc, List.cons_append, List.singleton_append, List.nil_append]
        rfl, fun op h => by cases h; rfl, (ReportsExactly.call _).step _⟩

theorem log_byte_entry_answers (Address : Nat) : (eeprom_write_log_byte_entry c buf Address d).1 ≠ none := by
  unfold eeprom_write_log_byte_entry eeprom_compact
  split <;> exact Option.some_ne_none _

theorem log_word_entry_answers (Address : Nat) : (eeprom_write_log_word_entry c buf Address d).1 ≠ none := by
  simp only [eeprom_write_log_word_entry, eeprom_compact]
  split_ifs <;> exact Option.some_ne_none _

theorem persistByte_reports (Address : Nat) (pages : 0 < c.FEE_PAGE_COUNT) :
    Issued d (persistByte c buf Address d).2 (ReportsExactly (persistByte c buf Address d).1) := by
  refine Issued.cascade (direct_entry_reports c buf d Address) fun _ => ?_
  split
  · exact log_byte_entry_reports c buf _ Address pages
  · exact log_word_entry_reports c buf _ _ pages

/-- A byte persisted past an unchanged direct word always answers. -/
theorem persistByte_answers (Address : Nat) : (persistByte c buf Address d).1 ≠ none := by
  simp only [persistByte]
  split
  · split
    · exact log_byte_entry_answers c buf _ Address
    · exact log_word_entry_answers c buf _ _
  · assumption

/-- One byte step of the even word write below `FEE_BYTE_RANGE`: a byte entry when the
byte changed, `FLASH_COMPLETE` with no call otherwise. -/
theorem byte_step_reports (changed : Prop) [Decidable changed] (Address : Nat)
    (pages : 0 < c.FEE_PAGE_COUNT) :
    Issued d (if changed then eeprom_write_log_byte_entry c buf Address d else (some .FLASH_COMPLETE, d)).2
      (ReportsExactly
        (if changed then eeprom_write_log_byte_entry c buf Address d else (some .FLASH_COMPLETE, d)).1) ∧
    (if changed then eeprom_write_log_byte_entry c buf Address d else (some .FLASH_COMPLETE, d)).1 ≠ none := by
  split
  · exact ⟨log_byte_entry_reports c buf d Address pages, log_byte_entry_answers c buf d Address⟩
  · exact ⟨Issued.nil d .complete_nil, Option.some_ne_none _⟩

theorem persistWord_reports (oldValue : Nat) (DataWord : UInt16) (Address : Nat)
    (pages : 0 < c.FEE_PAGE_COUNT) :
    Issued d (persistWord c oldValue DataWord buf Address d).2
      (ReportsExactly (persistWord c oldValue DataWord buf Address d).1) := by
  refine Issued.cascade (direct_entry_reports c buf d Address) fun _ => ?_
  split
  · exact (byte_step_reports c buf _ _ Address pages).1.merge
      (byte_step_reports c buf _ _ (Address + 1) pages).1 (byte_step_reports c buf _ _ (Address + 1) pages).2
  · exact log_word_entry_reports c buf _ _ pages

end Calls

section Writes

variable {c : Config} (m : Machine)

/-- An address inside the image means the region has a page. -/
theorem pages_of_range {Address : Nat} (range : Address < c.FEE_DENSITY_BYTES) : 0 < c.FEE_PAGE_COUNT :=
  Nat.pos_of_ne_zero fun zero => by
    have := c.density_le_max
    rw [zero, Nat.zero_mul] at this
    omega

theorem writeDataByte_reports {Address : Nat} (DataByte : UInt8) (range : Address < c.FEE_DENSITY_BYTES) :
    Issued m.dev (EEPROM_WriteDataByte c Address DataByte m).2.dev
      (ReportsExactly (EEPROM_WriteDataByte c Address DataByte m).1) := by
  by_cases same : m.DataBuf Address = DataByte
  · rw [writeDataByte_of_same range same]
    exact Issued.nil _ .none_nil
  · rw [writeDataByte_of_ne range same]
    exact persistByte_reports c _ _ Address (pages_of_range range)

/-- A byte write that changes its byte answers. -/
theorem writeDataByte_answers {Address : Nat} {DataByte : UInt8} (range : Address < c.FEE_DENSITY_BYTES)
    (changed : m.DataBuf Address ≠ DataByte) : (EEPROM_WriteDataByte c Address DataByte m).1 ≠ none := by
  rw [writeDataByte_of_ne range changed]
  exact persistByte_answers c _ _ Address

theorem writeDataWord_even_reports {Address : Nat} (DataWord : UInt16) (range : Address < c.FEE_DENSITY_BYTES)
    (even : Address % 2 = 0) :
    Issued m.dev (EEPROM_WriteDataWord c Address DataWord m).2.dev
      (ReportsExactly (EEPROM_WriteDataWord c Address DataWord m).1) := by
  by_cases same : wordAt m.DataBuf Address = DataWord.toNat
  · rw [writeDataWord_of_same range even same]
    exact Issued.nil _ .none_nil
  · rw [writeDataWord_of_ne range even same]
    exact persistWord_reports c _ _ _ _ Address (pages_of_range range)

/-- The odd-address word write is two byte writes merged: no status is made up, and none is
lost when the second byte changes. -/
theorem writeDataWord_odd_reports {Address : Nat} (DataWord : UInt16)
    (range : Address + 1 < c.FEE_DENSITY_BYTES) (odd : Address % 2 = 1) :
    Issued m.dev (EEPROM_WriteDataWord c Address DataWord m).2.dev
      (Reports (EEPROM_WriteDataWord c Address DataWord m).1) ∧
    (m.DataBuf (Address + 1) ≠ UInt8.ofNat (DataWord.toNat >>> 8) →
      Issued m.dev (EEPROM_WriteDataWord c Address DataWord m).2.dev
        (ReportsExactly (EEPROM_WriteDataWord c Address DataWord m).1)) := by
  rw [writeDataWord_of_odd DataWord m (by omega) odd]
  have low := writeDataByte_reports m (UInt8.ofNat DataWord.toNat) (show Address < c.FEE_DENSITY_BYTES by omega)
  have high := writeDataByte_reports (EEPROM_WriteDataByte c Address (UInt8.ofNat DataWord.toNat) m).2
    (UInt8.ofNat (DataWord.toNat >>> 8)) range
  refine ⟨low.merge_reports high, fun changed => low.merge high (writeDataByte_answers _ range ?_)⟩
  rwa [EEPROM_WriteDataByte_DataBuf, if_pos (by omega), Function.update_noteq (by omega)]

/-- The odd-address word write whose second byte `DataBuf` already holds is the write of its
first byte with that write's status replaced by `0`: a failure of the first byte's program is
lost, where the even-address write reports it. -/
theorem odd_word_write_drops_first_status {Address : Nat} (DataWord : UInt16)
    (range : Address + 1 < c.FEE_DENSITY_BYTES) (odd : Address % 2 = 1)
    (changed : m.DataBuf Address ≠ UInt8.ofNat DataWord.toNat)
    (kept : m.DataBuf (Address + 1) = UInt8.ofNat (DataWord.toNat >>> 8)) :
    (EEPROM_WriteDataWord c Address DataWord m).1 = none ∧
      (EEPROM_WriteDataWord c Address DataWord m).2 =
        (EEPROM_WriteDataByte c Address (UInt8.ofNat DataWord.toNat) m).2 ∧
      (EEPROM_WriteDataByte c Address (UInt8.ofNat DataWord.toNat) m).1 ≠ none := by
  have same : (EEPROM_WriteDataByte c Address (UInt8.ofNat DataWord.toNat) m).2.DataBuf (Address + 1) =
      UInt8.ofNat (DataWord.toNat >>> 8) := by
    rwa [EEPROM_WriteDataByte_DataBuf, if_pos (by omega), Function.update_noteq (by omega)]
  rw [writeDataWord_of_odd DataWord m (by omega) odd]
  dsimp only
  rw [writeDataByte_of_same range same]
  exact ⟨rfl, rfl, writeDataByte_answers m (by omega) changed⟩

/-- Status propagation of the two write functions, from any state and whatever the driver
answers. A byte write in range answers exactly for the program calls it issued: `0` or
`FLASH_COMPLETE` exactly when all of them completed, and otherwise a failing status one of them
returned. The calls leave out the two magic programs after each page erase, whose statuses
`eeprom_clear` discards. A word write in range answers only with statuses of its calls, and
answers exactly unless it is at an odd address whose second byte `DataBuf` already holds. -/
theorem write_status_reported :
    (∀ (Address : Nat) (DataByte : UInt8), Address < c.FEE_DENSITY_BYTES →
      ReportsExactly (EEPROM_WriteDataByte c Address DataByte m).1 (reportedStatuses 0
        ((EEPROM_WriteDataByte c Address DataByte m).2.dev.trace.drop m.dev.trace.length))) ∧
    (∀ (Address : Nat) (DataWord : UInt16), Address + 1 < c.FEE_DENSITY_BYTES →
      Reports (EEPROM_WriteDataWord c Address DataWord m).1 (reportedStatuses 0
        ((EEPROM_WriteDataWord c Address DataWord m).2.dev.trace.drop m.dev.trace.length)) ∧
      (¬ (Address % 2 = 1 ∧ m.DataBuf (Address + 1) = UInt8.ofNat (DataWord.toNat >>> 8)) →
        ReportsExactly (EEPROM_WriteDataWord c Address DataWord m).1 (reportedStatuses 0
          ((EEPROM_WriteDataWord c Address DataWord m).2.dev.trace.drop m.dev.trace.length)))) := by
  refine ⟨fun Address DataByte range => (writeDataByte_reports m DataByte range).reported,
    fun Address DataWord range => ?_⟩
  by_cases odd : Address % 2 = 1
  · obtain ⟨merged, exact⟩ := writeDataWord_odd_reports m DataWord range odd
    exact ⟨merged.reported, fun kept => (exact fun same => kept ⟨odd, same⟩).reported⟩
  · have exact := (writeDataWord_even_reports m DataWord
      (show Address < c.FEE_DENSITY_BYTES by omega) (by omega)).reported
    exact ⟨exact.toReports, fun _ => exact⟩

end Writes

theorem write_status_reported_erased :
    ReportsExactly (EEPROM_WriteDataByte Config.small 0 1 Machine.erased).1 (reportedStatuses 0
      ((EEPROM_WriteDataByte Config.small 0 1 Machine.erased).2.dev.trace.drop
        Machine.erased.dev.trace.length)) ∧
    ReportsExactly (EEPROM_WriteDataWord Config.small 1 0x0102 Machine.erased).1 (reportedStatuses 0
      ((EEPROM_WriteDataWord Config.small 1 0x0102 Machine.erased).2.dev.trace.drop
        Machine.erased.dev.trace.length)) :=
  ⟨(write_status_reported Machine.erased).1 0 1 (by decide),
    ((write_status_reported Machine.erased).2 1 0x0102 (by decide)).2 (by decide)⟩

/-- The erased store of `Config.small` behind a driver that fails every call. -/
def Machine.erasedFailing : Machine :=
  ⟨(EEPROM_Erase Config.small Machine.erased).DataBuf,
    { (EEPROM_Erase Config.small Machine.erased).dev with driver := fun _ => .error 1 }⟩

/-- From the erased store, with the invariant, behind a driver that fails every call: the word
write at address 1, whose second byte is already 0, issues the failing program of its first
byte and answers `0`. -/
theorem odd_word_write_drops_first_status_erasedFailing :
    Inv Config.small Machine.erasedFailing ∧
    (EEPROM_WriteDataByte Config.small 1 (UInt8.ofNat (0x0001 : UInt16).toNat) Machine.erasedFailing).1 =
      some (.error 1) ∧
    ((EEPROM_WriteDataWord Config.small 1 0x0001 Machine.erasedFailing).1 = none ∧
      (EEPROM_WriteDataWord Config.small 1 0x0001 Machine.erasedFailing).2 =
        (EEPROM_WriteDataByte Config.small 1 (UInt8.ofNat (0x0001 : UInt16).toNat) Machine.erasedFailing).2 ∧
      (EEPROM_WriteDataByte Config.small 1 (UInt8.ofNat (0x0001 : UInt16).toNat) Machine.erasedFailing).1 ≠
        none) :=
  ⟨((eeprom_clear_stored Config.small Machine.erased.dev (fun _ => rfl) (by decide)).init
      ⟨Machine.erased.DataBuf, eeprom_clear Config.small Machine.erased.dev⟩ rfl).2.driver _, by decide,
    odd_word_write_drops_first_status Machine.erasedFailing 0x0001 (by decide) rfl (by decide) (by decide)⟩

end PicoEeprom
