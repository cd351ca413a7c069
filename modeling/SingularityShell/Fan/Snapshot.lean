import SingularityShell.Fan.Model

/-!
# Giving a fan back to the firmware

The table of the firmware is remembered before the first curve is written, and not again. A reset
writes it back, in whichever run of the service it is asked for.

## Main definitions

* `Fan.Obeys` — a chip takes back what it has shown
* `Fan.Kept` — what holds of a channel until its table has been remembered, and from then on

## Main results

* `Fan.writeAll_files` — what a row of writes leaves
* `Fan.kept_step`, `Fan.kept_run` — one event, and all of them
* `Fan.reset_gives_back` — the channel after a reset
-/

namespace SingularityShell

namespace Fan

open Machine Transition

/-- Everything that is read and written succeeds. -/
def Moment.Succeeds {F : Type*} (m : Moment F) : Prop :=
  (∀ file value, m.accepts file value = true) ∧ ∀ file, m.answers file = true

/-- A chip takes back what it has shown, and can be put into its automatic mode. -/
structure Obeys (board : Board) (files : File → ℤ) : Prop where
  shown : ∀ file, board.keeps file (files file) = files file
  automatic : board.keeps .enable 2 = 2

/-- The mode that the firmware had, or the automatic one when that was not the firmware's. -/
def home (files : File → ℤ) : ℤ := firmwareMode (files .enable)

/-- The table that the firmware had. -/
def tableOf (n : ℕ) (files : File → ℤ) : Option (List ℤ × List ℤ) :=
  let points := List.range n
  if 0 < n then
    some (points.map fun i => files (.pointTemp (i + 1)),
      points.map fun i => files (.pointPwm (i + 1)))
  else none

def tableFiles (n : ℕ) : List File :=
  (List.range n).flatMap fun i => [.pointTemp (i + 1), .pointPwm (i + 1)]

/-- A file of a point. -/
def IsPoint (file : File) : Prop := file ≠ .enable ∧ file ≠ .pwm

/-- No table has been remembered, and none has been changed. -/
structure Untouched (board : Board) (files : File → ℤ) (s : Station) : Prop where
  firmware : s.firmware = none
  points : ∀ file, IsPoint file → s.files file = files file
  enable : s.files .enable = files .enable ∨ s.files .enable = home files
  manual : s.manual = none
  active : s.channel.active ≠ .software
  probed : s.channel.method ≠ .unsupported →
    s.channel.chipPoints = tablePoints board ∧ s.channel.firmwareEnable = home files

/-- The table of the firmware has been remembered. -/
structure Snapped (board : Board) (files : File → ℤ) (s : Station) : Prop where
  firmware : s.firmware = some ⟨home files, tableOf (tablePoints board) files⟩
  points : ∀ file, IsPoint file → file ∉ tableFiles (tablePoints board) → s.files file = files file
  probed : s.channel.method ≠ .unsupported → s.channel.chipPoints = tablePoints board

/-- What holds of a channel. -/
def Kept (board : Board) (files : File → ℤ) (s : Station) : Prop :=
  Untouched board files s ∨ Snapped board files s

variable {board : Board} {m : Moment File} {files : File → ℤ} {s s' : Station} {file : File}
  {value : ℤ} {values : List (File × ℤ)}

/-! ### Writing -/

/-- What differs is in files that a predicate tells. -/
structure OnlyFiles (P : File → Prop) (s s' : Station) : Prop where
  eq : s' = { s with files := s'.files }
  files : ∀ file, ¬P file → s'.files file = s.files file

variable {P : File → Prop}

theorem OnlyFiles.refl : OnlyFiles P s s := ⟨rfl, fun _ _ => rfl⟩

theorem OnlyFiles.trans {s'' : Station} (h : OnlyFiles P s s') (h' : OnlyFiles P s' s'') :
    OnlyFiles P s s'' :=
  ⟨by rw [h'.eq, h.eq], fun file hf => (h'.files file hf).trans (h.files file hf)⟩

theorem onlyFiles_write (hf : P file) : OnlyFiles P s (write board m s file value).1 := by
  rw [write]
  by_cases ha : m.accepts file value = true
  · rw [if_pos ha]
    refine ⟨rfl, fun other ho => Function.update_of_ne ?_ _ _⟩
    rintro rfl
    exact ho hf
  · rw [if_neg ha]
    exact .refl

theorem onlyFiles_writeAll (h : ∀ v ∈ values, P v.1) :
    OnlyFiles P s (writeAll board m s values) := by
  rw [writeAll]
  induction values generalizing s with
  | nil => exact .refl
  | cons v values ih =>
    exact (onlyFiles_write (h v List.mem_cons_self)).trans
      (ih fun w hw => h w (List.mem_cons_of_mem _ hw))

theorem onlyFiles_writeUntil (h : ∀ v ∈ values, P v.1) :
    OnlyFiles P s (writeUntil board m s values).1 := by
  induction values generalizing s with
  | nil => exact .refl
  | cons v values ih =>
    have hfirst : OnlyFiles P s (write board m s v.1 v.2).1 :=
      onlyFiles_write (h v List.mem_cons_self)
    rw [writeUntil]
    split
    · exact hfirst.trans (ih fun w hw => h w (List.mem_cons_of_mem _ hw))
    · exact hfirst

theorem write_files (hm : m.Succeeds) :
    (write board m s file value).1.files =
      Function.update s.files file (board.keeps file value) := by
  rw [write, if_pos (hm.1 _ _)]

/-- What a row of writes leaves, when the chip keeps them as they are wanted. -/
theorem writeAll_files (hm : m.Succeeds) (h : ∀ v ∈ values, board.keeps v.1 v.2 = files v.1) :
    (writeAll board m s values).files file =
      if file ∈ values.map (·.1) then files file else s.files file := by
  rw [writeAll]
  induction values generalizing s with
  | nil => rfl
  | cons v values ih =>
    rw [List.foldl_cons, ih fun w hw => h w (List.mem_cons_of_mem _ hw), write_files hm,
      h v List.mem_cons_self, List.map_cons]
    by_cases hf : file = v.1
    · subst hf
      rw [Function.update_self, ite_self, if_pos List.mem_cons_self]
    · rw [Function.update_of_ne hf]
      simp only [List.mem_cons, hf, false_or]

theorem assignments_files (temps pwms : List ℤ) :
    (assignments temps pwms).map (·.1) = tableFiles (min temps.length pwms.length) := by
  rw [assignments, tableFiles, List.map_flatMap]
  rfl

/-! ### What is done to a channel whose table is remembered -/

/-- The files that the controller writes. -/
def Touches (n : ℕ) (file : File) : Prop := file = .enable ∨ file = .pwm ∨ file ∈ tableFiles n

/-- What stays as it is, whatever is done to a channel. -/
structure Stays (n : ℕ) (s s' : Station) : Prop where
  files : ∀ file, ¬Touches n file → s'.files file = s.files file
  firmware : s'.firmware = s.firmware
  method : s'.channel.method = s.channel.method
  chipPoints : s'.channel.chipPoints = s.channel.chipPoints

variable {n : ℕ} {curve : FanCurve} {crit : ℤ}

theorem Stays.refl : Stays n s s := ⟨fun _ _ => rfl, rfl, rfl, rfl⟩

theorem Stays.trans {s'' : Station} (h : Stays n s s') (h' : Stays n s' s'') : Stays n s s'' :=
  ⟨fun file hf => (h'.files file hf).trans (h.files file hf), h'.firmware.trans h.firmware,
    h'.method.trans h.method, h'.chipPoints.trans h.chipPoints⟩

theorem OnlyFiles.stays (h : OnlyFiles (Touches n) s s') : Stays n s s' := by
  refine ⟨h.files, ?_, ?_, ?_⟩ <;> rw [h.eq]

theorem Snapped.stays (h : Snapped board files s) (hs : Stays (tablePoints board) s s') :
    Snapped board files s' := by
  refine ⟨hs.firmware.trans h.firmware, fun file hp hf => ?_, fun hm => ?_⟩
  · refine (hs.files file ?_).trans (h.points file hp hf)
    rintro (he | he | he)
    · exact hp.1 he
    · exact hp.2 he
    · exact hf he
  · rw [hs.method] at hm
    rw [hs.chipPoints, h.probed hm]

theorem stays_release : Stays n s (release board m s) := by
  have h : OnlyFiles (Touches n) s (write board m s .enable s.channel.firmwareEnable).1 :=
    onlyFiles_write (.inl rfl)
  refine ⟨h.files, ?_, rfl, rfl⟩
  rw [release, h.eq]

theorem stays_drive : Stays n s (drive board m s) := by
  rw [drive]
  split
  · exact .refl
  · next curve _ =>
    by_cases hcold : m.millidegrees ≤ 0
    · rw [if_pos hcold]
      exact stays_release
    · have h : OnlyFiles (Touches n) s (write board m s .pwm
          (toPwm (nextPercent curve m.millidegrees m.crit s.channel.lastPercent))).1 :=
        onlyFiles_write (.inr (.inl rfl))
      rw [if_neg hcold]
      dsimp only
      split
      · exact stays_release
      · refine ⟨h.files, ?_, rfl, rfl⟩
        rw [h.eq]

theorem stays_startSoftwareCurve : Stays n s (startSoftwareCurve board m s curve).1 := by
  have hrecord : Stays n s (recordManual s true) := ⟨fun _ _ => rfl, rfl, rfl, rfl⟩
  have h : OnlyFiles (Touches n) (recordManual s true)
      (write board m (recordManual s true) .enable 1).1 := onlyFiles_write (.inl rfl)
  rw [startSoftwareCurve]
  split
  · exact ⟨fun _ _ => rfl, rfl, rfl, rfl⟩
  · have hset : Stays n s { (write board m (recordManual s true) .enable 1).1 with channel :=
        { s.channel with curve := some curve, active := .software, lastPercent := 100 } } := by
      refine ⟨fun file hf => (h.files file hf).trans (hrecord.files file hf), ?_, rfl, rfl⟩
      rw [h.eq]
      rfl
    exact hset.trans stays_drive

theorem stays_tick : Stays n s (tick board m s) := by
  rw [tick]
  split
  · exact .refl
  · split
    · exact ⟨fun _ _ => rfl, rfl, rfl, rfl⟩
    · exact stays_drive

theorem stays_releaseAll : Stays n s (releaseAll board m s) := by
  rw [releaseAll]
  split
  · exact .refl
  · exact stays_release

theorem touches_assignments {temps pwms : List ℤ} (h : min temps.length pwms.length = n) {v}
    (hv : v ∈ assignments temps pwms) : Touches n v.1 := by
  refine .inr (.inr ?_)
  rw [← h, ← assignments_files]
  exact List.mem_map_of_mem hv

theorem stays_restoreTable {snapshot : Snapshot} (h : snapshot.table = tableOf n files) :
    OnlyFiles (Touches n) s (restoreTable board m s snapshot) := by
  rw [restoreTable, h, tableOf]
  by_cases hn : 0 < n
  · simp only [if_pos hn]
    exact onlyFiles_writeAll fun v hv => touches_assignments (by simp) hv
  · simp only [if_neg hn]
    exact .refl

theorem stays_restoreFirmwareSnapshot {snapshot : Snapshot} (hs : s.firmware = some snapshot)
    (h : snapshot.table = tableOf n files) : Stays n s (restoreFirmwareSnapshot board m s) := by
  have hrestored : OnlyFiles (Touches n) s (restoreTable board m s snapshot) :=
    stays_restoreTable h
  rw [restoreFirmwareSnapshot, hs]
  dsimp only
  refine Stays.trans ?_ (onlyFiles_write (.inl rfl)).stays
  refine ⟨hrestored.files, ?_, rfl, rfl⟩
  dsimp only
  rw [hrestored.eq]

theorem stays_writeHardwareCurve {snapshot : Snapshot} (hs : s.firmware = some snapshot)
    (h : snapshot.table = tableOf n files) (hpoints : s.channel.chipPoints = n) :
    Stays n s (writeHardwareCurve board m s curve crit).1 := by
  have hwritten : OnlyFiles (Touches n) s (writeUntil board m s
      (assignments (hardwareTable s.channel.chipPoints curve crit).1
        (hardwareTable s.channel.chipPoints curve crit).2 ++
          [(.enable, hardwareCurveEnable)])).1 := by
    refine onlyFiles_writeUntil fun v hv => ?_
    rcases List.mem_append.mp hv with hv | hv
    · exact touches_assignments (by simp [hardwareTable, hpoints]) hv
    · rw [List.mem_singleton.mp hv]
      exact .inl rfl
  rw [writeHardwareCurve]
  dsimp only
  split
  · refine ⟨hwritten.files, ?_, rfl, rfl⟩
    rw [hwritten.eq]
  · refine hwritten.stays.trans (stays_restoreFirmwareSnapshot ?_ h)
    rw [hwritten.eq]
    exact hs

/-! ### One thing that is done -/

theorem firmwareMode_idem (e : ℤ) : firmwareMode (firmwareMode e) = firmwareMode e := by
  rw [firmwareMode, firmwareMode]
  split_ifs <;> omega

theorem Obeys.home (h : Obeys board files) : board.keeps .enable (home files) = home files := by
  rw [Fan.home, firmwareMode]
  split
  · exact h.shown .enable
  · exact h.automatic

/-- What a chip shows is an `int`. -/
theorem Obeys.int (h : Obeys board files) (file : File) : wrap32 (files file) = files file := by
  rw [← h.shown file]
  exact board.keeps_int _ _

theorem Kept.releaseAll (h : Kept board files s) : Kept board files (releaseAll board m s) := by
  refine h.imp (fun hu => ?_) fun hs => hs.stays stays_releaseAll
  rw [Fan.releaseAll, if_pos hu.active]
  exact hu

theorem Kept.tick (h : Kept board files s) : Kept board files (tick board m s) := by
  refine h.imp (fun hu => ?_) fun hs => hs.stays stays_tick
  rw [Fan.tick, if_pos hu.active]
  exact hu

/-- The table is read while it is the one of the firmware. -/
theorem Untouched.snapshotFirmware (hm : m.Succeeds) (hobeys : Obeys board files)
    (h : Untouched board files s) (hmethod : s.channel.method ≠ .unsupported) :
    Snapped board files (snapshotFirmware m s) := by
  obtain ⟨hpoints, henable⟩ := h.probed hmethod
  have hread (i : ℕ) : readInt m s (.pointTemp i) 0 = files (.pointTemp i) ∧
      readInt m s (.pointPwm i) 255 = files (.pointPwm i) := by
    rw [readInt, readInt, if_pos (hm.2 _), if_pos (hm.2 _), h.points _ ⟨by simp, by simp⟩,
      h.points _ ⟨by simp, by simp⟩]
    exact ⟨hobeys.int _, hobeys.int _⟩
  rw [Fan.snapshotFirmware, h.firmware]
  refine ⟨?_, fun file hp _ => h.points file hp, fun _ => hpoints⟩
  simp only [hread, hpoints, henable, tableOf, List.length_map, List.length_range]

theorem snapshotFirmware_of_some {snapshot : Snapshot} (h : s.firmware = some snapshot) :
    snapshotFirmware m s = s := by
  rw [snapshotFirmware, h]

theorem method_snapshotFirmware :
    (snapshotFirmware m s).channel = s.channel := by
  rw [snapshotFirmware]
  split <;> rfl

theorem tableOf_snapshot (n : ℕ) (files : File → ℤ) :
    (⟨home files, tableOf n files⟩ : Snapshot).table = tableOf n files := rfl

theorem stays_saveCurve : Stays n s (saveCurve s) := ⟨fun _ _ => rfl, rfl, rfl, rfl⟩

theorem Snapped.putCurve (h : Snapped board files s) (hmethod : s.channel.method ≠ .unsupported) :
    Snapped board files (putCurve board m s curve crit).1 := by
  rw [Fan.putCurve]
  split
  · exact h.stays (stays_writeHardwareCurve h.firmware (tableOf_snapshot _ _) (h.probed hmethod))
  · exact h.stays stays_startSoftwareCurve

theorem Kept.apply {temps percents : List ℤ} (hm : m.Succeeds) (hobeys : Obeys board files)
    (h : Kept board files s) : Kept board files (apply board m s temps percents).1 := by
  rw [Fan.apply]
  by_cases hmethod : s.channel.method = .unsupported
  · rw [if_pos hmethod]
    exact h
  · rw [if_neg hmethod]
    split
    · exact h
    · have hsnapped : Snapped board files (snapshotFirmware m s) := by
        rcases h with hu | hs
        · exact hu.snapshotFirmware hm hobeys hmethod
        · rw [snapshotFirmware_of_some hs.firmware]
          exact hs
      have hput : Snapped board files
          (putCurve board m (snapshotFirmware m s) ⟨temps, percents⟩ m.crit).1 :=
        hsnapped.putCurve (by rwa [method_snapshotFirmware])
      dsimp only
      split
      · exact .inr (hput.stays stays_saveCurve)
      · exact .inr hput

theorem Kept.reapplySaved (hm : m.Succeeds) (hobeys : Obeys board files) (h : Kept board files s) :
    Kept board files (reapplySaved board m s) := by
  rw [Fan.reapplySaved]
  split
  · exact h
  · split
    · exact h
    · exact h.apply hm hobeys

/-! ### A reset -/

theorem restoreTable_files (hm : m.Succeeds) (hobeys : Obeys board files) :
    (restoreTable board m s ⟨home files, tableOf n files⟩).files file =
      if file ∈ tableFiles n then files file else s.files file := by
  rw [restoreTable, tableOf_snapshot, tableOf]
  by_cases hn : 0 < n
  · simp only [if_pos hn]
    have hkeeps : ∀ v ∈ assignments ((List.range n).map fun i => files (.pointTemp (i + 1)))
        ((List.range n).map fun i => files (.pointPwm (i + 1))),
        board.keeps v.1 v.2 = files v.1 := by
      intro v hv
      obtain ⟨i, hi, hv⟩ := List.mem_flatMap.mp hv
      have hi : i < n := by simpa using hi
      rcases List.mem_pair.mp hv with rfl | rfl
      · simp [List.getD, hi, hobeys.shown]
      · simp [List.getD, hi, hobeys.shown]
    rw [writeAll_files hm hkeeps, assignments_files, List.length_map, List.length_map,
      List.length_range, min_self]
  · obtain rfl : n = 0 := by omega
    rfl

/-- What a reset makes of a channel. -/
structure Returned (files : File → ℤ) (s : Station) : Prop where
  points : ∀ point, s.files (.pointTemp point) = files (.pointTemp point) ∧
    s.files (.pointPwm point) = files (.pointPwm point)
  enable : s.files .enable = home files
  curve : s.channel.curve = none
  active : s.channel.active = .firmware
  saved : s.saved = none

theorem points_of_isPoint (h : ∀ file, IsPoint file → s.files file = files file) (point : ℕ) :
    s.files (.pointTemp point) = files (.pointTemp point) ∧
      s.files (.pointPwm point) = files (.pointPwm point) :=
  ⟨h _ ⟨by simp, by simp⟩, h _ ⟨by simp, by simp⟩⟩

theorem Untouched.restore (hm : m.Succeeds) (hobeys : Obeys board files)
    (h : Untouched board files s) (hmethod : s.channel.method ≠ .unsupported) :
    restoreFirmwareSnapshot board m s =
      { s with files := Function.update s.files .enable (home files) } := by
  have hmode : firmwareMode s.channel.firmwareEnable = home files := by
    rw [(h.probed hmethod).2, home, firmwareMode_idem]
  have hrestore : restoreFirmwareSnapshot board m s = (write board m s .enable (home files)).1 := by
    rw [restoreFirmwareSnapshot, h.firmware, ← hmode]
  rw [hrestore, write, if_pos (hm.1 _ _), hobeys.home]

theorem Snapped.restore_files (hm : m.Succeeds) (hobeys : Obeys board files)
    (h : Snapped board files s) :
    (∀ file, IsPoint file → (restoreFirmwareSnapshot board m s).files file = files file) ∧
      (restoreFirmwareSnapshot board m s).files .enable = home files := by
  rw [restoreFirmwareSnapshot, h.firmware]
  dsimp only
  rw [write_files hm, home, firmwareMode_idem, ← home, hobeys.home]
  refine ⟨fun file hfile => ?_, Function.update_self ..⟩
  rw [Function.update_of_ne hfile.1, restoreTable_files hm hobeys]
  split
  · rfl
  · next hn => exact h.points file hfile hn

theorem channel_releaseAll_method :
    (releaseAll board m s).channel.method = s.channel.method :=
  (stays_releaseAll (n := 0)).method

theorem reset_spec (hm : m.Succeeds) (hobeys : Obeys board files) (h : Kept board files s)
    (hmethod : s.channel.method ≠ .unsupported) :
    (reset board m s).2 = none ∧ Returned files (reset board m s).1 ∧
      Kept board files (reset board m s).1 := by
  have hreleased : Kept board files (releaseAll board m s) := h.releaseAll
  have hmethod' : (releaseAll board m s).channel.method ≠ .unsupported := by
    rwa [channel_releaseAll_method]
  rw [reset, if_neg hmethod]
  refine ⟨rfl, ?_⟩
  rcases hreleased with hu | hs
  · dsimp only
    rw [hu.restore hm hobeys hmethod']
    have hpoints : ∀ file, IsPoint file → Function.update (releaseAll board m s).files .enable
        (home files) file = files file := fun file hfile => by
      rw [Function.update_of_ne hfile.1]
      exact hu.points file hfile
    have henable : Function.update (releaseAll board m s).files .enable (home files) .enable =
        home files := Function.update_self ..
    exact ⟨⟨points_of_isPoint (s := { s with files := _ }) hpoints, henable, rfl, rfl, rfl⟩,
      .inl ⟨hu.firmware, hpoints, .inr henable, hu.manual, by simp [saveCurve], hu.probed⟩⟩
  · obtain ⟨hpoints, henable⟩ := hs.restore_files hm hobeys
    have hstays : Snapped board files (restoreFirmwareSnapshot board m (releaseAll board m s)) :=
      hs.stays (stays_restoreFirmwareSnapshot hs.firmware (tableOf_snapshot _ _))
    exact ⟨⟨points_of_isPoint hpoints, henable, rfl, rfl, rfl⟩,
      .inr (hstays.stays ⟨fun _ _ => rfl, rfl, rfl, rfl⟩)⟩

theorem Kept.reset (hm : m.Succeeds) (hobeys : Obeys board files) (h : Kept board files s) :
    Kept board files (reset board m s).1 := by
  by_cases hmethod : s.channel.method = .unsupported
  · rw [Fan.reset, if_pos hmethod]
    exact h
  · exact (reset_spec hm hobeys h hmethod).2.2

/-! ### Every run -/

/-- What the probe of a channel changes. -/
theorem classify_cases (board : Board) (m : Moment File) (s : Station) :
    (∃ reason, classify board m s = refuse s reason) ∨
      0 ≤ readInt m s .enable (-1) ∧ ∃ channel : FanChannel,
      classify board m s = { (write board m s .enable (readInt m s .enable (-1))).1 with
        channel := channel } ∧
      channel.active = s.channel.active ∧ channel.chipPoints = tablePoints board ∧
        channel.firmwareEnable = firmwareMode (readInt m s .enable (-1)) := by
  rw [classify]
  dsimp only
  split
  · exact .inl ⟨_, rfl⟩
  · split
    · exact .inl ⟨_, rfl⟩
    · split
      · exact .inl ⟨_, rfl⟩
      · next hneg =>
        split
        · exact .inl ⟨_, rfl⟩
        · exact .inr ⟨not_lt.mp hneg, _, rfl, rfl, rfl, rfl⟩

theorem Untouched.classify (hm : m.Succeeds) (hobeys : Obeys board files)
    (h : Untouched board files s) : Untouched board files (classify board m s) := by
  obtain ⟨reason, he⟩ | ⟨_, channel, he, hactive, hpoints, hmode⟩ :=
    classify_cases board m s
  · rw [he]
    exact ⟨h.firmware, h.points, h.enable, h.manual, h.active, fun hc => absurd rfl hc⟩
  · have hread : readInt m s .enable (-1) = s.files .enable := by
      rw [readInt, if_pos (hm.2 _)]
      rcases h.enable with hs | hs
      · rw [hs, hobeys.int]
      · rw [hs, ← hobeys.home, board.keeps_int]
    have hkeeps : board.keeps .enable (s.files .enable) = s.files .enable := by
      rcases h.enable with hs | hs
      · rw [hs]
        exact hobeys.shown .enable
      · rw [hs]
        exact hobeys.home
    have hhome : firmwareMode (s.files .enable) = home files := by
      rcases h.enable with hs | hs
      · rw [hs, home]
      · rw [hs, home, firmwareMode_idem]
    have hfiles : (write board m s .enable (s.files .enable)).1 = s := by
      rw [write, if_pos (hm.1 _ _), hkeeps, Function.update_eq_self]
    rw [hread] at hmode he
    rw [hfiles] at he
    rw [he]
    exact ⟨h.firmware, h.points, h.enable, h.manual, hactive ▸ h.active,
      fun _ => ⟨hpoints, hmode.trans hhome⟩⟩

theorem Snapped.classify (h : Snapped board files s) :
    Snapped board files (classify board m s) := by
  obtain ⟨reason, he⟩ | ⟨_, channel, he, _, hpoints, _⟩ :=
    classify_cases board m s
  · rw [he]
    exact ⟨h.firmware, h.points, fun hc => absurd rfl hc⟩
  · have hwritten : OnlyFiles (Touches (tablePoints board)) s
        (write board m s .enable (readInt m s .enable (-1))).1 := onlyFiles_write (.inl rfl)
    have hsnapped := h.stays hwritten.stays
    rw [he]
    exact ⟨hsnapped.firmware, hsnapped.points, fun _ => hpoints⟩

/-- The channel as a service that starts finds it. -/
theorem Kept.forget (h : Kept board files s) :
    Kept board files { restoreFromState board m s with channel := {} } := by
  rcases h with hu | hs
  · rw [restoreFromState, hu.manual]
    exact .inl ⟨hu.firmware, hu.points, hu.enable, hu.manual, by simp, fun hc => absurd rfl hc⟩
  · have hrestored : Snapped board files (restoreFromState board m s) := by
      rw [restoreFromState]
      split
      · exact hs
      · next enable _ =>
        have hwritten : OnlyFiles (Touches (tablePoints board)) s
            (write board m s .enable (firmwareMode enable)).1 := onlyFiles_write (.inl rfl)
        exact (hs.stays hwritten.stays).stays ⟨fun _ _ => rfl, rfl, rfl, rfl⟩
    exact .inr ⟨hrestored.firmware, hrestored.points, fun hc => absurd rfl hc⟩

theorem Kept.start (hm : m.Succeeds) (hobeys : Obeys board files) (h : Kept board files s) :
    Kept board files (start board m s) := by
  refine Kept.reapplySaved hm hobeys ?_
  exact h.forget.imp (fun hu => hu.classify hm hobeys) Snapped.classify

theorem Moment.Succeeds.of {Id : Type*} {m : Moment (Id × File)} (hm : m.Succeeds) (id : Id) :
    (m.of id).Succeeds :=
  ⟨fun file value => hm.1 (id, file) value, fun file => hm.2 (id, file)⟩

variable {Id : Type*} [DecidableEq Id] {boards : Id → Board} {stations : Id → Station} {id : Id}

def Event.moment : Event Id → Moment (Id × File)
  | .start m | .apply _ _ _ m | .tick m | .reset _ m | .reapplySaved m | .releaseAll m => m

/-- One event keeps what is known of a channel. -/
theorem kept_step {e : Event Id} (he : e.moment.Succeeds) (hobeys : Obeys (boards id) files)
    (h : Kept (boards id) files (stations id)) :
    Kept (boards id) files (step boards stations e id) := by
  cases e with
  | start m => exact h.start (he.of id) hobeys
  | apply other temps percents m =>
    by_cases ho : id = other
    · subst ho
      rw [step, Function.update_self]
      exact h.apply (he.of id) hobeys
    · rw [step, Function.update_of_ne ho]
      exact h
  | tick m => exact h.tick
  | reset other m =>
    by_cases ho : id = other
    · subst ho
      rw [step, Function.update_self]
      exact h.reset (he.of id) hobeys
    · rw [step, Function.update_of_ne ho]
      exact h
  | reapplySaved m => exact h.reapplySaved (he.of id) hobeys
  | releaseAll m => exact h.releaseAll

theorem kept_run {events : List (Event Id)} (hevents : ∀ e ∈ events, e.moment.Succeeds)
    (hobeys : Obeys (boards id) files) (h : Kept (boards id) files (stations id)) :
    Kept (boards id) files (run (step boards) stations events id) := by
  induction events generalizing stations with
  | nil => exact h
  | cons e events ih =>
    exact ih (fun e' he' => hevents e' (List.mem_cons_of_mem _ he'))
      (kept_step (hevents e List.mem_cons_self) hobeys h)

/-- **A reset gives a channel back to the firmware.** The runs of the service, and what is done to
this channel and to the others in them, are any. -/
theorem reset_gives_back (events : List (Event Id)) {m : Moment (Id × File)}
    {saved : Option FanCurve}
    (hstart : stations id = { files := files, firmware := none, saved := saved, manual := none })
    (hobeys : Obeys (boards id) files) (hevents : ∀ e ∈ events, e.moment.Succeeds)
    (hm : m.Succeeds)
    (hmethod : (run (step boards) stations events id).channel.method ≠ .unsupported) :
    Returned files (run (step boards) stations (events ++ [.reset id m]) id) ∧
      ∀ m', run (step boards) stations (events ++ [.reset id m, .reapplySaved m']) id =
        run (step boards) stations (events ++ [.reset id m]) id := by
  have hinit : Kept (boards id) files (stations id) := by
    rw [hstart]
    exact .inl ⟨rfl, fun _ _ => rfl, .inl rfl, rfl, by simp, fun hc => absurd rfl hc⟩
  have hkept := kept_run hevents hobeys hinit
  have hreset := (reset_spec (hm.of id) hobeys hkept hmethod).2.1
  have hrun : run (step boards) stations (events ++ [.reset id m]) id =
      (reset (boards id) (m.of id) (run (step boards) stations events id)).1 := by
    rw [run_append, run_cons, run_nil, step, Function.update_self]
  rw [← hrun] at hreset
  refine ⟨hreset, fun m' => ?_⟩
  have hagain : run (step boards) stations (events ++ [.reset id m, .reapplySaved m']) id =
      reapplySaved (boards id) (m'.of id)
        (run (step boards) stations (events ++ [.reset id m]) id) := by
    rw [← List.singleton_append (l := [Event.reapplySaved m']), ← List.append_assoc,
      run_append _ (events ++ _)]
    rfl
  rw [hagain, reapplySaved, hreset.saved]
  exact ite_self _

/-- A chip that keeps what is written to it. -/
def nct6775 : Board where
  driver := "nct6775"
  chip := "nct6775"
  fanControl := none
  isWritable
    | .pointTemp point | .pointPwm point => point ≤ 5
    | _ => true
  keeps _ value := wrap32 value
  keeps_int _ _ := wrap32_wrap32 _

def firmwareFiles : File → ℤ
  | .enable => 5
  | .pwm => 128
  | .pointTemp point => 10000 * min point 5 + 20000
  | .pointPwm point => 40 * min point 5

theorem obeys_nct6775 : Obeys nct6775 firmwareFiles := by
  refine ⟨fun file => wrap32_eq ?_ ?_, by decide⟩
  · cases file <;> simp only [firmwareFiles] <;> omega
  · cases file <;> simp only [firmwareFiles] <;> omega

def warm : Moment (Unit × File) := ⟨100000, 60000, fun _ _ => true, fun _ => true⟩

/-- A curve is put into the chip, the service is started again, and the channel is given back. -/
theorem reset_nct6775 : Returned firmwareFiles (run (step fun _ => nct6775)
    (fun _ => { files := firmwareFiles, firmware := none, saved := none, manual := none })
    [.start warm, .apply () [40000, 55000, 70000, 85000] [20, 40, 60, 100] warm, .start warm,
      .tick warm, .reset () warm] ()) :=
  (reset_gives_back [.start warm,
      .apply () [40000, 55000, 70000, 85000] [20, 40, 60, 100] warm, .start warm, .tick warm]
    rfl obeys_nct6775 (by simp [Event.moment, Moment.Succeeds, warm])
    ⟨fun _ _ => rfl, fun _ => rfl⟩ (by decide +kernel)).1

end Fan

end SingularityShell
