import Mathlib.Data.List.Induction
import Tombstash.SSTable
import Tombstash.Base.Disk

set_option autoImplicit false

namespace Tombstash

-- One generation of the value log; file is what its descriptor reads.
structure ValueLog where
  name : Bytes
  gen : UInt32
  file : Bytes
  appendOff : UInt64
deriving DecidableEq, Repr

def vlogEntry (key value : Bytes) : Bytes := putU32Le key.length ++ key ++ putU32Le value.length ++ value

def ValueLog.opened (name : Bytes) (gen : UInt32) (file : Bytes) :
    ValueLog := ⟨name, gen, file, UInt64.ofNat file.length⟩

-- ValueLog(path, gen) on a file with the given contents. No file is longer
-- than an off_t can say.
def openLog (name : Bytes) (gen : UInt32) (file : Bytes) : Except Error ValueLog :=
  if file.length ≥ offMax then .error (.system "vlog fstat") else .ok (ValueLog.opened name gen file)

-- pwrite past the largest offset fails; there is no other failure.
def ValueLog.append (log : ValueLog) (key value : Bytes) : Except Error (ValueLog × ValuePtr) :=
  if key.length > uint32Max ∨ value.length > uint32Max then .error (.length "vlog entry field exceeds 4 GiB")
  else
    let entry := vlogEntry key value
    let recOff := log.appendOff
    if recOff.toNat + entry.length ≥ offMax then .error (.system "vlog pwrite")
    else
      .ok ({ log with file := overwrite log.file recOff.toNat entry, appendOff := recOff + UInt64.ofNat entry.length },
        ⟨log.gen, recOff + 4 + UInt64.ofNat key.length + 4, UInt32.ofNat value.length⟩)

def ValueLog.read (log : ValueLog) (ptr : ValuePtr) : Except Error Bytes :=
  preadRange "vlog pread: unexpected EOF" log.file ptr.offset.toNat ptr.len.toNat

-- The log appends at the end of its file, which stays addressable.
structure ValueLog.Aligned (log : ValueLog) : Prop where
  atEnd : log.appendOff.toNat = log.file.length
  small : log.file.length < offMax

-- The pointer's range lies inside the file and holds the value.
structure Points (log : ValueLog) (ptr : ValuePtr) (value : Bytes) : Prop where
  inside : ptr.offset.toNat + ptr.len.toNat ≤ log.file.length
  bytes : slice log.file ptr.offset.toNat ptr.len.toNat = value

-- A later state of the same log object.
structure Grows (log later : ValueLog) : Prop where
  name : later.name = log.name
  gen : later.gen = log.gen
  file : log.file <+: later.file

theorem grows_refl (log : ValueLog) : Grows log log := ⟨rfl, rfl, List.prefix_rfl⟩

theorem grows_trans (first second third : ValueLog) (one : Grows first second) (two : Grows second third) :
    Grows first third :=
  ⟨two.name.trans one.name, two.gen.trans one.gen, one.file.trans two.file⟩

theorem points_grow (log later : ValueLog) (ptr : ValuePtr) (value : Bytes) (grows : Grows log later)
    (points : Points log ptr value) : Points later ptr value := by
  obtain ⟨extra, eq⟩ := grows.file
  refine ⟨?_, ?_⟩
  · rw [← eq, List.length_append]
    exact Nat.le_trans points.inside (Nat.le_add_right _ _)
  · rw [← eq, slice_append_left _ _ _ _ points.inside]
    exact points.bytes

theorem points_read (log : ValueLog) (ptr : ValuePtr) (value : Bytes) (small : log.file.length < offMax)
    (points : Points log ptr value) : log.read ptr = .ok value := by
  have inside := points.inside
  rw [ValueLog.read, preadRange]
  by_cases empty : ptr.len.toNat = 0
  · rw [if_pos empty, ← points.bytes, empty]
    simp [slice]
  · rw [if_neg empty, if_neg (by omega), points.bytes]

theorem overwrite_end (data bytes : Bytes) : overwrite data data.length bytes = data ++ bytes := by
  simp [overwrite]

theorem length_vlog_entry (key value : Bytes) : (vlogEntry key value).length = 8 + key.length + value.length := by
  simp [vlogEntry]
  omega

theorem append_aligned (log next : ValueLog) (key value : Bytes) (ptr : ValuePtr) (aligned : log.Aligned)
    (done : log.append key value = .ok (next, ptr)) :
    next.Aligned ∧ Grows log next ∧ next.file = log.file ++ vlogEntry key value ∧ ptr.gen = log.gen ∧
      Points next ptr value := by
  have atEnd := aligned.atEnd
  rw [ValueLog.append] at done
  by_cases long : key.length > uint32Max ∨ value.length > uint32Max
  · rw [if_pos long] at done
    cases done
  rw [if_neg long] at done
  by_cases full : log.appendOff.toNat + (vlogEntry key value).length ≥ offMax
  · rw [if_pos full] at done
    cases done
  rw [if_neg full] at done
  have width := length_vlog_entry key value
  unfold offMax at full
  unfold uint32Max at long
  cases done
  have written : overwrite log.file log.appendOff.toNat (vlogEntry key value) = log.file ++ vlogEntry key value := by
    rw [atEnd, overwrite_end]
  have offset : (log.appendOff + 4 + UInt64.ofNat key.length + 4).toNat = log.file.length + (8 + key.length) := by
    simp only [UInt64.toNat_add, UInt64.toNat_ofNat']
    rw [← atEnd]
    have four : (4 : UInt64).toNat = 4 := rfl
    omega
  have len : (UInt32.ofNat value.length).toNat = value.length := by
    rw [UInt32.toNat_ofNat']
    omega
  refine ⟨⟨?_, ?_⟩, ⟨rfl, rfl, ?_⟩, written, rfl, ⟨?_, ?_⟩⟩
  · simp only [UInt64.toNat_add, UInt64.toNat_ofNat', written, List.length_append]
    omega
  · simp only [written, List.length_append]
    unfold offMax
    omega
  · simp only [written]
    exact List.prefix_append _ _
  · simp only [written, offset, len, List.length_append, width]
    omega
  · simp only [written, offset, len]
    have parts : log.file ++ vlogEntry key value =
        (log.file ++ (putU32Le key.length ++ key ++ putU32Le value.length)) ++ value ++ [] := by
      simp [vlogEntry]
    have front : (log.file ++ (putU32Le key.length ++ key ++ putU32Le value.length)).length =
        log.file.length + (8 + key.length) := by
      simp
      omega
    rw [parts, ← front]
    exact slice_append_right _ _ _ _ rfl

theorem open_log_spec (name : Bytes) (gen : UInt32) (file : Bytes) (log : ValueLog)
    (opened : openLog name gen file = .ok log) :
    log = ValueLog.opened name gen file ∧ log.Aligned := by
  rw [openLog] at opened
  by_cases large : file.length ≥ offMax
  · rw [if_pos large] at opened
    cases opened
  · rw [if_neg large] at opened
    cases opened
    have small : file.length < 2 ^ 63 := by
      unfold offMax at large
      omega
    refine ⟨rfl, ⟨?_, by unfold offMax; exact small⟩⟩
    simp only [ValueLog.opened, UInt64.toNat_ofNat']
    omega

-- The life of one value-log file: appends, appends whose pwrite_all throws after
-- cut bytes, and reopenings.
inductive VlogEvent where
  | append (key value : Bytes)
  | torn (key value : Bytes) (cut : Nat)
  | reopen

-- The log and the pointers that completed appends have returned, with what
-- was appended.
structure VlogLife where
  log : ValueLog
  given : List (ValuePtr × Bytes) := []

def tornAppend (log : ValueLog) (entry : Bytes) (torn : Nat) : ValueLog :=
  { log with file := overwrite log.file log.appendOff.toNat (entry.take torn) }

def vlogEvent (life : VlogLife) : VlogEvent → VlogLife
  | .append key value =>
      match life.log.append key value with
      | .ok (log, ptr) => ⟨log, life.given ++ [(ptr, value)]⟩
      | .error _ => life
  | .torn key value cut =>
      if key.length > uint32Max ∨ value.length > uint32Max then life
      else { life with log := tornAppend life.log (vlogEntry key value) cut }
  | .reopen => { life with log := ValueLog.opened life.log.name life.log.gen life.log.file }

def vlogLife (name : Bytes) (gen : UInt32) (file : Bytes) (events : List VlogEvent) : VlogLife :=
  events.foldl vlogEvent ⟨ValueLog.opened name gen file, []⟩

theorem vlog_life_snoc (name : Bytes) (gen : UInt32) (file : Bytes) (front : List VlogEvent) (event : VlogEvent) :
    vlogLife name gen file (front ++ [event]) = vlogEvent (vlogLife name gen file front) event := by
  rw [vlogLife, List.foldl_append]
  rfl

-- What lies before append_off_: the bytes no later append writes to.
def ValueLog.settled (log : ValueLog) : ValueLog := { log with file := log.file.take log.appendOff.toNat }

theorem overwrite_take (data bytes : Bytes) (offset : Nat) (inside : offset ≤ data.length) :
    (overwrite data offset bytes).take (offset + bytes.length) = data.take offset ++ bytes := by
  have none : List.replicate (offset - data.length) (0 : UInt8) = [] := by
    rw [show offset - data.length = 0 by omega]
    rfl
  rw [overwrite, none, List.append_nil]
  exact List.take_left' (by simp only [List.length_append, List.length_take]; omega)

theorem length_overwrite (data bytes : Bytes) (offset : Nat) (inside : offset ≤ data.length) :
    offset + bytes.length ≤ (overwrite data offset bytes).length := by
  simp only [overwrite, List.length_append, List.length_take, List.length_replicate]
  omega

theorem settled_aligned (log : ValueLog) (inside : log.appendOff.toNat ≤ log.file.length)
    (small : log.file.length < offMax) : log.settled.Aligned := by
  have length : log.settled.file.length = log.appendOff.toNat := by
    simp only [ValueLog.settled, List.length_take]
    omega
  exact ⟨length.symm, by rw [length]; omega⟩

theorem settled_grows (log : ValueLog) : Grows log.settled log := ⟨rfl, rfl, List.take_prefix _ _⟩

theorem settled_append (log next : ValueLog) (key value : Bytes) (ptr : ValuePtr)
    (inside : log.appendOff.toNat ≤ log.file.length) (done : log.append key value = .ok (next, ptr)) :
    log.settled.append key value = .ok (next.settled, ptr) ∧ next.appendOff.toNat ≤ next.file.length := by
  rw [ValueLog.append] at done
  split at done
  · cases done
  rename_i short
  dsimp only at done
  split at done
  · cases done
  rename_i fits
  cases done
  unfold offMax at fits
  have moved : (log.appendOff + UInt64.ofNat (vlogEntry key value).length).toNat =
      log.appendOff.toNat + (vlogEntry key value).length := by
    simp only [UInt64.toNat_add, UInt64.toNat_ofNat']
    omega
  have atEnd : overwrite (log.file.take log.appendOff.toNat) log.appendOff.toNat (vlogEntry key value) =
      log.file.take log.appendOff.toNat ++ vlogEntry key value := by
    have length : (log.file.take log.appendOff.toNat).length = log.appendOff.toNat := by
      rw [List.length_take]
      omega
    have written := overwrite_end (log.file.take log.appendOff.toNat) (vlogEntry key value)
    rw [length] at written
    exact written
  constructor
  · rw [ValueLog.append, if_neg short]
    simp only [ValueLog.settled, atEnd, moved, overwrite_take _ _ _ inside, offMax]
    rw [if_neg fits]
  · simp only [moved]
    exact length_overwrite _ _ _ inside

theorem settled_torn (log : ValueLog) (entry : Bytes) (cut : Nat) (inside : log.appendOff.toNat ≤ log.file.length) :
    (tornAppend log entry cut).settled = log.settled ∧
      (tornAppend log entry cut).appendOff.toNat ≤ (tornAppend log entry cut).file.length := by
  constructor
  · have written :=
      congrArg (List.take log.appendOff.toNat) (overwrite_take log.file (entry.take cut) log.appendOff.toNat inside)
    rw [List.take_take, Nat.min_eq_left (by omega), List.take_left' (by rw [List.length_take]; omega)] at written
    simp only [ValueLog.settled, tornAppend, written]
  · have long := length_overwrite log.file (entry.take cut) log.appendOff.toNat inside
    simp only [tornAppend]
    omega

-- Every pointer given out points into the settled part, in the order given.
structure VlogLife.Kept (life : VlogLife) (gen : UInt32) (file : Bytes) : Prop where
  inside : life.log.appendOff.toNat ≤ life.log.file.length
  owner : life.log.gen = gen
  first : file <+: life.log.settled.file
  points : ∀ entry ∈ life.given, entry.1.gen = gen ∧ Points life.log.settled entry.1 entry.2
  apart : life.given.Pairwise (fun a b => a.1.offset.toNat + a.1.len.toNat ≤ b.1.offset.toNat)

theorem append_past_end (log next : ValueLog) (key value : Bytes) (ptr : ValuePtr) (aligned : log.Aligned)
    (done : log.append key value = .ok (next, ptr)) : log.file.length ≤ ptr.offset.toNat := by
  have atEnd := aligned.atEnd
  rw [ValueLog.append] at done
  split at done
  · cases done
  dsimp only at done
  split at done
  · cases done
  rename_i fits
  cases done
  rw [length_vlog_entry] at fits
  unfold offMax at fits
  simp only [UInt64.toNat_add, UInt64.toNat_ofNat', UInt64.reduceToNat]
  omega

theorem kept_grows (life next : VlogLife) (gen : UInt32) (file : Bytes) (kept : life.Kept gen file)
    (grows : Grows life.log.settled next.log.settled) (inside : next.log.appendOff.toNat ≤ next.log.file.length)
    (same : next.given = life.given) : next.Kept gen file := by
  refine ⟨inside, grows.gen.trans kept.owner, kept.first.trans grows.file, ?_, by rw [same]; exact kept.apart⟩
  intro entry member
  rw [same] at member
  obtain ⟨owned, points⟩ := kept.points entry member
  exact ⟨owned, points_grow _ _ _ _ grows points⟩

theorem vlog_event_kept (life : VlogLife) (gen : UInt32) (file : Bytes) (event : VlogEvent) (kept : life.Kept gen file)
    (small : life.log.file.length < offMax) : (vlogEvent life event).Kept gen file := by
  cases event with
  | reopen =>
      have length : (UInt64.ofNat life.log.file.length).toNat = life.log.file.length := by
        rw [UInt64.toNat_ofNat']
        unfold offMax at small
        omega
      refine kept_grows life _ gen file kept ⟨rfl, rfl, ?_⟩ (le_of_eq length) rfl
      simp only [vlogEvent, ValueLog.opened, ValueLog.settled, length, List.take_length]
      exact List.take_prefix _ _
  | torn key value cut =>
      rw [vlogEvent]
      split
      · exact kept
      · obtain ⟨same, inside⟩ := settled_torn life.log (vlogEntry key value) cut kept.inside
        refine kept_grows life _ gen file kept ?_ inside rfl
        simp only [same]
        exact grows_refl _
  | append key value =>
      rw [vlogEvent]
      cases done : life.log.append key value with
      | error e => exact kept
      | ok result =>
          obtain ⟨log, ptr⟩ := result
          obtain ⟨settled, inside⟩ := settled_append life.log log key value ptr kept.inside done
          have aligned := settled_aligned life.log kept.inside small
          obtain ⟨_, grows, _, owned, points⟩ := append_aligned _ _ key value ptr aligned settled
          have past := append_past_end _ _ key value ptr aligned settled
          refine ⟨inside, grows.gen.trans kept.owner, kept.first.trans grows.file, ?_, ?_⟩
          · intro entry member
            rcases List.mem_append.mp member with earlier | last
            · obtain ⟨mine, before⟩ := kept.points entry earlier
              exact ⟨mine, points_grow _ _ _ _ grows before⟩
            · rw [List.mem_singleton.mp last]
              exact ⟨owned.trans kept.owner, points⟩
          · refine List.pairwise_append.mpr ⟨kept.apart, List.pairwise_singleton _ _, ?_⟩
            intro entry earlier other last
            rw [List.mem_singleton.mp last]
            exact le_trans (kept.points entry earlier).2.inside past

theorem vlog_life_kept (name : Bytes) (gen : UInt32) (file : Bytes) (events : List VlogEvent)
    (small : ∀ front, front <+: events → (vlogLife name gen file front).log.file.length < offMax) :
    (vlogLife name gen file events).Kept gen file := by
  induction events using List.reverseRecOn with
  | nil =>
      have bound := small [] List.prefix_rfl
      have length : (UInt64.ofNat file.length).toNat = file.length := by
        rw [UInt64.toNat_ofNat']
        have here : file.length < offMax := bound
        unfold offMax at here
        omega
      refine ⟨le_of_eq length, rfl, ?_, by simp [vlogLife], List.Pairwise.nil⟩
      simp only [vlogLife, List.foldl_nil, ValueLog.opened, ValueLog.settled, length, List.take_length]
      exact List.prefix_rfl
  | append_singleton front event ih =>
      rw [vlog_life_snoc]
      refine vlog_event_kept _ gen file event
        (ih (fun part inside => small part (inside.trans (List.prefix_append _ _)))) ?_
      exact small front (List.prefix_append _ _)

theorem given_kept (life : VlogLife) (event : VlogEvent) : life.given <+: (vlogEvent life event).given := by
  cases event with
  | append key value =>
      rw [vlogEvent]
      cases life.log.append key value with
      | error e => exact List.prefix_rfl
      | ok result => exact List.prefix_append _ _
  | torn key value cut =>
      rw [vlogEvent]
      split <;> exact List.prefix_rfl
  | reopen => exact List.prefix_rfl

theorem given_later (name : Bytes) (gen : UInt32) (file : Bytes) (front back : List VlogEvent) :
    (vlogLife name gen file front).given <+: (vlogLife name gen file (front ++ back)).given := by
  induction back using List.reverseRecOn with
  | nil => simp
  | append_singleton back event ih =>
      rw [← List.append_assoc, vlog_life_snoc]
      exact ih.trans (given_kept _ event)

-- What was given by front is still there after back.
theorem value_pointers_stay (name : Bytes) (gen : UInt32) (file : Bytes) (events : List VlogEvent)
    (small : ∀ front, front <+: events → (vlogLife name gen file front).log.file.length < offMax) :
    (∀ front back, events = front ++ back → ∀ entry ∈ (vlogLife name gen file front).given,
      entry.1.gen = gen ∧ (vlogLife name gen file events).log.read entry.1 = .ok entry.2) ∧
    (vlogLife name gen file events).given.Pairwise (fun a b => a.1.offset.toNat + a.1.len.toNat ≤ b.1.offset.toNat) ∧
    file <+: (vlogLife name gen file events).log.file := by
  have kept := vlog_life_kept name gen file events small
  refine ⟨?_, kept.apart, kept.first.trans (settled_grows _).file⟩
  rintro front back rfl entry member
  obtain ⟨owned, points⟩ := kept.points entry ((given_later name gen file front back).subset member)
  refine ⟨owned, points_read _ _ _ (small _ List.prefix_rfl) (points_grow _ _ _ _ (settled_grows _) points)⟩

-- A torn append that a whole one overwrites, and one that a reopening skips.
def tornLife :
    List VlogEvent :=
    [.torn [0x61] [7, 7, 7] 12, .append [0x61] [1], .torn [0x62] [8] 3, .reopen, .append [0x62] [2, 3]]

theorem torn_life_pointers :
    (vlogLife [] 4 [0x55] tornLife).given = [(⟨4, 10, 1⟩, [1]), (⟨4, 23, 2⟩, [2, 3])] ∧
      (vlogLife [] 4 [0x55] tornLife).log.read ⟨4, 10, 1⟩ = .ok [1] ∧
      [0x55] <+: (vlogLife [] 4 [0x55] tornLife).log.file := by
  have small : ∀ front, front <+: tornLife → (vlogLife [] 4 [0x55] front).log.file.length < offMax := by
    have cuts : ∀ n < 6, (vlogLife [] 4 [0x55] (tornLife.take n)).log.file.length < offMax := by decide +kernel
    intro front inside
    rw [List.prefix_iff_eq_take.mp inside]
    exact cuts front.length (Nat.lt_succ_of_le inside.length_le)
  obtain ⟨stay, _, before⟩ := value_pointers_stay [] 4 [0x55] tornLife small
  refine ⟨by decide +kernel, ?_, before⟩
  exact (stay (tornLife.take 2) (tornLife.drop 2) (List.take_append_drop _ _).symm (⟨4, 10, 1⟩, [1])
    (by decide +kernel)).2

end Tombstash
