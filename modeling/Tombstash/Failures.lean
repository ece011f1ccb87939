import Tombstash.Invariant
import Tombstash.SSTableRead
import Tombstash.Wal

set_option autoImplicit false

namespace Tombstash

-- An operation that can fail only in the file system.
def OnlyIo {A : Type} (result : Except Error A) : Prop := ∀ e, result = .error e → ∃ what, e = .system what

theorem only_io_ok {A : Type} (value : A) : OnlyIo (.ok value : Except Error A) := nofun

theorem only_io_system {A : Type} (what : String) : OnlyIo (.error (.system what) : Except Error A) := by
  intro e same
  cases same
  exact ⟨what, rfl⟩

theorem only_io_bind {A B : Type} (first : Except Error A) (next : A → Except Error B) (one : OnlyIo first)
    (two : ∀ value, first = .ok value → OnlyIo (next value)) : OnlyIo (first >>= next) := by
  cases done : first with
  | error e =>
      rw [done] at one
      exact fun other same => one other (by simpa [bind, Except.bind] using same)
  | ok value => exact two value done

-- Both lengths fit their words in a log and in a table.
def Sized (rec : Record) : Prop := rec.key.length ≤ uint32Max ∧ rec.value.length ≤ uint32Max

theorem append_only_io (log : ValueLog) (key value : Bytes) (small : key.length ≤ uint32Max)
    (fits : value.length ≤ uint32Max) :
    OnlyIo (log.append key value) := by
  rw [ValueLog.append, if_neg (by omega)]
  simp only
  split
  · exact only_io_system _
  · exact only_io_ok _

theorem separate_record_only_io (cfg : Config) (log : ValueLog) (rec : Record) (sized : Sized rec) :
    OnlyIo (separateRecord cfg log rec) := by
  rw [separateRecord]
  split
  · exact only_io_bind _ _ (append_only_io log rec.key rec.value sized.1 sized.2) (fun _ _ => only_io_ok _)
  · exact only_io_ok _

theorem separate_all_only_io (cfg : Config) (log : ValueLog) (records : List Record)
    (sized : ∀ rec ∈ records, Sized rec) :
    OnlyIo (separateAll cfg log records) := by
  induction records generalizing log with
  | nil => exact only_io_ok _
  | cons rec rest ih =>
      obtain ⟨here, others⟩ := List.forall_mem_cons.mp sized
      rw [separateAll]
      exact only_io_bind _ _ (separate_record_only_io cfg log rec here) (fun result _ =>
        only_io_bind _ _ (ih result.1 others) (fun _ _ => only_io_ok _))

theorem build_only_io (cfg : Config) (records : List Record) (ascending : Ascending Record.key records)
    (shaped : ∀ rec ∈ records, Shaped rec) (sized : ∀ rec ∈ records, Sized rec) :
    OnlyIo (buildAndOpen cfg records) := by
  have storable : ∀ rec ∈ records, Storable rec := fun rec member =>
    ⟨(shaped rec member).op, (sized rec member).1, (sized rec member).2, (shaped rec member).separated,
      (shaped rec member).inline⟩
  rw [buildAndOpen]
  refine only_io_bind _ _ ?_ (fun bytes built => ?_)
  · obtain ⟨state, _, builds⟩ := build_total cfg.bloomSize records sized
    rw [builds]
    split
    · exact only_io_system _
    · exact only_io_ok _
  · obtain ⟨table, opened, _⟩ := open_built_table cfg.bloomSize records bytes ascending storable built
    rw [opened]
    exact only_io_ok _

theorem separation_sized (log : ValueLog) (original rec : Record) (separation : Separation log original rec)
    (sized : Sized original) :
    Sized rec := by
  rcases separation.stored with same | ⟨_, empty, _⟩
  · rw [same]
    exact sized
  · refine ⟨by rw [separation.key]; exact sized.1, ?_⟩
    rw [empty]
    exact Nat.zero_le _

-- The memtables hold writes that went through the write-ahead log.
structure LoggedWrites (table : Memtable) (writes : List Write) : Prop where
  contents : table = memOf writes
  logged : ∀ write ∈ writes, Logged (writeRecord write)

def SizedMems (db : DB) :
    Prop := (∃ writes, LoggedWrites db.memtable writes) ∧ ∃ writes, LoggedWrites db.flushingMemtable writes

theorem logged_empty : ∃ writes, LoggedWrites {} writes := ⟨[], rfl, nofun⟩

theorem snapshot_sized (table : Memtable) (writes : List Write) (fits : LoggedWrites table writes) :
    ∀ rec ∈ table.snapshot, Sized rec := by
  intro rec member
  have hit := ascending_find Record.key _ (snapshot_ascending table) rec member
  rw [fits.contents, find_snapshot] at hit
  obtain ⟨value, last, same⟩ := Option.map_eq_some_iff.mp hit
  have logged := fits.logged (rec.key, value) (latest_member writes rec.key value last)
  rw [same] at logged
  exact ⟨logged.keyFits, logged.valueFits⟩

theorem append_logged (rec : Record) (bytes : Bytes) (inline : rec.separated = false) (noPtr : rec.vptr = {})
    (done : walAppend rec = .ok bytes) : Logged rec := by
  rw [walAppend] at done
  split at done
  · cases done
  · next short => exact ⟨inline, noPtr, by omega, by omega⟩

theorem write_record_inline (write : Write) :
    (writeRecord write).separated = false ∧ (writeRecord write).vptr = {} := by
  obtain ⟨key, value⟩ := write
  cases value <;> exact ⟨rfl, rfl⟩

theorem logged_apply (table : Memtable) (write : Write) (bytes : Bytes) (fits : ∃ writes, LoggedWrites table writes)
    (done : walAppend (writeRecord write) = .ok bytes) : ∃ writes, LoggedWrites (table.apply write) writes := by
  obtain ⟨writes, rfl, logged⟩ := fits
  refine ⟨writes ++ [write], (mem_of_append writes write).symm, fun other member => ?_⟩
  rcases List.mem_append.mp member with old | new
  · exact logged other old
  · rw [List.mem_singleton.mp new]
    exact append_logged _ bytes (write_record_inline write).1 (write_record_inline write).2 done

theorem move_sized {serial : Prop} {found : Bytes} (cfg : Config) (db : DB) (i : Nat) (log : ValueLog) (kind : Kind)
    (next : DB) (ops : List DiskOp) (garbage : List Bytes) (sound : Sound serial db i log)
    (move : Move cfg found db kind next ops garbage) (sized : SizedMems db) : SizedMems next := by
  cases move with
  | wrote write bytes sync encoded => exact ⟨logged_apply db.memtable write bytes sized.1 encoded, sized.2⟩
  | sealed filled free => exact ⟨logged_empty, sized.1⟩
  | flushed k current grown recs vlogOps bytes sst filled free index object separated built =>
      exact ⟨logged_empty, sized.2⟩
  | published job sst running complete => exact ⟨sized.1, logged_empty⟩
  | picked picked job noJob picks =>
      obtain ⟨⟨seq, rfl, _⟩, _⟩ := pick_job_fresh cfg db picked job picks
      exact sized
  | merged worker job later running unmerged merges => cases worker <;> exact sized
  | mergeIo worker job op rest outputs running building => cases worker <;> exact sized
  | installed worker job outputs running complete =>
      have merge := sound.merges job (job_running db worker job running)
      obtain ⟨whole, _⟩ := built_outputs db.sstables job [] outputs merge complete
      obtain ⟨tables, eq, _⟩ := install_job_spec db job outputs whole
      rw [eq]
      cases worker <;> exact sized
  | _ => exact sized

section Sections

variable {serial : Prop} (cfg : Config) (db : DB) (i : Nat) (log : ValueLog)

theorem flush_only_io (sound : Sound serial db i log) (sized : ∃ writes, LoggedWrites db.memtable writes) :
    OnlyIo (flushLocked cfg db) := by
  obtain ⟨writes, fits⟩ := sized
  have small := snapshot_sized db.memtable writes fits
  rw [flushLocked]
  split
  · exact only_io_ok _
  · rw [(sound_index db i log sound).1, (sound_index db i log sound).2]
    refine only_io_bind _ _ (separate_all_only_io cfg log _ small) (fun result separated => ?_)
    obtain ⟨later, recs, ops⟩ := result
    obtain ⟨_, separations⟩ := separate_all_spec cfg log later _ recs ops sound.aligned separated
    refine only_io_bind _ _ (build_only_io cfg recs ?_ (fun rec member => ?_) (fun rec member => ?_))
      (fun _ _ => only_io_ok _)
    · exact separations_ascending later _ recs separations (snapshot_ascending db.memtable)
    · obtain ⟨original, inside, separation⟩ := forall_two_right _ _ recs separations rec member
      exact separation_shaped later original rec (snapshot_shaped _ original inside).1 separation
    · obtain ⟨original, inside, separation⟩ := forall_two_right _ _ recs separations rec member
      exact separation_sized later original rec separation (small original inside)

theorem open_log_only_io (name : Bytes) (gen : UInt32) (file : Bytes) : OnlyIo (openLog name gen file) := by
  rw [openLog]
  split
  · exact only_io_system _
  · exact only_io_ok _

theorem in_range_reads (sound : Sound serial db i log) (rec : Record) (inRange : InRange log rec)
    (separated : rec.separated = true) :
    ∃ value, readPtr db.logs db.vlogs rec.vptr = .ok value ∧ value.length ≤ uint32Max := by
  obtain ⟨gen, inside⟩ := inRange separated
  have small := rec.vptr.len.toNat_lt
  refine ⟨slice log.file rec.vptr.offset.toNat rec.vptr.len.toNat, ?_, ?_⟩
  · rw [readPtr, gen, sound.gen, (sound_index db i log sound).2]
    exact points_read log rec.vptr _ sound.aligned.small ⟨inside, rfl⟩
  · rw [length_slice _ _ _ inside]
    unfold uint32Max
    omega

theorem relocate_only_io (logs : List ValueLog) (vlogs : List (UInt32 × Nat)) (records : List Record)
    (sized : ∀ rec ∈ records, Sized rec) (reads : ∀ rec ∈ records, rec.separated = true →
      ∃ value, readPtr logs vlogs rec.vptr = .ok value ∧ value.length ≤ uint32Max) :
    OnlyIo (relocateAll logs vlogs log records) := by
  induction records generalizing log with
  | nil => exact only_io_ok _
  | cons rec rest ih =>
      obtain ⟨small, smaller⟩ := List.forall_mem_cons.mp sized
      obtain ⟨here, others⟩ := List.forall_mem_cons.mp reads
      rw [relocateAll]
      split
      · next separated =>
          obtain ⟨value, read, fits⟩ := here separated
          refine only_io_bind _ _ (by rw [read]; exact only_io_ok _) (fun v same => ?_)
          rw [read] at same
          cases same
          exact only_io_bind _ _ (append_only_io log rec.key value small.1 fits) (fun result _ =>
            only_io_bind _ _ (ih result.1 smaller others) (fun _ _ => only_io_ok _))
      · exact only_io_bind _ _ (ih log smaller others) (fun _ _ => only_io_ok _)

theorem collect_only_io (sound : Sound True db i log) (existing : Bytes) : OnlyIo (gcCollect cfg db existing) := by
  obtain ⟨merged, merges, ascending, origin, _⟩ := merge_tables_spec db.sstables sound.formed true
  have storable : ∀ rec ∈ merged, Storable rec := by
    intro rec member
    obtain ⟨table, present, inside⟩ := origin rec member
    exact (sound.formed table present).storable rec inside
  have sized : ∀ rec ∈ merged, Sized rec := fun rec member => ⟨(storable rec member).key, (storable rec member).value⟩
  rw [gcCollect]
  refine only_io_bind _ _ (by rw [merges]; exact only_io_ok _) (fun records same => ?_)
  rw [merges] at same
  cases same
  refine only_io_bind _ _ (open_log_only_io _ _ existing) (fun opened opens => ?_)
  obtain ⟨rfl, aligned⟩ := open_log_spec _ _ existing opened opens
  refine only_io_bind _ _ (relocate_only_io _ db.logs db.vlogs merged sized (fun rec member separated => ?_))
    (fun result moves => ?_)
  · obtain ⟨table, present, inside⟩ := origin rec member
    exact in_range_reads db i log sound rec (sound.ranges trivial table present rec inside) separated
  · obtain ⟨later, relocated, ops⟩ := result
    obtain ⟨_, relocations⟩ := relocate_all_spec db.logs db.vlogs _ later merged relocated ops aligned moves
    refine only_io_bind _ _ (build_only_io cfg relocated ?_ (fun rec member => ?_) (fun rec member => ?_))
      (fun _ _ => only_io_ok _)
    · exact relocations_ascending _ _ later merged relocated relocations ascending
    · obtain ⟨original, inside, relocation⟩ := forall_two_right _ _ relocated relocations rec member
      exact relocation_shaped _ _ later original rec (storable_shaped original (storable original inside)) relocation
    · obtain ⟨original, inside, relocation⟩ := forall_two_right _ _ relocated relocations rec member
      exact ⟨by rw [relocation.key]; exact (sized original inside).1,
        by rw [relocation.value]; exact (sized original inside).2⟩

theorem gc_only_io (sound : Sound True db i log) (sized : ∃ writes, LoggedWrites db.memtable writes)
    (free : db.hasFlushing = false) (existing : Bytes) : OnlyIo (gcValueLog cfg db existing) := by
  rw [gcValueLog]
  refine only_io_bind _ _ (flush_only_io cfg db i log sound sized) (fun result flush => ?_)
  obtain ⟨flushed, ops⟩ := result
  obtain ⟨⟨kind, plain, move⟩, _⟩ := @flush_locked_move [] cfg db flushed ops free flush
  obtain ⟨j, later, soundFlushed, _⟩ := move_sound cfg db i log kind flushed ops [] sound move
    (fun _ picks => by rcases plain with rfl | rfl <;> cases picks)
  dsimp only
  split
  · exact only_io_ok _
  · exact only_io_bind _ _ (collect_only_io cfg flushed j later soundFlushed existing) (fun _ _ => only_io_ok _)

end Sections

end Tombstash
