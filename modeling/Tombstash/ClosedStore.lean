import Tombstash.Interleave
import Tombstash.SessionRuns

set_option autoImplicit false

namespace Tombstash

variable {serial : Prop}

-- The constructor returns before any worker has begun.
structure Unstarted (db : DB) : Prop where
  flusher : db.flusher = none
  merges : inFlight db = []
  free : db.hasFlushing = false
  flag : db.compacting = false

theorem load_manifest_unstarted (listing : List Bytes) (disk : Disk Bytes) (m : ManifestData) (db : DB)
    (ops : List DiskOp) (done : loadManifest listing disk m = .ok (db, ops)) : Unstarted db := by
  simp only [loadManifest, bind, Except.bind, pure, Except.pure] at done
  repeat' split at done
  all_goals first | cases done; done | skip
  cases done
  exact ⟨rfl, rfl, rfl, rfl⟩

theorem load_directory_unstarted (listing : List Bytes) (disk : Disk Bytes) (db : DB) (ops : List DiskOp)
    (done : loadDirectory listing disk = .ok (db, ops)) : Unstarted db := by
  simp only [loadDirectory, bind, Except.bind, pure, Except.pure] at done
  repeat' split at done
  all_goals first | cases done; done | skip
  cases done
  exact ⟨rfl, rfl, rfl, rfl⟩

theorem recovered_unstarted (cfg : Config) (loaded db : DB) (hadFlushing : Bool) (ops : List DiskOp)
    (unstarted : Unstarted loaded) (mem : Memtable)
    (done : finishRecovery cfg { loaded with memtable := mem } hadFlushing = .ok (db, ops)) :
    Unstarted db := by
  obtain ⟨flusher, merges, free, flag⟩ := unstarted
  obtain ⟨kind, front, plain, move, _⟩ :=
    finish_recovery_move cfg { loaded with memtable := mem } db hadFlushing ops free done
  rcases plain with rfl | rfl <;> cases move <;> exact ⟨flusher, merges, free, flag⟩

theorem opened_unstarted (cfg : Config) (listing : List Bytes) (disk : Disk Bytes) (db : DB) (ops : List DiskOp)
    (opened : openDB cfg listing disk = .ok (db, ops)) : Unstarted db := by
  simp only [openDB, bind, Except.bind, pure, Except.pure] at opened
  split at opened
  · cases opened
  · split at opened
    · split at opened
      · cases opened
      · rename_i loaded load
        split at opened
        · cases opened
        · rename_i result finished
          cases opened
          exact recovered_unstarted cfg loaded.1 result.1 _ result.2
            (load_manifest_unstarted listing disk _ _ _ load) _ finished
    · split at opened
      · cases opened
      · rename_i loaded load
        split at opened
        · cases opened
        · rename_i result finished
          cases opened
          exact recovered_unstarted cfg loaded.1 result.1 _ result.2
            (load_directory_unstarted listing disk _ _ load) _ finished

theorem background_event_calm (s next : Sys) (event : Event) (none : s.db.callers = [])
    (background : event ≠ .lock .compactAllPick) (stepped : s.Step event next) : EventCalm serial s event := by
  rintro _ label rfl picks
  cases stepped with
  | lock label effect free locked finds done =>
      rcases picks with rfl | rfl
      · cases compactor : s.db.compactor with
        | none => simp [inFlight, compactor, none]
        | some job => simp [step, perform, compactor] at done
      · exact absurd rfl background

theorem background_step (s next : Sys) (event : Event) (none : s.db.callers = [])
    (background : event ≠ .lock .compactAllPick) (stepped : s.Step event next) : next.db.callers = [] := by
  have idle : ∀ cfg disk, Opens cfg disk next → next.db.callers = [] := by
    intro cfg disk opens
    obtain ⟨listing, _, opened⟩ := opens.opened
    have merges := (opened_unstarted cfg listing disk next.db next.todo opened).merges
    exact (List.append_eq_nil_iff.mp merges).2
  cases stepped with
  | lock label effect free locked finds done =>
      exact step_callers s.cfg s.db label effect done (fun same => background (by rw [same])) none
  | work label effect off done =>
      refine step_callers s.cfg s.db label effect done (fun same => ?_) none
      rw [same] at off
      cases off
  | io op rest todo => exact none
  | collect name marked => exact none
  | reopen cfg next closed opens => exact idle cfg s.disk opens
  | crash cfg image next cut opens => exact idle cfg image opens

theorem background_run {P : DB → Prop} {store : ManifestData → List SSTable → Prop} (carried : Carried True P store)
    (cfg : Config) (start last : Sys) (events : List Event) (starts : start.Starts cfg)
    (background : .lock .compactAllPick ∉ events) (done : start.Run events last) :
    Running True P store last ∧ last.db.callers = [] := by
  refine sys_run_induction (fun s => Running True P store s ∧ s.db.callers = [])
    (fun _ event => event ≠ .lock .compactAllPick) ?_ start last events ?_ ?_ done
  · rintro s event next ⟨running, none⟩ allowed stepped
    exact ⟨sys_step_running carried s next event running (background_event_calm s next event none allowed stepped)
      stepped,
      background_step s next event none allowed stepped⟩
  · obtain ⟨listing, _, opened⟩ := starts.opened
    have merges := (opened_unstarted cfg listing _ start.db start.todo opened).merges
    exact ⟨start_running carried cfg start starts, (List.append_eq_nil_iff.mp merges).2⟩
  · intro before event after mid split _ same
    rw [split, same] at background
    exact background (by simp)

-- Every file of the MANIFEST is there, complete and durable.
structure StoreClosed (disk : Disk Bytes) (m : ManifestData) : Prop where
  log : ∃ file, disk (vlogName m.currentGen) = some file ∧
    ∀ entry ∈ m.tables, ∃ bytes sst, disk entry.name = some ⟨bytes, bytes.length⟩ ∧
    openTable bytes = .ok sst ∧ sst.WellFormed ∧
      ∀ rec ∈ sst.records, rec.separated = true →
        rec.vptr.gen = m.currentGen ∧ rec.vptr.offset.toNat + rec.vptr.len.toNat ≤ file.synced

-- cleanup_orphans keeps what the MANIFEST needs and, of tables and value logs,
-- nothing else.
structure Sweeps (image : Disk Bytes) (m : ManifestData) (ops : List DiskOp) : Prop where
  kept : ∀ name ∈ neededFiles m, applyAll image ops name = image name ∧ (image name).isSome = true
  only : ∀ name, (applyAll image ops name).isSome = true → name ∈ walFiles ∨ name = manifestName ∨ name ∈ neededFiles m

theorem committed_closed (disk : Disk Bytes) (m : ManifestData) (text : Bytes) (ssts : List SSTable)
    (committed : Committed True disk m text ssts) : StoreClosed disk m := by
  obtain ⟨file, present, begins, inside, _, ranges⟩ := committed.prepared.vlog
  have short : text.length ≤ file.synced := by
    have bound := begins.length_le
    rw [List.length_take] at bound
    omega
  refine ⟨file, present, fun entry member => ?_⟩
  obtain ⟨sst, there, bytes, complete, opened, formed⟩ := forall_two_left _ _ _ committed.prepared.tables entry member
  refine ⟨bytes, sst, complete, opened, formed, fun rec row separated => ?_⟩
  obtain ⟨gen, bound⟩ := ranges trivial sst there rec row separated
  exact ⟨gen, Nat.le_trans bound short⟩

theorem committed_sweeps (image : Disk Bytes) (m : ManifestData) (text : Bytes) (ssts : List SSTable)
    (listing : List Bytes) (committed : Committed serial image m text ssts)
    (names : ∀ name, (image name).isSome = true → StoreName name) (lists : Lists image listing) :
    ∃ ops, cleanupOrphans (m.tables.map ManifestEntry.name) m.currentGen listing = .ok ops ∧ Sweeps image m ops := by
  obtain ⟨ops, swept⟩ := cleanup_total (m.tables.map ManifestEntry.name) m.currentGen listing
    (fun name listed => store_name_classified name (names name ((lists.2 name).mp listed)))
  obtain ⟨needed, _⟩ := orphans_apart image m text ssts committed.prepared listing ops swept
  have spec := cleanup_spec _ _ listing ops swept
  have unlinks : ∀ op ∈ ops, ∃ name, op = .unlink name := by
    intro op member
    obtain ⟨name, _, same, _⟩ := (spec op).mp member
    exact ⟨name, same⟩
  have there : ∀ name ∈ neededFiles m, (image name).isSome = true := by
    intro name member
    rcases List.mem_cons.mp member with rfl | inTables
    · obtain ⟨file, present, _⟩ := committed.prepared.vlog
      rw [present]
      rfl
    · obtain ⟨entry, inside, rfl⟩ := List.mem_map.mp inTables
      obtain ⟨_, _, bytes, present, _⟩ := forall_two_left _ _ _ committed.prepared.tables entry inside
      rw [present]
      rfl
  refine ⟨ops, swept, fun name member =>
    ⟨apart_frame _ image ops needed _ (List.mem_cons_of_mem _ member), there name member⟩,
    fun name left => ?_⟩
  rw [apply_all_unlinks image ops unlinks name] at left
  by_cases removed : .unlink name ∈ ops
  · rw [if_pos removed] at left
    cases left
  · rw [if_neg removed] at left
    have listed := (lists.2 name).mpr left
    obtain ⟨orphan, decided, kept⟩ :=
      orphan_decided (m.tables.map ManifestEntry.name) m.currentGen name (names name left)
    cases orphan with
    | true => exact absurd ((spec _).mpr ⟨name, listed, rfl, decided⟩) removed
    | false =>
        rcases kept rfl with wal | manifest | live | log
        · exact .inl wal
        · exact .inr (.inl manifest)
        · exact .inr (.inr (List.mem_cons_of_mem _ live))
        · exact .inr (.inr (log ▸ List.mem_cons_self))

-- At every file-system step the committed MANIFEST is closed, and after a crash
-- there cleanup_orphans leaves its files.
theorem committed_manifest_closed (cfg : Config) (start last : Sys) (events : List Event) (starts : start.Starts cfg)
    (background : .lock .compactAllPick ∉ events) (done : start.Run events last) (file : File)
    (present : last.disk manifestName = some file) :
    ∃ m, manifestRead (some file.data) = .ok (some m) ∧ StoreClosed last.disk m ∧
      ∀ image listing, CrashImage last.disk image → Lists image listing →
        ∃ ops, cleanupOrphans (m.tables.map ManifestEntry.name) m.currentGen listing = .ok ops ∧
        Sweeps image m ops := by
  have inv := (background_run carried_nothing cfg start last events starts background done).1.inv
  rcases inv.guarded [] List.nil_prefix with ⟨blank, _⟩ | ⟨m, text, ssts, committed, _⟩
  · exact absurd (blank.few manifestName (by rw [apply_all_nil, present]; rfl)) (by decide)
  · rw [apply_all_nil] at committed
    have same := committed.manifest
    rw [present] at same
    cases same
    refine ⟨m, manifest_round_trip m committed.prepared.fits, committed_closed last.disk m text ssts committed, ?_⟩
    intro image listing cut lists
    obtain ⟨_, names, _⟩ := crash_openable _ True last image inv cut
    exact committed_sweeps image m text ssts listing
      (committed_crash last.disk image m text ssts cut committed) names lists

-- The constructor, one separated value and flush() up to the commit.
def flushedValue : List Event := List.replicate 7 .io ++ whole (.put [1] [2, 3] false) 1 ++ whole .flush 12

theorem flushed_value_closed :
    ∃ last file m, (Sys.fresh (smallStore 1000 1)).execAll flushedValue = some last ∧
    last.disk manifestName = some file ∧
      manifestRead (some file.data) = .ok (some m) ∧ StoreClosed last.disk m := by
  obtain ⟨last, done⟩ := Option.isSome_iff_exists.mp
    (by decide +kernel : ((Sys.fresh (smallStore 1000 1)).execAll flushedValue).isSome = true)
  have there :
    (((Sys.fresh (smallStore 1000 1)).execAll flushedValue).bind (fun s => s.disk manifestName)).isSome = true := by
    decide +kernel
  rw [done, Option.bind_some] at there
  obtain ⟨file, present⟩ := Option.isSome_iff_exists.mp there
  obtain ⟨m, read, closed, _⟩ := committed_manifest_closed (smallStore 1000 1) _ last flushedValue
    (fresh_starts _) (by simp [flushedValue, whole]) (exec_all_run _ last flushedValue done) file present
  exact ⟨last, file, m, done, present, read, closed⟩

end Tombstash
