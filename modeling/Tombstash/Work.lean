import Tombstash.Step

set_option autoImplicit false

namespace Tombstash

-- An install changes the tables and the counter of their identities.
theorem install_job_frame (db : DB) (job : MergeJob) (outputs : List (Bytes × SSTable)) :
    ∃ tables count, installJob db job outputs = { db with sstables := tables, nextId := count } := by
  unfold installJob
  split
  · exact ⟨_, _, rfl⟩
  · split
    · exact ⟨_, _, rfl⟩
    · exact ⟨db.sstables, db.nextId, rfl⟩

-- The labels of a flush round and of a merge.
def Label.works : Label → Bool
  | .flusherSnapshot | .flusherSeparate | .flusherBuild | .flusherIo | .flusherPublish | .compactorPick
  | .compactAllPick | .mergeRun _ | .mergeReserve | .mergeIo _ | .mergeInstall _ => true
  | _ => false

def separatedDb (db : DB) (job : FlushJob) (log : ValueLog) (rest : List Record) (rec : Record) (wrote : Bool) : DB :=
  { db with
    logs := db.logs.set job.log log
    flusher := some { job with pending := rest, finished := job.finished ++ [rec], written := job.written || wrote } }

-- What each of them finds and what it leaves.
inductive Work (cfg : Config) (db : DB) : Label → Effect → Prop
  | snapshot (i : Nat) (has : db.hasFlushing = true) (noJob : db.flusher = none)
      (index : logIndex db.vlogs db.currentGen = some i) :
      Work cfg db .flusherSnapshot
        { db := { db with flusher := some ⟨db.flushingSeq, i, db.flushingMemtable.snapshot, [], false, none⟩ } }
  | separated (job : FlushJob) (rec stored : Record) (rest : List Record) (log later : ValueLog) (ops : List DiskOp)
      (running : db.flusher = some job) (unbuilt : job.built = none) (waiting : job.pending = rec :: rest)
      (object : db.logs[job.log]? = some log) (separates : separateRecord cfg log rec = .ok (later, stored, ops)) :
      Work cfg db .flusherSeparate { db := separatedDb db job later rest stored (!ops.isEmpty), ops := ops }
  | built (job : FlushJob) (log : ValueLog) (bytes : Bytes) (sst : SSTable) (running : db.flusher = some job)
      (unbuilt : job.built = none) (finished : job.pending = []) (object : db.logs[job.log]? = some log)
      (builds : buildAndOpen cfg job.finished = .ok (bytes, sst)) :
      Work cfg db .flusherBuild
        { db := { db with flusher := some { job with
            built := some ((if job.written then [FsOp.fsync log.name] else []) ++ writeTable (sstName job.seq) bytes ++
              [.fsyncDir], sst) } } }
  | flushIo (job : FlushJob) (op : DiskOp) (rest : List DiskOp) (sst : SSTable) (running : db.flusher = some job)
      (building : job.built = some (op :: rest, sst)) :
      Work cfg db .flusherIo { db := { db with flusher := some { job with built := some (rest, sst) } }, ops := [op] }
  | published (job : FlushJob) (sst : SSTable) (running : db.flusher = some job)
      (complete : job.built = some ([], sst)) :
      Work cfg db .flusherPublish
        { db := flusherPublish db job sst
          ops := writeManifestLocked (flusherPublish db job sst) ++ [.unlink flushingWalName] }
  | picked (next : DB) (job : MergeJob) (noJob : db.compactor = none) (picks : pickJob cfg db = some (next, job)) :
      Work cfg db .compactorPick { db := { next with compactor := some job } }
  | pickedAll (many : 1 < db.sstables.length) :
      Work cfg db .compactAllPick
        { db := { db with
            nextSeq := db.nextSeq + 1
            compacting := true
            callers := db.callers ++ [⟨db.sstables, true, 0, false, [db.nextSeq], none, none⟩] } }
  | merged (worker : Worker) (job next : MergeJob) (running : db.job worker = some job) (unmerged : job.groups = none)
      (merges : runMerge cfg job = .ok next) : Work cfg db (.mergeRun worker) { db := db.setJob next worker }
  | reserved (job next : MergeJob) (groups : List (List Record)) (running : db.compactor = some job)
      (grouped : job.groups = some groups) (unbuilt : job.built = none)
      (builds : startBuild cfg job (List.range' db.nextSeq groups.length) groups = .ok next) :
      Work cfg db .mergeReserve { db := { db with nextSeq := db.nextSeq + groups.length, compactor := some next } }
  | mergeIo (worker : Worker) (job : MergeJob) (op : DiskOp) (rest : List DiskOp) (outputs : List (Bytes × SSTable))
      (running : db.job worker = some job) (building : job.built = some (op :: rest, outputs)) :
      Work cfg db (.mergeIo worker) { db := db.setJob { job with built := some (rest, outputs) } worker, ops := [op] }
  | installed (worker : Worker) (job : MergeJob) (outputs : List (Bytes × SSTable)) (running : db.job worker = some job)
      (complete : job.built = some ([], outputs)) :
      Work cfg db (.mergeInstall worker) (mergeInstall db worker job outputs)

section Inversion

variable (cfg : Config) (db : DB) (effect : Effect)

theorem flush_round_work (label : Label) (job : FlushJob) (running : db.flusher = some job)
    (flusher : label = .flusherSeparate ∨ label = .flusherBuild ∨ label = .flusherIo ∨ label = .flusherPublish)
    (done : perform cfg db label = some effect) : Work cfg db label effect := by
  rcases flusher with rfl | rfl | rfl | rfl
  · simp only [perform, running, Option.isNone_iff_eq_none] at done
    split at done
    · next unbuilt =>
        unfold separateNext at done
        split at done
        · next rec rest log waiting object =>
            split at done
            · cases done
            · next later stored ops separates =>
                cases done
                exact .separated job rec stored rest log later ops running unbuilt waiting object separates
        · cases done
    · cases done
  · simp only [perform, running, Option.isNone_iff_eq_none] at done
    split at done
    · next unbuilt =>
        unfold flusherBuild at done
        split at done
        · next log finished object =>
            split at done
            · cases done
            · next bytes sst builds =>
                cases done
                exact .built job log bytes sst running unbuilt finished object builds
        · cases done
    · cases done
  · simp only [perform, running] at done
    split at done
    · next op rest sst building =>
        cases done
        exact .flushIo job op rest sst running building
    · cases done
  · simp only [perform, running] at done
    split at done
    · next sst complete =>
        cases done
        exact .published job sst running complete
    · cases done

theorem merge_work (label : Label) (worker : Worker) (job : MergeJob) (running : db.job worker = some job)
    (merge : label = .mergeRun worker ∨ label = .mergeIo worker ∨ label = .mergeInstall worker)
    (done : perform cfg db label = some effect) : Work cfg db label effect := by
  rcases merge with rfl | rfl | rfl
  · simp only [perform, running, Option.isNone_iff_eq_none] at done
    split at done
    · next unmerged =>
        split at done
        · cases done
        · next next merges =>
            cases done
            exact .merged worker job next running unmerged merges
    · cases done
  · simp only [perform, running] at done
    split at done
    · next op rest outputs building =>
        cases done
        exact .mergeIo worker job op rest outputs running building
    · cases done
  · simp only [perform, running] at done
    split at done
    · next outputs complete =>
        cases done
        exact .installed worker job outputs running complete
    · cases done

theorem perform_work (label : Label) (works : label.works = true) (done : perform cfg db label = some effect) :
    Work cfg db label effect := by
  have flushes : label = .flusherSeparate ∨ label = .flusherBuild ∨ label = .flusherIo ∨ label = .flusherPublish →
      Work cfg db label effect := by
    intro flusher
    cases running : db.flusher with
    | none => rcases flusher with rfl | rfl | rfl | rfl <;> simp [perform, running] at done
    | some job => exact flush_round_work cfg db effect label job running flusher done
  have merges : ∀ worker, label = .mergeRun worker ∨ label = .mergeIo worker ∨ label = .mergeInstall worker →
      Work cfg db label effect := by
    intro worker merge
    cases running : db.job worker with
    | none => rcases merge with rfl | rfl | rfl <;> simp [perform, running] at done
    | some job => exact merge_work cfg db effect label worker job running merge done
  cases label with
  | flusherSnapshot =>
      simp only [perform] at done
      split at done
      · next i has noJob index =>
          cases done
          exact .snapshot i has noJob index
      · cases done
  | flusherSeparate => exact flushes (.inl rfl)
  | flusherBuild => exact flushes (.inr (.inl rfl))
  | flusherIo => exact flushes (.inr (.inr (.inl rfl)))
  | flusherPublish => exact flushes (.inr (.inr (.inr rfl)))
  | compactorPick =>
      cases noJob : db.compactor with
      | some job => simp [perform, noJob] at done
      | none =>
          simp only [perform, noJob] at done
          obtain ⟨⟨next, job⟩, picks, rfl⟩ := Option.map_eq_some_iff.mp done
          exact .picked next job noJob picks
  | compactAllPick =>
      simp only [perform] at done
      split at done
      · cases done
      · next many =>
          cases done
          exact .pickedAll (Nat.lt_of_not_le many)
  | mergeRun worker => exact merges worker (.inl rfl)
  | mergeIo worker => exact merges worker (.inr (.inl rfl))
  | mergeInstall worker => exact merges worker (.inr (.inr rfl))
  | mergeReserve =>
      cases running : db.compactor with
      | none => simp [perform, running] at done
      | some job =>
          simp only [perform, running] at done
          split at done
          · next groups grouped unbuilt =>
              split at done
              · cases done
              · next next builds =>
                  cases done
                  exact .reserved job next groups running grouped unbuilt builds
          · cases done
  | _ => cases works

end Inversion

end Tombstash
